/-
  AuthzAgent.Condition.Access

  The atom `subject allowed 'O' on resource`, and the one with `denied`.  Its
  text, with the operation quoted, is read back as the node of the operator
  `has_access`, whatever the operation is.
-/

import AuthzAgent.Condition.Parser

namespace AuthzAgent

open GoText

/-! ## Tokens -/

/-- A character that `scanWord` takes outside of quotes and brackets. -/
def isWordChar (c : Char) : Bool := !isWhitespace c && !(c ∈ ['\'', '"', '[', ']', '(', ')', ','])

theorem isWordChar_iff {c : Char} : isWordChar c = true ↔ isWhitespace c = false ∧ c ≠ '\'' ∧
    c ≠ '"' ∧ c ≠ '[' ∧ c ≠ ']' ∧ c ≠ '(' ∧ c ≠ ')' ∧ c ≠ ',' := by
  simp [isWordChar]

theorem scanWord_word (P : Platform) (w acc rest : List Char) (hw : w.all isWordChar = true)
    (hrest : rest = [] ∨ ∃ tail, rest = ' ' :: tail) :
    scanWord P acc 0 0 none (w ++ rest) = (acc.reverse ++ w, rest) := by
  induction w generalizing acc with
  | nil =>
    rcases hrest with rfl | ⟨tail, rfl⟩
    · simp [scanWord]
    · simp [scanWord, isWhitespace]
  | cons c w ih =>
    rw [List.all_cons, Bool.and_eq_true] at hw
    obtain ⟨hc, hw⟩ := hw
    obtain ⟨hspace, hquote, hdouble, hopen, hclose, hlparen, hrparen, hcomma⟩ :=
      isWordChar_iff.mp hc
    simp only [List.cons_append, scanWord, hspace, hquote, hdouble, hopen, hclose, hlparen,
      hrparen, hcomma, or_self, if_false, false_and, and_false, Bool.false_eq_true, ih _ hw]
    simp

/-- A word that the tokenizer takes for one. -/
def isWord (w : List Char) : Bool :=
  w.all isWordChar && match w with
    | c :: _ => c != '/' && c != '-' && !c.isDigit
    | [] => false

/-- `policyir.Access` -/
structure Access where
  denied : Bool
  operation : String

namespace Access

/-- The word of the atom. -/
def mode (a : Access) : String := if a.denied then "denied" else "allowed"

/-- What the parser makes of the atom. -/
def node (a : Access) : Node := hasAccessNode a.mode a.operation

/-- The text of a quoted literal: a backslash before each quote and
    backslash. -/
def escape : List Char → List Char
  | [] => []
  | c :: cs => if c = '\'' ∨ c = '\\' then '\\' :: c :: escape cs else c :: escape cs

/-- The atom as it stands in a condition. -/
def text (a : Access) : String :=
  String.ofList ("subject".toList ++ ' ' :: (a.mode.toList ++ ' ' :: '\'' ::
    (escape a.operation.toList ++ '\'' :: ' ' :: ("on".toList ++ ' ' :: "resource".toList))))

end Access

end AuthzAgent
