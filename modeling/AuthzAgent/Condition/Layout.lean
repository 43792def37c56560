/-
  AuthzAgent.Condition.Layout

  Texts that the tokenizer reads as given tokens.  `Scans P spelling t rest`
  says that `spelling` is the token `t` when `rest` stands behind it: a word, a
  number and a regex end where their scanner stops, the other tokens end by
  themselves.  A text lays out a list of tokens if it is their spellings in
  order, with any blanks before and behind each (`Laid`), and the tokenizer
  returns the tokens of every such text (`tokenize_laid`).
-/

import AuthzAgent.Condition.Access
import AuthzAgent.Condition.Renders

namespace AuthzAgent

open GoText

/-! ## Spellings -/

/-- The first character leaves the cases of `tokenize` before the last. -/
def startsWord : List Char → Bool
  | c :: cs => !isWhitespace c && !(c ∈ ['(', ')', ',', '\'', '/']) && !isNumericStart (c :: cs)
  | [] => false

/-- The text of a word token: in front of a blank the scanner takes all of it.
    Quotes, brackets and the argument lists of an entitlements operand are
    closed in it. -/
structure IsWordText (P : Platform) (w : List Char) : Prop where
  starts : startsWord w = true
  whole : scanWord P [] 0 0 none (w ++ [' ']) = (w, [' '])

def EndsWord (P : Platform) (w rest : List Char) : Prop :=
  ∀ c ∈ rest.head?, isDelimiter c = true ∨
    c = '(' ∧ isEntitlementMethodCallContinuation P w = false

/-- The token that `spelling` is in front of `rest`. -/
inductive Scans (P : Platform) : List Char → Token → List Char → Prop
  | lparen (rest : List Char) : Scans P ['('] ⟨.lparen, "("⟩ rest
  | rparen (rest : List Char) : Scans P [')'] ⟨.rparen, ")"⟩ rest
  | comma (rest : List Char) : Scans P [','] ⟨.comma, ","⟩ rest
  | string {body value : List Char} (h : Quoted body value) (rest : List Char) :
      Scans P ('\'' :: (body ++ ['\''])) ⟨.string, String.ofList value⟩ rest
  | regex {cs rest : List Char} (hcs : ∀ c ∈ cs, isDelimiter c = false)
      (hrest : ∀ c ∈ rest.head?, isDelimiter c = true) :
      Scans P ('/' :: cs) ⟨.regex, String.ofList ('/' :: cs)⟩ rest
  | number {cs rest : List Char} (hcs : isNumeral cs = true)
      (hrest : ∀ c ∈ rest.head?, isNumeralChar c = false) :
      Scans P cs ⟨.number, String.ofList cs⟩ rest
  | word {w rest : List Char} (hw : IsWordText P w) (hrest : EndsWord P w rest) :
      Scans P w ⟨.word, String.ofList w⟩ rest

inductive Laid (P : Platform) : List Token → List Char → Prop
  | nil : Laid P [] []
  | blank {c : Char} {ts : List Token} {cs : List Char} (hc : isWhitespace c = true)
      (h : Laid P ts cs) : Laid P ts (c :: cs)
  | token {spelling rest : List Char} {t : Token} {ts : List Token} (ht : Scans P spelling t rest)
      (h : Laid P ts rest) : Laid P (t :: ts) (spelling ++ rest)

/-! ## Scanners -/

/-- The literal of a text is read back as the text. -/
theorem scanQuoted_quoted {body value : List Char} (h : Quoted body value) (rest : List Char) :
    scanQuoted (body ++ '\'' :: rest) = some (value, rest) := by
  induction h with
  | nil => rfl
  | @plain c body value hquote hslash _ ih =>
    rw [List.cons_append, scanQuoted, ih]
    · rfl
    · intro d tail hd
      exact absurd hd hslash
    · intro hc
      exact hquote hc
  | escaped _ ih =>
    rw [List.cons_append, List.cons_append, scanQuoted, ih]
    rfl

/-- A run of characters up to one that stops it. -/
theorem span_append {p : Char → Bool} {cs rest : List Char} (hcs : ∀ c ∈ cs, p c = true)
    (hrest : ∀ c ∈ rest.head?, p c = false) : (cs ++ rest).span p = (cs, rest) := by
  have hstop : rest.takeWhile p = [] ∧ rest.dropWhile p = rest := by
    cases rest with
    | nil => exact ⟨rfl, rfl⟩
    | cons c rest =>
      have hc := hrest c rfl
      exact ⟨List.takeWhile_cons_of_neg (by simp [hc]), List.dropWhile_cons_of_neg (by simp [hc])⟩
  rw [List.span_eq_takeWhile_dropWhile, List.takeWhile_append_of_pos hcs,
    List.dropWhile_append_of_pos hcs, hstop.1, hstop.2, List.append_nil]

theorem scanUntilDelimiter_regex {cs rest : List Char} (hcs : ∀ c ∈ cs, isDelimiter c = false)
    (hrest : ∀ c ∈ rest.head?, isDelimiter c = true) :
    scanUntilDelimiter ('/' :: (cs ++ rest)) = ('/' :: cs, rest) := by
  rw [scanUntilDelimiter, ← List.cons_append]
  refine span_append (fun c hc => ?_) fun c hc => ?_
  · rcases List.mem_cons.mp hc with rfl | hc
    · rfl
    · show (!isDelimiter c) = true
      rw [hcs c hc]
      rfl
  · show (!isDelimiter c) = false
    rw [hrest c hc]
    rfl

theorem scanNumber_numeral {cs rest : List Char} (hcs : isNumeral cs = true)
    (hrest : ∀ c ∈ rest.head?, isNumeralChar c = false) :
    isNumericStart (cs ++ rest) = true ∧ scanNumber (cs ++ rest) = (cs, rest) := by
  have hall : ∀ {c : Char} {cs : List Char}, (c.isDigit && cs.all isNumeralChar) = true →
      c.isDigit = true ∧ ((c :: cs) ++ rest).span isNumeralChar = (c :: cs, rest) := by
    intro c cs h
    obtain ⟨hc, hcs⟩ := (Bool.and_eq_true _ _).mp h
    refine ⟨hc, span_append (fun d hd => ?_) hrest⟩
    rcases List.mem_cons.mp hd with rfl | hd
    · rw [isNumeralChar, hc]
      rfl
    · exact List.all_eq_true.mp hcs d hd
  fun_cases isNumeral cs with
  | case1 c cs =>
    obtain ⟨hc, hspan⟩ := hall hcs
    refine ⟨hc, ?_⟩
    show ('-' :: (List.span isNumeralChar (c :: cs ++ rest)).1,
      (List.span isNumeralChar (c :: cs ++ rest)).2) = _
    rw [hspan]
  | case2 c cs hminus =>
    rw [isNumeral] at hcs
    · obtain ⟨hc, hspan⟩ := hall hcs
      have hne : c ≠ '-' := by
        rintro rfl
        cases hc
      rw [List.cons_append] at hspan ⊢
      rw [isNumericStart, scanNumber]
      · exact ⟨hc, hspan⟩
      · exact fun _ h => absurd (List.cons.inj h).1 hne
      · exact fun _ _ h => absurd h hne
    · exact hminus
  | case3 => cases hcs

/-! ## Words -/

/-- At the end of a word the scanner is outside of quotes and brackets. -/
theorem scanWord_blank {P : Platform} {acc : List Char} {b p : Nat} {q : Option Char}
    (h : scanWord P acc b p q [' '] = (acc.reverse, [' '])) : b = 0 ∧ p = 0 ∧ q = none := by
  cases q with
  | some q =>
    simp [scanWord] at h
  | none =>
    by_cases hdepth : b = 0 ∧ p = 0
    · exact ⟨hdepth.1, hdepth.2, rfl⟩
    · have hgo : ¬ (b = 0 ∧ p = 0 ∧ isWhitespace ' ' = true) := fun hc => hdepth ⟨hc.1, hc.2.1⟩
      simp [scanWord, hgo] at h

/-- Outside of quotes and brackets the scanner stops in front of `rest`. -/
theorem scanWord_ends {P : Platform} {acc rest : List Char} (h : EndsWord P acc.reverse rest) :
    scanWord P acc 0 0 none rest = (acc.reverse, rest) := by
  cases rest with
  | nil => simp [scanWord]
  | cons c rest =>
    rcases h c rfl with hc | ⟨rfl, hcall⟩
    · rw [isDelimiter, Bool.or_eq_true, Bool.or_eq_true, beq_iff_eq, beq_iff_eq] at hc
      rcases hc with (hc | rfl) | rfl
      · have hplain : c ≠ '\'' ∧ c ≠ '"' ∧ c ≠ '[' ∧ c ≠ ']' ∧ c ≠ '(' := by
          refine ⟨?_, ?_, ?_, ?_, ?_⟩ <;> rintro rfl <;> cases hc
        obtain ⟨hquote, hdouble, hopen, hclose, hparen⟩ := hplain
        simp [scanWord, hquote, hdouble, hopen, hclose, hparen, hc]
      · simp [scanWord]
      · simp [scanWord]
    · simp [scanWord, hcall]

/-- What the scanner takes in front of a blank it takes in front of any text
    that ends the word. -/
theorem scanWord_of_blank {P : Platform} {rest : List Char} (w acc : List Char) (b p : Nat)
    (q : Option Char) (hend : EndsWord P (acc.reverse ++ w) rest)
    (h : scanWord P acc b p q (w ++ [' ']) = (acc.reverse ++ w, [' '])) :
    scanWord P acc b p q (w ++ rest) = (acc.reverse ++ w, rest) := by
  induction hn : w.length using Nat.strong_induction_on generalizing w acc b p q with
  | _ n ih =>
    cases w with
    | nil =>
      rw [List.append_nil] at hend h ⊢
      obtain ⟨rfl, rfl, rfl⟩ := scanWord_blank h
      exact scanWord_ends hend
    | cons c w =>
      -- both texts take the same branch on `c`
      have hgo : ∀ (b p : Nat) (q : Option Char),
          scanWord P (c :: acc) b p q (w ++ [' ']) = (acc.reverse ++ c :: w, [' ']) →
          scanWord P (c :: acc) b p q (w ++ rest) = (acc.reverse ++ c :: w, rest) := by
        intro b p q hscan
        have hacc : acc.reverse ++ c :: w = (c :: acc).reverse ++ w := by simp
        rw [hacc] at hend hscan ⊢
        exact ih w.length (by rw [← hn]; simp) w _ b p q hend hscan rfl
      have hstop : ∀ {cs : List Char}, (acc.reverse, cs) ≠ (acc.reverse ++ c :: w, [' ']) := by
        intro cs heq
        simpa using (Prod.mk.inj heq).1
      cases q with
      | none =>
        rw [List.cons_append, scanWord] at h ⊢
        split_ifs at h ⊢
        · exact hgo _ _ _ h
        · exact hgo _ _ _ h
        · exact hgo _ _ _ h
        · exact absurd h hstop
        · exact hgo _ _ _ h
        · exact hgo _ _ _ h
        · exact absurd h hstop
        · exact absurd h hstop
        · exact absurd h hstop
        · exact hgo _ _ _ h
      | some q =>
        by_cases hc : c = '\\'
        · subst hc
          cases w with
          | nil => simp [scanWord] at h
          | cons d w =>
            rw [List.cons_append, List.cons_append, scanWord] at h ⊢
            have hacc : acc.reverse ++ '\\' :: d :: w =
                (d :: '\\' :: acc).reverse ++ w := by simp
            rw [hacc] at hend h ⊢
            have hless : w.length < n := by
              rw [← hn, List.length_cons, List.length_cons]
              omega
            exact ih w.length hless w _ b p (some q) hend h rfl
        · rw [List.cons_append, scanWord] at h ⊢
          · exact hgo _ _ _ h
          · intro d tail heq
            exact absurd heq hc
          · intro d tail heq
            exact absurd heq hc

theorem isWordText_of_isWord (P : Platform) {w : List Char} (hw : isWord w = true) :
    IsWordText P w := by
  obtain ⟨hall, hfirst⟩ := (Bool.and_eq_true _ _).mp hw
  refine ⟨?_, ?_⟩
  · cases w with
    | nil => cases hfirst
    | cons c w =>
      simp only [Bool.and_eq_true, bne_iff_ne, Bool.not_eq_true'] at hfirst
      obtain ⟨⟨hslash, hminus⟩, hdigit⟩ := hfirst
      obtain ⟨hspace, hquote, -, -, -, hopen, hclose, hcomma⟩ :=
        isWordChar_iff.mp (List.all_eq_true.mp hall c List.mem_cons_self)
      have hnum : isNumericStart (c :: w) = false := by
        rw [isNumericStart]
        · exact hdigit
        · exact fun _ _ heq => absurd heq hminus
      simp [startsWord, hspace, hquote, hopen, hclose, hcomma, hslash, hnum]
  · exact scanWord_word P w [] [' '] hall (.inr ⟨[], rfl⟩)

/-! ## The loop -/

/-- A number starts neither a blank nor another token. -/
theorem numeral_head {c : Char} {cs : List Char} (h : isNumeral (c :: cs) = true) :
    isWhitespace c = false ∧ c ≠ '(' ∧ c ≠ ')' ∧ c ≠ ',' ∧ c ≠ '\'' ∧ c ≠ '/' := by
  have hc : c = '-' ∨ c.isDigit = true := by
    by_cases hminus : c = '-'
    · exact .inl hminus
    · rw [isNumeral] at h
      · exact .inr ((Bool.and_eq_true _ _).mp h).1
      · exact fun _ _ heq => absurd heq hminus
  rcases hc with rfl | hc
  · decide
  · have hspace : isWhitespace c = false := by
      rw [isWhitespace]
      refine Bool.eq_false_iff.mpr fun hblank => ?_
      simp only [Bool.or_eq_true, beq_iff_eq] at hblank
      rcases hblank with ((rfl | rfl) | rfl) | rfl <;> cases hc
    refine ⟨hspace, ?_, ?_, ?_, ?_, ?_⟩ <;> rintro rfl <;> cases hc

theorem isNumericStart_word {P : Platform} {c : Char} {cs rest : List Char}
    (hnum : isNumericStart (c :: cs) = false) (hrest : EndsWord P (c :: cs) rest) :
    isNumericStart (c :: cs ++ rest) = false := by
  rw [List.cons_append]
  by_cases hminus : c = '-'
  · subst hminus
    cases cs with
    | cons d cs => exact hnum
    | nil =>
      cases rest with
      | nil => exact hnum
      | cons d rest =>
        show d.isDigit = false
        rcases hrest d rfl with hd | ⟨rfl, -⟩
        · simp only [isDelimiter, isWhitespace, Bool.or_eq_true, beq_iff_eq] at hd
          rcases hd with ((((rfl | rfl) | rfl) | rfl) | rfl) | rfl <;> rfl
        · rfl
  · rw [isNumericStart] at hnum ⊢
    · exact hnum
    · exact fun _ _ heq => absurd heq hminus
    · exact fun _ _ heq => absurd heq hminus

/-- One round of the loop reads one token. -/
theorem tokenizeLoop_scans {P : Platform} {spelling rest : List Char} {t : Token}
    (h : Scans P spelling t rest) (n : Nat) :
    tokenizeLoop P (n + 1) (spelling ++ rest) = (tokenizeLoop P n rest).map (t :: ·) := by
  cases h with
  | lparen => rfl
  | rparen => rfl
  | comma => rfl
  | string hbody =>
    rw [List.cons_append, List.append_assoc, List.singleton_append]
    simp [tokenizeLoop, isWhitespace, scanQuoted_quoted hbody]
  | regex hcs hrest =>
    rw [List.cons_append]
    simp [tokenizeLoop, isWhitespace, scanUntilDelimiter_regex hcs hrest]
  | number hcs hrest =>
    obtain ⟨hstart, hscan⟩ := scanNumber_numeral hcs hrest
    cases spelling with
    | nil => cases hcs
    | cons c cs =>
      obtain ⟨hspace, hopen, hclose, hcomma, hquote, hslash⟩ := numeral_head hcs
      rw [List.cons_append] at hstart hscan ⊢
      rw [tokenizeLoop, if_neg (ne_true_of_eq_false hspace), if_neg hopen, if_neg hclose,
        if_neg hcomma, if_neg hquote, if_neg hslash, if_pos hstart, hscan]
  | word hw hrest =>
    have hscan := scanWord_of_blank spelling [] 0 0 none hrest hw.whole
    have hstarts := hw.starts
    cases spelling with
    | nil => cases hstarts
    | cons c cs =>
      simp only [startsWord, Bool.and_eq_true, Bool.not_eq_true', List.mem_cons,
        List.not_mem_nil, or_false, decide_eq_false_iff_not, not_or] at hstarts
      obtain ⟨⟨hspace, hopen, hclose, hcomma, hquote, hslash⟩, hnum⟩ := hstarts
      have hnumeric := isNumericStart_word hnum hrest
      rw [List.cons_append] at hscan hnumeric ⊢
      rw [tokenizeLoop, if_neg (ne_true_of_eq_false hspace), if_neg hopen, if_neg hclose,
        if_neg hcomma, if_neg hquote, if_neg hslash, if_neg (ne_true_of_eq_false hnumeric),
        hscan]
      rfl

theorem Scans.ne_nil {P : Platform} {spelling rest : List Char} {t : Token}
    (h : Scans P spelling t rest) : spelling ≠ [] := by
  cases h with
  | number hcs =>
    rintro rfl
    cases hcs
  | word hw =>
    rintro rfl
    cases hw.starts
  | _ => exact List.cons_ne_nil _ _

theorem tokenizeLoop_laid {P : Platform} {ts : List Token} {cs : List Char} (h : Laid P ts cs)
    {fuel : Nat} (hfuel : cs.length ≤ fuel) :
    tokenizeLoop P fuel cs = .ok (ts ++ [⟨.eof, ""⟩]) := by
  induction h generalizing fuel with
  | nil => cases fuel <;> rfl
  | blank hc _ ih =>
    obtain ⟨n, rfl⟩ : ∃ n, fuel = n + 1 := ⟨fuel - 1, by simp at hfuel; omega⟩
    rw [tokenizeLoop, if_pos hc, ih (by simpa using hfuel)]
  | token ht _ ih =>
    have hpos := List.length_pos_iff.mpr ht.ne_nil
    rw [List.length_append] at hfuel
    obtain ⟨n, rfl⟩ : ∃ n, fuel = n + 1 := ⟨fuel - 1, by omega⟩
    rw [tokenizeLoop_scans ht, ih (by omega)]
    rfl

theorem tokenize_laid {P : Platform} {ts : List Token} {text : String}
    (h : Laid P ts text.toList) : tokenize P text = .ok (ts ++ [⟨.eof, ""⟩]) :=
  tokenizeLoop_laid h le_rfl

end AuthzAgent
