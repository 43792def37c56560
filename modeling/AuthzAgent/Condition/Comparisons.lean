/-
  AuthzAgent.Condition.Comparisons

  Comparison atoms as they are written, and what the parser makes of them.  An
  atom is a left operand, an operator of the switch in `parseComparison` and
  the right side that the operator takes.  Several operators are phrases that
  contain the words of others or of the connectives; the order of the switch
  and what may stand behind an atom decide between them
  (`selectComparison_written`).

  `parseAtom` reads an atom as its node, except when its left operand is the
  bare word `true` or `false`: that word is taken for a whole condition, and
  the operator is left behind it (`parseAtom_written`).
-/

import AuthzAgent.Condition.ParserSpec

namespace AuthzAgent

open GoText Parsing
open Rego (Value)

/-- A word token that spells a keyword in some letter case. -/
def IsKeyword (keyword : String) (t : Token) : Prop :=
  t.typ = .word ∧ equalFold t.value keyword = true

/-- The tokens an operator is written with. -/
def Pattern.Spelled : Pattern → List Token → Prop
  | .words ws, ts => List.Forall₂ IsKeyword ws ts
  | .symbol s, ts => ts = [⟨.word, s⟩]

namespace Precedence

/-! ## Comparisons -/

/-- The node that a token stands for as an operand. -/
inductive Denotes (P : Platform) : Token → Node → Prop
  | string (s : String) : Denotes P ⟨.string, s⟩ (.const (.string s))
  | regex (s : String) : Denotes P ⟨.regex, s⟩ (.const (.string s))
  | number {s : String} {q : Rat} (h : toNumber P s = some q) :
      Denotes P ⟨.number, s⟩ (.const (.number q))
  | word {s : String} {a : Node} (h : wordOperand P s = .ok a) : Denotes P ⟨.word, s⟩ a

/-- An operand as it is written and what it stands for. -/
structure Operand (P : Platform) where
  token : Token
  node : Node
  denotes : Denotes P token node

/-- An operand that is a literal. -/
structure Literal (P : Platform) where
  token : Token
  value : Value
  denotes : Denotes P token (.const value)

/-- The right side of a comparison, for each way a case of the switch reads it. -/
inductive RightSide (P : Platform) : Right → Type
  | none : RightSide P .none
  | operand (o : Operand P) : RightSide P .operand
  | reference (o : Operand P) (h : ∀ v, o.node ≠ .const v) : RightSide P .multi
  | list (first : Literal P) (more : List (Literal P)) : RightSide P .multi

namespace RightSide

variable {P : Platform}

def tokens : {r : Right} → RightSide P r → List Token
  | _, .none => []
  | _, .operand o => [o.token]
  | _, .reference o _ => [o.token]
  | _, .list first more => first.token :: more.flatMap fun l => [⟨.comma, ","⟩, l.token]

def nodes : {r : Right} → RightSide P r → List Node
  | _, .none => []
  | _, .operand o => [o.node]
  | _, .reference o _ => [o.node]
  | _, .list first more => [.const (.array (first.value :: more.map Literal.value))]

theorem tokens_operand {r : Right} (s : RightSide P r) (h : r = .operand) :
    ∃ o : Operand P, s.tokens = [o.token] := by
  subst h
  cases s with
  | operand o => exact ⟨o, rfl⟩

end RightSide

/-- A comparison atom.  Behind CONTAINS the bare word ANY belongs to the
    operator, so it is no right side there. -/
structure Atom (P : Platform) where
  left : Operand P
  comparison : Comparison
  mem : comparison ∈ comparisons
  right : RightSide P comparison.right
  notAny : comparison.op = .contains → ∀ t ∈ right.tokens.head?, matchWord "ANY" [t] = .none

namespace Atom

variable {P : Platform}

def node (a : Atom P) : Node := a.comparison.build (a.left.node :: a.right.nodes)

/-- The tokens of the comparison with its operator in some spelling. -/
def Written (a : Atom P) (ts : List Token) : Prop :=
  ∃ p ∈ a.comparison.patterns, ∃ ops, p.Spelled ops ∧ ts = a.left.token :: (ops ++ a.right.tokens)

/-- The left side is the bare word `true` or `false`. -/
def startsWithBool (a : Atom P) : Bool :=
  a.left.token.typ == .word &&
    (P.toLower a.left.token.value == "true" || P.toLower a.left.token.value == "false")

end Atom

/-! ## Keywords -/

/-- Two words are one up to the case of ASCII letters. -/
def sameWord (w v : String) : Bool := w.toList.map Char.toLower == v.toList.map Char.toLower

def isAscii (w : String) : Bool := w.toList.all (·.toNat < 128)

theorem mem_of_isAscii {w : String} (h : isAscii w = true) : ∀ c ∈ w.toList, c.toNat < 128 :=
  fun c hc => of_decide_eq_true (List.all_eq_true.mp h c hc)

theorem matchWord_keyword {v w : String} {t : Token} (h : IsKeyword v t) (hv : isAscii v = true)
    (hw : isAscii w = true) (ts : List Token) :
    matchWord w (t :: ts) = if sameWord w v then some ts else none := by
  have hfold : equalFold t.value w = sameWord w v := by
    by_cases hsame : w.toList.map Char.toLower = v.toList.map Char.toLower
    · rw [sameWord, beq_iff_eq.mpr hsame, equalFold, equalFoldChars_congr hsame]
      exact h.2
    · rw [sameWord, beq_eq_false_iff_ne.mpr hsame, Bool.eq_false_iff]
      intro hfold
      exact hsame (equalFoldChars_unique (mem_of_isAscii hw) (mem_of_isAscii hv) hfold h.2)
  simp only [matchWord, h.1, hfold, true_and]

/-- What may stand behind a printed expression. -/
def Follows (ts : List Token) : Prop :=
  ∀ t ∈ ts.head?, t.typ = .eof ∨ t.typ = .rparen ∨ IsKeyword "AND" t ∨ IsKeyword "OR" t

theorem Follows.matchWord_eq_none {ts : List Token} (h : Follows ts) {w : String}
    (hw : isAscii w = true) (hand : sameWord w "AND" = false) (hor : sameWord w "OR" = false) :
    matchWord w ts = none := by
  cases ts with
  | nil => rfl
  | cons t ts =>
    rcases h t rfl with ht | ht | ht | ht
    · simp [matchWord, ht]
    · simp [matchWord, ht]
    · rw [matchWord_keyword ht (by decide) hw, hand, if_neg Bool.false_ne_true]
    · rw [matchWord_keyword ht (by decide) hw, hor, if_neg Bool.false_ne_true]

theorem Follows.matchComma_eq_none {ts : List Token} (h : Follows ts) : matchComma ts = none := by
  cases ts with
  | nil => rfl
  | cons t ts =>
    have htyp : t.typ ≠ .comma := by
      rcases h t rfl with ht | ht | ht | ht
      · simp [ht]
      · simp [ht]
      · simp [ht.1]
      · simp [ht.1]
    rw [matchComma, if_neg htyp]

/-! ## The switch over the operators -/

/-- How the words a case looks for fit the words that are written. -/
inductive Fit where
  | no
  | whole
  | short
  | more (ws : List String)
deriving DecidableEq

def fitWords : List String → List String → Fit
  | [], [] => .whole
  | [], _ :: _ => .short
  | w :: ws, [] => .more (w :: ws)
  | w :: ws, v :: vs => if sameWord w v then fitWords ws vs else .no

/-- How a tested pattern fits a written one. -/
def fit : Pattern → Pattern → Fit
  | .words ws, .words vs => fitWords ws vs
  | .symbol s, .symbol t => if s = t then .whole else .no
  | .words (w :: _), .symbol s => if equalFold s w then .short else .no
  | .symbol s, .words (v :: _) => if equalFold s v then .short else .no
  | .words [], .symbol _ => .short
  | .symbol _, .words [] => .short

/-- The result of a pattern that fits what stands in front of `us`. -/
def Fit.Result (us : List Token) (r : Option (List Token)) : Fit → Prop
  | .no => r = none
  | .whole => r = some us
  | .short => True
  | .more ws => r = matchWords ws us

theorem matchWords_spelled {ws vs : List String} {ops : List Token}
    (h : List.Forall₂ IsKeyword vs ops) (hws : ∀ w ∈ ws, isAscii w = true)
    (hvs : ∀ v ∈ vs, isAscii v = true) (us : List Token) :
    (fitWords ws vs).Result us (matchWords ws (ops ++ us)) := by
  induction ws generalizing vs ops with
  | nil =>
    cases h with
    | nil => exact rfl
    | cons => exact trivial
  | cons w ws ih =>
    cases h with
    | nil => exact rfl
    | @cons v t vs ops ht h =>
      rw [List.forall_mem_cons] at hws hvs
      rw [fitWords, matchWords, List.cons_append, matchWord_keyword ht hvs.1 hws.1]
      cases hsame : sameWord w v with
      | false => exact rfl
      | true => exact ih h hws.2 hvs.2

def patternAscii : Pattern → Bool
  | .words ws => ws.all isAscii
  | .symbol _ => true

theorem run_spelled {tested written : Pattern} {ops : List Token} (h : written.Spelled ops)
    (htested : patternAscii tested = true) (hwritten : patternAscii written = true)
    (us : List Token) : (fit tested written).Result us (tested.run (ops ++ us)) := by
  cases tested with
  | words ws =>
    cases written with
    | words vs =>
      exact matchWords_spelled h (List.all_eq_true.mp htested) (List.all_eq_true.mp hwritten) us
    | symbol s =>
      obtain rfl : ops = [⟨.word, s⟩] := h
      cases ws with
      | nil => exact trivial
      | cons w ws =>
        rw [fit]
        cases hfold : equalFold s w with
        | true => exact trivial
        | false => simp [Fit.Result, Pattern.run, matchWords, matchWord, hfold]
  | symbol s =>
    cases written with
    | symbol t =>
      obtain rfl : ops = [⟨.word, t⟩] := h
      by_cases hst : s = t
      · simp [fit, hst, Fit.Result, Pattern.run, matchSymbol]
      · simp [fit, hst, Fit.Result, Pattern.run, matchSymbol, Ne.symm hst]
    | words vs =>
      cases h with
      | nil => exact trivial
      | @cons v t vs ops ht h =>
        rw [fit]
        cases hfold : equalFold s v with
        | true => exact trivial
        | false =>
          have hne : t.value ≠ s := by
            intro heq
            rw [← heq, ht.2] at hfold
            cases hfold
          simp [Fit.Result, Pattern.run, matchSymbol, hne]

/-- The patterns of the switch, each with its case, in order. -/
def switchCases : List (Comparison × Pattern) :=
  comparisons.flatMap fun c => c.patterns.map fun p => (c, p)

/-- The switch takes the first pattern that stands there. -/
theorem selectComparison_eq (ts : List Token) :
    selectComparison ts =
      switchCases.findSome? fun e => (e.2.run ts).map fun rest => (e.1, rest) := by
  have hcase : ∀ (c : Comparison) (ps : List Pattern),
      (ps.findSome? fun p => p.run ts).map (fun rest => (c, rest)) =
        (ps.map fun p => (c, p)).findSome? fun e => (e.2.run ts).map fun rest => (e.1, rest) := by
    intro c ps
    induction ps with
    | nil => rfl
    | cons p ps ih =>
      rw [List.findSome?_cons, List.map_cons, List.findSome?_cons]
      cases p.run ts with
      | none => exact ih
      | some rest => rfl
  rw [selectComparison, switchCases]
  induction comparisons with
  | nil => rfl
  | cons c cs ih =>
    rw [List.findSome?_cons, List.flatMap_cons, List.findSome?_append, ← hcase c c.patterns, ih]
    cases c.patterns.findSome? fun p => p.run ts <;> rfl

/-- An earlier pattern is no part of a later one.  It may be a longer phrase:
    CONTAINS ANY of CONTAINS, and GREATER THAN OR EQUALS TO of GREATER THAN. -/
def apart (earlier later : Comparison × Pattern) : Bool :=
  match fit earlier.2 later.2, later.1.right with
  | .no, _ => true
  | .more ["ANY"], .operand => later.1.op = .contains
  | .more ["OR", w, "TO"], .operand => w = "EQUALS" || w = "EQUAL"
  | _, _ => false

theorem switchCases_apart : switchCases.Pairwise fun e' e => apart e' e = true := by
  decide +kernel

theorem switchCases_fit : ∀ e ∈ switchCases, patternAscii e.2 = true ∧ fit e.2 e.2 = .whole := by
  decide +kernel

variable {P : Platform}

theorem matchWord_cons_eq_none {w : String} {t : Token} (h : matchWord w [t] = none)
    (ts : List Token) : matchWord w (t :: ts) = none := by
  simp only [matchWord, ite_eq_right_iff, reduceCtorEq, imp_false] at h ⊢
  exact h

/-- No longer phrase stands where a comparison is written. -/
theorem run_eq_none_of_apart (a : Atom P) {earlier : Comparison × Pattern} {p : Pattern}
    (hapart : apart earlier (a.comparison, p) = true) (hearlier : patternAscii earlier.2 = true)
    (hp : patternAscii p = true) {ops : List Token} (hops : p.Spelled ops) {rest : List Token}
    (hrest : Follows rest) : earlier.2.run (ops ++ (a.right.tokens ++ rest)) = none := by
  have hrun := run_spelled hops hearlier hp (a.right.tokens ++ rest)
  rw [apart] at hapart
  split at hapart
  · rename_i hfit
    rw [hfit] at hrun
    exact hrun
  · rename_i hfit hright
    obtain ⟨o, ho⟩ := a.right.tokens_operand hright
    have hany := a.notAny (of_decide_eq_true hapart) o.token (by rw [ho]; rfl)
    rw [hfit, ho] at hrun
    replace hrun : earlier.2.run _ = matchWords ["ANY"] (o.token :: rest) := hrun
    rw [ho, hrun, matchWords, matchWord_cons_eq_none hany rest]
    rfl
  · rename_i w hfit hright
    obtain ⟨o, ho⟩ := a.right.tokens_operand hright
    -- behind the one right operand stands no EQUALS
    have hnone : matchWord w rest = none := by
      rw [Bool.or_eq_true, decide_eq_true_eq, decide_eq_true_eq] at hapart
      rcases hapart with rfl | rfl
      · exact hrest.matchWord_eq_none (by decide) (by decide) (by decide)
      · exact hrest.matchWord_eq_none (by decide) (by decide) (by decide)
    rw [hfit, ho] at hrun
    replace hrun : earlier.2.run _ = matchWords ["OR", w, "TO"] (o.token :: rest) := hrun
    rw [ho, hrun, matchWords, matchWord]
    split_ifs
    · rw [Option.bind_some, matchWords, hnone]
      rfl
    · rfl
  · cases hapart

theorem selectComparison_written (a : Atom P) {p : Pattern} (hp : p ∈ a.comparison.patterns)
    {ops : List Token} (hops : p.Spelled ops) {rest : List Token} (hrest : Follows rest) :
    selectComparison (ops ++ (a.right.tokens ++ rest)) =
      some (a.comparison, a.right.tokens ++ rest) := by
  have hmem : (a.comparison, p) ∈ switchCases :=
    List.mem_flatMap.mpr ⟨a.comparison, a.mem, List.mem_map_of_mem hp⟩
  obtain ⟨before, after, hsplit⟩ := List.append_of_mem hmem
  obtain ⟨hascii, hself⟩ := switchCases_fit _ hmem
  have hpair := switchCases_apart
  rw [hsplit, List.pairwise_append] at hpair
  have hbefore : ∀ e ∈ before, (e.2.run (ops ++ (a.right.tokens ++ rest))).map
      (fun rest => (e.1, rest)) = none := by
    intro e he
    have hin : e ∈ switchCases := by
      rw [hsplit]
      exact List.mem_append_left _ he
    have happart := hpair.2.2 e he _ List.mem_cons_self
    rw [run_eq_none_of_apart a happart (switchCases_fit e hin).1 hascii hops hrest]
    rfl
  have hrun := run_spelled hops hascii hascii (a.right.tokens ++ rest)
  rw [hself] at hrun
  rw [selectComparison_eq, hsplit, List.findSome?_append, List.findSome?_eq_none_iff.mpr hbefore,
    Option.none_or, List.findSome?_cons]
  replace hrun : p.run (ops ++ (a.right.tokens ++ rest)) = some (a.right.tokens ++ rest) := hrun
  rw [hrun]
  rfl

/-! ## Atoms -/

theorem parseOperand_denotes {t : Token} {a : Node} (h : Denotes P t a) (ts : List Token) :
    parseOperand P (t :: ts) = .ok (a, ts) := by
  have hpeek : ∀ u : Token, peek (u :: ts) = u := fun _ => rfl
  cases h with
  | string s => rfl
  | regex s => rfl
  | number h =>
    rw [parseOperand]
    simp only [next, bind, StateT.bind, Except.bind, hpeek, h]
    rfl
  | word h =>
    rw [parseOperand]
    simp only [next, bind, StateT.bind, Except.bind, hpeek, h]
    rfl

theorem parseLiteral_denotes (l : Literal P) (ts : List Token) :
    parseLiteral P (l.token :: ts) = .ok (l.value, ts) := by
  show (parseOperand P (l.token :: ts) >>= fun r => _) = _
  rw [parseOperand_denotes l.denotes]
  rfl

/-- The items of a list behind its first, up to what ends the comparison. -/
theorem loops_items (more : List (Literal P)) {rest : List Token} (hrest : Follows rest) :
    Loops matchComma (parseLiteral P)
      ((more.flatMap fun l => [⟨.comma, ","⟩, l.token]) ++ rest) (more.map Literal.value) rest := by
  induction more with
  | nil => exact .stop hrest.matchComma_eq_none
  | cons l more ih =>
    refine .round rfl (parseLiteral_denotes l _) ?_ ih
    rw [List.flatMap_cons, List.append_assoc, List.length_append]
    exact Nat.lt_add_of_pos_left (Nat.succ_pos 1)

theorem comparisons_multi : ∀ c ∈ comparisons, c.right = .multi →
    c.op = .containsAny ∨ c.op = .isSubset ∨ c.op = .isIn := by
  simp [comparisons]

theorem Follows.peek_ne_comma {ts : List Token} (h : Follows ts) : (peek ts).typ ≠ .comma := by
  cases ts with
  | nil => nofun
  | cons t ts =>
    intro ht
    have hnone := h.matchComma_eq_none
    rw [matchComma, if_pos (show t.typ = .comma from ht)] at hnone
    cases hnone

/-- A right side with commas is read as the list of its values. -/
theorem parseMultiRightOperand_list {op : Op}
    (hop : op = .containsAny ∨ op = .isSubset ∨ op = .isIn) (first : Literal P)
    (more : List (Literal P)) {rest : List Token} (hrest : Follows rest) :
    parseMultiRightOperand P op ((RightSide.list first more).tokens ++ rest) =
      .ok (.const (.array (first.value :: more.map Literal.value)), rest) := by
  have hloops := loops_items more hrest
  rw [RightSide.tokens, List.cons_append]
  show (parseOperand P (first.token :: _) >>= fun r => _) = _
  rw [parseOperand_denotes first.denotes]
  cases more with
  | nil =>
    show (if (peek rest).typ ≠ .comma then _ else _ : TokenParser Node) rest = _
    rw [if_pos hrest.peek_ne_comma]
    show (if op = .containsAny ∨ op = .isSubset ∨ op = .isIn then _ else _ : TokenParser Node)
      rest = _
    rw [if_pos hop]
    rfl
  | cons l more =>
    show (many matchComma (parseLiteral P) .outOfFuel _ >>= fun r => _) = _
    rw [hloops.many_eq]
    rfl

theorem body_right {c : Comparison} (hc : c ∈ comparisons) (left : Node) {r : Right}
    (s : RightSide P r) (h : c.right = r) {rest : List Token} (hrest : Follows rest) :
    c.body P left (s.tokens ++ rest) = .ok (c.build (left :: s.nodes), rest) := by
  rw [Comparison.body, h]
  cases s with
  | none => rfl
  | operand o =>
    show (parseOperand P (o.token :: rest) >>= fun r => _) = _
    rw [parseOperand_denotes o.denotes]
    rfl
  | reference o ho =>
    have hread : parseMultiRightOperand P c.op (o.token :: rest) = .ok (o.node, rest) := by
      show (parseOperand P (o.token :: rest) >>= fun r => _) = _
      rw [parseOperand_denotes o.denotes]
      show (if (peek rest).typ ≠ .comma then _ else _ : TokenParser Node) rest = _
      rw [if_pos hrest.peek_ne_comma]
      cases hnode : o.node with
      | const v => exact absurd hnode (ho v)
      | _ => rfl
    show (parseMultiRightOperand P c.op (o.token :: rest) >>= fun r => _) = _
    rw [hread]
    rfl
  | list first more =>
    show (parseMultiRightOperand P c.op _ >>= fun r => _) = _
    rw [parseMultiRightOperand_list (comparisons_multi c hc h) first more hrest]
    rfl

theorem parseComparison_written (a : Atom P) {ts : List Token} (h : a.Written ts)
    {rest : List Token} (hrest : Follows rest) :
    parseComparison P (ts ++ rest) = .ok (a.node, rest) := by
  obtain ⟨p, hp, ops, hops, rfl⟩ := h
  rw [List.cons_append, List.append_assoc]
  rw [parseComparison]
  simp only [bind, StateT.bind, Except.bind, parseOperand_denotes a.left.denotes, get, getThe,
    MonadStateOf.get, StateT.get, pure, Except.pure, selectComparison_written a hp hops hrest]
  exact body_right a.mem a.left.node a.right rfl hrest

/-- An operator starts with another word than `w`. -/
def startsApart (w : String) : Pattern → Bool
  | .words (v :: _) => !sameWord w v
  | .words [] => false
  | .symbol s => !equalFold s w

theorem switchCases_startsApart : ∀ e ∈ switchCases, startsApart "allowed" e.2 = true ∧
    startsApart "denied" e.2 = true ∧ startsApart "AND" e.2 = true ∧
    startsApart "OR" e.2 = true := by
  decide +kernel

/-- The tokens behind a left side that was taken for a condition: a word that
    is no connective. -/
structure Stuck (ts : List Token) : Prop where
  word : (peek ts).typ = .word
  notAnd : matchWord "AND" ts = none
  notOr : matchWord "OR" ts = none

theorem equalFold_spelled {p : Pattern} {t : Token} {ops : List Token} (h : p.Spelled (t :: ops))
    (hp : patternAscii p = true) {w : String} (hw : isAscii w = true)
    (hstarts : startsApart w p = true) : t.typ = .word ∧ equalFold t.value w = false := by
  cases p with
  | symbol s =>
    obtain ⟨rfl, -⟩ := List.cons.inj (show t :: ops = [⟨.word, s⟩] from h)
    rw [startsApart, Bool.not_eq_true'] at hstarts
    exact ⟨rfl, hstarts⟩
  | words vs =>
    cases h with
    | @cons v _ vs _ ht _ =>
      rw [startsApart, Bool.not_eq_true'] at hstarts
      have hv := List.all_eq_true.mp hp v List.mem_cons_self
      have hmatch := matchWord_keyword ht hv hw []
      rw [hstarts, if_neg Bool.false_ne_true, matchWord] at hmatch
      simp only [ht.1, true_and, ite_eq_right_iff, reduceCtorEq, imp_false,
        Bool.not_eq_true] at hmatch
      exact ⟨ht.1, hmatch⟩

/-- The first token of an operator starts neither an access atom nor the rest
    of a chain. -/
theorem operator_head (a : Atom P) {p : Pattern} (hp : p ∈ a.comparison.patterns)
    {ops : List Token} (hops : p.Spelled ops) : ∃ t us, ops = t :: us ∧ t.typ = .word ∧
      equalFold t.value "allowed" = false ∧ equalFold t.value "denied" = false ∧
      equalFold t.value "AND" = false ∧ equalFold t.value "OR" = false := by
  have hmem : (a.comparison, p) ∈ switchCases :=
    List.mem_flatMap.mpr ⟨a.comparison, a.mem, List.mem_map_of_mem hp⟩
  have hascii := (switchCases_fit _ hmem).1
  obtain ⟨hallowed, hdenied, hand, hor⟩ := switchCases_startsApart _ hmem
  cases ops with
  | nil =>
    cases p with
    | symbol s => cases hops
    | words vs =>
      cases hops
      cases hand
  | cons t us =>
    exact ⟨t, us, rfl, (equalFold_spelled hops hascii (by decide) hand).1,
      (equalFold_spelled hops hascii (by decide) hallowed).2,
      (equalFold_spelled hops hascii (by decide) hdenied).2,
      (equalFold_spelled hops hascii (by decide) hand).2,
      (equalFold_spelled hops hascii (by decide) hor).2⟩

theorem lookaheadHasAccess_eq_false {l t : Token} (hallowed : equalFold t.value "allowed" = false)
    (hdenied : equalFold t.value "denied" = false) (us : List Token) :
    lookaheadHasAccess (l :: t :: us) = false := by
  match us with
  | [] => rfl
  | [_] => rfl
  | _ :: _ :: _ => simp [lookaheadHasAccess, hallowed, hdenied]

theorem parseAtom_cons {l : Token} {ts : List Token} (hlook : lookaheadHasAccess (l :: ts) = false) :
    parseAtom P (l :: ts) =
      if l.typ = .word ∧ P.toLower l.value = "true" then .ok (.const (.bool true), ts)
      else if l.typ = .word ∧ P.toLower l.value = "false" then .ok (.const (.bool false), ts)
      else parseComparison P (l :: ts) := by
  show (if lookaheadHasAccess (l :: ts) then parseHasAccess P
    else if l.typ = .word ∧ P.toLower l.value = "true" then do
      let _ ← next
      pure (.const (.bool true))
    else if l.typ = .word ∧ P.toLower l.value = "false" then do
      let _ ← next
      pure (.const (.bool false))
    else parseComparison P : TokenParser Node) (l :: ts) = _
  rw [hlook, if_neg Bool.false_ne_true]
  split_ifs <;> rfl

/-- A comparison is read as its node, unless its left side is taken for a
    condition. -/
theorem parseAtom_written (a : Atom P) {ts : List Token} (h : a.Written ts) {rest : List Token}
    (hrest : Follows rest) :
    (a.startsWithBool = false → parseAtom P (ts ++ rest) = .ok (a.node, rest)) ∧
      (a.startsWithBool = true →
        ∃ node stuck, parseAtom P (ts ++ rest) = .ok (node, stuck) ∧ Stuck stuck) := by
  have hcompare := parseComparison_written a h hrest
  obtain ⟨p, hp, ops, hops, rfl⟩ := h
  obtain ⟨t, us, rfl, htyp, hallowed, hdenied, hand, hor⟩ := operator_head a hp hops
  have hlook : lookaheadHasAccess (a.left.token :: (t :: us ++ a.right.tokens ++ rest)) = false :=
    lookaheadHasAccess_eq_false hallowed hdenied _
  have hstuck : Stuck (t :: us ++ a.right.tokens ++ rest) :=
    ⟨htyp, by simp [matchWord, hand], by simp [matchWord, hor]⟩
  rw [List.cons_append] at hcompare ⊢
  rw [parseAtom_cons hlook, Atom.startsWithBool]
  constructor
  · intro hbool
    rw [if_neg, if_neg]
    · exact hcompare
    · rintro ⟨hw, hfalse⟩
      simp [hw, hfalse] at hbool
    · rintro ⟨hw, htrue⟩
      simp [hw, htrue] at hbool
  · intro hbool
    rw [Bool.and_eq_true, Bool.or_eq_true, beq_iff_eq, beq_iff_eq, beq_iff_eq] at hbool
    obtain ⟨hw, htrue | hfalse⟩ := hbool
    · rw [if_pos ⟨hw, htrue⟩]
      exact ⟨_, _, rfl, hstuck⟩
    · rw [if_neg, if_pos ⟨hw, hfalse⟩]
      · exact ⟨_, _, rfl, hstuck⟩
      · rintro ⟨-, htrue⟩
        rw [hfalse] at htrue
        exact absurd htrue (by decide)

end Precedence

end AuthzAgent
