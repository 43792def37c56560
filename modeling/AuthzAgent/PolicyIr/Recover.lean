/-
  AuthzAgent.PolicyIr.Recover

  The export reader undoes the encoding of simplified policies.

  A target that the PAP prints is a head without quotes and a list of quoted
  values.  What stands between quotes is inert: `newParser` masks it before it
  looks at spaces, comparisons and connectives, and the parser reads each value
  up to its closing quote.  A closing square bracket alone would not be: the
  token of the attribute goes on to it, over blanks and quotes.
-/

import AuthzAgent.PolicyIr.Groups
import AuthzAgent.PolicyIr.Reads

namespace AuthzAgent

open Parsing Checked

namespace PolicyIr

/-! ## Quoted values -/

/-- Values in quotes, with commas between them. -/
def quotes : List (List Char) → List Char
  | [] => []
  | [v] => '\'' :: (v ++ ['\''])
  | v :: w :: vs => '\'' :: (v ++ '\'' :: ',' :: quotes (w :: vs))

/-- The values without what the quotes hold. -/
def emptied (vs : List (List Char)) : List (List Char) := vs.map fun _ => []

/-- Values that hold no quote. -/
def Unquoted (vs : List (List Char)) : Prop := ∀ v ∈ vs, '\'' ∉ v

/-- A text that `dropLineBreaks` leaves as it is, inside a string or outside. -/
def Kept (quoted : Bool) (cs : List Char) : Prop :=
  ∀ prev, dropLineBreaksFrom quoted prev cs = some cs

/-- A character that is a tab or a line break. -/
def isBreak (c : Char) : Bool := c == '\t' || c == '\n' || c == '\r'

theorem kept_nil (quoted : Bool) : Kept quoted [] := fun _ => rfl

theorem kept_quote (quoted : Bool) {cs : List Char} (h : Kept (!quoted) cs) :
    Kept quoted ('\'' :: cs) := by
  intro prev
  rw [dropLineBreaksFrom, if_neg (by simp)]
  simp [h (some '\'')]

theorem Kept.cons {quoted : Bool} {c : Char} {cs : List Char} (h : Kept quoted cs)
    (hquote : c ≠ '\'') (hbreak : quoted = true ∨ isBreak c = false) : Kept quoted (c :: cs) := by
  intro prev
  have hkeep : ¬ ((c = '\t' ∨ c = '\n' ∨ c = '\r') ∧ (if c = '\'' then !quoted else quoted) = false) := by
    rintro ⟨hc, hq⟩
    rw [if_neg hquote] at hq
    rcases hbreak with hbreak | hbreak
    · rw [hbreak] at hq
      cases hq
    · rcases hc with rfl | rfl | rfl <;> cases hbreak
  rw [dropLineBreaksFrom, if_neg hkeep, if_neg hquote, h (some c)]
  rfl

theorem Kept.append {quoted : Bool} {front cs : List Char} (h : Kept quoted cs)
    (hquote : '\'' ∉ front) (hbreak : quoted = true ∨ ∀ c ∈ front, isBreak c = false) :
    Kept quoted (front ++ cs) := by
  induction front with
  | nil => exact h
  | cons c front ih =>
    rw [List.mem_cons, not_or] at hquote
    refine (ih hquote.2 (hbreak.imp_right fun hall d hd => hall d (List.mem_cons_of_mem _ hd))).cons
      (Ne.symm hquote.1) ?_
    exact hbreak.imp_right fun hall => hall c List.mem_cons_self

/-- Tabs and line breaks in a value stay. -/
theorem kept_quotes {vs : List (List Char)} (h : Unquoted vs) : Kept false (quotes vs) := by
  induction vs with
  | nil => exact kept_nil false
  | cons v vs ih =>
    rw [Unquoted, List.forall_mem_cons] at h
    cases vs with
    | nil => exact kept_quote false ((kept_quote true (kept_nil false)).append h.1 (.inl rfl))
    | cons w vs =>
      have hrest := (ih h.2).cons (c := ',') (by decide) (.inr (by decide))
      exact kept_quote false ((kept_quote true hrest).append h.1 (.inl rfl))

/-! ## Masking -/

theorem replaceAll_skip (matchAt : List Char → Option Nat) (replacement front cs : List Char) :
    replaceAll matchAt replacement front.length (front ++ cs) =
      replaceAll matchAt replacement 0 cs := by
  induction front with
  | nil => rfl
  | cons c front ih => exact ih

/-- A text in front of which nothing matches stays. -/
theorem replaceAll_append {matchAt : List Char → Option Nat} {front : List Char}
    (hfront : ∀ c ∈ front, ∀ cs, matchAt (c :: cs) = none) (replacement cs : List Char) :
    replaceAll matchAt replacement 0 (front ++ cs) =
      front ++ replaceAll matchAt replacement 0 cs := by
  induction front with
  | nil => rfl
  | cons c front ih =>
    rw [List.forall_mem_cons] at hfront
    rw [List.cons_append, replaceAll, hfront.1]
    exact congrArg (c :: ·) (ih hfront.2)

theorem replaceAll_eq_self {matchAt : List Char → Option Nat} {cs : List Char}
    (h : ∀ c ∈ cs, ∀ rest, matchAt (c :: rest) = none) (replacement : List Char) :
    replaceAll matchAt replacement 0 cs = cs := by
  have happend := replaceAll_append h replacement []
  rw [List.append_nil, replaceAll, List.append_nil] at happend
  exact happend

theorem spanLength_of_ne {open_ close c : Char} {inside : Char → Bool} (h : c ≠ open_)
    (cs : List Char) : spanLength open_ close inside (c :: cs) = none := by
  rw [spanLength]
  exact if_neg fun hc => h hc.1

theorem takeWhile_value {v : List Char} (h : '\'' ∉ v) (rest : List Char) :
    (v ++ '\'' :: rest).takeWhile (· ≠ '\'') = v := by
  rw [List.takeWhile_append_of_pos, List.takeWhile_cons_of_neg (by simp), List.append_nil]
  intro c hc
  simp only [ne_eq, decide_eq_true_eq]
  rintro rfl
  exact h hc

theorem quotedLength_value {v : List Char} (h : '\'' ∉ v) (rest : List Char) :
    quotedLength ('\'' :: (v ++ '\'' :: rest)) = some (v.length + 2) := by
  have hinner : (v ++ '\'' :: rest).takeWhile (fun c => decide (c ≠ '\'')) = v :=
    takeWhile_value h rest
  rw [quotedLength, spanLength, hinner, List.drop_left]
  exact if_pos ⟨rfl, rfl⟩

theorem mask_value {v : List Char} (h : '\'' ∉ v) (rest : List Char) :
    replaceAll quotedLength "''".toList 0 ('\'' :: (v ++ '\'' :: rest)) =
      '\'' :: '\'' :: replaceAll quotedLength "''".toList 0 rest := by
  have hlength : v.length + 2 - 1 = (v ++ ['\'']).length := by simp
  have hsplit : v ++ '\'' :: rest = (v ++ ['\'']) ++ rest := by simp
  rw [replaceAll, quotedLength_value h]
  simp only [hlength]
  rw [hsplit, replaceAll_skip]
  rfl

theorem mask_quotes {vs : List (List Char)} (h : Unquoted vs) :
    replaceAll quotedLength "''".toList 0 (quotes vs) = quotes (emptied vs) := by
  induction vs with
  | nil => rfl
  | cons v vs ih =>
    rw [Unquoted, List.forall_mem_cons] at h
    cases vs with
    | nil =>
      rw [quotes, mask_value h.1]
      rfl
    | cons w vs =>
      rw [quotes, mask_value h.1, replaceAll, quotedLength, spanLength_of_ne (by decide)]
      exact congrArg ('\'' :: '\'' :: ',' :: ·) (ih h.2)

/-- A character at which no list comma starts. -/
def startsNoComma (c : Char) : Bool := !c.isDigit && c != '\''

theorem listCommaAt_eq_none {c : Char} (h : startsNoComma c = true) (cs : List Char) :
    listCommaAt (c :: cs) = none := by
  rw [startsNoComma, Bool.and_eq_true, Bool.not_eq_true', bne_iff_ne] at h
  rw [listCommaAt]
  · rw [if_neg (by rw [h.1]; decide)]
    rfl
  · exact fun rest hc _ => h.2 hc

theorem joinListCommas_append {front : List Char} (h : ∀ c ∈ front, startsNoComma c = true)
    (cs : List Char) : joinListCommas 0 (front ++ cs) = front ++ joinListCommas 0 cs := by
  induction front with
  | nil => rfl
  | cons c front ih =>
    rw [List.forall_mem_cons] at h
    rw [List.cons_append, joinListCommas, listCommaAt_eq_none h.1]
    exact congrArg (c :: ·) (ih h.2)

/-- The masked values stand without blanks already. -/
theorem joinListCommas_quotes (vs : List (List Char)) :
    joinListCommas 0 (quotes (emptied vs)) = quotes (emptied vs) := by
  induction vs with
  | nil => rfl
  | cons v vs ih => cases vs with
      | nil => rfl
      | cons w vs =>
        have hnext : ∃ rest, quotes (emptied (w :: vs)) = '\'' :: '\'' :: rest := by
          cases vs with
          | nil => exact ⟨_, rfl⟩
          | cons x vs => exact ⟨_, rfl⟩
        obtain ⟨rest, hrest⟩ := hnext
        show joinListCommas 0 ('\'' :: '\'' :: ',' :: quotes (emptied (w :: vs))) =
          '\'' :: '\'' :: ',' :: quotes (emptied (w :: vs))
        have hcomma : listCommaAt ('\'' :: '\'' :: ',' :: quotes (emptied (w :: vs))) =
            some (['\'', '\''], quotes (emptied (w :: vs))) := by
          rw [hrest]
          rfl
        have hquoted : "''".toList.isPrefixOf (quotes (emptied (w :: vs))) = true := by
          rw [hrest]
          rfl
        have hskip : ('\'' :: ',' :: quotes (emptied (w :: vs))).length -
            (quotes (emptied (w :: vs))).length = 2 := by
          rw [List.length_cons, List.length_cons]
          omega
        rw [joinListCommas, hcomma]
        simp only [hquoted, true_or, if_true, hskip]
        exact congrArg ('\'' :: '\'' :: ',' :: ·) ih

/-! ## Spacing -/

/-- A masked list of values: quotes and commas. -/
def Masked (cs : List Char) : Prop := ∀ c ∈ cs, c = '\'' ∨ c = ','

theorem masked_quotes (vs : List (List Char)) : Masked (quotes (emptied vs)) := by
  induction vs with
  | nil => exact fun c hc => absurd hc List.not_mem_nil
  | cons v vs ih =>
    intro c hc
    cases vs with
    | nil =>
      left
      simpa [emptied, quotes] using hc
    | cons w vs =>
      replace hc : c ∈ '\'' :: '\'' :: ',' :: quotes (emptied (w :: vs)) := hc
      simp only [List.mem_cons] at hc
      rcases hc with rfl | rfl | rfl | hc
      · exact .inl rfl
      · exact .inl rfl
      · exact .inr rfl
      · exact ih c hc

theorem hasDoubleSpace_masked {cs : List Char} (h : Masked cs) (prev : Option Char) :
    hasDoubleSpace prev cs = false := by
  induction cs generalizing prev with
  | nil => rfl
  | cons c cs ih =>
    rw [Masked, List.forall_mem_cons] at h
    rw [hasDoubleSpace, ih h.2]
    rcases h.1 with rfl | rfl <;> simp

/-- No comparison starts with a quote or a comma. -/
theorem comparisonAt_masked {cs : List Char} (h : Masked cs) : comparisonAt cs = none := by
  cases cs with
  | nil => rfl
  | cons c cs =>
    rcases h c List.mem_cons_self with rfl | rfl <;> rfl

theorem tightCompare_masked {cs : List Char} (h : Masked cs) : tightCompare cs = false := by
  induction cs with
  | nil => rfl
  | cons c cs ih =>
    have hrest : Masked cs := fun d hd => h d (List.mem_cons_of_mem _ hd)
    simp [tightCompare, comparisonAt_masked h, comparisonAt_masked hrest, ih hrest]

theorem tightConnective_masked (W : Words) {cs : List Char} (h : Masked cs) (prev : Option Char) :
    tightConnective W prev cs = false := by
  induction cs generalizing prev with
  | nil => rfl
  | cons c cs ih =>
    rw [Masked, List.forall_mem_cons] at h
    rw [tightConnective, ih h.2]
    rcases h.1 with rfl | rfl <;> simp [literalAt]

/-- A character of a head, which stands in front of quoted values. -/
def isHeadChar (c : Char) : Bool :=
  startsNoComma c && !isBreak c && c != '[' && c != '('

theorem isHeadChar_iff {c : Char} : isHeadChar c = true ↔
    startsNoComma c = true ∧ isBreak c = false ∧ c ≠ '[' ∧ c ≠ '(' := by
  simp [isHeadChar, and_assoc]

theorem ne_quote_of_isHeadChar {c : Char} (h : isHeadChar c = true) : c ≠ '\'' := by
  rintro rfl
  cases h

/-- Nothing in brackets or parentheses starts at a character of a head, at a
    quote or at a comma. -/
theorem bracketParenLength_eq_none {c : Char} (h : c ≠ '[' ∧ c ≠ '(') (cs : List Char) :
    bracketsLength (c :: cs) = none ∧ bracketParenLength (c :: cs) = none := by
  have hbrackets : bracketsLength (c :: cs) = none := spanLength_of_ne h.1 cs
  refine ⟨hbrackets, ?_⟩
  rw [bracketParenLength, hbrackets]
  exact spanLength_of_ne h.2 cs

/-- A head with blanks where `newParser` asks for them. -/
structure IsHead (W : Words) (head : List Char) : Prop where
  chars : ∀ c ∈ head, isHeadChar c = true
  first : ∃ c cs, head = c :: cs ∧ GoText.isSpace c = false
  spaces : ∀ tail, Masked tail → hasDoubleSpace none (head ++ '\'' :: tail) = false
  compares : ∀ tail, Masked tail → tightCompare (head ++ '\'' :: tail) = false
  connectives : ∀ tail, Masked tail → tightConnective W none (head ++ '\'' :: tail) = false

theorem quotes_cons (v : List Char) (vs : List (List Char)) :
    ∃ rest, quotes (v :: vs) = '\'' :: rest := by
  cases vs with
  | nil => exact ⟨_, rfl⟩
  | cons w vs => exact ⟨_, rfl⟩

theorem quotes_snoc (v : List Char) (vs : List (List Char)) :
    ∃ front, quotes (v :: vs) = front ++ ['\''] := by
  induction vs generalizing v with
  | nil => exact ⟨'\'' :: v, rfl⟩
  | cons w vs ih =>
    obtain ⟨front, hfront⟩ := ih w
    refine ⟨'\'' :: (v ++ '\'' :: ',' :: front), ?_⟩
    rw [quotes, hfront]
    simp

theorem trimBlanks_eq_self {c d : Char} {cs front : List Char} (hfirst : c ≠ ' ') (hlast : d ≠ ' ')
    (h : c :: cs = front ++ [d]) : trimBlanks (c :: cs) = c :: cs := by
  rw [trimBlanks, List.dropWhile_cons_of_neg (by simpa using hfirst), h, List.rdropWhile_eq_self_iff]
  intro hne
  rw [List.getLast_concat]
  simpa using hlast

/-- A head with quoted values is parsed as it stands. -/
theorem newParser_head {W : Words} {head : List Char} (hhead : IsHead W head) {v : List Char}
    {vs : List (List Char)} (h : Unquoted (v :: vs)) {text : String}
    (htext : text.toList = head ++ quotes (v :: vs)) :
    newParser W text = .ok (head ++ quotes (v :: vs)) := by
  obtain ⟨c, cs, rfl, hspace⟩ := hhead.first
  obtain ⟨front, hfront⟩ := quotes_snoc v vs
  have hne : c ≠ ' ' := by
    rintro rfl
    cases hspace
  -- the text is no blank one, and neither end is trimmed
  have hblank : ¬ (text ≠ "" ∧ GoText.trimSpace text = "") := by
    rintro ⟨-, htrim⟩
    have hmem : c ∈ (GoText.trimSpace text).toList := by
      rw [GoText.mem_trimSpace_iff hspace, htext]
      exact List.mem_cons_self
    rw [htrim] at hmem
    exact absurd hmem List.not_mem_nil
  have hchars := hhead.chars
  have hkept : dropLineBreaks text.toList = some (c :: cs ++ quotes (v :: vs)) := by
    rw [htext, dropLineBreaks]
    refine (kept_quotes h).append (fun hmem => ?_) (.inr fun d hd => ?_) none
    · exact ne_quote_of_isHeadChar (hchars _ hmem) rfl
    · exact (isHeadChar_iff.1 (hchars d hd)).2.1
  have htrim : trimBlanks (c :: cs ++ quotes (v :: vs)) = c :: cs ++ quotes (v :: vs) := by
    have hends : c :: (cs ++ quotes (v :: vs)) = (c :: cs ++ front) ++ ['\''] := by
      rw [List.append_assoc, ← hfront]
      rfl
    exact trimBlanks_eq_self hne (by decide) hends
  have hmask : joinListCommas 0 (replaceAll quotedLength "''".toList 0
      (c :: cs ++ quotes (v :: vs))) = c :: cs ++ quotes (emptied (v :: vs)) := by
    rw [replaceAll_append, mask_quotes h, joinListCommas_append, joinListCommas_quotes]
    · exact fun d hd => (isHeadChar_iff.1 (hchars d hd)).1
    · exact fun d hd => spanLength_of_ne (ne_quote_of_isHeadChar (hchars d hd))
  -- nothing is left in the masked text that a bracket could hide
  have hopen : ∀ d ∈ c :: cs ++ quotes (emptied (v :: vs)), d ≠ '[' ∧ d ≠ '(' := by
    intro d hd
    rcases List.mem_append.1 hd with hd | hd
    · exact (isHeadChar_iff.1 (hchars d hd)).2.2
    · rcases masked_quotes _ d hd with rfl | rfl <;> decide
  obtain ⟨rest, hrest⟩ : ∃ rest, quotes (emptied (v :: vs)) = '\'' :: rest := quotes_cons _ _
  have hmasked : Masked rest := by
    intro d hd
    refine masked_quotes (v :: vs) d ?_
    rw [hrest]
    exact List.mem_cons_of_mem _ hd
  rw [newParser, if_neg hblank]
  simp only [hkept, htrim, hmask]
  rw [replaceAll_eq_self fun d hd rest => (bracketParenLength_eq_none (hopen d hd) rest).1,
    replaceAll_eq_self fun d hd rest => (bracketParenLength_eq_none (hopen d hd) rest).2, hrest,
    hhead.spaces rest hmasked, hhead.compares rest hmasked, hhead.connectives rest hmasked]
  rfl

/-! ## Comparisons -/

/-- `unicode.IsLetter` and `unicode.IsDigit` hold of no blank. -/
structure Words.Blank (W : Words) : Prop where
  isLetter : W.isLetter ' ' = false
  isDigit : W.isDigit ' ' = false

/-- The attribute token ends at a blank, where no bracket closes behind it. -/
theorem attrToken_blank {c : Char} {word rest : List Char} (hc : isNameStart c = true)
    (hword : ∀ d ∈ word, isAttrChar d = true) (hrest : ']' ∉ rest) :
    attrToken (c :: (word ++ ' ' :: rest)) = c :: word := by
  have hloop : ∀ moved, attrFrom 0 moved (word ++ ' ' :: rest) = word := by
    clear hc
    induction word with
    | nil =>
      intro moved
      have hno : (rest.drop (rest.takeWhile isRunChar).length).head? ≠ some ']' :=
        fun h => hrest (List.mem_of_mem_drop (List.mem_of_mem_head? h))
      have hjump : jump moved ' ' rest = none := by
        rw [jump, if_pos rfl]
        exact if_neg hno
      rw [List.nil_append, attrFrom, if_neg (by decide), hjump]
    | cons d word ih =>
      intro moved
      rw [List.forall_mem_cons] at hword
      rw [List.cons_append, attrFrom, if_pos hword.1, ih hword.2]
  rw [attrToken, if_pos hc, hloop]

theorem quotedAt_value {v : List Char} (h : '\'' ∉ v) (rest : List Char) :
    quotedAt ('\'' :: (v ++ '\'' :: rest)) = some (v, rest) := by
  have hdrop : (v ++ '\'' :: rest).drop (v.length + 1) = rest := by
    rw [List.drop_append, List.drop_eq_nil_of_le (Nat.le_succ _), Nat.add_sub_cancel_left]
    rfl
  rw [quotedAt, takeWhile_value h, hdrop]
  exact if_pos (by simp)

section

variable {W : Words}

theorem readLiteral_value {v : List Char} (h : '\'' ∉ v) (rest : List Char) :
    readLiteral W ('\'' :: (v ++ '\'' :: rest)) = .ok (some (.string (String.ofList v)), rest) := by
  rw [readLiteral, quotedAt_value h]

theorem readOperand_value {v : List Char} (h : '\'' ∉ v) (rest : List Char) :
    readOperand W "" ('\'' :: (v ++ '\'' :: rest)) =
      .ok (.literal (.string (String.ofList v)), rest) := by
  show (readLiteral W ('\'' :: (v ++ '\'' :: rest)) >>= _) = _
  rw [readLiteral_value h]
  rfl

/-- A word that is read as an attribute in front of a blank. -/
structure IsAttr (W : Words) (c : Char) (word : List Char) (o : Operand) : Prop where
  name : isNameStart c = true ∧ ∀ d ∈ word, isAttrChar d = true
  keyword : keywords.contains (String.ofList (c :: word)) = false
  operand : pathOperand W "" (c :: word) = .ok o
  notAtom : ∀ rest, simpleAtom W (c :: (word ++ ' ' :: rest)) = none
  notLiteral : ∀ rest,
    readLiteral W (c :: (word ++ ' ' :: rest)) = .ok (none, c :: (word ++ ' ' :: rest))
  notEntitled : ∀ rest, entitledAt (c :: (word ++ ' ' :: rest)) = none
  notNot : ∀ rest, literalAt "NOT " (c :: (word ++ ' ' :: rest)) = none

theorem IsAttr.ws {c : Char} {word : List Char} {o : Operand} (h : IsAttr W c word o)
    (rest : List Char) : ws (c :: (word ++ ' ' :: rest)) = c :: (word ++ ' ' :: rest) := by
  rw [PolicyIr.ws.eq_def]
  split
  · rename_i heq
    obtain ⟨rfl, -⟩ := List.cons.inj heq
    cases h.name.1
  · rfl

/-- An attribute in front of an operator. -/
theorem IsAttr.readOperand {c : Char} {word rest : List Char} {o : Operand} (h : IsAttr W c word o)
    (hrest : ']' ∉ rest) :
    readOperand W "" (c :: (word ++ ' ' :: rest)) = .ok (o, ' ' :: rest) := by
  have hdrop : (c :: (word ++ ' ' :: rest)).drop (c :: word).length = ' ' :: rest := by
    rw [← List.cons_append, List.drop_left]
  have hread : ¬ (c :: word = [] ∨ keywords.contains (String.ofList (c :: word)) = true) := by
    rw [h.keyword]
    rintro (h | h) <;> cases h
  show (readLiteral W (PolicyIr.ws (c :: (word ++ ' ' :: rest))) >>= _) = _
  rw [h.ws, h.notLiteral]
  simp only [bind, Except.bind, StateT.bind, get, getThe, MonadStateOf.get, StateT.get, pure,
    Except.pure, h.notEntitled, h.notNot, attrToken_blank h.name.1 h.name.2 hrest]
  rw [if_neg (by decide), if_neg hread, hdrop, h.operand]
  rfl

theorem IsAttr.readAtom {c : Char} {word rest : List Char} {o : Operand} (h : IsAttr W c word o) :
    readAtom W "" (c :: (word ++ ' ' :: rest)) = readCompare W "" (c :: (word ++ ' ' :: rest)) := by
  rw [PolicyIr.readAtom]
  simp only [bind, Except.bind, StateT.bind, modify, modifyGet, MonadStateOf.modifyGet,
    StateT.modifyGet, get, getThe, MonadStateOf.get, StateT.get, pure, Except.pure, h.ws, h.notAtom]

/-- A comparison whose operator stands between blanks. -/
theorem readCompare_binary {cs rest after tail : List Char} {left right : Operand} {op : Operator}
    (hleft : readOperand W "" cs = .ok (left, ' ' :: rest))
    (hspelled : misspelledOperator rest = false)
    (hop : operatorAt W rest = some (op, ' ' :: after)) (hunary : op.unary = false)
    (hpattern : op.takesPattern = false) (hright : readRight W "" op after = .ok (right, tail))
    (hvalid : validateCompare W.compiles ⟨op, left, some right⟩ = .ok ()) :
    readCompare W "" cs = .ok (.compare ⟨op, left, some right⟩, tail) := by
  have hatom : compareAtom W op left (some right) tail =
      .ok (.compare ⟨op, left, some right⟩, tail) := by
    rw [compareAtom, newCompare, hvalid]
    rfl
  show (readOperand W "" cs >>= _) = _
  rw [hleft]
  simp only [bind, Except.bind, StateT.bind, modify, modifyGet, MonadStateOf.modifyGet,
    StateT.modifyGet, get, getThe, MonadStateOf.get, StateT.get, pure, Except.pure, ws, hspelled,
    hop, set, hunary, hpattern, if_neg Bool.false_ne_true]
  show (readRight W "" op after >>= fun r => compareAtom W op left (some r.1) r.2) = _
  rw [hright]
  exact hatom

/-- The text behind the first of quoted values. -/
def moreQuotes : List (List Char) → List Char
  | [] => []
  | w :: vs => ',' :: quotes (w :: vs)

theorem quotes_eq (v : List Char) (vs : List (List Char)) :
    quotes (v :: vs) = '\'' :: (v ++ '\'' :: moreQuotes vs) := by
  cases vs <;> rfl

def valueLiteral (v : List Char) : Literal := .string (String.ofList v)

/-- The loop over the values of a list. -/
theorem many_quotes {vs : List (List Char)} (h : Unquoted vs) {fuel : Nat}
    (hfuel : (moreQuotes vs).length ≤ fuel) :
    manyFuel listMore (listItem W) Reason.outOfFuel fuel (moreQuotes vs) =
      .ok (vs.map valueLiteral, []) := by
  induction vs generalizing fuel with
  | nil => cases fuel <;> rfl
  | cons v vs ih =>
    rw [Unquoted, List.forall_mem_cons] at h
    have hlength : (moreQuotes (v :: vs)).length = (moreQuotes vs).length + v.length + 3 := by
      rw [moreQuotes, quotes_eq]
      simp
      omega
    cases fuel with
    | zero => omega
    | succ fuel =>
      have hguard : listMore (moreQuotes (v :: vs)) = some ('\'' :: (v ++ '\'' :: moreQuotes vs)) := by
        rw [moreQuotes, quotes_eq]
        rfl
      have hitem : listItem W ('\'' :: (v ++ '\'' :: moreQuotes vs)) =
          .ok (valueLiteral v, moreQuotes vs) := by
        show (readLiteral W _ >>= _) = _
        rw [readLiteral_value h.1]
        rfl
      rw [manyFuel, hguard]
      show (listItem W _ >>= _) = _
      rw [hitem]
      show (manyFuel listMore (listItem W) Reason.outOfFuel fuel (moreQuotes vs) >>= _) = _
      rw [ih h.2 (by omega)]
      rfl

theorem validateItems_strings (kind : Option Nat) (hkind : kind = none ∨ kind = some 0) (i : Nat)
    (vs : List (List Char)) : validateItems kind i (vs.map valueLiteral) = .ok () := by
  induction vs generalizing kind i with
  | nil => rfl
  | cons v vs ih =>
    have hsame : ¬ (kind.isSome = true ∧ kind ≠ some 0) := by
      rintro ⟨hsome, hne⟩
      rcases hkind with rfl | rfl
      · cases hsome
      · exact hne rfl
    rw [List.map_cons, valueLiteral, validateItems]
    · show (if kind.isSome = true ∧ kind ≠ some 0 then _ else _) = _
      rw [if_neg hsame]
      exact ih (some 0) (.inr rfl) (i + 1)
    · exact fun text htext => (nomatch htext)

/-- The list of quoted values; one alone has no raw text. -/
def valueList (v : List Char) (vs : List (List Char)) : Operand :=
  .list ((v :: vs).map valueLiteral)
    (if vs = [] then "" else String.ofList (quotes (v :: vs)))

theorem validateList_values (v : List Char) (vs : List (List Char)) :
    validateList ((v :: vs).map valueLiteral)
      (if vs = [] then "" else String.ofList (quotes (v :: vs))) = .ok () := by
  have hraw : String.ofList (quotes (v :: vs)) ≠ "" := by
    rw [ne_eq, ← String.toList_inj, String.toList_ofList, quotes_eq]
    exact List.cons_ne_nil _ _
  rw [validateList, if_neg (by simp), if_neg, if_neg, validateItems_strings none (.inl rfl)]
  · rintro ⟨hmany, hempty⟩
    cases vs with
    | nil => simp at hmany
    | cons w vs => exact hraw (by rwa [if_neg (List.cons_ne_nil w vs)] at hempty)
  · rintro ⟨hone, hsome⟩
    cases vs with
    | nil => exact hsome (if_pos rfl)
    | cons w vs => simp at hone

theorem readRight_start {op : Operator} {v : List Char} {vs : List (List Char)} (h : '\'' ∉ v) :
    readRight W "" op (quotes (v :: vs)) =
      match op.takesList with
      | true => readList W (valueLiteral v) (quotes (v :: vs)) (moreQuotes vs)
      | false => .ok (.literal (valueLiteral v), moreQuotes vs) := by
  show (readOperand W "" (quotes (v :: vs)) >>= _) = _
  rw [quotes_eq, readOperand_value h]
  cases op.takesList <;> rfl

theorem readRight_list {op : Operator} (hop : op.takesList = true) {v : List Char}
    {vs : List (List Char)} (h : Unquoted (v :: vs)) :
    readRight W "" op (quotes (v :: vs)) = .ok (valueList v vs, []) := by
  rw [Unquoted, List.forall_mem_cons] at h
  have htake : (quotes (v :: vs)).take ((quotes (v :: vs)).length - ([] : List Char).length) =
      quotes (v :: vs) := List.take_length
  have hraw : (if vs.map valueLiteral = [] then "" else String.ofList (quotes (v :: vs))) =
      if vs = [] then "" else String.ofList (quotes (v :: vs)) := by
    simp only [List.map_eq_nil_iff]
  rw [readRight_start h.1, hop]
  show (many listMore (listItem W) Reason.outOfFuel (moreQuotes vs) >>= _) = _
  rw [many, many_quotes h.2 (Nat.le_refl _)]
  simp only [bind, Except.bind, StateT.bind, get, getThe, MonadStateOf.get, StateT.get, pure,
    Except.pure, htake, hraw]
  rw [← List.map_cons, validateList_values]
  rfl

theorem readRight_value {op : Operator} (hop : op.takesList = false) {v : List Char}
    (h : '\'' ∉ v) :
    readRight W "" op (quotes [v]) = .ok (.literal (valueLiteral v), []) := by
  rw [readRight_start h, hop]
  rfl

/-! ## Targets -/

theorem readExpr_atom {cs : List Char} {a : Atom} (hne : cs ≠ [])
    (h : readAtom W "" cs = .ok (a, [])) : readExpr W "" cs = .ok ([[a]], []) := by
  have hconj : readConj W "" cs = .ok ([a], []) := by
    show (readAtom W "" cs >>= _) = _
    rw [h]
    rfl
  show (if cs = [] then _ else _ : CondParser (List (List Atom))) cs = _
  rw [if_neg hne]
  show (readConj W "" cs >>= _) = _
  rw [hconj]
  rfl

/-- A text that is no word for a boolean: it ends with a quote, and starts with
    another letter. -/
theorem wholeBool_eq_none {text : String} {c : Char} {cs front : List Char}
    (htext : text.toList = c :: cs) (hends : c :: cs = front ++ ['\'']) (hc : ¬ c ≤ ' ')
    (htrue : c.toLower ≠ 't') (hfalse : c.toLower ≠ 'f') : wholeBool text = none := by
  have htrim : ((c :: cs).dropWhile (· ≤ ' ')).rdropWhile (· ≤ ' ') = c :: cs := by
    rw [List.dropWhile_cons_of_neg (by simpa using hc), hends, List.rdropWhile_eq_self_iff]
    intro hne
    rw [List.getLast_concat]
    decide
  have hnot : ∀ {d : Char} {ds : List Char}, c.toLower ≠ d →
      ¬ c.toLower :: cs.map Char.toLower = d :: ds := fun hd h => hd (List.cons.inj h).1
  rw [wholeBool, htext]
  simp only [htrim, List.map_cons]
  exact (if_neg (hnot htrue)).trans (if_neg (hnot hfalse))

/-- A head with quoted values that is read as a comparison is its condition. -/
theorem onlyCompare_head {c : Char} {head : List Char} (hhead : IsHead W (c :: head))
    (hc : ¬ c ≤ ' ') (htrue : c.toLower ≠ 't') (hfalse : c.toLower ≠ 'f') {v : List Char}
    {vs : List (List Char)} (h : Unquoted (v :: vs)) {text : String}
    (htext : text.toList = c :: head ++ quotes (v :: vs)) {cmp : Compare}
    (hread : readAtom W "" (c :: head ++ quotes (v :: vs)) = .ok (.compare cmp, []))
    (hvalid : validateCompare W.compiles cmp = .ok ()) (place : Place) :
    onlyCompare W text place = some cmp := by
  obtain ⟨front, hfront⟩ := quotes_snoc v vs
  have hends : c :: (head ++ quotes (v :: vs)) = (c :: head ++ front) ++ ['\''] := by
    rw [List.append_assoc, ← hfront]
    rfl
  have hbool := wholeBool_eq_none htext hends hc htrue hfalse
  have hok : validateCondition W.compiles ⟨place, [[.compare cmp]]⟩ = .ok () := by
    refine validateCondition_eq_ok.2 ⟨List.cons_ne_nil _ _, fun d hd => ?_⟩
    obtain rfl := List.mem_singleton.1 hd
    refine ⟨List.cons_ne_nil _ _, fun a ha => ?_⟩
    obtain rfl := List.mem_singleton.1 ha
    exact hvalid
  have hexpr : readExpr W "" (c :: head ++ quotes (v :: vs)) = .ok ([[.compare cmp]], []) :=
    readExpr_atom (List.cons_ne_nil _ _) hread
  rw [onlyCompare, parseCondition_eq hbool (newParser_head hhead h htext), hexpr]
  simp only [newCondition_of_ok hok]
  rfl

theorem isAttr_resourceType : IsAttr W 'r' "esourceType".toList .resourceType where
  name := ⟨rfl, JsonText.forall_mem_of_all rfl⟩
  keyword := by decide
  operand := rfl
  notAtom _ := rfl
  notLiteral _ := rfl
  notEntitled _ := rfl
  notNot _ := rfl

theorem isAttr_operation : IsAttr W 'o' "peration".toList .operation where
  name := ⟨rfl, JsonText.forall_mem_of_all rfl⟩
  keyword := by decide
  operand := rfl
  notAtom _ := rfl
  notLiteral _ := rfl
  notEntitled _ := rfl
  notNot _ := rfl

theorem isAttr_roles : IsAttr W 's' "ubject.roles".toList (.subject .roles "") where
  name := ⟨rfl, JsonText.forall_mem_of_all rfl⟩
  keyword := by decide
  operand := rfl
  notAtom _ := rfl
  notLiteral _ := rfl
  notEntitled _ := rfl
  notNot _ := rfl

theorem masked_quote {cs : List Char} (h : Masked cs) : Masked ('\'' :: cs) :=
  List.forall_mem_cons.2 ⟨.inl rfl, h⟩

theorem isHead_resourceType : IsHead W "resourceType == ".toList where
  chars := JsonText.forall_mem_of_all rfl
  first := ⟨'r', "esourceType == ".toList, rfl, rfl⟩
  spaces tail h := by simp [hasDoubleSpace, hasDoubleSpace_masked h]
  compares tail h := by
    have hskip : tightCompare ("resourceType == ".toList ++ '\'' :: tail) =
        tightCompare ('\'' :: tail) := by simp [tightCompare, comparisonAt, literalAt]
    rw [hskip, tightCompare_masked (masked_quote h)]
  connectives tail h := by simp [tightConnective, literalAt, tightConnective_masked W h]

theorem isHead_operation : IsHead W "operation == ".toList where
  chars := JsonText.forall_mem_of_all rfl
  first := ⟨'o', "peration == ".toList, rfl, rfl⟩
  spaces tail h := by simp [hasDoubleSpace, hasDoubleSpace_masked h]
  compares tail h := by
    have hskip : tightCompare ("operation == ".toList ++ '\'' :: tail) =
        tightCompare ('\'' :: tail) := by simp [tightCompare, comparisonAt, literalAt]
    rw [hskip, tightCompare_masked (masked_quote h)]
  connectives tail h := by simp [tightConnective, literalAt, tightConnective_masked W h]

theorem isHead_roles : IsHead W "subject.roles CONTAINS ANY ".toList where
  chars := JsonText.forall_mem_of_all rfl
  first := ⟨'s', "ubject.roles CONTAINS ANY ".toList, rfl, rfl⟩
  spaces tail h := by simp [hasDoubleSpace, hasDoubleSpace_masked h]
  compares tail h := by
    have hskip : tightCompare ("subject.roles CONTAINS ANY ".toList ++ '\'' :: tail) =
        tightCompare ('\'' :: tail) := by simp [tightCompare, comparisonAt, literalAt]
    rw [hskip, tightCompare_masked (masked_quote h)]
  connectives tail h := by simp [tightConnective, literalAt, tightConnective_masked W h]

/-- A value that a target can print: neither a quote nor a closing square
    bracket. -/
def Printable (value : String) : Prop := '\'' ∉ value.toList ∧ ']' ∉ value.toList

theorem not_mem_quotes {vs : List (List Char)} (h : ∀ v ∈ vs, ']' ∉ v) : ']' ∉ quotes vs := by
  induction vs with
  | nil => exact List.not_mem_nil
  | cons v vs ih =>
    rw [List.forall_mem_cons] at h
    cases vs with
    | nil => simp [quotes, h.1]
    | cons w vs =>
      have hrest := ih h.2
      simp [quotes, h.1, hrest]

/-- A word of the parser in front of a blank. -/
theorem wordAt_blank (hW : W.Blank) {word : String} {cs rest : List Char}
    (h : literalAt word cs = some (' ' :: rest)) : wordAt W word cs = some (' ' :: rest) := by
  have hblank : isWord W ' ' = false := by simp [isWord, hW.isLetter, hW.isDigit]
  rw [wordAt, h]
  exact if_neg fun hword => Bool.false_ne_true (hblank.symm.trans hword.1)

theorem operatorAt_blank (hW : W.Blank) {front back : List (String × Operator)} {word : String}
    {op : Operator} {cs rest : List Char} (hwords : opWords = front ++ (word, op) :: back)
    (hfront : (front.all fun w => (literalAt w.1 cs).isNone) = true)
    (h : literalAt word cs = some (' ' :: rest)) : operatorAt W cs = some (op, ' ' :: rest) := by
  have hnone : (front.findSome? fun w => (wordAt W w.1 cs).map (w.2, ·)) = none := by
    rw [List.findSome?_eq_none_iff]
    intro w hw
    have hno := List.all_eq_true.1 hfront w hw
    rw [wordAt, Option.isNone_iff_eq_none.1 hno]
    rfl
  rw [operatorAt, hwords, List.findSome?_append, hnone, Option.none_or, List.findSome?_cons,
    wordAt_blank hW h]
  rfl

theorem operatorAt_eq (hW : W.Blank) (rest : List Char) :
    operatorAt W ("== ".toList ++ rest) = some (.eq, ' ' :: rest) :=
  operatorAt_blank hW (List.take_append_drop 20 opWords).symm rfl rfl

theorem operatorAt_containsAny (hW : W.Blank) (rest : List Char) :
    operatorAt W ("CONTAINS ANY ".toList ++ rest) = some (.containsAny, ' ' :: rest) :=
  operatorAt_blank hW (List.take_append_drop 11 opWords).symm rfl rfl

/-- The equality of an attribute is read back. -/
theorem onlyEquality_print (hW : W.Blank) {c : Char} {word : List Char} {o : Operand}
    (hattr : IsAttr W c word o) (hhead : IsHead W (c :: (word ++ " == ".toList)))
    (hc : ¬ c ≤ ' ') (htrue : c.toLower ≠ 't') (hfalse : c.toLower ≠ 'f') 
    (hleft : validateLeft W.compiles o = .ok ()) {value text : String} (hvalue : Printable value)
    (htext : text.toList = c :: (word ++ " == ".toList) ++ quotes [value.toList]) :
    onlyEquality W text o = some value := by
  have hvalid : validateCompare W.compiles ⟨.eq, o, some (.literal (valueLiteral value.toList))⟩ =
      .ok () := (validateCompare_binary rfl).2 ⟨hleft, rfl⟩
  have hsplit : c :: (word ++ " == ".toList) ++ quotes [value.toList] =
      c :: (word ++ ' ' :: ("== ".toList ++ quotes [value.toList])) := by
    rw [List.cons_append, List.append_assoc]
    rfl
  have hrest : ']' ∉ "== ".toList ++ quotes [value.toList] := by
    have hquotes : ']' ∉ quotes [value.toList] :=
      not_mem_quotes (List.forall_mem_singleton.2 hvalue.2)
    simp [hquotes]
  have hread : readAtom W "" (c :: (word ++ " == ".toList) ++ quotes [value.toList]) =
      .ok (.compare ⟨.eq, o, some (.literal (valueLiteral value.toList))⟩, []) := by
    rw [hsplit, hattr.readAtom]
    exact readCompare_binary (hattr.readOperand hrest) rfl (operatorAt_eq hW _) rfl rfl
      (readRight_value rfl hvalue.1) hvalid
  rw [onlyEquality, onlyCompare_head hhead hc htrue hfalse
    (List.forall_mem_singleton.2 hvalue.1) htext hread hvalid]
  show (if Operator.eq = .eq ∧ o = o then some (String.ofList value.toList) else none) = _
  rw [if_pos ⟨rfl, rfl⟩, String.ofList_toList]

theorem onlyEquality_resourceTypeTarget (hW : W.Blank) {rt : String} (h : Printable rt) :
    onlyEquality W (resourceTypeTarget rt) .resourceType = some rt := by
  have hprint : resourceTypeTarget rt = "resourceType == '" ++ rt ++ "'" := rfl
  have htext : (resourceTypeTarget rt).toList =
      'r' :: ("esourceType".toList ++ " == ".toList) ++ quotes [rt.toList] := by
    simp [hprint, quotes]
  exact onlyEquality_print hW isAttr_resourceType isHead_resourceType (by decide) (by decide)
    (by decide) rfl h htext

/-- The operation of a printed target; ALL is printed as the condition that always
    holds. -/
theorem groupOperation_operationTarget (hW : W.Blank) {op : String} (h : Printable op) :
    groupOperation W (operationTarget op) = some op := by
  by_cases hall : op = "ALL"
  · subst hall
    rfl
  · have hprint : operationTarget op = "operation == '" ++ op ++ "'" := if_neg hall
    have htext : (operationTarget op).toList =
        'o' :: ("peration".toList ++ " == ".toList) ++ quotes [op.toList] := by
      simp [hprint, quotes]
    have hread := onlyEquality_print hW isAttr_operation isHead_operation (by decide) (by decide)
      (by decide) rfl h htext
    have htrue : operationTarget op ≠ "true" := by
      intro heq
      rw [heq] at htext
      cases htext
    rw [groupOperation, if_neg htrue, hread, Option.filter_some]
    exact if_pos (decide_eq_true rfl)

theorem toList_intercalate_quotes (role : String) (roles : List String) :
    ("','".intercalate (role :: roles)).toList ++ ['\''] =
      role.toList ++ '\'' :: moreQuotes (roles.map String.toList) := by
  induction roles generalizing role with
  | nil => rw [String.intercalate_singleton]; rfl
  | cons next roles ih =>
    rw [String.intercalate_cons_cons, String.toList_append, String.toList_append,
      List.append_assoc, List.append_assoc, ih next, List.map_cons, moreQuotes, quotes_eq]
    rfl

theorem toList_rolesTarget (role : String) (roles : List String) :
    (rolesTarget (role :: roles)).toList =
      's' :: ("ubject.roles".toList ++ " CONTAINS ANY ".toList) ++
        quotes (role.toList :: roles.map String.toList) := by
  have hprint : rolesTarget (role :: roles) =
      "subject.roles CONTAINS ANY '" ++ "','".intercalate (role :: roles) ++ "'" := rfl
  have hclose : "'".toList = ['\''] := rfl
  rw [hprint, String.toList_append, String.toList_append, List.append_assoc, hclose,
    toList_intercalate_quotes, quotes_eq]
  simp

theorem stringItems_values (roles : List String) :
    stringItems ((roles.map String.toList).map valueLiteral) = some roles := by
  rw [stringItems, mapM_eq_some_iff, List.map_map]
  induction roles with
  | nil => exact .nil
  | cons role roles ih => exact .cons (congrArg some (String.ofList_toList)) ih

theorem rolesOf_rolesTarget (hW : W.Blank) {roles : List String} (hne : roles ≠ [])
    (h : ∀ role ∈ roles, Printable role) : rolesOf W (rolesTarget roles) = some roles := by
  cases roles with
  | nil => exact absurd rfl hne
  | cons role roles =>
    have hquote : Unquoted ((role :: roles).map String.toList) := by
      intro v hv
      obtain ⟨r, hr, rfl⟩ := List.mem_map.1 hv
      exact (h r hr).1
    have hbracket : ']' ∉ quotes ((role :: roles).map String.toList) := by
      refine not_mem_quotes fun v hv => ?_
      obtain ⟨r, hr, rfl⟩ := List.mem_map.1 hv
      exact (h r hr).2
    have hvalid : validateCompare W.compiles ⟨.containsAny, .subject .roles "",
        some (valueList role.toList (roles.map String.toList))⟩ = .ok () := by
      refine (validateCompare_binary rfl).2 ⟨rfl, ?_⟩
      simp only [valueList, validateRight, validateOperand, validateList_values]
      rfl
    have hsplit : 's' :: ("ubject.roles".toList ++ " CONTAINS ANY ".toList) ++
        quotes (role.toList :: roles.map String.toList) =
        's' :: ("ubject.roles".toList ++ ' ' :: ("CONTAINS ANY ".toList ++
          quotes (role.toList :: roles.map String.toList))) := by simp
    have hrest : ']' ∉ "CONTAINS ANY ".toList ++ quotes (role.toList :: roles.map String.toList) := by
      rw [List.mem_append, not_or]
      exact ⟨by decide, hbracket⟩
    have hread : readAtom W "" ('s' :: ("ubject.roles".toList ++ " CONTAINS ANY ".toList) ++
        quotes (role.toList :: roles.map String.toList)) =
        .ok (.compare ⟨.containsAny, .subject .roles "",
          some (valueList role.toList (roles.map String.toList))⟩, []) := by
      rw [hsplit, isAttr_roles.readAtom]
      exact readCompare_binary (isAttr_roles.readOperand hrest) rfl (operatorAt_containsAny hW _)
        rfl rfl (readRight_list rfl hquote) hvalid
    rw [rolesOf, onlyCompare_head isHead_roles (by decide) (by decide) (by decide) hquote
      (toList_rolesTarget role roles) hread hvalid]
    show (if Operator.containsAny = .containsAny ∧
      Operand.subject .roles "" = .subject .roles "" then
        stringItems (((role :: roles).map String.toList).map valueLiteral) else none) = _
    rw [if_pos ⟨rfl, rfl⟩, stringItems_values]

end

/-! ## Sets -/

structure PrintedRule (r : ExportRule) (roles : List String) : Prop where
  effect : r.effect = "ALLOW"
  predicate : r.predicate = ""
  customPredicate : r.customPredicate = none
  target : r.target = some (rolesTarget roles)

/-- The policy that is written for an operation and the roles of its rules. -/
structure PrintedPolicy (p : ExportPolicy) (part : String × List (List String)) : Prop where
  target : p.target = some (operationTarget part.1)
  algorithm : p.combiningAlgorithm = "DENY_UNLESS_PERMIT"
  rules : List.Forall₂ PrintedRule p.rules part.2

/-- The set that is written for a resource type, operations and roles. -/
structure PrintedSet (s : ExportSet) (rt : String) (parts : List (String × List (List String))) :
    Prop where
  type : s.type = "SIMPLIFIED"
  iterate : s.iterate = none
  policySets : s.policySets = []
  target : s.target = some (resourceTypeTarget rt)
  algorithm : s.combiningAlgorithm = "DENY_UNLESS_PERMIT"
  policies : List.Forall₂ PrintedPolicy s.policies parts

/-- Values that targets can print. -/
structure PrintableParts (rt : String) (parts : List (String × List (List String))) : Prop where
  resourceType : Printable rt
  operations : ∀ part ∈ parts, Printable part.1
  roles : ∀ part ∈ parts, ∀ roles ∈ part.2, roles ≠ [] ∧ ∀ role ∈ roles, Printable role

/-- The resource type, and the operation and roles of each policy of a group. -/
def recovered (g : SimplifiedGroup) : String × List (String × List String) :=
  (g.resourceType, g.policies.map fun p => (p.operation, p.roles))

/-- The operation and roles of each rule that is written. -/
def encoded (rt : String) (parts : List (String × List (List String))) :
    String × List (String × List String) :=
  (rt, parts.flatMap fun part => part.2.map fun roles => (part.1, roles))

section

variable {W : Words}

theorem map_zipWith_right {α β γ δ : Type} {S : α → β → Prop} {g : α → β → γ} {f : γ → δ}
    {h : β → δ} (hS : ∀ a b, S a b → f (g a b) = h b) {as : List α} {bs : List β}
    (hall : List.Forall₂ S as bs) : (as.zipWith g bs).map f = bs.map h := by
  induction hall with
  | nil => rfl
  | cons hab _ ih => rw [List.zipWith_cons_cons, List.map_cons, List.map_cons, hS _ _ hab, ih]

theorem recovered_groupOf {s : ExportSet} {rt : String}
    {parts : List (String × List (List String))} (h : SetShape W s rt parts) :
    recovered (groupOf W s rt parts) = encoded rt parts := by
  have hpolicies : (s.policies.zipWith (fun p part =>
      p.rules.zipWith (simplifiedPolicy W part.1) part.2) parts).map
        (List.map fun p => (p.operation, p.roles)) =
      parts.map fun part => part.2.map fun roles => (part.1, roles) := by
    refine map_zipWith_right (fun p part hp => ?_) h.policies
    refine map_zipWith_right (fun r roles _ => ?_) hp.rules
    rfl
  rw [recovered, encoded, groupOf, List.map_flatten, hpolicies, List.flatMap_def]

theorem SetShape.printed {s : ExportSet} {rt : String} {parts : List (String × List (List String))}
    (h : SetShape W s rt parts) : PrintedSet s rt parts where
  type := h.type
  iterate := h.iterate
  policySets := h.policySets
  target := h.target
  algorithm := h.algorithm
  policies := h.policies.imp fun _ _ hp => {
    target := hp.target
    algorithm := hp.algorithm
    rules := hp.rules.imp fun _ _ hr => ⟨hr.effect, hr.predicate, hr.customPredicate, hr.target⟩ }

theorem forall₂_mem {α β : Type} {R S : α → β → Prop} {as : List α} {bs : List β}
    (h : List.Forall₂ R as bs) (hS : ∀ a, ∀ b ∈ bs, R a b → S a b) : List.Forall₂ S as bs := by
  induction h with
  | nil => exact .nil
  | cons hab _ ih =>
    refine .cons (hS _ _ List.mem_cons_self hab) (ih fun a b hb => ?_)
    exact hS a b (List.mem_cons_of_mem _ hb)

/-- A set that is written for values that can be printed is in the shape that is
    recognized. -/
theorem PrintedSet.shape (hW : W.Blank) {s : ExportSet} {rt : String}
    {parts : List (String × List (List String))} (h : PrintedSet s rt parts)
    (hparts : PrintableParts rt parts) : SetShape W s rt parts where
  type := h.type
  iterate := h.iterate
  policySets := h.policySets
  target := h.target
  algorithm := h.algorithm
  resourceType := onlyEquality_resourceTypeTarget hW hparts.resourceType
  policies := by
    refine forall₂_mem h.policies fun p part hpart hp => ?_
    refine ⟨hp.target, groupOperation_operationTarget hW (hparts.operations part hpart),
      hp.algorithm, forall₂_mem hp.rules fun r roles hroles hr => ?_⟩
    obtain ⟨hne, hprintable⟩ := hparts.roles part hpart roles hroles
    exact ⟨hr.effect, hr.predicate, hr.customPredicate, hr.target,
      rolesOf_rolesTarget hW hne hprintable⟩

/-- The reader undoes the encoding of simplified policies: it recovers what was
    written, and it recognizes nothing that would be written otherwise. -/
theorem simplifiedGroup_recovers (hW : W.Blank) :
    (∀ s rt parts, PrintableParts rt parts → PrintedSet s rt parts →
      ∃ g, simplifiedGroup W s = some g ∧ recovered g = encoded rt parts) ∧
    ∀ s g, simplifiedGroup W s = some g →
      ∃ parts, PrintedSet s g.resourceType parts ∧ recovered g = encoded g.resourceType parts := by
  constructor
  · intro s rt parts hparts h
    have hshape := h.shape hW hparts
    exact ⟨_, simplifiedGroup_eq_some.2 ⟨rt, parts, hshape, rfl⟩, recovered_groupOf hshape⟩
  · intro s g h
    obtain ⟨rt, parts, hshape, rfl⟩ := simplifiedGroup_eq_some.1 h
    exact ⟨parts, hshape.printed, recovered_groupOf hshape⟩

end

theorem simplifiedGroup_recovers_keywords :
    ∃ g, simplifiedGroup ⟨Char.isAlpha, Char.isDigit, fun _ => true⟩
        ⟨none, "s", "", "SIMPLIFIED", "", none, "", some (resourceTypeTarget "a, b"),
          "DENY_UNLESS_PERMIT", none,
          [⟨none, "", "", some (operationTarget "READ"), "DENY_UNLESS_PERMIT",
            [⟨none, "", "", "", some (rolesTarget ["x AND y", "z"]), none, "ALLOW", "", "", "", "",
              none⟩]⟩], [], ""⟩ = some g ∧
      recovered g = ("a, b", [("READ", ["x AND y", "z"])]) := by
  have hparts : PrintableParts "a, b" [("READ", [["x AND y", "z"]])] :=
    ⟨⟨by decide, by decide⟩, by simp [Printable], by simp [Printable]⟩
  refine (simplifiedGroup_recovers ⟨by decide, by decide⟩).1 _ "a, b" [("READ", [["x AND y", "z"]])]
    hparts ⟨rfl, rfl, rfl, rfl, rfl, .cons ⟨rfl, rfl, .cons ⟨rfl, rfl, rfl, rfl⟩ .nil⟩ .nil⟩

end PolicyIr

end AuthzAgent
