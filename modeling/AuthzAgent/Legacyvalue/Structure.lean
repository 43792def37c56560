/-
  AuthzAgent.Legacyvalue.Structure

  Structure keys decide equality.  `sameStructure` says when two values are
  equal: lists element by element, objects up to the order of their members,
  numbers by the decimal that is read from their text.

  A structure key is the printed form of a tree (`tree`), in which the members
  stand in key order and a number is a word.  Printed trees are read back without
  ambiguity (Lib.Delimited), so two keys are equal exactly when the trees are,
  and the trees are equal exactly when the values have the same structure.
-/

import AuthzAgent.Legacyvalue.Record
import AuthzAgent.Lib.Delimited

namespace AuthzAgent.Legacyvalue

open Jsonvalue Delimited

variable (E : Externals)

/-! ## Equality of structure -/

/-- Two numbers are equal when their texts hold equal decimals or, where
    neither holds one, when the texts are equal. -/
def sameNumber (m n : String) : Bool :=
  if numberOf E m = none ∧ numberOf E n = none then numberText E m == numberText E n
  else numberOf E m == numberOf E n

mutual

/-- Equality up to the order of members and the writing of numbers. -/
def sameStructure : Value → Value → Bool
  | .null, .null => true
  | .bool a, .bool b => a == b
  | .number m, .number n => sameNumber E m n
  | .string s, .string t => s == t
  | .list vs, .list ws => sameItems vs ws
  | .object ms, .object ns => ms.length == ns.length && sameMembers ms ns
  | _, _ => false

def sameItems : List Value → List Value → Bool
  | [], [] => true
  | v :: vs, w :: ws => sameStructure v w && sameItems vs ws
  | _, _ => false

/-- Each member of the first object stands in the second one. -/
def sameMembers : List (String × Value) → List (String × Value) → Bool
  | [], _ => true
  | (k, v) :: ms, ns =>
    (match ns.lookup k with
      | some w => sameStructure v w
      | none => false) && sameMembers ms ns

end

theorem sameMembers_iff {ms ns : List (String × Value)} :
    sameMembers E ms ns = true ↔
      ∀ m ∈ ms, ∃ w, ns.lookup m.1 = some w ∧ sameStructure E m.2 w = true := by
  induction ms with
  | nil => simp [sameMembers]
  | cons m ms ih =>
    obtain ⟨k, v⟩ := m
    simp only [sameMembers, Bool.and_eq_true, ih, List.forall_mem_cons]
    refine and_congr_left fun _ => ?_
    cases ns.lookup k <;> simp

/-! ## Keys of numbers -/

/-- A character that a number key starts with. -/
def isKeyStart (c : Char) : Bool := isNumberChar c || c == 'N' || c == 'I'

theorem isStop_of_isNumberChar {c : Char} (h : isNumberChar c = true) : isStop c = false := by
  by_contra hstop
  rw [Bool.not_eq_false, isStop] at hstop
  simp only [Bool.or_eq_true, beq_iff_eq] at hstop
  rcases hstop with (rfl | rfl) | rfl <;> exact absurd h (by decide)

theorem isOpen_of_isKeyStart {c : Char} (h : isKeyStart c = true) : isOpen c = false := by
  by_contra hopen
  rw [Bool.not_eq_false, isOpen] at hopen
  simp only [Bool.or_eq_true, beq_iff_eq] at hopen
  rcases hopen with (rfl | rfl) | rfl <;> exact absurd h (by decide)

structure IsNumberKey (text : List Char) : Prop where
  no_stop : ∀ c ∈ text, isStop c = false
  start : ∃ c ∈ text.head?, isKeyStart c = true

theorem isNumberKey_of_chars {text : List Char} (hne : text ≠ [])
    (h : ∀ c ∈ text, isNumberChar c = true) : IsNumberKey text where
  no_stop := fun c hc => isStop_of_isNumberChar (h c hc)
  start := by
    cases text with
    | nil => exact absurd rfl hne
    | cons c cs =>
      refine ⟨c, rfl, ?_⟩
      rw [isKeyStart, h c List.mem_cons_self]
      rfl

theorem isNumberChar_minus (neg : Bool) : ∀ c ∈ minus neg, isNumberChar c = true := by
  cases neg
  · exact nofun
  · simp [minus, isNumberChar]

theorem isNumberChar_of_digit {c : Char} (h : '0' ≤ c ∧ c ≤ '9') : isNumberChar c = true := by
  simp [isNumberChar, h]

theorem isNumberKey_of_isDoubleText {s : String} (h : IsDoubleText s) : IsNumberKey s.toList := by
  cases h with
  | nan => exact ⟨no_stop_of_all (by decide), 'N', by decide, by decide⟩
  | infinity => exact ⟨no_stop_of_all (by decide), 'I', by decide, by decide⟩
  | negInfinity => exact ⟨no_stop_of_all (by decide), '-', by decide, by decide⟩
  | plain neg int frac hint =>
    rw [String.toList_ofList]
    refine isNumberKey_of_chars (by simp) ?_
    rw [List.forall_mem_append, List.forall_mem_append, List.forall_mem_cons]
    exact ⟨isNumberChar_minus neg, isNumberChar_map, by decide, isNumberChar_map⟩
  | scientific neg int frac exp hint =>
    rw [String.toList_ofList]
    have hfront : IsNumberKey (minus neg ++ int.map digitChar) := by
      refine isNumberKey_of_chars (by simp [hint]) ?_
      rw [List.forall_mem_append]
      exact ⟨isNumberChar_minus neg, isNumberChar_map⟩
    rw [← List.append_assoc]
    constructor
    · have hfrac : ∀ c ∈ frac.map digitChar, isStop c = false :=
        fun c hc => isStop_of_isNumberChar (isNumberChar_map c hc)
      have hexp : ∀ c ∈ 'E' :: formatInt exp, isStop c = false :=
        List.forall_mem_cons.mpr
          ⟨by decide, fun c hc => isStop_of_isNumberChar (isNumberChar_formatInt exp c hc)⟩
      exact List.forall_mem_append.mpr ⟨hfront.no_stop, List.forall_mem_cons.mpr
        ⟨by decide, List.forall_mem_append.mpr ⟨hfrac, hexp⟩⟩⟩
    · obtain ⟨c, hc, hstart⟩ := hfront.start
      exact ⟨c, by rw [List.head?_append, hc]; rfl, hstart⟩

section Numbers

variable {E}

/-- The decimal of a number's text fits, as the text does. -/
theorem fits_of_numberOf {n : String} (hn : n.toList.length < 2 ^ 62) {d : Decimal}
    (h : numberOf E n = some d) : d.Fits := by
  have hlength : (numberText E n).toList.length < 2 ^ 62 := by
    rcases numberText_cases E n with ⟨-, -, -, -, -, hle⟩ | ⟨-, hshort⟩
    · exact lt_of_le_of_lt hle hn
    · exact lt_of_le_of_lt hshort (by decide)
  have hparse : parseDecimalText E.digits E.arith (numberText E n) = some d := by
    rw [numberOf, parseBigDecimal] at h
    obtain ⟨p, hp, hd⟩ := Option.bind_eq_some_iff.mp h
    split_ifs at hd
    rw [parseDecimalText, hp, Option.map_some, Option.some.inj hd]
  exact (writes_iff E.arith (s := ⟨numberText E n, hlength⟩) hparse).2

theorem isDigit_of_ascii (U : DecimalDigits) {c : Char} (h : '0' ≤ c ∧ c ≤ '9') :
    isDigit U c = true := by
  have hlow : 48 ≤ c.toNat := h.1
  have hhigh : c.toNat ≤ 57 := h.2
  rw [isDigit_ascii U (by omega), Bool.and_eq_true, decide_eq_true_eq, decide_eq_true_eq]
  exact ⟨hlow, hhigh⟩

/-- A number whose text holds no decimal has a text that no decimal prints as:
    it is not a number, infinite, or has an exponent. -/
theorem exists_not_isNumberChar {n : String}
    (h : numberOf E n = none) :
    ∃ c ∈ (numberText E n).toList, isNumberChar c = false := by
  have hplain : ∀ m : Numeral E.digits, m.text = (numberText E n).toList → m.exponent = none →
      m.fracDigits.length < 2 ^ 31 → False := by
    intro m hm hexp hfrac
    obtain ⟨d, hd⟩ := parseBigDecimal_plain E.arith hm hexp hfrac
    exact absurd (h.symm.trans hd) (Option.some_ne_none d).symm
  rcases numberText_cases E n with ⟨neg, digits, hne, hdigits, htext, -⟩ | ⟨hdouble, hshort⟩
  · exfalso
    refine hplain (integerNumeral E.digits neg digits
      (fun c hc => isDigit_of_ascii E.digits (hdigits c hc)) hne) ?_ rfl ?_
    · rw [text_integerNumeral, htext]
    · show 0 < 2 ^ 31
      decide
  · generalize numberText E n = s at hdouble hshort hplain
    cases hdouble with
    | nan => exact ⟨'N', by decide, by decide⟩
    | infinity => exact ⟨'I', by decide, by decide⟩
    | negInfinity => exact ⟨'I', by decide, by decide⟩
    | plain neg int frac hint =>
      rw [String.toList_ofList] at hshort hplain
      simp only [List.length_append, List.length_cons, List.length_map] at hshort
      exfalso
      refine hplain (Numeral.ofDigits E.digits neg int (some frac) none hint) ?_ rfl ?_
      · rw [Numeral.text_ofDigits]
        show _ ++ (_ ++ ('.' :: frac.map digitChar ++ [])) = _
        rw [List.append_nil, minus]
      · show (frac.map digitChar).length < 2 ^ 31
        rw [List.length_map]
        omega
    | scientific neg int frac exp hint =>
      refine ⟨'E', ?_, by decide⟩
      rw [String.toList_ofList]
      simp

theorem isNumberKey_numberKey {n : String} (hn : n.toList.length < 2 ^ 62) :
    IsNumberKey (numberKey E n) := by
  rw [numberKey]
  cases hparse : numberOf E n with
  | some d =>
    have hfits := fits_of_numberOf hn hparse
    obtain ⟨m, hm, -, hchars⟩ := d.exists_numeral_string E.digits E.arith hfits
    show IsNumberKey (d.string E.arith).toList
    rw [hm] at hchars
    refine isNumberKey_of_chars ?_ hchars
    intro hnil
    have hstart := m.refusedStart_text
    rw [hm, hnil] at hstart
    cases hstart
  | none =>
    rcases numberText_cases E n with ⟨neg, digits, hne, hdigits, htext, -⟩ | ⟨hdouble, -⟩
    · show IsNumberKey (numberText E n).toList
      rw [htext]
      refine isNumberKey_of_chars (by simp [hne]) ?_
      exact List.forall_mem_append.mpr
        ⟨isNumberChar_minus neg, fun c hc => isNumberChar_of_digit (hdigits c hc)⟩
    · exact isNumberKey_of_isDoubleText hdouble

/-- Two number keys are equal exactly when the numbers are. -/
theorem numberKey_eq_iff {m n : String} (hm : m.toList.length < 2 ^ 62)
    (hn : n.toList.length < 2 ^ 62) :
    numberKey E m = numberKey E n ↔ sameNumber E m n = true := by
  have hmixed : ∀ {s t : String} {d : Decimal}, s.toList.length < 2 ^ 62 →
      numberOf E s = some d →
      numberOf E t = none →
      d.string E.arith ≠ numberText E t := by
    intro s t d hs hd ht heq
    obtain ⟨c, hc, hnot⟩ := exists_not_isNumberChar ht
    rw [← heq] at hc
    rw [Decimal.isNumberChar_string E.arith (fits_of_numberOf hs hd) c hc] at hnot
    cases hnot
  rw [numberKey, numberKey, sameNumber, String.toList_inj]
  cases hd : numberOf E m with
  | some d =>
    rw [if_neg (fun h => Option.some_ne_none d h.1), beq_iff_eq]
    cases he : numberOf E n with
    | some e =>
      rw [Option.some.injEq]
      refine ⟨?_, fun h => congrArg (Decimal.string E.arith) h⟩
      exact Decimal.string_injective E.arith (fits_of_numberOf hm hd) (fits_of_numberOf hn he)
    | none => exact iff_of_false (hmixed hm hd he) (Option.some_ne_none d)
  | none =>
    cases he : numberOf E n with
    | some e =>
      rw [if_neg (fun h => Option.some_ne_none e h.2), beq_iff_eq]
      exact iff_of_false (hmixed hn he hd).symm (Option.some_ne_none e).symm
    | none =>
      rw [if_pos ⟨rfl, rfl⟩, beq_iff_eq]
      rfl

end Numbers

/-! ## Keys as printed trees -/

/-- The quotation of structure keys. -/
def quotation : Quotation where
  quote := GoQuote.quote E.isPrint
  head := fun _ => rfl
  append_inj := GoQuote.quote_append_inj E.isPrint

mutual

/-- The tree that a structure key prints. -/
def tree : Value → Tree
  | .null => .word ['n', 'u', 'l', 'l']
  | .bool b => .word (formatBool b).toList
  | .number n => .word (numberKey E n)
  | .string s => .quoted s
  | .list items => .list (treeItems items)
  | .object members => .object ((Members.sortedKeys members).map fun k =>
    (k, ((treeMembers members).lookup k).getD (.word ['n', 'u', 'l', 'l'])))

def treeItems : List Value → List Tree
  | [] => []
  | v :: vs => tree v :: treeItems vs

def treeMembers : List (String × Value) → List (String × Tree)
  | [] => []
  | (k, v) :: ms => (k, tree v) :: treeMembers ms

end

theorem treeItems_eq_map (vs : List Value) : treeItems E vs = vs.map (tree E) := by
  induction vs with
  | nil => rfl
  | cons v vs ih => rw [treeItems, ih, List.map_cons]

theorem treeMembers_eq_map (ms : List (String × Value)) :
    treeMembers E ms = ms.map fun m => (m.1, tree E m.2) := by
  induction ms with
  | nil => rfl
  | cons m ms ih =>
    obtain ⟨k, v⟩ := m
    rw [treeMembers, ih, List.map_cons]

theorem tree_object (members : List (String × Value)) : tree E (.object members) =
    .object (Members.inKeyOrder (tree E) (.word ['n', 'u', 'l', 'l']) members) := by
  rw [tree, treeMembers_eq_map, Members.inKeyOrder]
  simp only [Members.lookup_map_snd]

theorem writeItems_eq_map (vs : List Value) :
    writeItems E vs = vs.map (writeStructureKey E) := by
  induction vs with
  | nil => rfl
  | cons v vs ih => rw [writeItems, ih, List.map_cons]

theorem writeMembers_eq_map (ms : List (String × Value)) :
    writeMembers E ms = ms.map fun m => (m.1, writeStructureKey E m.2) := by
  induction ms with
  | nil => rfl
  | cons m ms ih =>
    obtain ⟨k, v⟩ := m
    rw [writeMembers, ih, List.map_cons]

theorem writeStructureKey_eq_print (v : Value) :
    writeStructureKey E v = print (quotation E) (tree E v) := by
  induction v using Value.ind with
  | null => rfl
  | bool b => rfl
  | number n => rfl
  | string s => rfl
  | list items ih =>
    rw [writeStructureKey, tree, print, printItems_eq_map, writeItems_eq_map, treeItems_eq_map,
      List.map_map, List.map_congr_left ih]
    rfl
  | object members ih =>
    rw [writeStructureKey, tree_object, print, printMembers_eq_map, Members.inKeyOrder,
      List.map_map]
    have hentry : ∀ k : String,
        ((writeMembers E members).lookup k).getD ['n', 'u', 'l', 'l'] =
        print (quotation E) (((members.lookup k).map (tree E)).getD (.word ['n', 'u', 'l', 'l'])) := by
      intro k
      rw [writeMembers_eq_map, Members.lookup_map_snd]
      cases hk : members.lookup k with
      | none => rfl
      | some w => exact ih (k, w) (Members.mem_of_lookup hk)
    simp only [hentry]
    rfl

section Trees

variable {E}

/-- The tree of a value that a document holds can be read back. -/
theorem wellFormed_tree {v : Value} (hv : v.WellFormed) : (tree E v).WellFormed := by
  have hnull : IsWord ['n', 'u', 'l', 'l'] := ⟨no_stop_of_all (by decide), 'n', rfl, by decide⟩
  induction v using Value.ind with
  | null => exact .word hnull
  | bool b => exact .word (by cases b <;> exact ⟨no_stop_of_all (by decide), _, rfl, by decide⟩)
  | number n =>
    have hkey := isNumberKey_numberKey (E := E) hv
    obtain ⟨c, hc, hstart⟩ := hkey.start
    exact .word ⟨hkey.no_stop, c, hc, isOpen_of_isKeyStart hstart⟩
  | string s => exact .quoted s
  | list items ih =>
    rw [tree, treeItems_eq_map]
    refine .list fun t ht => ?_
    obtain ⟨w, hw, rfl⟩ := List.mem_map.mp ht
    exact ih w hw (Value.wellFormed_list.mp hv w hw)
  | object members ih =>
    rw [tree_object]
    refine .object fun m hm => ?_
    obtain ⟨k, -, rfl⟩ := List.mem_map.mp hm
    show (((members.lookup k).map (tree E)).getD _).WellFormed
    cases hk : members.lookup k with
    | none => exact .word hnull
    | some w =>
      have hmem := Members.mem_of_lookup hk
      exact ih (k, w) hmem ((Value.wellFormed_object.mp hv).2 (k, w) hmem)

theorem numberKey_ne {n : String} (hn : n.toList.length < 2 ^ 62) {c : Char} {cs : List Char}
    (hc : isKeyStart c = false) : numberKey E n ≠ c :: cs := by
  intro h
  obtain ⟨d, hd, hstart⟩ := (isNumberKey_numberKey (E := E) hn).start
  rw [h] at hd
  obtain rfl := Option.some.inj hd
  rw [hc] at hstart
  cases hstart

theorem sameItems_iff {vs ws : List Value} (ih : ∀ v ∈ vs, ∀ w ∈ ws,
      (tree E v = tree E w ↔ sameStructure E v w = true)) :
    vs.map (tree E) = ws.map (tree E) ↔ sameItems E vs ws = true := by
  induction vs generalizing ws with
  | nil => cases ws <;> simp [sameItems]
  | cons v vs ihs =>
    cases ws with
    | nil => simp [sameItems]
    | cons w ws =>
      simp only [sameItems, Bool.and_eq_true, List.map_cons, List.cons.injEq]
      rw [ih v List.mem_cons_self w List.mem_cons_self, ihs fun v' hv' w' hw' =>
        ih v' (List.mem_cons_of_mem v hv') w' (List.mem_cons_of_mem w hw')]

/-- Two values have one tree exactly when they have the same structure. -/
theorem tree_eq_iff {v w : Value} (hv : v.WellFormed) (hw : w.WellFormed) :
    tree E v = tree E w ↔ sameStructure E v w = true := by
  induction v using Value.ind generalizing w with
  | null =>
    cases w with
    | number n => simpa [tree, sameStructure] using (numberKey_ne hw (by decide)).symm
    | bool b => cases b <;> simp [tree, sameStructure, formatBool]
    | _ => simp [tree, sameStructure]
  | bool b =>
    cases w with
    | number n =>
      have hne : numberKey E n ≠ (formatBool b).toList := by
        cases b <;> exact numberKey_ne hw (by decide)
      simpa [tree, sameStructure] using hne.symm
    | bool b' => cases b <;> cases b' <;> simp [tree, sameStructure, formatBool]
    | null => cases b <;> simp [tree, sameStructure, formatBool]
    | _ => simp [tree, sameStructure]
  | number n =>
    cases w with
    | number n' =>
      simp only [tree, sameStructure, Tree.word.injEq]
      exact numberKey_eq_iff hv hw
    | bool b =>
      have hne : numberKey E n ≠ (formatBool b).toList := by
        cases b <;> exact numberKey_ne hv (by decide)
      simpa [tree, sameStructure] using hne
    | null => simpa [tree, sameStructure] using numberKey_ne hv (by decide)
    | _ => simp [tree, sameStructure]
  | string s => cases w <;> simp [tree, sameStructure]
  | list items ih =>
    cases w with
    | list items' =>
      simp only [tree, treeItems_eq_map, sameStructure, Tree.list.injEq]
      exact sameItems_iff fun v hv' w hw' => ih v hv' (Value.wellFormed_list.mp hv v hv')
        (Value.wellFormed_list.mp hw w hw')
    | _ => simp [tree, sameStructure]
  | object members ih =>
    cases w with
    | object members' =>
      obtain ⟨hnodup, hmembers⟩ := Value.wellFormed_object.mp hv
      obtain ⟨-, hmembers'⟩ := Value.wellFormed_object.mp hw
      rw [tree_object, tree_object, Tree.object.injEq, Members.inKeyOrder_eq_iff _ _ hnodup]
      simp only [sameStructure, Bool.and_eq_true, beq_iff_eq, sameMembers_iff]
      refine and_congr_right fun _ => forall₂_congr fun m hm => exists_congr fun w =>
        and_congr_right fun hlookup => ?_
      exact ih m hm (hmembers m hm) (hmembers' (m.1, w) (Members.mem_of_lookup hlookup))
    | _ => simp [tree, sameStructure]

theorem structureKey_eq_iff {v w : Value} (hv : v.WellFormed) (hw : w.WellFormed) :
    structureKey E v = structureKey E w ↔ sameStructure E v w = true := by
  rw [← tree_eq_iff hv hw, structureKey, structureKey, String.ofList_inj,
    writeStructureKey_eq_print, writeStructureKey_eq_print]
  exact ⟨print_injective (quotation E) (wellFormed_tree hv) (wellFormed_tree hw),
    fun h => by rw [h]⟩

end Trees

/-! ## Lists as sets -/

/-- Values up to equality of structure. -/
def structureSetoid : Setoid Json where
  r := fun v w => sameStructure E v.value w.value = true
  iseqv := by
    have hkey : ∀ v w : Json, sameStructure E v.value w.value = true ↔
        structureKey E v.value = structureKey E w.value :=
      fun v w => (structureKey_eq_iff v.wellFormed w.wellFormed).symm
    refine ⟨fun v => (hkey v v).mpr rfl, fun {v w} h => ?_, fun {v w u} h h' => ?_⟩
    · exact (hkey w v).mpr ((hkey v w).mp h).symm
    · exact (hkey v u).mpr (((hkey v w).mp h).trans ((hkey w u).mp h'))

def classes (l : List Json) : Set (Quotient (structureSetoid E)) :=
  {c | ∃ v ∈ l, c = Quotient.mk _ v}

section Lists

variable {E}

/-- The key an element adds is its structure key, whichever way it is read. -/
theorem elementKey_eq (e : Value) : elementKey E e = structureKey E e := by
  have hkeep : ∀ (keyOf : Value → String) (es : List Value) (r : Record),
      (es.foldl (addElement keyOf) r).structureText = r.structureText := by
    intro keyOf es
    induction es with
    | nil => intro r; rfl
    | cons e es ih =>
      intro r
      rw [List.foldl_cons, ih]
      cases e <;> rfl
  cases e with
  | list items =>
    cases items with
    | nil => rfl
    | cons e es =>
      rw [elementKey, ofElement, ofWith, listWithoutElements, hkeep]
      rfl
  | _ => rfl

theorem structureText_of {e : Value} {es : List Value} :
    (of E (.list (e :: es))).structureText = some (String.ofList ('[' :: (List.intercalate [',']
      ((GoText.sortedSet ((e :: es).map (structureKey E))).map String.toList) ++ [']']))) := by
  rw [of, ofWith, listWithElements, GoText.compact_insertionSort,
    List.map_congr_left fun e _ => elementKey_eq (E := E) e]

/-- Structure keys between brackets are told apart. -/
theorem bracketed_inj {xs ys : List String}
    (hxs : ∀ x ∈ xs, ∃ v : Json, x = structureKey E v.value)
    (hys : ∀ y ∈ ys, ∃ v : Json, y = structureKey E v.value)
    (h : '[' :: (List.intercalate [','] (xs.map String.toList) ++ [']']) =
      '[' :: (List.intercalate [','] (ys.map String.toList) ++ [']'])) : xs = ys := by
  have htrees : ∀ zs : List String, (∀ z ∈ zs, ∃ v : Json, z = structureKey E v.value) →
      ∃ ts : List Tree, (∀ t ∈ ts, t.WellFormed) ∧
        zs.map String.toList = ts.map (print (quotation E)) := by
    intro zs hzs
    induction zs with
    | nil => exact ⟨[], nofun, rfl⟩
    | cons z zs ih =>
      obtain ⟨v, rfl⟩ := hzs z List.mem_cons_self
      obtain ⟨ts, hts, hmap⟩ := ih fun y hy => hzs y (List.mem_cons_of_mem _ hy)
      refine ⟨tree E v.value :: ts,
        List.forall_mem_cons.mpr ⟨wellFormed_tree v.wellFormed, hts⟩, ?_⟩
      rw [List.map_cons, List.map_cons, hmap, structureKey, String.toList_ofList,
        writeStructureKey_eq_print]
  obtain ⟨ts, hts, hxt⟩ := htrees xs hxs
  obtain ⟨us, hus, hyu⟩ := htrees ys hys
  have hprint : print (quotation E) (.list ts) = print (quotation E) (.list us) := by
    rw [print, print, printItems_eq_map, printItems_eq_map, ← hxt, ← hyu]
    exact h
  have hlist := Tree.list.inj (print_injective (quotation E) (.list hts) (.list hus) hprint)
  have hmap : xs.map String.toList = ys.map String.toList := by rw [hxt, hyu, hlist]
  exact List.map_injective_iff.mpr (fun _ _ => String.toList_inj.mp) hmap

/-- Two non-empty lists have one structure key exactly when their elements have
    the same keys. -/
theorem structureText_eq_iff {l m : List Json} (hl : l ≠ []) (hm : m ≠ []) :
    (of E (.list (l.map Json.value))).structureText =
        (of E (.list (m.map Json.value))).structureText ↔
      ∀ key, (∃ v ∈ l, structureKey E v.value = key) ↔ ∃ v ∈ m, structureKey E v.value = key := by
  have htext : ∀ {n : List Json}, n ≠ [] → (of E (.list (n.map Json.value))).structureText =
      some (String.ofList ('[' :: (List.intercalate [','] ((GoText.sortedSet
        (n.map fun v => structureKey E v.value)).map String.toList) ++ [']']))) := by
    intro n hn
    cases n with
    | nil => exact absurd rfl hn
    | cons v vs =>
      rw [List.map_cons, structureText_of, ← List.map_cons, List.map_map]
      rfl
  have hkeys : ∀ (n : List Json), ∀ x ∈ GoText.sortedSet (n.map fun v => structureKey E v.value),
      ∃ v : Json, x = structureKey E v.value := by
    intro n x hx
    obtain ⟨v, -, rfl⟩ := List.mem_map.mp (GoText.mem_sortedSet.mp hx)
    exact ⟨v, rfl⟩
  have hset : GoText.sortedSet (l.map fun v => structureKey E v.value) =
      GoText.sortedSet (m.map fun v => structureKey E v.value) ↔
      ∀ key, (∃ v ∈ l, structureKey E v.value = key) ↔ ∃ v ∈ m, structureKey E v.value = key := by
    simp only [GoText.sortedSet_eq_iff, List.mem_map]
  rw [htext hl, htext hm, Option.some.injEq, String.ofList_inj, ← hset]
  exact ⟨bracketed_inj (hkeys l) (hkeys m), fun h => by rw [h]⟩

theorem classes_eq_iff {l m : List Json} : classes E l = classes E m ↔
    ∀ key, (∃ v ∈ l, structureKey E v.value = key) ↔ ∃ v ∈ m, structureKey E v.value = key := by
  have hclass : ∀ (n : List Json) (v : Json), Quotient.mk (structureSetoid E) v ∈ classes E n ↔
      ∃ w ∈ n, structureKey E w.value = structureKey E v.value := by
    intro n v
    refine exists_congr fun w => and_congr_right fun _ => ?_
    rw [Quotient.eq, eq_comm (a := structureKey E w.value)]
    exact (structureKey_eq_iff v.wellFormed w.wellFormed).symm
  constructor
  · intro h key
    have hdir : ∀ {l m : List Json}, classes E l = classes E m →
        (∃ v ∈ l, structureKey E v.value = key) → ∃ v ∈ m, structureKey E v.value = key := by
      rintro l m h ⟨v, hv, rfl⟩
      rw [← hclass m v, ← h, hclass]
      exact ⟨v, hv, rfl⟩
    exact ⟨hdir h, hdir h.symm⟩
  · intro h
    ext c
    obtain ⟨v, rfl⟩ := Quotient.exists_rep c
    rw [hclass, hclass]
    exact h (structureKey E v.value)

/-- Structure keys decide equality of structure, and those of non-empty lists
    equality of the sets of their elements. -/
theorem structure_keys_decide (E : Externals) :
    (∀ v w : Json, structureKey E v.value = structureKey E w.value ↔
      sameStructure E v.value w.value = true) ∧
    ∀ l m : List Json, l ≠ [] → m ≠ [] →
      ((of E (.list (l.map Json.value))).structureText =
        (of E (.list (m.map Json.value))).structureText ↔ classes E l = classes E m) := by
  refine ⟨fun v w => structureKey_eq_iff v.wellFormed w.wellFormed, fun l m hl hm => ?_⟩
  rw [structureText_eq_iff hl hm, classes_eq_iff]

/-- A platform on which every fraction reads as no number. -/
def Externals.integers : Externals where
  unicode := .ascii
  digits := .asciiOnly
  arith := .go
  doubles := ⟨Unit, fun _ => (), fun _ => "NaN", fun _ => .nan, fun _ => by decide⟩
  isPrint := fun c => 0x20 ≤ c.toNat && c.toNat < 0x7f

/-- The order of a list, repeats and leading zeros do not matter. -/
theorem structure_key_of_set :
    (of .integers (.list [.number "1", .string "a", .number "1"])).structureText =
      (of .integers (.list [.string "a", .number "01"])).structureText ∧
    (∃ one zeroOne a : Json, one.value = .number "1" ∧ zeroOne.value = .number "01" ∧
      a.value = .string "a" ∧ classes .integers [one, a, one] = classes .integers [a, zeroOne]) := by
  have htext : (of .integers (.list [.number "1", .string "a", .number "1"])).structureText =
      (of .integers (.list [.string "a", .number "01"])).structureText := by decide +kernel
  let one : Json := ⟨.number "1", show "1".toList.length < 2 ^ 62 by decide⟩
  let zeroOne : Json := ⟨.number "01", show "01".toList.length < 2 ^ 62 by decide⟩
  let a : Json := ⟨.string "a", trivial⟩
  exact ⟨htext, one, zeroOne, a, rfl, rfl, rfl, ((structure_keys_decide .integers).2
    [one, a, one] [a, zeroOne] (by simp) (by simp)).mp htext⟩

end Lists

end AuthzAgent.Legacyvalue
