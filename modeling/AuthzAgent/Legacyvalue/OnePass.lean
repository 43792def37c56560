/-
  AuthzAgent.Legacyvalue.OnePass

  The record of a list with its elements (`listWithElements` of record.go) joins
  the texts of the element records instead of reading the elements again.

  The join is right because `Fold` is a map over characters on both of its paths
  (`fold_eq_map`), so it goes along a concatenation, and because the texts taken
  of an element are its own (`elementTexts_eq`).  State, class and keys are those
  of one loop that sees the same keys (`foldl_addElement_congr`).
-/

import AuthzAgent.Legacyvalue.Record

namespace AuthzAgent.Legacyvalue

open Jsonvalue

variable (E : Externals)

/-! ## Fold -/

/-- `unicode.ToLower(unicode.ToUpper(c))` -/
def foldChar (c : Char) : Char := E.unicode.lower (E.unicode.upper c)

/-- On ASCII the two mappings together are the lower case. -/
theorem foldChar_ascii {c : Char} (hc : c.toNat < 128) : foldChar E c = c.toLower := by
  have htable : ∀ n < 128, (Char.ofNat n).toUpper.toNat < 128 ∧
      (Char.ofNat n).toUpper.toLower = (Char.ofNat n).toLower := by
    decide
  obtain ⟨hupper, hlower⟩ := htable c.toNat hc
  rw [Char.ofNat_toNat] at hupper hlower
  rw [foldChar, E.unicode.upper_ascii c hc, E.unicode.lower_ascii _ hupper, hlower]

/-- Both paths of `Fold` map each character. -/
theorem fold_eq_map (s : String) : fold E s = String.ofList (s.toList.map (foldChar E)) := by
  rw [fold]
  split_ifs with hwide hupper
  · rfl
  · have hascii : ∀ c ∈ s.toList, c.toNat < 128 := by
      intro c hc
      have hnot := List.any_eq_false.mp (Bool.eq_false_of_not_eq_true hwide) c hc
      simpa using hnot
    rw [GoText.Unicode.toLower]
    congr 1
    refine List.map_congr_left fun c hc => ?_
    rw [foldChar_ascii E (hascii c hc), E.unicode.lower_ascii c (hascii c hc)]
  · -- no character has another lower case
    have hsame : s.toList.map (foldChar E) = s.toList.map id := by
      refine List.map_congr_left fun c hc => ?_
      have hascii : c.toNat < 128 := by
        have hnot := List.any_eq_false.mp (Bool.eq_false_of_not_eq_true hwide) c hc
        simpa using hnot
      have hlower := List.any_eq_false.mp (Bool.eq_false_of_not_eq_true hupper) c hc
      rw [foldChar_ascii E hascii, Char.toLower, dif_neg]
      · rfl
      · rintro ⟨hlow, hhigh⟩
        exact hlower (by rw [Bool.and_eq_true, decide_eq_true_eq, decide_eq_true_eq]; exact ⟨hlow, hhigh⟩)
    rw [hsame, List.map_id, String.ofList_toList]

theorem fold_append (s t : String) : fold E (s ++ t) = fold E s ++ fold E t := by
  rw [fold_eq_map, fold_eq_map, fold_eq_map, String.toList_append, List.map_append,
    String.ofList_append]

/-- A text without letters folds to itself. -/
theorem fold_separator : fold E ", " = ", " ∧ fold E "[" = "[" ∧ fold E "]" = "]" := by
  refine ⟨?_, ?_, ?_⟩ <;> rw [fold_eq_map] <;> simp [foldChar_ascii]

theorem fold_intercalate (texts : List String) :
    fold E (String.intercalate ", " texts) = String.intercalate ", " (texts.map (fold E)) := by
  induction texts with
  | nil => rw [fold_eq_map]; rfl
  | cons t texts ih =>
    cases texts with
    | nil => rw [List.map_singleton, String.intercalate_singleton, String.intercalate_singleton]
    | cons u texts =>
      rw [List.map_cons] at ih
      rw [String.intercalate_cons_cons, fold_append, fold_append, ih, (fold_separator E).1,
        List.map_cons, List.map_cons, String.intercalate_cons_cons]

/-! ## Texts of elements -/

theorem textItems_eq_map (items : List Value) : textItems E items = items.map (text E) := by
  induction items with
  | nil => rw [textItems, List.map_nil]
  | cons v vs ih => rw [textItems, ih, List.map_cons]

theorem text_list (items : List Value) :
    text E (.list items) = "[" ++ String.intercalate ", " (items.map (text E)) ++ "]" := by
  rw [text, textItems_eq_map]

theorem fold_text_list (items : List Value) :
    fold E (text E (.list items)) =
      "[" ++ String.intercalate ", " (items.map fun e => fold E (text E e)) ++ "]" := by
  obtain ⟨-, hopen, hclose⟩ := fold_separator E
  rw [text_list, fold_append, fold_append, fold_intercalate, hopen, hclose, List.map_map]
  rfl

/-- What the loop over the elements leaves alone. -/
theorem foldl_addElement_frame (keyOf : Value → String) (list : List Value) (r : Record) :
    (list.foldl (addElement keyOf) r).key = r.key ∧
      (list.foldl (addElement keyOf) r).caseKey = r.caseKey ∧
      (list.foldl (addElement keyOf) r).elements = r.elements := by
  induction list generalizing r with
  | nil => exact ⟨rfl, rfl, rfl⟩
  | cons e list ih =>
    have hstep : (addElement keyOf r e).key = r.key ∧
        (addElement keyOf r e).caseKey = r.caseKey ∧
        (addElement keyOf r e).elements = r.elements := by
      cases e <;> exact ⟨rfl, rfl, rfl⟩
    obtain ⟨hkey, hcase, helements⟩ := ih (addElement keyOf r e)
    rw [List.foldl_cons, hkey, hcase, helements]
    exact hstep

/-- Two loops that take the same keys agree on state, class and keys. -/
theorem foldl_addElement_congr {f g : Value → String} {list : List Value}
    (hkeys : ∀ e ∈ list, f e = g e) {r r' : Record} (hstate : r.state = r'.state)
    (hclass : r.cls = r'.cls) (hks : r.keys = r'.keys) :
    (list.foldl (addElement f) r).state = (list.foldl (addElement g) r').state ∧
      (list.foldl (addElement f) r).cls = (list.foldl (addElement g) r').cls ∧
      (list.foldl (addElement f) r).keys = (list.foldl (addElement g) r').keys := by
  induction list generalizing r r' with
  | nil => exact ⟨hstate, hclass, hks⟩
  | cons e list ih =>
    have hrest : ∀ d ∈ list, f d = g d := fun d hd => hkeys d (List.mem_cons_of_mem e hd)
    have happend : r.keys ++ [f e] = r'.keys ++ [g e] := by
      rw [hks, hkeys e List.mem_cons_self]
    rw [List.foldl_cons, List.foldl_cons]
    cases e with
    | null => exact ih hrest rfl rfl hks
    | bool b => exact ih hrest hstate hclass happend
    | number n => exact ih hrest hstate hclass happend
    | string s => exact ih hrest hstate hclass happend
    | list items => exact ih hrest hstate rfl happend
    | object members => exact ih hrest hstate rfl happend

theorem elementTexts_eq (e : Value) : elementTexts E e = (text E e, fold E (text E e)) := by
  cases e with
  | null => rfl
  | bool b => rw [text]; rfl
  | number n => rw [text]; rfl
  | string s => rw [text]; rfl
  | object members => rfl
  | list items =>
    cases items with
    | nil => rfl
    | cons e es =>
      obtain ⟨hkey, hcase, -⟩ := foldl_addElement_frame (fun e => fold E (text E e)) (e :: es)
        { state := .value, cls := some .list, type := some .array
          key := some (fold E (text E (.list (e :: es)))), caseKey := some (text E (.list (e :: es)))
          structureText := some (structureKey E (.list (e :: es))) }
      rw [elementTexts]
      simp only [ofElement, ofWith, listWithoutElements, hkey, hcase]

/-! ## The record of a list -/

/-- The record of a non-empty list that is built from the records of its elements
    has the texts of the list, and the keys, state and class of the record that
    reads the elements directly. -/
theorem listWithElements_agrees (e : Value) (es : List Value) :
    (listWithElements E (e :: es)).caseKey = some (text E (.list (e :: es))) ∧
      (listWithElements E (e :: es)).key = some (fold E (text E (.list (e :: es)))) ∧
      (listWithElements E (e :: es)).keys = (ofElement E (.list (e :: es))).keys ∧
      (listWithElements E (e :: es)).state = (ofElement E (.list (e :: es))).state ∧
      (listWithElements E (e :: es)).cls = (ofElement E (.list (e :: es))).cls ∧
      ∀ i : Nat, (listWithElements E (e :: es)).elements[i]? =
        ((e :: es)[i]?).map (ofElement E) := by
  obtain ⟨list, hlist⟩ : ∃ list, e :: es = list := ⟨_, rfl⟩
  have hdirect : ofElement E (.list (e :: es)) = listWithoutElements E (e :: es) := rfl
  rw [hdirect, hlist]
  have htexts : list.map (elementTexts E) = list.map fun d => (text E d, fold E (text E d)) :=
    List.map_congr_left fun d _ => elementTexts_eq E d
  have hkeys : ∀ d ∈ list, (elementTexts E d).2 = fold E (text E d) := by
    intro d _
    rw [elementTexts_eq]
  refine ⟨?_, ?_, ?_, ?_, ?_, fun i => ?_⟩
  · show some ("[" ++ String.intercalate ", " ((list.map (elementTexts E)).map Prod.fst) ++ "]") = _
    rw [text_list, htexts, List.map_map]
    rfl
  · show some ("[" ++ String.intercalate ", " ((list.map (elementTexts E)).map Prod.snd) ++ "]") = _
    rw [fold_text_list, htexts, List.map_map]
    rfl
  · refine (foldl_addElement_congr hkeys ?_ ?_ ?_).2.2 <;> rfl
  · refine (foldl_addElement_congr hkeys ?_ ?_ ?_).1 <;> rfl
  · refine (foldl_addElement_congr hkeys ?_ ?_ ?_).2.1 <;> rfl
  · have helements := (foldl_addElement_frame (fun d => (elementTexts E d).2) list
      { state := .value, cls := some .list, type := some .array
        elements := list.map (ofElement E) }).2.2
    rw [← List.getElem?_map]
    exact congrArg (·[i]?) helements

end AuthzAgent.Legacyvalue
