/-
  AuthzAgent.Jsonpath.Meaning

  What a path selects, step by step and without a budget, and that `Select`
  gives it wherever it does not refuse.

  Over one value a step goes on with one value, goes on with several, or ends
  the path (`selectOne`).  Over several values each step is taken for each of
  them, and a value for which it fails contributes nothing (`selectSeveral`).
  The slice bounds, the negative indexes and the deep scan are stated here in
  their own terms, and compared with the arithmetic and the loops of the source.
-/

import AuthzAgent.Jsonpath.Select

namespace AuthzAgent.Jsonpath

open Jsonvalue Metered

/-! ## The meaning of a path -/

/-- The element at an index; a negative one counts from the end. -/
def elementOf (items : List Value) (i : Int) : Option Value :=
  if 0 ≤ i then items[i.toNat]? else if 0 ≤ i + items.length then items[(i + items.length).toNat]?
  else none

/-- A bound as a position in a list of some length. -/
def position (n : Nat) (bound : Int) : Int := if bound < 0 then bound + n else bound

/-- Whether a position lies between the bounds that there are. -/
def between (n : Nat) (lo hi : Option Int) (p : Nat) : Bool :=
  lo.all (fun lo => position n lo ≤ p) && hi.all (fun hi => p < position n hi)

/-- The elements between two bounds. -/
def elementsBetween (items : List Value) (lo hi : Option Int) : List Value :=
  (items.zipIdx.filter fun e => between items.length lo hi e.2).map Prod.fst

mutual

/-- Every member of a name at any depth, an own one before those inside. -/
def scan (key : String) : Value → List Value
  | .object members => (members.lookup key).toList ++ scanMembers key members
  | .list items => scanItems key items
  | .null => []
  | .bool _ => []
  | .number _ => []
  | .string _ => []

def scanItems (key : String) : List Value → List Value
  | [] => []
  | v :: vs => scan key v ++ scanItems key vs

def scanMembers (key : String) : List (String × Value) → List Value
  | [] => []
  | (_, v) :: ms => scan key v ++ scanMembers key ms

end

/-- The elements of a list and the members of an object. -/
def children : Value → List Value
  | .list items => items
  | .object members => members.map Prod.snd
  | _ => []

def elements? : Value → Option (List Value)
  | .list items => some items
  | _ => none

/-- What a step selects of a value among several. -/
def branches : Step → Value → List Value
  | .key key, v => (getMember key v).toList
  | .deep key, v => scan key v
  | .star, v => children v
  | .filter test _, v => ((tested v).getD []).filter test
  | .index i, v => (elements? v).toList.flatMap fun items => (elementOf items i).toList
  | .indexList is, v => (elements? v).toList.flatMap fun items => is.filterMap (elementOf items)
  | .slice lo hi, v => (elements? v).toList.flatMap fun items => elementsBetween items lo hi
  | .rootBracket, _ => []
  | .function _, _ => []

section Meaning

variable (F : Floats)

/-- A value that a function computes. -/
def Outcome.value? : Outcome → Option Value
  | .computed v => some v
  | _ => none

/-- Whether a function throws. -/
def Outcome.isThrown : Outcome → Bool
  | .thrown => true
  | _ => false

/-- A function of each of several values. -/
def applyEach (name : Function) (vs : List Value) : Result :=
  let outcomes := vs.map (apply F name)
  if outcomes.any Outcome.isThrown then .missing else .many (outcomes.filterMap Outcome.value?)

def selectSeveral (vs : List Value) : List Step → Result
  | [] => .many vs
  | .function name :: _ => applyEach F name vs
  | .rootBracket :: _ => .bracket
  | s :: steps => selectSeveral (vs.flatMap (branches s)) steps

def selectOne (pos : Nat) (v : Value) : List Step → Result
  | [] => .one v
  | .key key :: steps =>
    match getMember key v with
    | some m => selectOne (pos + 1) m steps
    | none => missingKey pos v
  | .index i :: steps =>
    match elements? v with
    | none => .missing
    | some items =>
      match elementOf items i with
      | some e => selectOne (pos + 1) e steps
      | none => .indexOutOfBounds
  | .deep key :: steps => selectSeveral F (scan key v) steps
  | .star :: steps => selectSeveral F (children v) steps
  | .filter test _ :: steps =>
    match tested v with
    | none => .missing
    | some es => selectSeveral F (es.filter test) steps
  | .indexList is :: steps =>
    match elements? v with
    | none => .missing
    | some items => selectSeveral F (is.filterMap (elementOf items)) steps
  | .slice lo hi :: steps =>
    match elements? v with
    | none => .missing
    | some items => selectSeveral F (elementsBetween items lo hi) steps
  | .rootBracket :: _ => .bracket
  | .function name :: _ =>
    match (apply F name v).value? with
    | some w => .one w
    | none => .missing

/-- What a path selects of a document.  A null document is refused, unless the
    path never reads it. -/
def meaning (p : Path) (doc : Value) : Result :=
  if refusesDocument p doc then .missing else selectOne F 0 doc p.steps

end Meaning

/-! ## Elements and slices -/

/-- The index that the source computes is the one that is meant. -/
theorem elementAt_eq (items : List Value) (i : Int) : elementAt items i = elementOf items i := by
  rw [elementAt, elementIndex, elementOf]
  split_ifs with hrange hpos hneg
  · -- from the front
    rw [Int.add_emod_right, Int.emod_eq_of_lt hpos hrange.2]
    rfl
  · rw [Int.emod_eq_of_lt hneg (by omega)]
    rfl
  · omega
  · rw [Option.bind_none, eq_comm, List.getElem?_eq_none_iff]
    omega
  · omega
  · rfl

theorem clamp_range {n dflt : Int} (hdflt : 0 ≤ dflt ∧ dflt ≤ n) (bound : Option Int) :
    0 ≤ clamp n bound dflt ∧ clamp n bound dflt ≤ n := by
  cases bound with
  | none => exact hdflt
  | some i =>
    simp only [clamp]
    omega

/-- Filtering the positions of a list by an interval takes that part of it. -/
theorem filter_zipIdx_interval {α : Type} (items : List α) (a b : Nat) (from_ : Nat) :
    ((items.zipIdx from_).filter fun e => decide (a ≤ e.2 ∧ e.2 < b)).map Prod.fst =
      (items.take (b - from_)).drop (a - from_) := by
  induction items generalizing from_ with
  | nil => simp
  | cons x xs ih =>
    rw [List.zipIdx_cons, List.filter_cons]
    split_ifs with h
    · have h : a ≤ from_ ∧ from_ < b := of_decide_eq_true h
      rw [List.map_cons, ih, show b - from_ = (b - (from_ + 1)) + 1 by omega,
        show a - from_ = 0 by omega, show a - (from_ + 1) = 0 by omega]
      rfl
    · have h : ¬ (a ≤ from_ ∧ from_ < b) := fun hd => h (decide_eq_true hd)
      rw [ih]
      by_cases hb : from_ < b
      · rw [show b - from_ = (b - (from_ + 1)) + 1 by omega,
          show a - from_ = (a - (from_ + 1)) + 1 by omega, List.take_succ_cons, List.drop_succ_cons]
      · rw [show b - from_ = 0 by omega, show b - (from_ + 1) = 0 by omega]
        simp

theorem le_position_iff {n : Nat} {lo : Option Int} {p : Nat} (hp : p < n) :
    lo.all (fun lo => position n lo ≤ p) = true ↔ (clamp n lo 0).toNat ≤ p := by
  cases lo with
  | none => simp [clamp]
  | some lo =>
    rw [Option.all_some, decide_eq_true_eq]
    simp only [position, clamp]
    split_ifs <;> omega

theorem lt_position_iff {n : Nat} {hi : Option Int} {p : Nat} (hp : p < n) :
    hi.all (fun hi => p < position n hi) = true ↔ p < (clamp n hi n).toNat := by
  cases hi with
  | none => simpa [clamp] using hp
  | some hi =>
    rw [Option.all_some, decide_eq_true_eq]
    simp only [position, clamp]
    split_ifs <;> omega

/-- The clamped bounds select the positions between the bounds. -/
theorem slice_eq (items : List Value) (lo hi : Option Int) :
    slice items lo hi = elementsBetween items lo hi := by
  obtain ⟨a, ha⟩ : ∃ a, (clamp items.length lo 0) = a := ⟨_, rfl⟩
  obtain ⟨b, hb⟩ : ∃ b, (clamp items.length hi items.length) = b := ⟨_, rfl⟩
  have hfilter : ∀ e ∈ items.zipIdx, between items.length lo hi e.2 =
      decide (a.toNat ≤ e.2 ∧ e.2 < b.toNat) := by
    intro e he
    have hp : e.2 < items.length := by
      have hlt := List.snd_lt_add_of_mem_zipIdx he
      omega
    rw [between, Bool.eq_iff_iff, Bool.and_eq_true, le_position_iff hp, lt_position_iff hp, ha, hb,
      decide_eq_true_eq]
  rw [elementsBetween, List.filter_congr hfilter, filter_zipIdx_interval, Nat.sub_zero, Nat.sub_zero,
    List.drop_take]
  have hrange := clamp_range (show 0 ≤ (0 : Int) ∧ (0 : Int) ≤ items.length by omega) lo
  have hrange' := clamp_range ⟨Int.natCast_nonneg items.length, Int.le_refl _⟩ hi
  rw [ha] at hrange
  rw [hb] at hrange'
  simp only [slice, sliceBounds, ha, hb]
  split_ifs with hempty
  · rw [show b.toNat - a.toNat = 0 by omega, List.take_zero]
  · dsimp only
    rw [show (b - a).toNat = b.toNat - a.toNat by omega]

/-! ## Steps over several values -/

section Values

variable {F : Floats}

/-- The deep walk extends its result by what the scan gives. -/
theorem value_walk (key : String) (v : Value) (out : List Value) :
    (walk key out v : Trace Charge (List Value)).value = out ++ scan key v := by
  induction v using Value.ind generalizing out with
  | null | bool | number | string =>
    rw [walk, scan, List.append_nil]
    rfl
  | list items ih =>
    rw [walk, value_bind, scan]
    induction items generalizing out with
    | nil => exact (List.append_nil out).symm
    | cons v vs ihs =>
      rw [walkItems, value_bind, ih v List.mem_cons_self,
        ihs (fun u hu => ih u (List.mem_cons_of_mem v hu)), scanItems, List.append_assoc]
  | object members ih =>
    rw [walk, value_bind, scan, ← List.append_assoc]
    generalize out ++ (members.lookup key).toList = out
    induction members generalizing out with
    | nil => exact (List.append_nil out).symm
    | cons n ns ihs =>
      obtain ⟨k, v⟩ := n
      rw [walkMembers, value_bind, ih (k, v) List.mem_cons_self,
        ihs (fun u hu => ih u (List.mem_cons_of_mem (k, v) hu)), scanMembers, List.append_assoc]

theorem value_selectStar (next : List Value) (v : Value) :
    (selectStar next v : Trace Charge (List Value)).value = next ++ children v := by
  cases v with
  | list items => rfl
  | object members => rfl
  | _ => exact (List.append_nil next).symm

theorem value_testElement (test : Value → Bool) (reads : List String) (next : List Value) (e : Value) :
    (testElement test reads next e : Trace Charge (List Value)).value =
      next ++ [e].filter test := by
  rw [testElement, value_bind]
  show (if test e = true then next ++ [e] else next) = next ++ [e].filter test
  split_ifs with h
  · rw [List.filter_singleton, h]
    rfl
  · rw [List.filter_singleton, Bool.eq_false_of_not_eq_true h]
    exact (List.append_nil next).symm

/-- A filter step over the values that it can test. -/
theorem value_selectFilter (test : Value → Bool) (reads : List String) {many : Bool}
    {cur : List Value} (hcur : many = true ∨ ∀ v ∈ cur, (tested v).isSome = true)
    (next : List Value) :
    (selectFilter test reads many next cur : Trace Charge (Except Result (List Value))).value =
      .ok (next ++ cur.flatMap fun v => ((tested v).getD []).filter test) := by
  induction cur generalizing next with
  | nil => rw [selectFilter, List.flatMap_nil, List.append_nil]; rfl
  | cons v vs ih =>
    have hvs := hcur.imp_right fun h u hu => h u (List.mem_cons_of_mem v hu)
    rw [selectFilter, List.flatMap_cons]
    cases ht : tested v with
    | none =>
      have hmany : many = true := by
        rcases hcur with h | h
        · exact h
        · have hv := h v List.mem_cons_self
          rw [ht] at hv
          cases hv
      dsimp only
      rw [if_pos hmany, ih hvs]
      rfl
    | some es =>
      dsimp only
      have hes : ∀ es : List Value, es.flatMap (fun e => [e].filter test) = es.filter test := by
        intro es
        induction es with
        | nil => rfl
        | cons e es ih => rw [List.flatMap_cons, ih, ← List.filter_append]; rfl
      rw [value_bind, value_foldlM_append (value_testElement test reads), ih hvs, hes,
        Option.getD_some, List.append_assoc]

theorem value_selectIndexList (is : List Int) (next : List Value) (v : Value) :
    (selectIndexList is next v : Trace Charge (List Value)).value =
      next ++ branches (.indexList is) v := by
  cases v with
  | list items =>
    rw [selectIndexList, value_bind]
    show next ++ is.filterMap (elementAt items) = _
    rw [funext (elementAt_eq items)]
    simp [branches, elements?]
  | _ => exact (List.append_nil next).symm

theorem value_selectSlice (lo hi : Option Int) (next : List Value) (v : Value) :
    (selectSlice lo hi next v : Trace Charge (List Value)).value =
      next ++ branches (.slice lo hi) v := by
  cases v with
  | list items =>
    rw [selectSlice, value_bind]
    show next ++ slice items lo hi = _
    rw [slice_eq]
    simp [branches, elements?]
  | _ => exact (List.append_nil next).symm

theorem selectKey_several (key : String) (pos : Nat) (cur : List Value) :
    selectKey key pos true cur = .ok (cur.flatMap (branches (.key key))) := by
  induction cur with
  | nil => rfl
  | cons v vs ih =>
    rw [selectKey, List.flatMap_cons, branches]
    cases getMember key v with
    | none => exact ih
    | some m =>
      dsimp only
      rw [ih]
      rfl

theorem selectIndex_several (i : Int) (cur : List Value) :
    selectIndex i true cur = .ok (cur.flatMap (branches (.index i))) := by
  induction cur with
  | nil => rfl
  | cons v vs ih =>
    rw [List.flatMap_cons]
    cases v with
    | list items =>
      have hbranch : branches (.index i) (.list items) = (elementOf items i).toList := by
        simp [branches, elements?]
      rw [selectIndex, elementAt_eq, hbranch]
      cases elementOf items i with
      | none => exact ih
      | some e =>
        dsimp only
        rw [ih]
        rfl
    | _ => exact ih

/-- A step that ends a path wherever it stands. -/
def Step.ends : Step → Bool
  | .function _ => true
  | .rootBracket => true
  | _ => false

theorem value_advance_key (pos : Nat) (many : Bool) (cur : List Value) (key : String) :
    (advance F pos many cur (.key key) : Trace Charge (Except Result (Bool × List Value))).value =
      (selectKey key pos many cur).map fun next => (many, next) := rfl

theorem value_advance_index (pos : Nat) (many : Bool) (cur : List Value) (i : Int) :
    (advance F pos many cur (.index i) : Trace Charge (Except Result (Bool × List Value))).value =
      (selectIndex i many cur).map fun next => (many, next) := rfl

/-- A step over several values is taken for each of them. -/
theorem value_advance_several {s : Step} (hs : s.ends = false) (pos : Nat) (cur : List Value) :
    (advance F pos true cur s : Trace Charge (Except Result (Bool × List Value))).value =
      .ok (true, cur.flatMap (branches s)) := by
  cases s with
  | key key =>
    rw [value_advance_key, selectKey_several]
    rfl
  | deep key =>
    rw [advance, value_bind, value_foldlM_append fun out v => value_walk key v out]
    rfl
  | star =>
    rw [advance, value_bind, value_foldlM_append value_selectStar]
    rfl
  | filter test reads =>
    rw [advance, value_bind, value_selectFilter test reads (.inl rfl)]
    rfl
  | index i =>
    rw [value_advance_index, selectIndex_several]
    rfl
  | indexList is =>
    rw [advance, selectLists, Bool.not_true, Bool.false_and, if_neg Bool.false_ne_true, value_bind,
      value_foldlM_append (value_selectIndexList is)]
    rfl
  | slice lo hi =>
    rw [advance, selectLists, Bool.not_true, Bool.false_and, if_neg Bool.false_ne_true, value_bind,
      value_foldlM_append (value_selectSlice lo hi)]
    rfl
  | rootBracket => cases hs
  | function name => cases hs

theorem value_advanceAll_cons (pos : Nat) (many : Bool) (cur : List Value) (s : Step)
    (steps : List Step) :
    (advanceAll F pos many cur (s :: steps) :
        Trace Charge (Except Result (Bool × List Value))).value =
      match (advance F pos many cur s : Trace Charge (Except Result (Bool × List Value))).value with
      | .error r => .error r
      | .ok (many, cur) => (advanceAll F (pos + 1) many cur steps :
          Trace Charge (Except Result (Bool × List Value))).value := by
  rw [advanceAll, value_bind]
  cases (advance F pos many cur s : Trace Charge (Except Result (Bool × List Value))).value <;> rfl

theorem function_several (name : Function) (cur : List Value) :
    function F name cur true = applyEach F name cur := by
  have hall : applyAll F name cur =
      if (cur.map (apply F name)).any Outcome.isThrown then none
      else some ((cur.map (apply F name)).filterMap Outcome.value?) := by
    induction cur with
    | nil => rfl
    | cons v vs ih =>
      rw [applyAll, List.map_cons, List.any_cons, List.filterMap_cons]
      cases apply F name v with
      | computed w =>
        simp only [Outcome.isThrown, Outcome.value?, ih, Bool.false_or]
        split_ifs <;> rfl
      | empty => simp only [Outcome.isThrown, Outcome.value?, ih, Bool.false_or]
      | thrown => rfl
  rw [function, if_pos rfl, hall, applyEach]
  split_ifs <;> rfl

/-- What `Select` returns from a state of its loop. -/
def resultFrom (F : Floats) (pos : Nat) (many : Bool) (cur : List Value) (steps : List Step) :
    Result :=
  (conclude (advanceAll F pos many cur steps :
    Trace Charge (Except Result (Bool × List Value))).value : Trace Charge Result).value

/-- The loop over several values. -/
theorem resultFrom_several (steps : List Step) (pos : Nat) (cur : List Value) :
    resultFrom F pos true cur steps = selectSeveral F cur steps := by
  induction steps generalizing pos cur with
  | nil => rfl
  | cons s steps ih =>
    rw [resultFrom, value_advanceAll_cons]
    by_cases hs : s.ends = true
    · cases s with
      | function name =>
        rw [selectSeveral, ← function_several]
        rfl
      | rootBracket => rfl
      | _ => cases hs
    · have hs := Bool.eq_false_of_not_eq_true hs
      have hnext : selectSeveral F cur (s :: steps) =
          selectSeveral F (cur.flatMap (branches s)) steps := by
        cases s with
        | function name => cases hs
        | rootBracket => cases hs
        | _ => rfl
      rw [value_advance_several hs, hnext]
      exact ih (pos + 1) _

theorem resultFrom_lists {select : List Value → Value → Trace Charge (List Value)} {s : Step}
    (hselect : ∀ next v, (select next v).value = next ++ branches s v) {pos : Nat} {v : Value}
    (hstep : advance F pos false [v] s = selectLists select false [v]) (steps : List Step) :
    resultFrom F pos false [v] (s :: steps) =
      match elements? v with
      | none => .missing
      | some _ => selectSeveral F (branches s v) steps := by
  rw [resultFrom, value_advanceAll_cons, hstep, selectLists]
  cases v with
  | list items =>
    rw [show (!false && !firstIsList [Value.list items]) = false from rfl,
      if_neg Bool.false_ne_true, value_bind, value_foldlM_append hselect, List.flatMap_singleton]
    exact resultFrom_several steps (pos + 1) _
  | _ => rfl

/-- The loop over one value. -/
theorem resultFrom_one (steps : List Step) (pos : Nat) (v : Value) :
    resultFrom F pos false [v] steps = selectOne F pos v steps := by
  induction steps generalizing pos v with
  | nil => rfl
  | cons s steps ih =>
    have hcons := value_advanceAll_cons (F := F) pos false [v] s steps
    cases s with
    | key key =>
      rw [resultFrom, hcons, value_advance_key, selectOne, selectKey]
      cases getMember key v with
      | none => rfl
      | some m => exact ih (pos + 1) m
    | index i =>
      rw [resultFrom, hcons, value_advance_index, selectOne]
      cases v with
      | list items =>
        rw [selectIndex, elementAt_eq, elements?]
        dsimp only
        cases elementOf items i with
        | none => rfl
        | some e => exact ih (pos + 1) e
      | _ => rfl
    | deep key =>
      rw [resultFrom, hcons, advance, value_bind,
        value_foldlM_append fun out v => value_walk key v out, List.flatMap_singleton]
      exact resultFrom_several steps (pos + 1) _
    | star =>
      rw [resultFrom, hcons, advance, value_bind, value_foldlM_append value_selectStar,
        List.flatMap_singleton]
      exact resultFrom_several steps (pos + 1) _
    | filter test reads =>
      rw [resultFrom, hcons, advance, value_bind, selectOne]
      cases ht : tested v with
      | none =>
        rw [selectFilter, ht]
        rfl
      | some es =>
        have hcur : ∀ u ∈ [v], (tested u).isSome = true := by
          intro u hu
          rw [List.mem_singleton.mp hu, ht]
          rfl
        rw [value_selectFilter test reads (.inr hcur), List.flatMap_singleton, ht]
        exact resultFrom_several steps (pos + 1) _
    | indexList is =>
      rw [resultFrom_lists (value_selectIndexList is) rfl, selectOne]
      cases v with
      | list items => simp [branches, elements?]
      | _ => rfl
    | slice lo hi =>
      rw [resultFrom_lists (value_selectSlice lo hi) rfl, selectOne]
      cases v with
      | list items => simp [branches, elements?]
      | _ => rfl
    | rootBracket => rfl
    | function name =>
      rw [resultFrom, hcons, selectOne]
      show function F name [v] false = _
      rw [function, if_neg Bool.false_ne_true]
      show (match apply F name v with
        | .computed v => Result.one v
        | _ => .missing) = _
      cases apply F name v <;> rfl

/-- `Select` gives the meaning of the path, unless it refuses. -/
theorem select_eq_meaning (p : Path) (doc : Value) :
    select F p doc = .tooLarge ∨ select F p doc = meaning F p doc := by
  cases hdoc : refusesDocument p doc with
  | true =>
    refine .inr ?_
    rw [select, meaning, hdoc]
    rfl
  | false =>
    rw [select_eq hdoc, meaning, hdoc, if_neg Bool.false_ne_true]
    split_ifs
    · exact .inr (resultFrom_one p.steps 0 doc)
    · exact .inl rfl

/-! ## The states of the loop -/

/-- A step that can select several values. -/
def Step.several : Step → Bool
  | .deep _ => true
  | .star => true
  | .filter _ _ => true
  | .indexList _ => true
  | .slice _ _ => true
  | _ => false

/-- One value is current before any step that can select several. -/
def Single (many : Bool) (cur : List Value) : Prop := many = false → ∃ v, cur = [v]

/-- A step that can select several values sets the flag, and no other one does. -/
theorem advance_flag {pos : Nat} {many many' : Bool} {cur next : List Value} {s : Step}
    (h : (advance F pos many cur s : Trace Charge (Except Result (Bool × List Value))).value =
      .ok (many', next)) : many' = (many || s.several) := by
  have hmap : ∀ {b : Bool} {x : Except Result (List Value)},
      x.map (fun next => (b, next)) = .ok (many', next) → b = many' := by
    intro b x hx
    cases x with
    | error r => cases hx
    | ok vs => exact (Prod.mk.inj (Except.ok.inj hx)).1
  have htrue : ∀ {vs : List Value},
      (.ok (true, vs) : Except Result (Bool × List Value)) = .ok (many', next) → true = many' :=
    fun h => (Prod.mk.inj (Except.ok.inj h)).1
  cases s with
  | key key => exact (hmap h).symm.trans (Bool.or_false many).symm
  | index i => exact (hmap h).symm.trans (Bool.or_false many).symm
  | deep key => exact (htrue h).symm.trans (Bool.or_true many).symm
  | star => exact (htrue h).symm.trans (Bool.or_true many).symm
  | filter test reads => exact (hmap h).symm.trans (Bool.or_true many).symm
  | indexList is =>
    simp only [advance, selectLists] at h
    split_ifs at h
    exact (htrue h).symm.trans (Bool.or_true many).symm
  | slice lo hi =>
    simp only [advance, selectLists] at h
    split_ifs at h
    exact (htrue h).symm.trans (Bool.or_true many).symm
  | rootBracket => cases h
  | function name => cases h

theorem Single.advance {pos : Nat} {many many' : Bool} {cur next : List Value} {s : Step}
    (hcur : Single many cur)
    (h : (advance F pos many cur s : Trace Charge (Except Result (Bool × List Value))).value =
      .ok (many', next)) : Single many' next := by
  intro hmany'
  have hflag := advance_flag h
  rw [hmany', eq_comm, Bool.or_eq_false_iff] at hflag
  obtain ⟨rfl, hs⟩ := hflag
  obtain ⟨v, rfl⟩ := hcur rfl
  cases s with
  | key key =>
    rw [value_advance_key, selectKey] at h
    cases hm : getMember key v with
    | none => rw [hm] at h; cases h
    | some m =>
      rw [hm] at h
      exact ⟨m, (Prod.mk.inj (Except.ok.inj h)).2.symm⟩
  | index i =>
    rw [value_advance_index] at h
    cases v with
    | list items =>
      rw [selectIndex] at h
      cases he : elementAt items i with
      | none => rw [he] at h; cases h
      | some e =>
        rw [he] at h
        exact ⟨e, (Prod.mk.inj (Except.ok.inj h)).2.symm⟩
    | _ => cases h
  | rootBracket => cases h
  | function name => cases h
  | _ => cases hs

/-- The values that steps reach from a document, with the charges on the way. -/
def reached (F : Floats) (steps : List Step) (doc : Value) :
    Trace Charge (Except Result (Bool × List Value)) :=
  advanceAll F 0 false [doc] steps

/-- The flag and the selection after some steps of a path. -/
theorem reached_state {before : List Step} {doc : Value} {many : Bool} {cur : List Value}
    (h : (reached F before doc).value = .ok (many, cur)) :
    many = before.any Step.several ∧ Single many cur := by
  have hrun : ∀ (before : List Step) (pos : Nat) (many : Bool) (cur : List Value)
      {many' : Bool} {cur' : List Value}, Single many cur →
      (advanceAll F pos many cur before : Trace Charge (Except Result (Bool × List Value))).value =
        .ok (many', cur') → many' = (many || before.any Step.several) ∧ Single many' cur' := by
    intro before
    induction before with
    | nil =>
      intro pos many cur many' cur' hcur h
      obtain ⟨rfl, rfl⟩ := Prod.mk.inj (Except.ok.inj h)
      exact ⟨(Bool.or_false many).symm, hcur⟩
    | cons s before ih =>
      intro pos many cur many' cur' hcur h
      rw [value_advanceAll_cons] at h
      split at h
      · cases h
      · rename_i many₁ cur₁ hstep
        obtain ⟨hflag, hsingle⟩ := ih (pos + 1) many₁ cur₁ (hcur.advance hstep) h
        rw [hflag, advance_flag hstep, Bool.or_assoc, List.any_cons]
        exact ⟨rfl, by rwa [hflag, advance_flag hstep, Bool.or_assoc] at hsingle⟩
  obtain ⟨hflag, hsingle⟩ := hrun before 0 false [doc] (fun _ => ⟨doc, rfl⟩) h
  exact ⟨hflag.trans (Bool.false_or _), hsingle⟩

/-! ## Index expressions -/

/-- An index expression of the source over a slice of some length. -/
structure Access where
  length : Nat
  index : Int

/-- The index expression does not panic. -/
def Access.InRange (a : Access) : Prop := 0 ≤ a.index ∧ a.index < a.length

/-- `list[(i+len(list))%len(list)]`, behind its guard. -/
def elementAccess (items : List Value) (i : Int) : List Access :=
  (elementIndex items.length i).toList.map (.mk items.length)

/-- `list[a:b]` as its first and its last element. -/
def sliceAccess (items : List Value) (lo hi : Option Int) : List Access :=
  (sliceBounds items.length lo hi).toList.flatMap fun (a, b) =>
    [⟨items.length, a⟩, ⟨items.length, b - 1⟩]

/-- `list[0]`, `list[len(list)-1]` and `nums[0]`, behind their guards. -/
def endAccess (name : Function) (n : Nat) : List Access :=
  (endIndex name n).toList.map fun i : Nat => ⟨n, i⟩

/-- The index expressions of `apply`. -/
def applyAccess (F : Floats) (name : Function) (v : Value) : List Access :=
  match name with
  | .length => []
  | .keys => []
  | .first => (elements? v).toList.flatMap fun items => endAccess .first items.length
  | .last => (elements? v).toList.flatMap fun items => endAccess .last items.length
  | name => (elements? v).toList.flatMap fun items => endAccess name (numbersOf F items).length

/-- `cur[0]`, where no step has selected several values. -/
def firstAccess (many : Bool) (cur : List Value) : List Access :=
  if many then [] else [⟨cur.length, 0⟩]

/-- The index expressions of a step. -/
def accesses (F : Floats) (many : Bool) (cur : List Value) : Step → List Access
  | .function name => firstAccess many cur ++ cur.flatMap (applyAccess F name)
  | .indexList is =>
    firstAccess many cur ++ cur.flatMap fun v =>
      (elements? v).toList.flatMap fun items => is.flatMap (elementAccess items)
  | .slice lo hi =>
    firstAccess many cur ++ cur.flatMap fun v =>
      (elements? v).toList.flatMap fun items => sliceAccess items lo hi
  | .index i => cur.flatMap fun v => (elements? v).toList.flatMap fun items => elementAccess items i
  | _ => []

theorem inRange_elementAccess {items : List Value} {i : Int} :
    ∀ a ∈ elementAccess items i, a.InRange := by
  intro a ha
  obtain ⟨p, hp, rfl⟩ := List.mem_map.mp ha
  rw [Option.mem_toList, elementIndex, Option.ite_none_right_eq_some,
    Option.some.injEq] at hp
  obtain ⟨hrange, rfl⟩ := hp
  have hpos : (0 : Int) < items.length := by omega
  exact ⟨Int.emod_nonneg _ (by omega), Int.emod_lt_of_pos _ hpos⟩

theorem inRange_sliceAccess {items : List Value} {lo hi : Option Int} :
    ∀ a ∈ sliceAccess items lo hi, a.InRange := by
  intro x hx
  obtain ⟨⟨a, b⟩, hbounds, hx⟩ := List.mem_flatMap.mp hx
  rw [Option.mem_toList, sliceBounds, Option.ite_none_left_eq_some,
    Option.some.injEq, Prod.mk.injEq] at hbounds
  obtain ⟨hlt, ha, hb⟩ := hbounds
  have hlo := clamp_range (show 0 ≤ (0 : Int) ∧ (0 : Int) ≤ items.length by omega) lo
  have hhi := clamp_range ⟨Int.natCast_nonneg items.length, Int.le_refl _⟩ hi
  rw [ha] at hlt hlo
  rw [hb] at hlt hhi
  simp only [List.mem_cons, List.not_mem_nil, or_false] at hx
  rcases hx with rfl | rfl
  · show 0 ≤ a ∧ a < items.length
    omega
  · show 0 ≤ b - 1 ∧ b - 1 < items.length
    omega

theorem inRange_endAccess {name : Function} {n : Nat} : ∀ a ∈ endAccess name n, a.InRange := by
  intro a ha
  obtain ⟨i, hi, rfl⟩ := List.mem_map.mp ha
  rw [Option.mem_toList, endIndex, Option.ite_none_left_eq_some,
    Option.some.injEq] at hi
  obtain ⟨hn, rfl⟩ := hi
  refine ⟨Int.natCast_nonneg _, Int.ofNat_lt.mpr ?_⟩
  dsimp only
  split_ifs <;> omega

theorem inRange_applyAccess {name : Function} {v : Value} :
    ∀ a ∈ applyAccess F name v, a.InRange := by
  intro a ha
  cases name with
  | length => cases ha
  | keys => cases ha
  | _ =>
    obtain ⟨items, -, ha⟩ := List.mem_flatMap.mp ha
    exact inRange_endAccess a ha

theorem inRange_firstAccess {many : Bool} {cur : List Value} (hcur : Single many cur) :
    ∀ a ∈ firstAccess many cur, a.InRange := by
  intro a ha
  rw [firstAccess] at ha
  split_ifs at ha with hmany
  · cases ha
  · obtain rfl := List.mem_singleton.mp ha
    obtain ⟨v, rfl⟩ := hcur (Bool.eq_false_of_not_eq_true hmany)
    exact ⟨Int.le_refl 0, Int.one_pos⟩

/-- No step indexes outside of a list, or an empty selection. -/
theorem inRange_accesses {many : Bool} {cur : List Value} (hcur : Single many cur) (s : Step) :
    ∀ a ∈ accesses F many cur s, a.InRange := by
  intro a ha
  cases s with
  | function name =>
    rcases List.mem_append.mp ha with ha | ha
    · exact inRange_firstAccess hcur a ha
    · obtain ⟨v, -, ha⟩ := List.mem_flatMap.mp ha
      exact inRange_applyAccess a ha
  | indexList is =>
    rcases List.mem_append.mp ha with ha | ha
    · exact inRange_firstAccess hcur a ha
    · obtain ⟨v, -, ha⟩ := List.mem_flatMap.mp ha
      obtain ⟨items, -, ha⟩ := List.mem_flatMap.mp ha
      obtain ⟨i, -, ha⟩ := List.mem_flatMap.mp ha
      exact inRange_elementAccess a ha
  | slice lo hi =>
    rcases List.mem_append.mp ha with ha | ha
    · exact inRange_firstAccess hcur a ha
    · obtain ⟨v, -, ha⟩ := List.mem_flatMap.mp ha
      obtain ⟨items, -, ha⟩ := List.mem_flatMap.mp ha
      exact inRange_sliceAccess a ha
  | index i =>
    obtain ⟨v, -, ha⟩ := List.mem_flatMap.mp ha
    obtain ⟨items, -, ha⟩ := List.mem_flatMap.mp ha
    exact inRange_elementAccess a ha
  | _ => cases ha

end Values

/-- `Select` reaches a step, the first of `rest`, or the end of the path with
    its budget not spent. -/
def Reaches (F : Floats) (p : Path) (doc : Value) (before rest : List Step) (many : Bool)
    (cur : List Value) : Prop :=
  p.steps = before ++ rest ∧
    ∃ b, (advanceAll F 0 false [doc] before :
      Work Budget.call (Except Result (Bool × List Value))) (.fresh doc) = some (.ok (many, cur), b)

/-- What is reached under a budget is reached without one. -/
theorem Reaches.reached {F : Floats} {p : Path} {doc : Value} {before rest : List Step} {many : Bool}
    {cur : List Value} (h : Reaches F p doc before rest many cur) :
    (reached F before doc).value = .ok (many, cur) := by
  obtain ⟨-, b, hrun⟩ := h
  rw [← replay_advanceAll] at hrun
  obtain ⟨b', -, heq⟩ := Option.map_eq_some_iff.mp hrun
  exact (Prod.mk.inj heq).1

/-- `Select` computes the stepwise meaning of a path, and indexes only what is
    there. -/
theorem select_follows_meaning (F : Floats) (p : Path) (doc : Value) :
    (select F p doc ≠ .tooLarge → select F p doc = meaning F p doc) ∧
    ∀ before rest many cur, Reaches F p doc before rest many cur →
      ((∀ s ∈ before, s.several = false) → ∃ v, cur = [v]) ∧
      (∀ s ∈ rest.head?, ∀ a ∈ accesses F many cur s, a.InRange) ∧
      (rest = [] → ∀ a ∈ firstAccess many cur, a.InRange) := by
  refine ⟨fun h => (select_eq_meaning p doc).resolve_left h, ?_⟩
  intro before rest many cur h
  obtain ⟨hflag, hsingle⟩ := reached_state h.reached
  refine ⟨fun hbefore => hsingle ?_, fun s _ => inRange_accesses hsingle s,
    fun _ => inRange_firstAccess hsingle⟩
  rw [hflag, List.any_eq_false]
  exact fun s hs => ne_true_of_eq_false (hbefore s hs)

/-- Float64 values of which nothing is known. -/
def Floats.nan : Floats :=
  ⟨Unit, (), fun _ => (), fun _ => (), fun _ _ => (), fun _ _ => (), fun _ _ => false,
    fun _ => "NaN"⟩

/-- The document `[[null, true], 7]`. -/
def pairAndNumber : Value := .list [.list [.null, .bool true], .number "7"]

def lastOfFirst : Path := ⟨[.index (-2), .slice (some (-1)) none]⟩

theorem lastOfFirst_selects :
    select .nan lastOfFirst pairAndNumber = .many [.bool true] ∧
      meaning .nan lastOfFirst pairAndNumber = .many [.bool true] ∧
      (∃ v, [Value.list [.null, .bool true]] = [v]) ∧
      (Access.mk 2 1).InRange := by
  obtain ⟨hmeaning, hstates⟩ := select_follows_meaning .nan lastOfFirst pairAndNumber
  have hselect : select .nan lastOfFirst pairAndNumber = .many [.bool true] := rfl
  have hreach : Reaches .nan lastOfFirst pairAndNumber [.index (-2)] [.slice (some (-1)) none] false
      [.list [.null, .bool true]] := ⟨rfl, _, rfl⟩
  obtain ⟨hone, haccess, -⟩ := hstates _ _ _ _ hreach
  have hmany : select .nan lastOfFirst pairAndNumber ≠ .tooLarge := by
    rw [hselect]
    nofun
  refine ⟨hselect, (hmeaning hmany).symm.trans hselect, hone ?_, haccess _ rfl _ ?_⟩
  · intro s hs
    rw [List.mem_singleton.mp hs]
    rfl
  · show Access.mk 2 1 ∈ [Access.mk 1 0, ⟨2, 1⟩, ⟨2, 1⟩]
    exact List.mem_cons_of_mem _ List.mem_cons_self

end AuthzAgent.Jsonpath
