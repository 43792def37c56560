/-
  AuthzAgent.Lib.Dict

  Finite maps with string keys, as Mathlib's association lists without
  duplicate keys.  `getD` reads a key with a default and `modify` updates the
  value under a key that may be absent: between them they express the nested
  `map[string]map[string]…` updates of a program that creates the inner maps
  on demand.  Such a program often groups a list by a key; the groups, one
  after another, are the list in another order.
-/

import Mathlib

/-- A finite map from strings. -/
abbrev Dict (β : Type) := AList fun _ : String => β

namespace Dict

variable {β : Type}

/-- The value under `k`, or `dflt` when `k` is absent. -/
def getD (d : Dict β) (k : String) (dflt : β) : β := (d.lookup k).getD dflt

/-- Replace the value under `k` by `f` of it; an absent key counts as bound to
    `dflt`. -/
def modify (d : Dict β) (k : String) (dflt : β) (f : β → β) : Dict β :=
  d.insert k (f (d.getD k dflt))

@[simp] theorem getD_empty (k : String) (dflt : β) : getD ∅ k dflt = dflt := by
  rw [getD, AList.lookup_empty, Option.getD_none]

theorem getD_of_isEmpty {d : Dict β} (h : d.entries.isEmpty = true) (k : String) (dflt : β) :
    getD d k dflt = dflt := by
  have hd : d = ∅ := AList.ext (List.isEmpty_iff.mp h)
  rw [hd, getD_empty]

@[simp] theorem getD_insert_self (d : Dict β) (k : String) (v dflt : β) :
    getD (d.insert k v) k dflt = v := by
  rw [getD, AList.lookup_insert, Option.getD_some]

theorem getD_insert_ne (d : Dict β) {k l : String} (h : l ≠ k) (v dflt : β) :
    getD (d.insert k v) l dflt = getD d l dflt := by
  rw [getD, AList.lookup_insert_ne h, getD]

@[simp] theorem getD_modify_self (d : Dict β) (k : String) (dflt : β) (f : β → β) :
    getD (modify d k dflt f) k dflt = f (getD d k dflt) := by
  rw [modify, getD_insert_self]

theorem getD_modify_ne (d : Dict β) {k l : String} (h : l ≠ k) (dflt e : β) (f : β → β) :
    getD (modify d k dflt f) l e = getD d l e := by
  rw [modify, getD_insert_ne d h]

/-- The map built from a list of bindings; a later binding of a key replaces
    an earlier one. -/
def ofList (l : List (String × β)) : Dict β :=
  l.foldl (fun d kv => d.insert kv.1 kv.2) ∅

/-- The map with every value replaced by `f` of it. -/
def mapValues {γ : Type} (f : β → γ) (d : Dict β) : Dict γ where
  entries := d.entries.map fun e => ⟨e.1, f e.2⟩
  nodupKeys := by
    have hkeys : (d.entries.map fun e => (⟨e.1, f e.2⟩ : Sigma fun _ : String => γ)).keys =
        d.entries.keys := by
      rw [List.keys, List.keys, List.map_map]
      rfl
    rw [List.NodupKeys, hkeys]
    exact d.nodupKeys

/-- Bind `k` when there is a value for it. -/
def insertSome (d : Dict β) (k : String) : Option β → Dict β
  | some v => d.insert k v
  | none => d

theorem lookup_insertSome (d : Dict β) (k l : String) (v : Option β) :
    (insertSome d k v).lookup l = (if k = l then v else none).or (d.lookup l) := by
  cases v with
  | none => simp [insertSome]
  | some v =>
    by_cases h : k = l
    · rw [h, insertSome, AList.lookup_insert, if_pos rfl, Option.some_or]
    · rw [insertSome, AList.lookup_insert_ne (Ne.symm h), if_neg h, Option.none_or]

/-- A loop that binds keys as it goes leaves each key with its last value. -/
theorem lookup_foldl_insertSome {α : Type} (key : α → String) (val : α → Option β)
    (items : List α) (d : Dict β) (k : String) :
    (items.foldl (fun d a => insertSome d (key a) (val a)) d).lookup k =
      (items.reverse.findSome? fun a => if key a = k then val a else none).or (d.lookup k) := by
  induction items generalizing d with
  | nil => simp
  | cons a items ih =>
    rw [List.foldl_cons, ih, lookup_insertSome, List.reverse_cons, List.findSome?_append,
      Option.or_assoc]
    simp

/-- A loop over keys binds those that have a value. -/
theorem lookup_foldl_keys (val : String → Option β) (keys : List String) (d : Dict β)
    (k : String) :
    (keys.foldl (fun d l => insertSome d l (val l)) d).lookup k =
      (if k ∈ keys then val k else none).or (d.lookup k) := by
  induction keys generalizing d with
  | nil => rfl
  | cons l keys ih =>
    rw [List.foldl_cons, ih, lookup_insertSome]
    by_cases hl : l = k
    · subst hl
      rw [if_pos rfl, if_pos List.mem_cons_self]
      split
      · rw [← Option.or_assoc, Option.or_self]
      · rw [Option.none_or]
    · have hmem : k ∈ l :: keys ↔ k ∈ keys := by
        rw [List.mem_cons, or_iff_right (Ne.symm hl)]
      rw [if_neg hl, Option.none_or]
      simp only [hmem]

/-- A map built from items with distinct keys binds the key of each item to its
    value. -/
theorem lookup_ofList_map {α : Type} {key : α → String} {val : α → β} {items : List α}
    (hkeys : (items.map key).Nodup) {k : String} {v : β} :
    (ofList (items.map fun a => (key a, val a))).lookup k = some v ↔
      ∃ a ∈ items, key a = k ∧ val a = v := by
  have hfold : ofList (items.map fun a => (key a, val a)) =
      items.foldl (fun d a => insertSome d (key a) (some (val a))) ∅ := by
    rw [ofList, List.foldl_map]
    rfl
  rw [hfold, lookup_foldl_insertSome, AList.lookup_empty, Option.or_none]
  constructor
  · intro h
    obtain ⟨a, ha, hv⟩ := List.exists_of_findSome?_eq_some h
    rw [Option.ite_none_right_eq_some, Option.some.injEq] at hv
    exact ⟨a, List.mem_reverse.mp ha, hv⟩
  · rintro ⟨a, ha, rfl, rfl⟩
    cases hfind : items.reverse.findSome? fun b => if key b = key a then some (val b) else none with
    | none =>
      have hnone := List.findSome?_eq_none_iff.mp hfind a (List.mem_reverse.mpr ha)
      simp at hnone
    | some v =>
      obtain ⟨b, hb, hv⟩ := List.exists_of_findSome?_eq_some hfind
      rw [Option.ite_none_right_eq_some, Option.some.injEq] at hv
      have hba : b = a := List.inj_on_of_nodup_map hkeys (List.mem_reverse.mp hb) ha hv.1
      rw [← hv.2, hba]

theorem getD_ofList_map {α : Type} {key : α → String} {val : α → β} {items : List α}
    (hkeys : (items.map key).Nodup) {a : α} (ha : a ∈ items) (dflt : β) :
    getD (ofList (items.map fun a => (key a, val a))) (key a) dflt = val a := by
  rw [getD, (lookup_ofList_map hkeys).mpr ⟨a, ha, rfl, rfl⟩, Option.getD_some]

/-! ## Indexes -/

section Index

variable {α ε : Type} (key : α → String) (val : α → β) (taken : β → α → ε)

/-- Bind the key of an item, which must be new. -/
def insertNew (d : Dict β) (a : α) : Except ε (Dict β) :=
  match d.lookup (key a) with
  | some earlier => .error (taken earlier a)
  | none => .ok (d.insert (key a) (val a))

/-- A loop that binds new keys succeeds when the keys differ from each other
    and from those that are bound already. -/
theorem exists_foldlM_insertNew {items : List α} {d : Dict β} (hnodup : (items.map key).Nodup)
    (hnew : ∀ a ∈ items, d.lookup (key a) = none) :
    ∃ d', items.foldlM (insertNew key val taken) d = .ok d' := by
  induction items generalizing d with
  | nil => exact ⟨d, rfl⟩
  | cons a items ih =>
    rw [List.map_cons, List.nodup_cons] at hnodup
    have hstep : insertNew key val taken d a = .ok (d.insert (key a) (val a)) := by
      rw [insertNew, hnew a List.mem_cons_self]
    obtain ⟨d', hd'⟩ := ih (d := d.insert (key a) (val a)) hnodup.2 fun b hb => by
      have hne : key b ≠ key a := fun h => hnodup.1 (h ▸ List.mem_map_of_mem hb)
      rw [AList.lookup_insert_ne hne]
      exact hnew b (List.mem_cons_of_mem _ hb)
    refine ⟨d', ?_⟩
    rw [List.foldlM_cons, hstep]
    exact hd'

/-- What such a loop leaves behind: the old bindings and one for each item. -/
theorem lookup_foldlM_insertNew {items : List α} {d d' : Dict β}
    (h : items.foldlM (insertNew key val taken) d = .ok d') :
    (items.map key).Nodup ∧ (∀ a ∈ items, d.lookup (key a) = none) ∧
      ∀ k v, d'.lookup k = some v ↔
        d.lookup k = some v ∨ ∃ a ∈ items, key a = k ∧ val a = v := by
  induction items generalizing d with
  | nil =>
    obtain rfl : d = d' := Except.ok.inj h
    simp
  | cons a items ih =>
    rw [List.foldlM_cons] at h
    cases hlookup : d.lookup (key a) with
    | some earlier => simp [insertNew, hlookup, bind, Except.bind] at h
    | none =>
      have hstep : insertNew key val taken d a = .ok (d.insert (key a) (val a)) := by
        rw [insertNew, hlookup]
      rw [hstep] at h
      obtain ⟨hnodup, hnew, hall⟩ := ih h
      have hother : ∀ b ∈ items, key b ≠ key a := by
        intro b hb hkey
        have hb := hnew b hb
        rw [hkey, AList.lookup_insert] at hb
        cases hb
      refine ⟨?_, ?_, fun k v => ?_⟩
      · rw [List.map_cons, List.nodup_cons, List.mem_map]
        exact ⟨fun ⟨b, hb, hkey⟩ => hother b hb hkey, hnodup⟩
      · intro b hb
        rcases List.mem_cons.mp hb with rfl | hb
        · exact hlookup
        · rw [← AList.lookup_insert_ne (hother b hb)]
          exact hnew b hb
      · rw [hall k v]
        by_cases hk : k = key a
        · subst hk
          simp [AList.lookup_insert, hlookup]
        · rw [AList.lookup_insert_ne hk]
          simp [Ne.symm hk]

end Index

/-! ## Groups -/

section Group

variable {α : Type} (key : α → String) (val : α → β)

/-- A loop that appends the value of each item to the list under its key leaves
    under a key the values of its items, in order. -/
theorem getD_foldl_append (items : List α) (d : Dict (List β)) (k : String) :
    getD (items.foldl (fun d a => modify d (key a) [] (· ++ [val a])) d) k [] =
      getD d k [] ++ (items.filter fun a => key a = k).map val := by
  induction items generalizing d with
  | nil => simp
  | cons a items ih =>
    rw [List.foldl_cons, ih]
    by_cases hk : key a = k
    · subst hk
      rw [getD_modify_self, List.filter_cons_of_pos (by simp), List.map_cons, List.append_assoc,
        List.singleton_append]
    · rw [getD_modify_ne d (Ne.symm hk), List.filter_cons_of_neg (by simpa using hk)]

/-- Such a loop binds the keys of the items. -/
theorem mem_foldl_append (items : List α) (d : Dict (List β)) (k : String) :
    k ∈ items.foldl (fun d a => modify d (key a) [] (· ++ [val a])) d ↔
      k ∈ d ∨ ∃ a ∈ items, key a = k := by
  induction items generalizing d with
  | nil => simp
  | cons a items ih =>
    rw [List.foldl_cons, ih, modify, AList.mem_insert, List.exists_mem_cons_iff]
    tauto

end Group

/-- The items under each of the keys, for keys that are distinct and cover the
    list, make up the list again. -/
theorem flatMap_filter_perm {α κ : Type} [DecidableEq κ] (key : α → κ) {keys : List κ}
    (hnodup : keys.Nodup) {items : List α} (hcover : ∀ a ∈ items, key a ∈ keys) :
    (keys.flatMap fun k => items.filter fun a => key a = k).Perm items := by
  induction keys generalizing items with
  | nil =>
    have hitems : items = [] := List.eq_nil_iff_forall_not_mem.mpr
      fun a ha => List.not_mem_nil (hcover a ha)
    simp [hitems]
  | cons k keys ih =>
    obtain ⟨hk, hkeys⟩ := List.nodup_cons.mp hnodup
    -- the other keys select the same items from those outside this group
    have hrest : ∀ k' ∈ keys, (items.filter fun a => key a ≠ k).filter (fun a => key a = k') =
        items.filter fun a => key a = k' := by
      intro k' hk'
      rw [List.filter_filter]
      refine List.filter_congr fun a _ => ?_
      by_cases hak : key a = k'
      · have hne : k' ≠ k := fun h => hk (h ▸ hk')
        simp [hak, hne]
      · simp [hak]
    have hcover' : ∀ a ∈ items.filter fun a => key a ≠ k, key a ∈ keys := by
      intro a ha
      rw [List.mem_filter, decide_eq_true_iff] at ha
      exact (List.mem_cons.mp (hcover a ha.1)).resolve_left ha.2
    have hperm := ih hkeys hcover'
    rw [List.flatMap_congr hrest] at hperm
    rw [List.flatMap_cons]
    refine (hperm.append_left _).trans ?_
    simpa using List.filter_append_perm (fun a => decide (key a = k)) items

/-! ## Equality of maps -/

/-- Two maps bind the same keys, to related values. -/
def Same (R : β → β → Prop) (d d' : Dict β) : Prop :=
  ∀ k, Option.Rel R (d.lookup k) (d'.lookup k)

/-- A property of every value of a map. -/
def All (p : β → Prop) (d : Dict β) : Prop := ∀ k v, d.lookup k = some v → p v

theorem all_empty (p : β → Prop) : All p ∅ := by
  intro k v h
  rw [AList.lookup_empty] at h
  cases h

theorem all_insert {p : β → Prop} {d : Dict β} (hd : All p d) (k : String) {v : β} (hv : p v) :
    All p (d.insert k v) := by
  intro l w h
  by_cases hl : l = k
  · rw [hl, AList.lookup_insert] at h
    exact Option.some.inj h ▸ hv
  · rw [AList.lookup_insert_ne hl] at h
    exact hd l w h

theorem all_getD {p : β → Prop} {d : Dict β} (hd : All p d) {dflt : β} (hdflt : p dflt)
    (k : String) : p (getD d k dflt) := by
  rw [getD]
  cases h : d.lookup k with
  | none => exact hdflt
  | some v => exact hd k v h

/-- Where no key is bound to what an absent one is read as, two maps that read
    alike are the same. -/
theorem same_of_getD {R : β → β → Prop} {dflt : β} {p : β → Prop}
    (hp : ∀ v, p v → ¬ R v dflt ∧ ¬ R dflt v) {d d' : Dict β} (hd : All p d) (hd' : All p d')
    (h : ∀ k, R (getD d k dflt) (getD d' k dflt)) : Same R d d' := by
  intro k
  have hk := h k
  rw [getD, getD] at hk
  cases hv : d.lookup k with
  | none =>
    cases hv' : d'.lookup k with
    | none => exact .none
    | some v' =>
      rw [hv, hv'] at hk
      exact absurd hk (hp v' (hd' k v' hv')).2
  | some v =>
    cases hv' : d'.lookup k with
    | none =>
      rw [hv, hv'] at hk
      exact absurd hk (hp v (hd k v hv)).1
    | some v' =>
      rw [hv, hv'] at hk
      exact .some hk

section Nested

variable {α : Type}

/-- A map of maps of lists in which nothing is empty. -/
def Full (d : Dict (Dict (List α))) : Prop := All (fun m => m ≠ ∅ ∧ All (· ≠ []) m) d

theorem insert_ne_empty (d : Dict β) (k : String) (v : β) : d.insert k v ≠ ∅ := by
  intro h
  have hk := congrArg (AList.lookup k) h
  rw [AList.lookup_insert, AList.lookup_empty] at hk
  cases hk

/-- A value that is not empty is stored under two keys. -/
theorem Full.modify {d : Dict (Dict (List α))} (hd : Full d) (k l : String) {f : List α → List α}
    (hf : ∀ items, f items ≠ []) : Full (modify d k ∅ fun m => Dict.modify m l [] f) := by
  have hinner : All (· ≠ []) (getD d k ∅) :=
    all_getD (fun k m hm => (hd k m hm).2) (all_empty _) k
  exact all_insert hd k ⟨insert_ne_empty _ _ _, all_insert hinner l (hf _)⟩

theorem same_of_full {d d' : Dict (Dict (List α))} (hd : Full d) (hd' : Full d')
    (h : ∀ k l, getD (getD d k ∅) l [] = getD (getD d' k ∅) l []) : Same (Same Eq) d d' := by
  have hempty : ∀ m : Dict (List α), m ≠ ∅ → ¬ Same Eq m ∅ ∧ ¬ Same Eq ∅ m := by
    intro m hm
    obtain ⟨e, he⟩ : ∃ e, e ∈ m.entries := by
      by_contra hnone
      exact hm (AList.ext (List.eq_nil_iff_forall_not_mem.mpr fun e he => hnone ⟨e, he⟩))
    have hlookup : m.lookup e.1 = some e.2 := AList.mem_lookup_iff.mpr he
    refine ⟨fun hsame => ?_, fun hsame => ?_⟩
    · have hk := hsame e.1
      rw [hlookup, AList.lookup_empty] at hk
      cases hk
    · have hk := hsame e.1
      rw [hlookup, AList.lookup_empty] at hk
      cases hk
  refine same_of_getD (fun m hm => hempty m hm.1) hd hd' fun k => ?_
  refine same_of_getD (fun items hne => ⟨hne, Ne.symm hne⟩) ?_ ?_ (h k)
  · exact all_getD (fun k m hm => (hd k m hm).2) (all_empty _) k
  · exact all_getD (fun k m hm => (hd' k m hm).2) (all_empty _) k

end Nested

end Dict
