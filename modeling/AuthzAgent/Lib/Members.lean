/-
  AuthzAgent.Lib.Members

  Objects as lists of members: lookups where each key stands once, and the
  members in key order.
-/

import Mathlib

namespace Members

variable {β γ : Type}

theorem mem_of_lookup {k : String} {v : β} {ms : List (String × β)} (h : ms.lookup k = some v) :
    (k, v) ∈ ms := by
  obtain ⟨_, _, rfl, _⟩ := List.lookup_eq_some_iff.mp h
  exact List.mem_append_right _ List.mem_cons_self

/-- A member is found where each key stands once. -/
theorem lookup_of_mem {ms : List (String × β)} (hnodup : (ms.map Prod.fst).Nodup) {k : String}
    {v : β} (h : (k, v) ∈ ms) : ms.lookup k = some v := by
  induction ms with
  | nil => cases h
  | cons m ms ih =>
    obtain ⟨l, w⟩ := m
    rw [List.map_cons, List.nodup_cons] at hnodup
    rcases List.mem_cons.mp h with heq | hmem
    · obtain ⟨rfl, rfl⟩ := Prod.mk.inj heq
      exact List.lookup_cons_self
    · have hne : (k == l) = false := by
        rw [beq_eq_false_iff_ne]
        rintro rfl
        exact hnodup.1 (List.mem_map.mpr ⟨(k, v), hmem, rfl⟩)
      rw [List.lookup_cons, hne]
      exact ih hnodup.2 hmem

theorem exists_lookup {ms : List (String × β)} {k : String} (h : k ∈ ms.map Prod.fst) :
    ∃ v, ms.lookup k = some v := by
  cases hk : ms.lookup k with
  | some v => exact ⟨v, rfl⟩
  | none =>
    obtain ⟨m, hm, rfl⟩ := List.mem_map.mp h
    have hne := List.lookup_eq_none_iff.mp hk m hm
    simp at hne

theorem lookup_map_snd (f : β → γ) (k : String) (ms : List (String × β)) :
    (ms.map fun m => (m.1, f m.2)).lookup k = (ms.lookup k).map f := by
  induction ms with
  | nil => rfl
  | cons m ms ih =>
    obtain ⟨l, v⟩ := m
    rw [List.map_cons, List.lookup_cons, List.lookup_cons, ih]
    cases k == l <;> rfl

/-! ## Key order -/

/-- The keys of an object in order. -/
def sortedKeys (ms : List (String × β)) : List String :=
  (ms.map Prod.fst).insertionSort (· ≤ ·)

theorem mem_sortedKeys {k : String} {ms : List (String × β)} :
    k ∈ sortedKeys ms ↔ k ∈ ms.map Prod.fst := List.mem_insertionSort _

theorem length_sortedKeys (ms : List (String × β)) : (sortedKeys ms).length = ms.length := by
  rw [sortedKeys, List.length_insertionSort, List.length_map]

theorem sortedKeys_eq_of_perm {ms : List (String × β)} {ns : List (String × γ)}
    (h : (ms.map Prod.fst).Perm (ns.map Prod.fst)) : sortedKeys ms = sortedKeys ns := by
  have hperm : (sortedKeys ms).Perm (sortedKeys ns) :=
    ((List.perm_insertionSort (· ≤ ·) _).trans h).trans (List.perm_insertionSort (· ≤ ·) _).symm
  exact hperm.eq_of_pairwise (fun _ _ _ _ hab hba => le_antisymm hab hba)
    (List.pairwise_insertionSort (· ≤ ·) _) (List.pairwise_insertionSort (· ≤ ·) _)

/-- The images of an object's values in key order. -/
def inKeyOrder (f : β → γ) (dflt : γ) (ms : List (String × β)) : List (String × γ) :=
  (sortedKeys ms).map fun k => (k, ((ms.lookup k).map f).getD dflt)

/-- Two objects list the same images in key order exactly when they have equally
    many members and each member of one has its image in the other. -/
theorem inKeyOrder_eq_iff (f : β → γ) (dflt : γ) {ms ns : List (String × β)}
    (hms : (ms.map Prod.fst).Nodup) :
    inKeyOrder f dflt ms = inKeyOrder f dflt ns ↔
      ms.length = ns.length ∧ ∀ m ∈ ms, ∃ w, ns.lookup m.1 = some w ∧ f m.2 = f w := by
  constructor
  · intro h
    have hkeys : sortedKeys ms = sortedKeys ns := by
      have hfst : ∀ l : List (String × β), (inKeyOrder f dflt l).map Prod.fst = sortedKeys l := by
        intro l
        rw [inKeyOrder, List.map_map]
        exact List.map_id _
      rw [← hfst ms, h, hfst]
    refine ⟨by rw [← length_sortedKeys ms, hkeys, length_sortedKeys], ?_⟩
    rintro ⟨k, v⟩ hm
    have hk : k ∈ sortedKeys ms := mem_sortedKeys.mpr (List.mem_map_of_mem hm)
    rw [inKeyOrder, inKeyOrder, ← hkeys, List.map_inj_left] at h
    have hvalue := (Prod.mk.inj (h k hk)).2
    rw [hkeys] at hk
    obtain ⟨w, hw⟩ := exists_lookup (mem_sortedKeys.mp hk)
    rw [lookup_of_mem hms hm, hw] at hvalue
    exact ⟨w, hw, hvalue⟩
  · rintro ⟨hlength, hall⟩
    have hsub : ms.map Prod.fst ⊆ ns.map Prod.fst := by
      intro k hk
      obtain ⟨m, hm, rfl⟩ := List.mem_map.mp hk
      obtain ⟨w, hw, -⟩ := hall m hm
      exact List.mem_map.mpr ⟨(m.1, w), mem_of_lookup hw, rfl⟩
    have hperm : (ms.map Prod.fst).Perm (ns.map Prod.fst) := by
      refine (List.subperm_of_subset hms hsub).perm_of_length_le ?_
      rw [List.length_map, List.length_map, hlength]
    rw [inKeyOrder, inKeyOrder, ← sortedKeys_eq_of_perm hperm, List.map_inj_left]
    intro k hk
    obtain ⟨⟨l, v⟩, hm, rfl⟩ := List.mem_map.mp (mem_sortedKeys.mp hk)
    obtain ⟨w, hw, hvw⟩ := hall (l, v) hm
    rw [lookup_of_mem hms hm, hw, Option.map_some, Option.map_some, hvw]

end Members
