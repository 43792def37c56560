/-
  AuthzAgent.Lib.Lru

  A cache of bounded size that evicts the entry used least recently.  The
  entries stand in the order of their last use, the latest first, each key
  once.
-/

import Mathlib

/-- A cache for at most `size` entries. -/
structure Lru (κ ν : Type) (size : Nat) where
  entries : List (κ × ν)
  nodup : (entries.map Prod.fst).Nodup
  length_le : entries.length ≤ size

namespace Lru

variable {κ ν : Type} [DecidableEq κ] {size : Nat}

def empty (κ ν : Type) (size : Nat) : Lru κ ν size := ⟨[], List.nodup_nil, Nat.zero_le _⟩

/-! ## Lists of entries -/

/-- The entries of the other keys. -/
def without (k : κ) (entries : List (κ × ν)) : List (κ × ν) := entries.filter fun e => e.1 ≠ k

theorem mem_without {k : κ} {entries : List (κ × ν)} {e : κ × ν} :
    e ∈ without k entries ↔ e ∈ entries ∧ e.1 ≠ k := by
  rw [without, List.mem_filter, decide_eq_true_eq]

/-- An entry may stand before the entries of the other keys. -/
theorem nodup_cons_without (k : κ) (v : ν) {entries : List (κ × ν)}
    (h : (entries.map Prod.fst).Nodup) : (((k, v) :: without k entries).map Prod.fst).Nodup := by
  rw [List.map_cons, List.nodup_cons]
  refine ⟨fun hmem => ?_, h.sublist ((List.filter_sublist).map _)⟩
  obtain ⟨e, he, hkey⟩ := List.mem_map.mp hmem
  exact (mem_without.mp he).2 hkey

/-- The entries of the other keys are fewer than all. -/
theorem length_without_lt {k : κ} {entries : List (κ × ν)} (h : k ∈ entries.map Prod.fst) :
    (without k entries).length < entries.length := by
  obtain ⟨e, he, rfl⟩ := List.mem_map.mp h
  exact List.length_filter_lt_length_iff_exists.mpr ⟨e, he, by simp⟩

theorem mem_of_lookup_eq_some {k : κ} {v : ν} {entries : List (κ × ν)}
    (h : entries.lookup k = some v) : (k, v) ∈ entries := by
  obtain ⟨l₁, l₂, rfl, -⟩ := List.lookup_eq_some_iff.mp h
  exact List.mem_append_right _ List.mem_cons_self

/-! ## Operations -/

/-- The cache after an entry that it has is used, with a value for its key. -/
def touch (c : Lru κ ν size) (k : κ) (v : ν) (h : k ∈ c.entries.map Prod.fst) : Lru κ ν size where
  entries := (k, v) :: without k c.entries
  nodup := nodup_cons_without k v c.nodup
  length_le := Nat.le_trans (length_without_lt h) c.length_le

/-- The value of a key, which becomes the latest one used. -/
def get (c : Lru κ ν size) (k : κ) : Option ν × Lru κ ν size :=
  match h : c.entries.lookup k with
  | some v => (some v, c.touch k v (List.mem_map.mpr ⟨_, mem_of_lookup_eq_some h, rfl⟩))
  | none => (none, c)

/-- The cache without a key. -/
def remove (c : Lru κ ν size) (k : κ) : Lru κ ν size where
  entries := without k c.entries
  nodup := c.nodup.sublist ((List.filter_sublist).map _)
  length_le := Nat.le_trans (List.length_filter_le _ _) c.length_le

/-- The cache with a value for a key; past the size the oldest entry goes. -/
def add (c : Lru κ ν size) (k : κ) (v : ν) : Lru κ ν size :=
  if h : k ∈ c.entries.map Prod.fst then c.touch k v h
  else
    { entries := ((k, v) :: c.entries).take size
      nodup := by
        have hcons : (((k, v) :: c.entries).map Prod.fst).Nodup :=
          List.nodup_cons.mpr ⟨h, c.nodup⟩
        exact hcons.sublist ((List.take_sublist _ _).map _)
      length_le := List.length_take_le _ _ }

/-! ## Where entries come from -/

theorem mem_cons_without {entries : List (κ × ν)} {k : κ} {v : ν} {e : κ × ν}
    (he : e ∈ (k, v) :: without k entries) : e = (k, v) ∨ e ∈ entries :=
  (List.mem_cons.mp he).imp_right fun hrest => (mem_without.mp hrest).1

theorem get_eq_some {c : Lru κ ν size} {k : κ} {v : ν} (h : (c.get k).1 = some v) :
    (k, v) ∈ c.entries := by
  rw [get] at h
  split at h
  · next hlookup =>
      rw [← Option.some.inj h]
      exact mem_of_lookup_eq_some hlookup
  · cases h

theorem mem_get {c : Lru κ ν size} {k : κ} {e : κ × ν} (he : e ∈ (c.get k).2.entries) :
    e ∈ c.entries := by
  rw [get] at he
  split at he
  · next hlookup =>
      rcases mem_cons_without he with rfl | hmem
      · exact mem_of_lookup_eq_some hlookup
      · exact hmem
  · exact he

theorem mem_remove {c : Lru κ ν size} {k : κ} {e : κ × ν} (he : e ∈ (c.remove k).entries) :
    e ∈ c.entries := (mem_without.mp he).1

theorem mem_add {c : Lru κ ν size} {k : κ} {v : ν} {e : κ × ν} (he : e ∈ (c.add k v).entries) :
    e = (k, v) ∨ e ∈ c.entries := by
  rw [add] at he
  split at he
  · exact mem_cons_without he
  · exact List.mem_cons.mp (List.mem_of_mem_take he)

end Lru
