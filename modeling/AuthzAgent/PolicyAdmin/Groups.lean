/-
  AuthzAgent.PolicyAdmin.Groups

  The groups of `toV3PolicySets` lose and repeat nothing.  A step lemma says
  what one policy adds to the maps, and a run lemma that the maps of a whole
  list hold, under each pair of keys, the rules of the policies with these
  keys.  So acconfig reads a printed upload as if every policy had been printed
  and read alone, up to the order of the results.
-/

import AuthzAgent.PolicyAdmin.Export

namespace AuthzAgent

open GoText
open Acconfig

namespace PolicyAdmin

variable (P : Platform)

/-! ## The first loop -/

/-- The maps after the loop has read a list of policies. -/
structure Grouped (items : List SimplifiedPolicy) (g : Groups) : Prop where
  nodup : g.psOrder.Nodup
  order : ∀ pk, pk ∈ g.psMap ↔ pk ∈ g.psOrder
  sets : ∀ p ∈ items, p.psKey ∈ g.psOrder
  policies : ∀ p ∈ items, p.pKey P ∈ (g.policyMap p.psKey).keys
  rules : ∀ pk rk, Dict.getD (g.policyMap pk) rk [] =
    (items.filter fun p => p.psKey = pk ∧ p.pKey P = rk).map (SimplifiedPolicy.ruleVal P)

theorem grouped_empty : Grouped P [] .empty where
  nodup := List.nodup_nil
  order := fun pk => by simp [Groups.empty]
  sets := fun p hp => absurd hp List.not_mem_nil
  policies := fun p hp => absurd hp List.not_mem_nil
  rules := fun pk rk => by simp [Groups.policyMap, Groups.empty]

theorem Groups.policyMap_add (g : Groups) (p : SimplifiedPolicy) (pk : String × String) :
    (g.add P p).policyMap pk =
      if pk = p.psKey then
        Dict.modify (g.policyMap p.psKey) (p.pKey P) [] (· ++ [p.ruleVal P])
      else g.policyMap pk := by
  by_cases hpk : pk = p.psKey
  · subst hpk
    simp [policyMap, add]
  · simp [policyMap, add, hpk, AList.lookup_insert_ne hpk]

variable {P}

theorem Grouped.mem_psOrder_add {items : List SimplifiedPolicy} {g : Groups}
    (h : Grouped P items g) (p : SimplifiedPolicy) (pk : String × String) :
    pk ∈ (g.add P p).psOrder ↔ pk = p.psKey ∨ pk ∈ g.psOrder := by
  rw [Groups.add]
  split_ifs with hmem
  · have hp : p.psKey ∈ g.psOrder := (h.order p.psKey).mp hmem
    constructor
    · exact Or.inr
    · rintro (rfl | hpk)
      · exact hp
      · exact hpk
  · simp [or_comm]

/-- Step: one policy. -/
theorem Grouped.add {items : List SimplifiedPolicy} {g : Groups} (h : Grouped P items g)
    (p : SimplifiedPolicy) : Grouped P (items ++ [p]) (g.add P p) where
  nodup := by
    rw [Groups.add]
    split_ifs with hmem
    · exact h.nodup
    · have hnew : p.psKey ∉ g.psOrder := fun hp => hmem ((h.order p.psKey).mpr hp)
      exact List.nodup_append.mpr ⟨h.nodup, by simp, by rintro a ha b hb rfl; simp_all⟩
  order := by
    intro pk
    rw [h.mem_psOrder_add, ← h.order, Groups.add, AList.mem_insert]
  sets := by
    intro q hq
    rw [h.mem_psOrder_add]
    rcases List.mem_append.mp hq with hq | hq
    · exact Or.inr (h.sets q hq)
    · exact Or.inl (by rw [List.mem_singleton.mp hq])
  policies := by
    intro q hq
    rw [Groups.policyMap_add]
    rcases List.mem_append.mp hq with hq | hq
    · split_ifs with hkey
      · have hold := h.policies q hq
        rw [hkey] at hold
        exact AList.mem_keys.mp (AList.mem_insert _ |>.mpr (Or.inr hold))
      · exact h.policies q hq
    · rw [List.mem_singleton.mp hq, if_pos rfl]
      exact AList.mem_keys.mp (AList.mem_insert _ |>.mpr (Or.inl rfl))
  rules := by
    intro pk rk
    rw [Groups.policyMap_add, List.filter_append, List.map_append, ← h.rules]
    by_cases hpk : pk = p.psKey
    · subst hpk
      rw [if_pos rfl]
      by_cases hrk : rk = p.pKey P
      · simp [hrk]
      · simp [Dict.getD_modify_ne _ hrk, Ne.symm hrk]
    · simp [hpk, Ne.symm hpk]

/-- Run: the whole list. -/
theorem grouped_foldl (items : List SimplifiedPolicy) :
    Grouped P items (items.foldl (Groups.add P) .empty) := by
  induction items using List.reverseRecOn with
  | nil => exact grouped_empty P
  | append_singleton items p ih =>
    rw [List.foldl_append]
    exact ih.add p

/-! ## Printing and reading -/

variable (P)

/-- What acconfig reads when a policy is printed alone. -/
def SimplifiedPolicy.reread (p : SimplifiedPolicy) : Option Simplified.Policy :=
  (setResourceType (toPolicySet p.psKey ∅)).bind fun resourceType =>
    (convertRule (setComponent (toPolicySet p.psKey ∅)) resourceType
      (parseTarget (rolesTarget (p.pKey P))) (toRule (p.ruleVal P))).policy?

/-- A printed set is read rule by rule, under the keys of its group. -/
theorem convertPolicySet_toPolicySet (pk : String × String) (policyMap : Dict (List RuleVal)) :
    convertPolicySet (toPolicySet pk policyMap) =
      (sortedSet policyMap.keys).flatMap fun rk => (Dict.getD policyMap rk []).filterMap fun rule =>
        (setResourceType (toPolicySet pk ∅)).bind fun resourceType =>
          (convertRule (setComponent (toPolicySet pk ∅)) resourceType
            (parseTarget (rolesTarget rk)) (toRule rule)).policy? := by
  have htype : setResourceType (toPolicySet pk policyMap) =
      setResourceType (toPolicySet pk ∅) := by
    simp only [setResourceType, toPolicySet]
  have hcomponent : setComponent (toPolicySet pk policyMap) = setComponent (toPolicySet pk ∅) :=
    rfl
  rw [convertPolicySet, convertRules, htype, hcomponent]
  cases setResourceType (toPolicySet pk ∅) with
  | none => simp
  | some resourceType =>
    simp [toPolicySet, List.flatMap_map, List.filterMap_flatMap, List.filterMap_map,
      Function.comp_def]

/-- The rules of a group are read like its policies alone. -/
theorem Grouped.filterMap_rules {items : List SimplifiedPolicy} {g : Groups}
    (h : Grouped P items g) (pk : String × String) (rk : String) :
    ((Dict.getD (g.policyMap pk) rk []).filterMap fun rule =>
        (setResourceType (toPolicySet pk ∅)).bind fun resourceType =>
          (convertRule (setComponent (toPolicySet pk ∅)) resourceType
            (parseTarget (rolesTarget rk)) (toRule rule)).policy?) =
      ((items.filter fun p => p.psKey = pk).filter fun p => p.pKey P = rk).filterMap
        (SimplifiedPolicy.reread P) := by
  have hfilter : (items.filter fun p => p.psKey = pk ∧ p.pKey P = rk) =
      (items.filter fun p => p.psKey = pk).filter fun p => p.pKey P = rk := by
    rw [List.filter_filter]
    refine List.filter_congr fun p _ => ?_
    simp [and_comm]
  rw [h.rules, hfilter, List.filterMap_map]
  refine List.filterMap_congr fun p hp => ?_
  simp only [List.mem_filter, decide_eq_true_eq] at hp
  obtain ⟨⟨-, hpk⟩, hrk⟩ := hp
  rw [Function.comp_apply, SimplifiedPolicy.reread, hpk, hrk]

/-- Printing and reading an upload is printing and reading each policy alone. -/
theorem convertPolicySets_perm (items : List SimplifiedPolicy) :
    (convertPolicySets (toV3PolicySets P items)).Perm
      (items.filterMap (SimplifiedPolicy.reread P)) := by
  have hgrouped : Grouped P items (items.foldl (Groups.add P) .empty) := grouped_foldl items
  rw [toV3PolicySets]
  generalize items.foldl (Groups.add P) .empty = g at hgrouped
  have hsimplified : simplifiedSets (g.psOrder.map fun pk => toPolicySet pk (g.policyMap pk)) =
      g.psOrder.map fun pk => toPolicySet pk (g.policyMap pk) := by
    refine List.filter_eq_self.mpr fun ps hps => ?_
    obtain ⟨pk, -, rfl⟩ := List.mem_map.mp hps
    rfl
  -- the policies of one set
  have hset : ∀ pk ∈ g.psOrder, (convertPolicySet (toPolicySet pk (g.policyMap pk))).Perm
      ((items.filter fun p => p.psKey = pk).filterMap (SimplifiedPolicy.reread P)) := by
    intro pk _
    have hcover : ∀ p ∈ items.filter fun p => p.psKey = pk,
        p.pKey P ∈ sortedSet (g.policyMap pk).keys := by
      intro p hp
      rw [List.mem_filter, decide_eq_true_iff] at hp
      rw [mem_sortedSet, ← hp.2]
      exact hgrouped.policies p hp.1
    have hperm := (Dict.flatMap_filter_perm (SimplifiedPolicy.pKey P) (nodup_sortedSet _)
      hcover).filterMap (SimplifiedPolicy.reread P)
    rw [List.filterMap_flatMap] at hperm
    simpa only [convertPolicySet_toPolicySet, hgrouped.filterMap_rules] using hperm
  have hperm := (Dict.flatMap_filter_perm SimplifiedPolicy.psKey hgrouped.nodup
    hgrouped.sets).filterMap (SimplifiedPolicy.reread P)
  rw [List.filterMap_flatMap] at hperm
  simp only [convertPolicySets, hsimplified, List.flatMap_map]
  exact (List.Perm.flatMap_left g.psOrder hset).trans hperm

end PolicyAdmin

end AuthzAgent
