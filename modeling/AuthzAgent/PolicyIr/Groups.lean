/-
  AuthzAgent.PolicyIr.Groups

  The shape of the sets that `simplifiedGroup` takes for simplified policies
  (export.go in policyir): what it asks of a set, its policies and their rules,
  and what it returns.
-/

import AuthzAgent.PolicyIr.Export

namespace AuthzAgent

open Checked

namespace PolicyIr

section

variable {W : Words}

structure RuleShape (W : Words) (r : ExportRule) (roles : List String) : Prop where
  effect : r.effect = "ALLOW"
  predicate : r.predicate = ""
  customPredicate : r.customPredicate = none
  target : r.target = some (rolesTarget roles)
  roles : rolesOf W (rolesTarget roles) = some roles

def simplifiedPolicy (W : Words) (op : String) (r : ExportRule) (roles : List String) :
    SimplifiedPolicy where
  id := r.ruleID
  frontend := r.ruleType = ruleTypeFrontend
  operation := op
  roles := roles
  condition := condition W r.condition .simplified ""
  predicates := predicates r

theorem groupRule_eq_some {op : String} {r : ExportRule} {p : SimplifiedPolicy} :
    groupRule W op r = some p ↔
      ∃ roles, RuleShape W r roles ∧ p = simplifiedPolicy W op r roles := by
  rw [groupRule]
  constructor
  · intro h
    split at h
    · cases h
    · rename_i hshape
      rw [not_or, not_or, not_not, not_not, Bool.not_eq_true, Option.isSome_eq_false_iff,
        Option.isNone_iff_eq_none] at hshape
      obtain ⟨target, htarget, h⟩ := Option.bind_eq_some_iff.1 h
      obtain ⟨roles, hroles, h⟩ := Option.bind_eq_some_iff.1 h
      split at h
      · cases h
      · rename_i hprinted
        rw [not_not] at hprinted
        cases h
        exact ⟨roles, ⟨hshape.1, hshape.2.1, hshape.2.2, hprinted ▸ htarget, hprinted ▸ hroles⟩,
          rfl⟩
  · rintro ⟨roles, hshape, rfl⟩
    simp [hshape.effect, hshape.predicate, hshape.customPredicate, hshape.target, hshape.roles,
      simplifiedPolicy]

/-- A policy in the shape of the PAP, with its operation and the roles of its
    rules. -/
structure PolicyShape (W : Words) (p : ExportPolicy) (op : String) (roles : List (List String)) :
    Prop where
  target : p.target = some (operationTarget op)
  operation : groupOperation W (operationTarget op) = some op
  algorithm : p.combiningAlgorithm = "DENY_UNLESS_PERMIT"
  rules : List.Forall₂ (RuleShape W) p.rules roles

theorem eq_operationTarget {target op : String} (h : groupOperation W target = some op) :
    target = operationTarget op := by
  rw [groupOperation] at h
  split at h
  · rename_i htrue
    cases h
    rw [htrue]
    rfl
  · exact of_decide_eq_true (Option.filter_eq_some_iff.1 h).2

/-- Loops over items of a shape with parts, and the results that are made of an
    item and its part. -/
theorem forall₂_eq_some_iff {α β γ : Type} {f : α → Option γ} {S : α → β → Prop} {g : α → β → γ}
    (h : ∀ a c, f a = some c ↔ ∃ b, S a b ∧ c = g a b) {as : List α} {cs : List γ} :
    List.Forall₂ (fun a c => f a = some c) as cs ↔
      ∃ bs, List.Forall₂ S as bs ∧ cs = as.zipWith g bs := by
  induction as generalizing cs with
  | nil =>
    rw [List.forall₂_nil_left_iff]
    constructor
    · rintro rfl
      exact ⟨[], .nil, rfl⟩
    · rintro ⟨bs, -, rfl⟩
      exact List.zipWith_nil_left
  | cons a as ih =>
    rw [List.forall₂_cons_left_iff]
    constructor
    · rintro ⟨c, cs', hc, hcs, rfl⟩
      obtain ⟨b, hb, rfl⟩ := (h a c).1 hc
      obtain ⟨bs, hbs, rfl⟩ := ih.1 hcs
      exact ⟨b :: bs, .cons hb hbs, rfl⟩
    · rintro ⟨bs, hbs, rfl⟩
      obtain ⟨b, bs', hb, hbs', rfl⟩ := List.forall₂_cons_left_iff.1 hbs
      exact ⟨g a b, as.zipWith g bs', (h a _).2 ⟨b, hb, rfl⟩, ih.2 ⟨bs', hbs', rfl⟩, rfl⟩

theorem groupPolicy_eq_some {p : ExportPolicy} {sps : List SimplifiedPolicy} :
    groupPolicy W p = some sps ↔
      ∃ parts : String × List (List String), PolicyShape W p parts.1 parts.2 ∧
        sps = p.rules.zipWith (simplifiedPolicy W parts.1) parts.2 := by
  rw [groupPolicy]
  constructor
  · intro h
    obtain ⟨target, htarget, h⟩ := Option.bind_eq_some_iff.1 h
    split at h
    · cases h
    · rename_i halg
      obtain ⟨op, hop, hmapM⟩ := Option.bind_eq_some_iff.1 h
      obtain ⟨roles, hroles, hsps⟩ :=
        (forall₂_eq_some_iff fun r c => groupRule_eq_some).1 (mapM_eq_some_iff.1 hmapM)
      have hprinted := eq_operationTarget hop
      exact ⟨(op, roles), ⟨hprinted ▸ htarget, hprinted ▸ hop, not_not.1 halg, hroles⟩, hsps⟩
  · rintro ⟨⟨op, roles⟩, hshape, rfl⟩
    have hrules := mapM_eq_some_iff.2
      ((forall₂_eq_some_iff fun r c =>
          (groupRule_eq_some : groupRule W op r = some c ↔ _)).2 ⟨roles, hshape.rules, rfl⟩)
    simp [hshape.target, hshape.operation, hshape.algorithm, hrules]

/-- A set in the shape of the PAP, with its resource type and the operations and
    roles of its policies. -/
structure SetShape (W : Words) (s : ExportSet) (rt : String)
    (parts : List (String × List (List String))) : Prop where
  type : s.type = "SIMPLIFIED"
  iterate : s.iterate = none
  policySets : s.policySets = []
  target : s.target = some (resourceTypeTarget rt)
  algorithm : s.combiningAlgorithm = "DENY_UNLESS_PERMIT"
  resourceType : onlyEquality W (resourceTypeTarget rt) .resourceType = some rt
  policies : List.Forall₂ (fun p part => PolicyShape W p part.1 part.2) s.policies parts

def groupOf (W : Words) (s : ExportSet) (rt : String)
    (parts : List (String × List (List String))) : SimplifiedGroup where
  id := s.policySetID
  name := s.name
  externalID := s.externalID
  domain := s.domain
  component := s.component.getD ""
  resourceType := rt
  policies := (s.policies.zipWith (fun p part =>
    p.rules.zipWith (simplifiedPolicy W part.1) part.2) parts).flatten

theorem simplifiedGroup_eq_some {s : ExportSet} {g : SimplifiedGroup} :
    simplifiedGroup W s = some g ↔ ∃ rt parts, SetShape W s rt parts ∧ g = groupOf W s rt parts := by
  rw [simplifiedGroup]
  constructor
  · intro h
    split at h
    · cases h
    · rename_i hshape
      rw [not_or, not_or, not_not, Bool.not_eq_true, Option.isSome_eq_false_iff,
        Option.isNone_iff_eq_none, not_lt, Nat.le_zero, List.length_eq_zero_iff] at hshape
      obtain ⟨target, htarget, h⟩ := Option.bind_eq_some_iff.1 h
      split at h
      · cases h
      · rename_i halg
        obtain ⟨rt, hrt, h⟩ := Option.bind_eq_some_iff.1 h
        split at h
        · cases h
        · rename_i hprinted
          rw [not_not] at hprinted
          obtain ⟨pss, hpss, hgroup⟩ := Option.bind_eq_some_iff.1 h
          obtain ⟨parts, hparts, heq⟩ :=
            (forall₂_eq_some_iff fun p c => groupPolicy_eq_some).1 (mapM_eq_some_iff.1 hpss)
          cases hgroup
          exact ⟨rt, parts, ⟨hshape.1, hshape.2.1, hshape.2.2, hprinted ▸ htarget, not_not.1 halg,
            hprinted ▸ hrt, hparts⟩, by rw [heq]; rfl⟩
  · rintro ⟨rt, parts, hshape, rfl⟩
    have hpolicies := mapM_eq_some_iff.2
      ((forall₂_eq_some_iff fun p c => groupPolicy_eq_some (W := W)).2 ⟨parts, hshape.policies, rfl⟩)
    simp [hshape.type, hshape.iterate, hshape.policySets, hshape.target, hshape.algorithm,
      hshape.resourceType, hpolicies, groupOf]

end

end PolicyIr

end AuthzAgent
