/-
  AuthzAgent.Authorize.Global

  Access without a rule.  `globalAccessRoles` holds, per role, the resource
  types and operations on which `decision_for_resource` allows a request
  before it looks at any rule.  In terms of the policies: a role gets through
  exactly where a policy on all resource types or all operations names it and
  covers the request.  Such a policy gives access to its whole scope, and its
  condition and predicates are not kept; those of every other policy are.
-/

import AuthzAgent.Authorize.Decision

namespace AuthzAgent

open GoText
open Simplified

namespace Simplified

/-- Whether the entry of a role covers the keys of a request. -/
def GlobalAccess.Covers (a : GlobalAccess) (rt op : String) : Prop :=
  a.Has .all ∨ a.Has (.operation op) ∨ a.Has (.resourceType rt)

/-- Whether a policy covers the keys of a request. -/
def Policy.Covers (P : Platform) (p : Policy) (rt op : String) : Prop :=
  (normalizeKey P p.resourceType = "ALL" ∨ normalizeKey P p.resourceType = rt) ∧
  (normalizeKey P p.operation = "ALL" ∨ normalizeKey P p.operation = op)

/-- The grant of a wildcard policy reaches the requests the policy covers. -/
theorem grantOf_covers {rt' op' : String} (hwild : rt' = "ALL" ∨ op' = "ALL") (rt op : String) :
    (Grant.all = grantOf rt' op' ∨ Grant.operation op = grantOf rt' op' ∨
        Grant.resourceType rt = grantOf rt' op') ↔
      (rt' = "ALL" ∨ rt' = rt) ∧ (op' = "ALL" ∨ op' = op) := by
  rw [grantOf]
  by_cases hrt : rt' = "ALL"
  · by_cases hop : op' = "ALL"
    · simp [hrt, hop]
    · simp [hrt, hop, eq_comm]
  · have hop : op' = "ALL" := hwild.resolve_left hrt
    simp [hrt, hop, eq_comm]

section

variable {P : Platform} {ps : List Policy} {doc : PolicyDoc} {es : List Entry}

theorem Document.covers_iff (h : Document P ps doc es) (role rt op : String) :
    (globalLookup doc.globalAccessRoles role).Covers rt op ↔
      ∃ p ∈ ps, p.isWildcard P ∧ role ∈ p.roleNames P ∧ p.Covers P rt op := by
  simp only [GlobalAccess.Covers, h.has_iff]
  constructor
  · rintro (⟨p, hp, hwild, hrole, hg⟩ | ⟨p, hp, hwild, hrole, hg⟩ | ⟨p, hp, hwild, hrole, hg⟩)
    · exact ⟨p, hp, hwild, hrole, (grantOf_covers hwild rt op).mp (.inl hg)⟩
    · exact ⟨p, hp, hwild, hrole, (grantOf_covers hwild rt op).mp (.inr (.inl hg))⟩
    · exact ⟨p, hp, hwild, hrole, (grantOf_covers hwild rt op).mp (.inr (.inr hg))⟩
  · rintro ⟨p, hp, hwild, hrole, hcovers⟩
    rcases (grantOf_covers hwild rt op).mpr hcovers with hg | hg | hg
    · exact .inl ⟨p, hp, hwild, hrole, hg⟩
    · exact .inr (.inl ⟨p, hp, hwild, hrole, hg⟩)
    · exact .inr (.inr ⟨p, hp, hwild, hrole, hg⟩)

/-- The rule of every policy that is not global is stored, with its condition
    and predicates. -/
theorem Document.rule_stored (h : Document P ps doc es) {p : Policy} (hp : p ∈ ps)
    (hrule : ¬ p.isGlobal P) :
    ∃ rule, normalizeRule P p = .ok rule ∧ ∀ role ∈ roleKeys (p.roleNames P),
      cloneRule P rule ∈ rlsLookup doc.rls (normalizeKey P p.resourceType)
        (normalizeKey P p.operation) role := by
  obtain ⟨e, -, hentry⟩ := h.entry_of_policy hp
  rcases policyEntry_cases hentry with ⟨hglobal, -⟩ | ⟨-, rule, hnorm, -⟩
  · exact absurd hglobal hrule
  · exact ⟨rule, hnorm, fun role hrole =>
      h.mem_rls.mpr ⟨p, hp, hrule, rfl, rfl, hrole, rule, hnorm, rfl⟩⟩

end

end Simplified

namespace Authorize

/-- The short circuit of `decision_for_resource`: some role of the subject has
    access to the whole resource type or operation. -/
theorem matchesResource_iff (byRole : Dict GlobalAccess) (roles : List String) (rt op : String) :
    (!(buildWildcardSummary byRole roles).isEmpty &&
        (buildWildcardSummary byRole roles).matchesResource rt op) = true ↔
      ∃ role ∈ roles, (globalLookup byRole role).Covers rt op := by
  -- a summary that matches is not empty, so the first test decides nothing
  have hempty : ∀ wa : WildcardSummary, wa.matchesResource rt op = true → wa.isEmpty = false := by
    intro wa hmatch
    simp only [WildcardSummary.matchesResource, Bool.or_eq_true, decide_eq_true_eq] at hmatch
    rcases hmatch with (hall | hop) | hrt
    · simp [WildcardSummary.isEmpty, hall]
    · simp [WildcardSummary.isEmpty, Finset.ne_empty_of_mem hop]
    · simp [WildcardSummary.isEmpty, Finset.ne_empty_of_mem hrt]
  have hdrop : (!(buildWildcardSummary byRole roles).isEmpty &&
      (buildWildcardSummary byRole roles).matchesResource rt op) = true ↔
      (buildWildcardSummary byRole roles).matchesResource rt op = true := by
    rw [Bool.and_eq_true, Bool.not_eq_true']
    exact ⟨fun h => h.2, fun h => ⟨hempty _ h, h⟩⟩
  rw [hdrop, buildWildcardSummary]
  split_ifs with hall hnone
  · simp only [WildcardSummary.matchesResource, Bool.true_or, true_iff]
    obtain ⟨role, hrole, h⟩ := List.any_eq_true.mp hall
    exact ⟨role, hrole, .inl h⟩
  · -- no role has an entry
    have hlookup : ∀ role, globalLookup byRole role = .none := fun role =>
      Dict.getD_of_isEmpty hnone role .none
    simp [WildcardSummary.matchesResource, hlookup, GlobalAccess.Covers,
      GlobalAccess.not_has_none]
  · have hnotall : ∀ role ∈ roles, ¬ (globalLookup byRole role).Has .all := by
      intro role hrole h
      exact hall (List.any_eq_true.mpr ⟨role, hrole, h⟩)
    simp only [WildcardSummary.matchesResource, Bool.false_or, Bool.or_eq_true,
      decide_eq_true_eq, Finset.mem_biUnion, List.mem_toFinset]
    constructor
    · rintro (⟨role, hrole, h⟩ | ⟨role, hrole, h⟩)
      · exact ⟨role, hrole, .inr (.inl h)⟩
      · exact ⟨role, hrole, .inr (.inr h)⟩
    · rintro ⟨role, hrole, h | h | h⟩
      · exact absurd h (hnotall role hrole)
      · exact .inl ⟨role, hrole, h⟩
      · exact .inr ⟨role, hrole, h⟩

/-- Owners may read, whatever the resource type. -/
def readOwned : Policy where
  component := "c"
  resourceType := "ALL"
  operation := "READ"
  condition := .string "resource.owner = 'x'"
  rsqlPredicate := ""
  sqlPredicate := ""
  mongodbPredicate := ""
  queryDSLPredicate := ""
  roles := some [.string "R"]

end Authorize

end AuthzAgent
