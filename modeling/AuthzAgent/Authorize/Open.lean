/-
  AuthzAgent.Authorize.Open

  Policies without roles.  The converter of the v3 export takes such a policy
  to be open to everyone.  It is stored as a rule of the role `ALL` and adds no
  role to its operation, so the evaluator reaches the rule only when another
  policy opens the operation to a role of the subject.
-/

import AuthzAgent.Authorize.Direct

namespace AuthzAgent

open GoText
open Rego (Value Eval)
open Rego.Eval
open Simplified

namespace Authorize

section

variable {D : Data} {ps : List Policy} {ref : ResourceRef} {req : Request}

/-- A role opens the operation, or all of it, exactly when some policy that
    covers the request names it. -/
theorem opens_iff_covers {role : String} :
    (∃ p ∈ ps, p.Covers D.platform ref.resourceTypeKey ref.operationKey ∧
        role ∈ p.roleNames D.platform) ↔
      (∃ p ∈ ps, p.isWildcard D.platform ∧
        p.Covers D.platform ref.resourceTypeKey ref.operationKey ∧
        role ∈ p.roleNames D.platform) ∨ OpensTo D ps ref role := by
  constructor
  · rintro ⟨p, hp, hcovers, hrole⟩
    by_cases hwild : p.isWildcard D.platform
    · exact .inl ⟨p, hp, hwild, hcovers, hrole⟩
    · refine .inr ⟨p, hp, fun hglobal => hwild hglobal.1, ?_, ?_, hrole⟩
      · exact hcovers.1.resolve_left fun hall => hwild (.inl hall)
      · exact hcovers.2.resolve_left fun hall => hwild (.inr hall)
  · rintro (⟨p, hp, -, hcovers, hrole⟩ | ⟨p, hp, -, hrt, hop, hrole⟩)
    · exact ⟨p, hp, hcovers, hrole⟩
    · exact ⟨p, hp, ⟨.inr hrt, .inr hop⟩, hrole⟩

theorem ruleGrant_of_roleless {p : Policy} (hp : p ∈ ps) (hroles : p.roleNames D.platform = [])
    (hcovers : p.Covers D.platform ref.resourceTypeKey ref.operationKey) {subject : Fields}
    (haccept : accepts D ref subject p = true) :
    RuleGrant D ps ref req (accepts D ref subject) := by
  have hkeys : roleKeys (p.roleNames D.platform) = ["ALL"] := if_pos hroles
  refine ⟨p, hp, fun hglobal => hglobal.2 hroles, hcovers, haccept, "ALL", ?_, .inl rfl⟩
  rw [hkeys]
  exact List.mem_singleton_self _

variable (D ps ref req) in
/-- The request does not need the rules, or their subject has no conflict. -/
def SubjectKnown : Prop :=
  req.ignoreRls = true ∨ GlobalGrant D ps ref req ∨ PipsAgree D ref req

/-- Where a policy without roles applies to every subject the rules can see,
    they allow the request as soon as there is one. -/
theorem exists_ruleGrant_of_roleless {p : Policy} (hp : p ∈ ps)
    (hroles : p.roleNames D.platform = [])
    (hcovers : p.Covers D.platform ref.resourceTypeKey ref.operationKey)
    (haccept : ConditionHolds D ref req p) (hpips : PipsAgree D ref req) :
    ∃ subject, (enrichedSubject D ref req).Yields subject ∧
      RuleGrant D ps ref req (accepts D ref subject) := by
  obtain ⟨subject, hsubject⟩ := exists_enrichedSubject hpips
  have hyields : (enrichedSubject D ref req).Yields subject := hsubject ▸ yields_defined.mpr rfl
  exact ⟨subject, hyields, ruleGrant_of_roleless hp hroles hcovers (haccept subject hyields)⟩

/-- Where a policy without roles applies, the outcome depends on the roles
    that other policies name. -/
theorem policiesAllow_iff_of_roleless {p : Policy} (hp : p ∈ ps)
    (hroles : p.roleNames D.platform = [])
    (hcovers : p.Covers D.platform ref.resourceTypeKey ref.operationKey)
    (haccept : ConditionHolds D ref req p) :
    PoliciesAllow D ps ref req (accepts D ref) ↔
      (∃ q ∈ ps, q.Covers D.platform ref.resourceTypeKey ref.operationKey ∧
        ∃ role ∈ q.roleNames D.platform, role ∈ req.subjectRoles) ∧
      SubjectKnown D ps ref req := by
  constructor
  · rintro (hglobal | ⟨⟨role, hheld, hopens⟩, hrules⟩)
    · obtain ⟨q, hq, hwild, hcov, hrole⟩ := hglobal
      exact ⟨⟨q, hq, hcov, hrole⟩, .inr (.inl ⟨q, hq, hwild, hcov, hrole⟩)⟩
    · obtain ⟨q, hq, hcov, hname⟩ := opens_iff_covers.mpr (.inr hopens)
      refine ⟨⟨q, hq, hcov, role, hname, hheld⟩, ?_⟩
      rcases hrules with hignore | ⟨subject, hsubject, -⟩
      · exact .inl hignore
      · exact .inr (.inr (clean_enrichedSubject_iff.mp hsubject.clean))
  · rintro ⟨⟨q, hq, hcov, role, hname, hheld⟩, hknown⟩
    rcases opens_iff_covers.mp ⟨q, hq, hcov, hname⟩ with ⟨q', hq', hwild, hcov', hname'⟩ | hopens
    · exact .inl ⟨q', hq', hwild, hcov', role, hname', hheld⟩
    · rcases hknown with hignore | hglobal | hpips
      · exact .inr ⟨⟨role, hheld, hopens⟩, .inl hignore⟩
      · exact .inl hglobal
      · exact .inr ⟨⟨role, hheld, hopens⟩,
          .inr (exists_ruleGrant_of_roleless hp hroles hcovers haccept hpips)⟩

theorem noConflict_of_roleless {es : List Entry} (h : Document D.platform ps D.doc es)
    {p : Policy} (hp : p ∈ ps) (hroles : p.roleNames D.platform = [])
    (hcovers : p.Covers D.platform ref.resourceTypeKey ref.operationKey)
    (haccept : ConditionHolds D ref req p) (hknown : SubjectKnown D ps ref req) :
    NoConflict D ref req := by
  rintro ⟨hglobal, -, hrls⟩
  rcases hknown with hignore | hgrant | hpips
  · exact absurd (hrls.symm.trans hignore) Bool.false_ne_true
  · exact absurd ((globallyAllowed_iff h).mpr hgrant) hglobal
  · refine ⟨hpips, fun hdenied => absurd ?_ hdenied⟩
    obtain ⟨subject, hyields, hrule⟩ :=
      exists_ruleGrant_of_roleless hp hroles hcovers haccept hpips
    exact ⟨subject, hyields, (rlsDecision_allow_iff h subject).mpr hrule⟩

end

/-- A request that a policy without roles covers, with a condition that holds,
    is allowed exactly when some policy that covers it names a role of the
    subject, and the rules are not needed or no rule of pip.rego that makes
    their subject has a conflict. -/
theorem roleless_isAllowed_iff (D : Data) (I : Identity) (ps : List Policy)
    (hdoc : normalizePolicies D.platform ps = .ok D.doc)
    (input : Input) (auth : Authentication)
    (hadmission : admissionOk I input.credentials = true)
    (hauth : authenticationContext I input.credentials = some auth)
    (hok : auth.authenticated = true) (rt op : String) (resource : Value)
    (hresources : input.resources = .array [requestEntry rt op resource])
    (p : Policy) (hp : p ∈ ps) (hroles : p.roleNames D.platform = [])
    (hcovers : p.Covers D.platform (D.platform.toUpper rt) (D.platform.toUpper op))
    (haccept : ConditionHolds D (requestRef D.platform rt op resource)
      (normalizedRequest D auth input) p) :
    (∃ result, Responds D I input [result] ∧ result.isAllowed = true) ↔
      (∃ q ∈ ps, q.Covers D.platform (D.platform.toUpper rt) (D.platform.toUpper op) ∧
        namesRoleOf D.platform q auth.subject) ∧
      SubjectKnown D ps (requestRef D.platform rt op resource)
        (normalizedRequest D auth input) := by
  obtain ⟨es, h⟩ := normalizePolicies_document hdoc
  have hresponds := responds_iff (D := D) input hadmission hauth hok hresources
  have hpolicies := policiesAllow_iff_of_roleless hp hroles hcovers haccept
  simp only [namesRoleOf_iff]
  refine Iff.trans ?_ hpolicies
  constructor
  · rintro ⟨result, hresponse, hallowed⟩
    have heval := (hresponds _).mp hresponse
    have hno := noConflict_of_clean (heval ▸ clean_defined _) _ (List.mem_singleton_self _)
    obtain ⟨result', hresponse', hiff⟩ :=
      responds_requestEntry h hadmission hauth hok hresources hno
    have hsame := defined_inj.mp (((hresponds _).mp hresponse').symm.trans heval)
    exact hiff.mp (List.singleton_inj.mp hsame ▸ hallowed)
  · intro hallow
    have hno := noConflict_of_roleless h hp hroles hcovers haccept (hpolicies.mp hallow).2
    obtain ⟨result, hresponse, hiff⟩ :=
      responds_requestEntry h hadmission hauth hok hresources hno
    exact ⟨result, hresponse, hiff.mpr hallow⟩

/-! ## A policy for everyone -/

/-- Everyone may read resources of the type `T`. -/
def readByAll : Policy :=
  { readOwned with
    resourceType := "T"
    condition := .null
    roles := some [] }

/-- The request to read a resource of the type `T`. -/
def readRequest : Input := bulkInput [requestEntry "T" "READ" (.object [])]

theorem readByAll_covers : readByAll.Covers .ascii (Platform.ascii.toUpper "T")
    (Platform.ascii.toUpper "READ") := by
  have hrt : normalizeKey .ascii readByAll.resourceType = Platform.ascii.toUpper "T" := by
    decide +kernel
  have hop : normalizeKey .ascii readByAll.operation = Platform.ascii.toUpper "READ" := by
    decide +kernel
  exact ⟨.inr hrt, .inr hop⟩

theorem acceptsCondition_readByAll (known : String → Bool) (resource subject : Value) :
    acceptsCondition .ascii known resource subject readByAll = true := rfl

/-- The only policy is for everyone, and an administrator is refused. -/
theorem readByAll_refused : ∃ doc, normalizePolicies .ascii [readByAll] = .ok doc ∧
    readByAll.roles = some [] ∧
    readByAll.Covers .ascii (Platform.ascii.toUpper "T") (Platform.ascii.toUpper "READ") ∧
    (∀ known resource subject,
      acceptsCondition .ascii known resource subject readByAll = true) ∧
    ∃ result, Responds ⟨doc, noPips⟩ adminIdentity readRequest [result] ∧
      result.isAllowed = false := by
  let answer : Result := ⟨.string "T", .string "READ", false,
    some "No user roles associated with resource and operation", []⟩
  obtain ⟨doc, hdoc, htest⟩ := exists_doc_of_any .ascii [readByAll]
    (fun doc => canonical ⟨doc, noPips⟩ adminIdentity readRequest =
      defined (.response false [answer])) (by decide +kernel)
  exact ⟨doc, hdoc, rfl, readByAll_covers, acceptsCondition_readByAll, answer,
    ⟨false, of_decide_eq_true htest⟩, rfl⟩

/-- With a policy that gives administrators the same operation, whatever its
    condition, they are let through. -/
theorem readByAll_allowed : ∃ doc,
    normalizePolicies .ascii [readByAll, { editOwned with operation := "read" }] = .ok doc ∧
    ∃ result, Responds ⟨doc, noPips⟩ adminIdentity readRequest [result] ∧
      result.isAllowed = true := by
  obtain ⟨doc, hdoc, -⟩ := exists_doc_of_any .ascii
    [readByAll, { editOwned with operation := "read" }] (fun _ => true) (by decide +kernel)
  have hiff := roleless_isAllowed_iff ⟨doc, noPips⟩ adminIdentity
    [readByAll, { editOwned with operation := "read" }] hdoc readRequest _ rfl rfl rfl "T" "READ"
    (.object []) rfl readByAll List.mem_cons_self rfl readByAll_covers
    fun subject _ => acceptsCondition_readByAll _ _ _
  refine ⟨doc, hdoc, hiff.mpr ⟨⟨_, List.mem_cons_of_mem _ List.mem_cons_self,
    ⟨.inr ?_, .inr ?_⟩, "admin", by decide, ?_⟩, .inr (.inr ?_)⟩⟩
  · show normalizeKey .ascii " t" = Platform.ascii.toUpper "T"
    decide +kernel
  · show normalizeKey .ascii "read" = Platform.ascii.toUpper "READ"
    decide +kernel
  · show Platform.ascii.toUpper "admin" ∈ editOwned.roleNames .ascii
    decide +kernel
  · refine clean_enrichedSubject_iff.mp ?_
    rw [enrichedSubject_noPips]
    exact clean_defined _

end Authorize

end AuthzAgent
