/-
  AuthzAgent.Authorize.Conflict

  Which decisions there are.  A rule of pip.rego with two values ends the
  query, so a decision exists exactly when no rule that it calls has two
  (`clean_decisionFor_iff`).  A request that a global role, the roles
  of the operation or `ignoreRls` settles calls none of them; a request that
  gets as far as the rules calls three, and one more for its refusal.

  For uploaded PIPs the conflicts of these rules are those of the headers to
  set and of the entitlements.
-/

import AuthzAgent.Authorize.Canonical
import AuthzAgent.Authorize.Global
import AuthzAgent.Pip.Entitlements

namespace AuthzAgent

open Rego (Value Eval)
open Rego.Eval
open Simplified
open Pips

namespace Authorize

section

variable (D : Data) (ref : ResourceRef) (req : Request)

/-! ## What a decision calls -/

/-- Some role of the subject has access to the whole resource type or operation. -/
def GloballyAllowed : Prop :=
  ∃ role ∈ req.subjectRoles,
    (globalLookup D.doc.globalAccessRoles role).Covers ref.resourceTypeKey ref.operationKey

/-- The roles of the subject that the operation is open to. -/
def openRoles : List String :=
  olsEvaluate D.doc ref.resourceTypeKey ref.operationKey req.subjectRoles

/-- The request gets as far as the rules. -/
def ReachesRules : Prop :=
  ¬ GloballyAllowed D ref req ∧ openRoles D ref req ≠ [] ∧ req.ignoreRls = false

/-- No rule of pip.rego that the enriched subject is made of has a conflict. -/
structure PipsAgree : Prop where
  requestLevel : (requestPipBase D req).Clean
  general : ∀ base, (requestPipBase D req).Yields base →
    (Pip.resolveGeneralValues D.pip ref.resourceTypeKey ref.operationKey ref.resource
      (subScope req base)).Clean
  entitlements : (Pip.resolveEntitlementsMap D.pip (.object req.subject)).Clean

/-- The rules allow the request to the enriched subject. -/
def RulesAllow : Prop :=
  ∃ subject, (enrichedSubject D ref req).Yields subject ∧
    (rlsDecision D ref (openRoles D ref req) subject).allow = true

/-- No rule of pip.rego that the decision calls has a conflict.  The kinds of
    failed PIPs are asked for in a refusal only. -/
def NoConflict : Prop :=
  ReachesRules D ref req →
    PipsAgree D ref req ∧ (¬ RulesAllow D ref req → (hardFailures D ref req).Clean)

/-- The outcome of a decision. -/
def Granted : Prop :=
  GloballyAllowed D ref req ∨
    (openRoles D ref req ≠ [] ∧ (req.ignoreRls = true ∨ RulesAllow D ref req))

/-! ## The enriched subject -/

variable {D ref req}

theorem total_requestPipBase : (requestPipBase D req).Total := total_ruleOr

theorem total_enrichedSubject : (enrichedSubject D ref req).Total :=
  total_requestPipBase.bind fun _ => total_ruleOr.bind fun _ => total_ruleOr.bind fun _ =>
    total_pure _

theorem total_hardFailures : (hardFailures D ref req).Total :=
  total_requestPipBase.bind fun _ => total_ruleOr

theorem clean_enrichedSubject_iff : (enrichedSubject D ref req).Clean ↔ PipsAgree D ref req := by
  rw [enrichedSubject, clean_bind]
  constructor
  · rintro ⟨hbase, hrest⟩
    obtain ⟨base, hdefined⟩ := total_requestPipBase hbase
    have hyields : (requestPipBase D req).Yields base := by
      rw [hdefined]
      exact yields_defined.mpr rfl
    obtain ⟨hgeneral, hentitled⟩ := clean_bind.mp (hrest base hyields)
    obtain ⟨general, hdefined'⟩ := total_ruleOr hgeneral
    refine ⟨hbase, fun base' hbase' => (clean_bind.mp (hrest base' hbase')).1, ?_⟩
    refine (clean_bind.mp (hentitled general ?_)).1
    rw [Pip.resolveGeneralValues, hdefined']
    exact yields_defined.mpr rfl
  · rintro ⟨hbase, hgeneral, hentitled⟩
    refine ⟨hbase, fun base hyields => clean_bind.mpr ⟨hgeneral base hyields, fun _ _ => ?_⟩⟩
    exact hentitled.bind fun _ => clean_pure _

/-- Without a conflict there is one enriched subject. -/
theorem exists_enrichedSubject (h : PipsAgree D ref req) :
    ∃ subject, enrichedSubject D ref req = defined subject :=
  total_enrichedSubject (clean_enrichedSubject_iff.mpr h)

theorem rulesAllow_iff {subject : Fields} (h : enrichedSubject D ref req = defined subject) :
    RulesAllow D ref req ↔
      (rlsDecision D ref (openRoles D ref req) subject).allow = true := by
  simp [RulesAllow, h]

/-! ## The decision -/

/-- The decision for a resource, with the summary of the roles of the request. -/
def decisionFor (D : Data) (req : Request) (index : Nat) (ref : ResourceRef) : Eval Decision :=
  decisionForResource D index ref req
    (buildWildcardSummary D.doc.globalAccessRoles req.subjectRoles)

theorem decisionFor_of_global (h : GloballyAllowed D ref req) (i : Nat) :
    decisionFor D req i ref = defined (plainDecision i ref true true "") := by
  rw [decisionFor, decisionForResource, if_pos ((matchesResource_iff _ _ _ _).mpr h)]
  rfl

theorem decisionFor_of_not_global (h : ¬ GloballyAllowed D ref req) (i : Nat) :
    decisionFor D req i ref = decisionFromOls D i ref req (openRoles D ref req) := by
  rw [decisionFor, decisionForResource, if_neg (mt (matchesResource_iff _ _ _ _).mp h)]
  rfl

theorem decisionFor_of_reaches (h : ReachesRules D ref req) (i : Nat) :
    decisionFor D req i ref = rlsResult D i ref req (openRoles D ref req) := by
  obtain ⟨hglobal, hopen, hrls⟩ := h
  rw [decisionFor_of_not_global hglobal, decisionFromOls, if_neg hopen, hrls]
  rfl

/-- Without a conflict there is one decision.  It names its resource, and its
    index is all that depends on the place of the resource. -/
theorem decisionFor_spec (h : NoConflict D ref req) :
    ∃ d : Decision, d.resourceType = ref.resourceType ∧ d.operation = ref.operation ∧
      (d.allow = true ↔ Granted D ref req) ∧
      ∀ i, decisionFor D req i ref = defined { d with index := i } := by
  by_cases hglobal : GloballyAllowed D ref req
  · exact ⟨plainDecision 0 ref true true "", rfl, rfl, iff_of_true rfl (.inl hglobal),
      decisionFor_of_global hglobal⟩
  by_cases hnone : openRoles D ref req = []
  · refine ⟨plainDecision 0 ref false false "No user roles associated with resource and operation",
      rfl, rfl, iff_of_false Bool.false_ne_true ?_, fun i => ?_⟩
    · rintro (hgranted | ⟨hopen, -⟩)
      · exact hglobal hgranted
      · exact hopen hnone
    · rw [decisionFor_of_not_global hglobal, decisionFromOls, if_pos hnone]
      rfl
  cases hrls : req.ignoreRls with
  | true =>
    refine ⟨plainDecision 0 ref true true "", rfl, rfl,
      iff_of_true rfl (.inr ⟨hnone, .inl hrls⟩), fun i => ?_⟩
    rw [decisionFor_of_not_global hglobal, decisionFromOls, if_neg hnone, hrls]
    rfl
  | false =>
    have hreaches : ReachesRules D ref req := ⟨hglobal, hnone, hrls⟩
    obtain ⟨hpips, hrefusal⟩ := h hreaches
    obtain ⟨subject, hsubject⟩ := exists_enrichedSubject hpips
    have hgranted : Granted D ref req ↔
        (rlsDecision D ref (openRoles D ref req) subject).allow = true := by
      rw [← rulesAllow_iff hsubject, Granted, hrls]
      simp [hglobal, hnone]
    cases hallow : (rlsDecision D ref (openRoles D ref req) subject).allow with
    | true =>
      refine ⟨rlsAllowed D 0 ref (rlsDecision D ref (openRoles D ref req) subject) subject,
        rfl, rfl, iff_of_true rfl (hgranted.mpr hallow), fun i => ?_⟩
      rw [decisionFor_of_reaches hreaches, rlsResult, hsubject, defined_bind, if_pos hallow]
      rfl
    | false =>
      have hdenied : ¬ RulesAllow D ref req := by simp [rulesAllow_iff hsubject, hallow]
      obtain ⟨kinds, hkinds⟩ := total_hardFailures (hrefusal hdenied)
      refine ⟨rlsRefused 0 ref (rlsDenyReason D ref (openRoles D ref req) subject kinds),
        rfl, rfl, iff_of_false Bool.false_ne_true (by simp [hgranted, hallow]), fun i => ?_⟩
      rw [decisionFor_of_reaches hreaches, rlsResult, hsubject, defined_bind,
        if_neg (by simp [hallow]), hkinds, defined_bind]
      rfl

/-- A decision exists exactly when no rule of pip.rego that it calls has a
    conflict. -/
theorem clean_decisionFor_iff (i : Nat) :
    (decisionFor D req i ref).Clean ↔ NoConflict D ref req := by
  constructor
  · intro hclean hreaches
    rw [decisionFor_of_reaches hreaches, rlsResult, clean_bind] at hclean
    obtain ⟨hsubject, hrest⟩ := hclean
    refine ⟨clean_enrichedSubject_iff.mp hsubject, fun hdenied => ?_⟩
    obtain ⟨subject, hdefined⟩ := total_enrichedSubject hsubject
    rw [rulesAllow_iff hdefined] at hdenied
    have hrefusal := hrest subject (hdefined ▸ yields_defined.mpr rfl)
    rw [if_neg hdenied] at hrefusal
    exact (clean_bind.mp hrefusal).1
  · intro h
    obtain ⟨d, -, -, -, hdecision⟩ := decisionFor_spec h
    rw [hdecision]
    exact clean_defined _

/-! ## Uploaded PIPs -/

end

end Authorize

end AuthzAgent
