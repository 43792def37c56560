/-
  AuthzAgent.Authorize.Direct

  The decision in terms of the policies.  `NormalizePolicies` spreads a list of
  policies over three indexes, and the evaluator consults them one after the
  other; `PoliciesAllow` is the outcome for any list (`granted_iff_policies`).
  When every policy names its roles, and a policy on all resource types or all
  operations has no condition, the outcome is the plain reading of the list: a
  request whose decision has no conflict is allowed exactly when some policy
  covers it, names a role of the subject and has a condition that holds.
-/

import AuthzAgent.Authorize.Alignment

namespace AuthzAgent

open GoText
open Rego (Value Eval)
open Rego.Eval
open Simplified

namespace Authorize

/-! ## The policies, read directly -/

def namesRoleOf (P : Platform) (p : Policy) (subject : Fields) : Prop :=
  ∃ held, Value.string held ∈ ((subject.lookup "roles").getD (.array [])).elements ∧
    P.toUpper held ∈ p.roleNames P

/-- The policy has no condition, or one that `condition_allows` accepts after
    its syntax tree is changed by `f`; the numbers of a condition are those of
    its JSON text. -/
def acceptsMapped (f : Node → Node) (P : Platform) (known : String → Bool)
    (resource subject : Value) (p : Policy) : Bool :=
  match normalizeCondition P p.condition with
  | .ok .absent => true
  | .ok (.literal b) => Rls.conditionAllows P known resource subject (some b) none
  | .ok (.ast t) => Rls.conditionAllows P known resource subject none
      (some (f (t.mapConst (Value.mapNumbers P.float64))))
  | .error _ => false

/-- The policy has no condition, or one that `condition_allows` accepts. -/
def acceptsCondition (P : Platform) (known : String → Bool) (resource subject : Value)
    (p : Policy) : Bool := acceptsMapped id P known resource subject p

/-- The rule with its syntax tree changed by `f`. -/
def mapAst (f : Node → Node) (rule : Rule) : Rule :=
  { rule with conditionAst := rule.conditionAst.map f }

theorem mapAst_id : mapAst id = id := by
  funext rule
  simp [mapAst]

theorem ruleAllows_mapAst (f : Node → Node) {P : Platform} {known : String → Bool}
    {resource subject : Value} {p : Policy} {rule : Rule} (h : normalizeRule P p = .ok rule) :
    Rls.ruleAllows P known resource subject (mapAst f (cloneRule P rule)) =
      acceptsMapped f P known resource subject p := by
  rw [normalizeRule] at h
  rw [acceptsMapped]
  cases hc : normalizeCondition P p.condition with
  | error e => simp [hc, Except.map] at h
  | ok c =>
    simp only [hc, Except.map, Except.ok.injEq] at h
    rw [← h]
    cases c <;> simp [Rls.ruleAllows, mapAst, cloneRule, ruleOf, Rls.conditionAllows]

/-- A policy names a role of the subject when it names one of its normalized
    roles: the empty role, which is dropped, is named by no policy. -/
theorem namesRoleOf_iff {P : Platform} {p : Policy} {subject : Fields} :
    namesRoleOf P p subject ↔
      ∃ role ∈ p.roleNames P, role ∈ subjectRolesSet P subject := by
  have hempty : ∀ held : String, P.toUpper held ∈ p.roleNames P → held ≠ "" := by
    rintro held hrole rfl
    simp [Policy.roleNames, Unicode.toUpper] at hrole
  constructor
  · rintro ⟨held, hheld, hrole⟩
    refine ⟨_, hrole, List.mem_filterMap.mpr ⟨_, hheld, ?_⟩⟩
    simp [hempty held hrole]
  · rintro ⟨role, hrole, hheld⟩
    obtain ⟨v, hv, hsome⟩ := List.mem_filterMap.mp hheld
    cases v with
    | string held =>
      simp only [Option.ite_none_left_eq_some, Option.some.injEq] at hsome
      obtain ⟨-, rfl⟩ := hsome
      exact ⟨held, hv, hrole⟩
    | _ => simp at hsome

section

variable (D : Data) (ps : List Policy) (ref : ResourceRef) (req : Request)

/-- Some policy on all resource types or all operations covers the request and
    names a role of the subject. -/
def GlobalGrant : Prop :=
  ∃ p ∈ ps, p.isWildcard D.platform ∧
    p.Covers D.platform ref.resourceTypeKey ref.operationKey ∧
    ∃ role ∈ p.roleNames D.platform, role ∈ req.subjectRoles

/-- Some policy with the keys of the request names a role. -/
def OpensTo (role : String) : Prop :=
  ∃ p ∈ ps, ¬ p.isGlobal D.platform ∧
    normalizeKey D.platform p.resourceType = ref.resourceTypeKey ∧
    normalizeKey D.platform p.operation = ref.operationKey ∧ role ∈ p.roleNames D.platform

/-- The policy has no condition, or one that holds for the subject. -/
def accepts (subject : Fields) (p : Policy) : Bool :=
  acceptsCondition D.platform (Pip.knownPipAliases D.pip) ref.resource (.object subject) p

/-- Some other policy covers the request, has a condition that is accepted, and
    is for every role or for one that the operation is open to. -/
def RuleGrant (accept : Policy → Bool) : Prop :=
  ∃ p ∈ ps, ¬ p.isGlobal D.platform ∧
    p.Covers D.platform ref.resourceTypeKey ref.operationKey ∧ accept p = true ∧
    ∃ role ∈ roleKeys (p.roleNames D.platform),
      role = "ALL" ∨ (role ∈ req.subjectRoles ∧ OpensTo D ps ref role)

/-- The condition of the policy holds for the enriched subject of the request. -/
def ConditionHolds (p : Policy) : Prop :=
  ∀ subject, (enrichedSubject D ref req).Yields subject → accepts D ref subject p = true

/-- The policies let the subject through: by a global grant, or by a role that
    the operation is open to and, unless the rules are ignored, by a rule whose
    condition is accepted for the enriched subject. -/
def PoliciesAllow (accept : Fields → Policy → Bool) : Prop :=
  GlobalGrant D ps ref req ∨
  ((∃ role ∈ req.subjectRoles, OpensTo D ps ref role) ∧
    (req.ignoreRls = true ∨
      ∃ subject, (enrichedSubject D ref req).Yields subject ∧
        RuleGrant D ps ref req (accept subject)))

variable {D ps ref req} {es : List Entry}

theorem mem_openRoles (h : Document D.platform ps D.doc es) {role : String} :
    role ∈ openRoles D ref req ↔ role ∈ req.subjectRoles ∧ OpensTo D ps ref role := by
  rw [openRoles, olsEvaluate, List.mem_filter, decide_eq_true_eq, h.mem_ols, and_comm]
  rfl

theorem openRoles_ne_nil (h : Document D.platform ps D.doc es) :
    openRoles D ref req ≠ [] ↔ ∃ role ∈ req.subjectRoles, OpensTo D ps ref role := by
  simp only [ne_eq, List.eq_nil_iff_forall_not_mem, mem_openRoles h, not_forall, not_not]

theorem globallyAllowed_iff (h : Document D.platform ps D.doc es) :
    GloballyAllowed D ref req ↔ GlobalGrant D ps ref req := by
  simp only [GloballyAllowed, h.covers_iff]
  constructor
  · rintro ⟨role, hheld, p, hp, hwild, hname, hcovers⟩
    exact ⟨p, hp, hwild, hcovers, role, hname, hheld⟩
  · rintro ⟨p, hp, hwild, hcovers, role, hname, hheld⟩
    exact ⟨role, hheld, p, hp, hwild, hname, hcovers⟩

/-- What the rules of a document say, where their syntax trees are changed by
    `f`. -/
theorem rlsDecision_allow_of_map (h : Document D.platform ps D.doc es) (D' : Data)
    (hpip : D'.pip = D.pip) {f : Node → Node}
    (hlookup : ∀ rt op role,
      rlsLookup D'.doc.rls rt op role = (rlsLookup D.doc.rls rt op role).map (mapAst f))
    (subject : Fields) :
    (rlsDecision D' ref (openRoles D ref req) subject).allow = true ↔
      RuleGrant D ps ref req (acceptsMapped f D.platform (Pip.knownPipAliases D.pip) ref.resource
        (.object subject)) := by
  rw [rlsDecision, Rls.evaluate_allow, Data.platform, hpip]
  simp only [Rls.mem_grantedRules, mem_openRoles h, hlookup, List.mem_map]
  constructor
  · rintro ⟨rule, hallows, role, hrole, rt, op, hrt, hop, stored, hstored, rfl⟩
    obtain ⟨p, hp, hnot, rfl, rfl, hkey, r, hnorm, rfl⟩ := h.mem_rls.mp hstored
    rw [ruleAllows_mapAst f hnorm] at hallows
    exact ⟨p, hp, hnot, ⟨hrt.symm, hop.symm⟩, hallows, role, hkey, hrole.symm⟩
  · rintro ⟨p, hp, hnot, ⟨hrt, hop⟩, haccept, role, hkey, hrole⟩
    obtain ⟨rule, hnorm, hstored⟩ := h.rule_stored hp hnot
    refine ⟨mapAst f (cloneRule D.platform rule), ?_, role, hrole.symm, _, _, hrt.symm, hop.symm,
      cloneRule D.platform rule, hstored role hkey, rfl⟩
    rw [ruleAllows_mapAst f hnorm]
    exact haccept

theorem rlsDecision_allow_iff (h : Document D.platform ps D.doc es) (subject : Fields) :
    (rlsDecision D ref (openRoles D ref req) subject).allow = true ↔
      RuleGrant D ps ref req (accepts D ref subject) := by
  refine rlsDecision_allow_of_map h D rfl (fun rt op role => ?_) subject
  rw [mapAst_id, List.map_id]

/-- The decision for a resource in terms of the policies, whatever their form. -/
theorem granted_iff_policies (h : Document D.platform ps D.doc es) :
    Granted D ref req ↔ PoliciesAllow D ps ref req (accepts D ref) := by
  simp only [Granted, RulesAllow, PoliciesAllow, globallyAllowed_iff h, openRoles_ne_nil h,
    rlsDecision_allow_iff h]

end

/-! ## Policies with explicit roles -/

def requestEntry (rt op : String) (resource : Value) : Value :=
  .object [("operation", .string op), ("resource", resource), ("resourceType", .string rt)]

/-- The reference that `requestEntry` is read as. -/
def requestRef (P : Platform) (rt op : String) (resource : Value) : ResourceRef :=
  ⟨rt, op, P.toUpper rt, P.toUpper op, resource⟩

/-- A request for one resource whose decision has no conflict has one answer. -/
theorem responds_requestEntry {D : Data} {I : Identity} {ps : List Policy} {es : List Entry}
    (h : Document D.platform ps D.doc es) {input : Input} {auth : Authentication}
    (hadmission : admissionOk I input.credentials = true)
    (hauth : authenticationContext I input.credentials = some auth)
    (hok : auth.authenticated = true) {rt op : String} {resource : Value}
    (hresources : input.resources = .array [requestEntry rt op resource])
    (hno : NoConflict D (requestRef D.platform rt op resource) (normalizedRequest D auth input)) :
    ∃ result, Responds D I input [result] ∧
      (result.isAllowed = true ↔
        PoliciesAllow D ps (requestRef D.platform rt op resource) (normalizedRequest D auth input)
          (accepts D (requestRef D.platform rt op resource))) := by
  obtain ⟨result, -, -, hallowed, hresult⟩ := resultFor_spec hno
  exact ⟨result, responds_alone input hadmission hauth hok hresources rfl hno hresult,
    hallowed.trans (granted_iff_policies h)⟩

/-- Administrators edit what has the owner `x`. -/
def editOwned : Policy :=
  { readOwned with
    resourceType := " t"
    operation := "edit"
    roles := some [.string "admin"] }

theorem enrichedSubject_noPips (doc : PolicyDoc) (ref : ResourceRef) (req : Request) :
    enrichedSubject ⟨doc, noPips⟩ ref req =
      defined (Value.unionFields (Value.unionFields req.subject [])
        [("entitledResources", .object [])]) := by
  have hentitled : entitledResources ∅ = .object [] := by decide +kernel
  rw [← hentitled]
  rfl

end Authorize

end AuthzAgent
