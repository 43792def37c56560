/-
  AuthzAgent.PolicyAdmin.Pipeline

  From an upload to the policy document: authz-policy-admin prints the uploaded
  policies as v3 policy sets, acconfig reads them back, and `NormalizePolicies`
  indexes them.  The document is compared with the one of the uploaded policies
  themselves.  What the two tools lose is a comma in the name of a role: the
  key that groups the policies joins the names with commas, and the target is
  printed from the parts of the key.
-/

import AuthzAgent.PolicyAdmin.Groups
import AuthzAgent.PolicyAdmin.Targets
import AuthzAgent.Simplified.Lookup

namespace AuthzAgent

open GoText
open Rego (Value)
open Acconfig
open Simplified (normalizeKey normalizeRoles normalizeCondition predicateOf policyPredicates
  normalizeRule policyEntry normalizePolicies Document SameAccess)

namespace PolicyAdmin

/-! ## Uploads -/

/-- A name that can be printed between quotes. -/
structure PlainName (s : String) : Prop where
  nonblank : trimSpace s ≠ ""
  quote : '\'' ∉ s.toList
  star : s ≠ "*"

instance : DecidablePred PlainName := fun s =>
  decidable_of_iff (trimSpace s ≠ "" ∧ '\'' ∉ s.toList ∧ s ≠ "*")
    ⟨fun ⟨hnonblank, hquote, hstar⟩ => ⟨hnonblank, hquote, hstar⟩,
      fun ⟨hnonblank, hquote, hstar⟩ => ⟨hnonblank, hquote, hstar⟩⟩

structure SimplifiedPolicy.Plain (p : SimplifiedPolicy) : Prop where
  component : PlainName p.component
  resourceType : PlainName p.resourceType
  operation : PlainName p.operation
  roles : ∀ role ∈ p.roles.getD [], ∃ s, role = .string s ∧ PlainName s

/-- The uploaded policy as `NormalizePolicies` takes it. -/
def SimplifiedPolicy.direct (p : SimplifiedPolicy) : Simplified.Policy where
  component := p.component
  resourceType := p.resourceType
  operation := p.operation
  condition := p.condition
  rsqlPredicate := p.rsqlPredicate
  sqlPredicate := p.sqlPredicate
  mongodbPredicate := p.mongodbPredicate
  queryDSLPredicate := p.predicate
  roles := p.roles

theorem PlainName.ne_empty {s : String} (h : PlainName s) : s ≠ "" := by
  rintro rfl
  exact h.nonblank trimSpace_empty

/-! ## One policy -/

section

variable (P : Platform)

/-- A name as it is read back: every spelling of `ALL` is printed as no
    restriction. -/
def spelled (s : String) : String := if equalFold s "ALL" = true then "ALL" else s

/-- The roles that are printed for a policy. -/
def SimplifiedPolicy.parts (p : SimplifiedPolicy) : List String :=
  if p.pKey P = "" then [] else split ',' (p.pKey P)

/-- The policy that is read back when no part of the roles is blank. -/
def SimplifiedPolicy.reprint (p : SimplifiedPolicy) : Simplified.Policy where
  component := p.component
  resourceType := spelled p.resourceType
  operation := spelled p.operation
  condition := ruleCondition (toRule (p.ruleVal P)).condition
  rsqlPredicate := unlessBlank p.rsqlPredicate
  sqlPredicate := unlessBlank p.sqlPredicate
  mongodbPredicate := unlessBlank p.mongodbPredicate
  queryDSLPredicate := unlessBlank p.predicate
  roles := some ((p.parts P).eraseDups.map .string)

variable {P} {p : SimplifiedPolicy}

theorem SimplifiedPolicy.Plain.quote_notMem_pKey (h : p.Plain) : '\'' ∉ (p.pKey P).toList := by
  intro hquote
  rw [SimplifiedPolicy.pKey, rolesKey] at hquote
  rcases mem_of_mem_join hquote with hsep | ⟨part, hpart, hmem⟩
  · exact absurd hsep (by decide)
  · obtain ⟨role, hrole, rfl⟩ := List.mem_map.mp ((List.mem_insertionSort _).mp hpart)
    obtain ⟨s, rfl, hs⟩ := h.roles role hrole
    rw [P.sprint_string] at hmem
    exact hs.quote hmem

theorem setResourceType_toPolicySet (h : p.Plain) :
    setResourceType (toPolicySet p.psKey ∅) = some (spelled p.resourceType) := by
  have hparse := parseTarget_resourceTypeTarget h.resourceType.quote h.resourceType.ne_empty
    h.resourceType.star
  simp only [setResourceType, toPolicySet, SimplifiedPolicy.psKey, hparse, spelled]
  split_ifs <;> rfl

theorem setComponent_toPolicySet (h : p.Plain) :
    setComponent (toPolicySet p.psKey ∅) = p.component := by
  simp [setComponent, toPolicySet, SimplifiedPolicy.psKey, h.component.ne_empty]

theorem resolve_printed (h : p.Plain) :
    resolveOperationAndRoles (parseTarget (rolesTarget (p.pKey P)))
        (parseTarget (operationTarget p.operation)) =
      if ∀ part ∈ p.parts P, trimSpace part ≠ "" then
        some (spelled p.operation, (p.parts P).eraseDups)
      else none := by
  have hoperation := parseTarget_operationTarget h.operation.quote h.operation.ne_empty
    h.operation.star
  rw [hoperation, SimplifiedPolicy.parts, spelled]
  by_cases hkey : p.pKey P = ""
  · have hroles : parseTarget (rolesTarget (p.pKey P)) = .any := by
      rw [rolesTarget, if_pos hkey, parseTarget_true]
    rw [hroles]
    split_ifs <;> simp_all [resolveOperationAndRoles]
  · rw [parseTarget_rolesTarget hkey h.quote_notMem_pKey, if_neg hkey]
    split_ifs <;> rfl

/-- A policy printed alone is read back with its parts as roles, or dropped
    when one of them is blank. -/
theorem SimplifiedPolicy.Plain.reread_eq (h : p.Plain) :
    p.reread P =
      if ∀ part ∈ p.parts P, trimSpace part ≠ "" then some (p.reprint P) else none := by
  have hallow : (toRule (p.ruleVal P)).effect ≠ "DENY" := by
    show "ALLOW" ≠ "DENY"
    decide
  have htarget : (toRule (p.ruleVal P)).target = operationTarget p.operation := rfl
  rw [SimplifiedPolicy.reread, setResourceType_toPolicySet h, setComponent_toPolicySet h,
    Option.bind_some, convertRule, if_neg hallow, htarget, resolve_printed h]
  split_ifs <;> rfl

/-! ## Names without commas -/

theorem foldEq_cases {c a : Char} (ha : a = 'A' ∨ a = 'L') (h : foldEq c a = true) :
    isSpace c = false ∧ P.upper c = a := by
  have hlower : c.toLower = a.toLower := by
    rcases ha with rfl | rfl <;> simpa [foldEq] using h
  have hc : c = a.toLower ∨ c = a.toLower.toUpper := eq_or_eq_toUpper hlower
  rcases ha with rfl | rfl <;> rcases hc with rfl | rfl <;>
    exact ⟨by decide, P.upper_ascii _ (by decide)⟩

theorem normalizeKey_of_equalFold {s : String} (h : equalFold s "ALL" = true) :
    normalizeKey P s = "ALL" := by
  have hall : "ALL" = String.ofList ['A', 'L', 'L'] := rfl
  rw [equalFold, hall, String.toList_ofList] at h
  rcases hs : s.toList with _ | ⟨a, _ | ⟨b, _ | ⟨c, _ | ⟨d, ds⟩⟩⟩⟩
  case cons.cons.cons.nil =>
    simp only [hs, equalFoldChars, Bool.and_eq_true] at h
    obtain ⟨ha, hb, hc, -⟩ := h
    have ha := foldEq_cases (P := P) (Or.inl rfl) ha
    have hb := foldEq_cases (P := P) (Or.inr rfl) hb
    have hc := foldEq_cases (P := P) (Or.inr rfl) hc
    have htrim : trimChars [a, b, c] = [a, b, c] :=
      trimChars_eq_self (fun _ => ha.1) (fun _ => hc.1)
    rw [normalizeKey, Unicode.toUpper, trimSpace, hs, htrim, String.toList_ofList, hall]
    simp only [List.map_cons, List.map_nil, ha.2, hb.2, hc.2]
  all_goals simp [hs, equalFoldChars] at h

theorem normalizeKey_spelled (s : String) : normalizeKey P (spelled s) = normalizeKey P s := by
  rw [spelled]
  split_ifs with hfold
  · rw [normalizeKey_of_equalFold hfold, normalizeKey_of_equalFold (by decide +kernel)]
  · rfl

/-- Without commas, the parts are the names of the roles. -/
theorem SimplifiedPolicy.Plain.parts_eq (h : p.Plain)
    (hcomma : ∀ role ∈ p.roles.getD [], ',' ∉ (P.sprint role).toList) :
    p.parts P = ((p.roles.getD []).map P.sprint).insertionSort (· ≤ ·) := by
  have hnames : ∀ part ∈ ((p.roles.getD []).map P.sprint).insertionSort (· ≤ ·),
      ',' ∉ part.toList ∧ trimSpace part ≠ "" := by
    intro part hpart
    obtain ⟨role, hrole, rfl⟩ := List.mem_map.mp ((List.mem_insertionSort _).mp hpart)
    obtain ⟨s, rfl, hs⟩ := h.roles role hrole
    exact ⟨hcomma _ hrole, by rw [P.sprint_string]; exact hs.nonblank⟩
  rw [SimplifiedPolicy.parts, SimplifiedPolicy.pKey, rolesKey]
  generalize ((p.roles.getD []).map P.sprint).insertionSort (· ≤ ·) = names at hnames
  by_cases hnil : names = []
  · rw [hnil]
    rfl
  · have hsplit := split_join hnil fun part hpart => (hnames part hpart).1
    have hkey : join ',' names ≠ "" := by
      intro hempty
      rw [hempty, show split ',' "" = [""] by simp [split]] at hsplit
      exact (hnames "" (by rw [← hsplit]; exact List.mem_singleton_self "")).2 trimSpace_empty
    rw [if_neg hkey, hsplit]

theorem predicateOf_unlessBlank (type : Simplified.PredicateType) (text : String) :
    predicateOf type (unlessBlank text) = predicateOf type text := by
  by_cases hblank : trimSpace text = ""
  · simp [predicateOf, unlessBlank, hblank]
  · simp [unlessBlank, hblank]

theorem ruleCondition_toRule :
    ruleCondition (toRule (p.ruleVal P)).condition =
      if trimSpace (conditionString P p.condition) = "" then .null
      else .string (conditionString P p.condition) := by
  simp only [toRule, SimplifiedPolicy.ruleVal]
  by_cases hempty : conditionString P p.condition = ""
  · simp [ruleCondition, hempty]
  · simp [ruleCondition, hempty]

/-- A condition that is accepted means the same after it was printed. -/
theorem normalizeCondition_toRule {c : Simplified.Condition}
    (h : normalizeCondition P p.condition = .ok c) :
    normalizeCondition P (ruleCondition (toRule (p.ruleVal P)).condition) = .ok c := by
  rw [ruleCondition_toRule, ← h]
  cases hcondition : p.condition with
  | null => simp [conditionString]
  | bool b =>
    cases b with
    | true =>
      have hlower : P.toLower "true" = "true" := P.toLower_eq_self (by decide +kernel)
      simp [conditionString, normalizeCondition, hlower,
        show trimSpace "true" = "true" by decide +kernel]
    | false =>
      have hlower : P.toLower "false" = "false" := P.toLower_eq_self (by decide +kernel)
      simp [conditionString, normalizeCondition, hlower,
        show trimSpace "false" = "false" by decide +kernel]
  | string s =>
    by_cases hblank : trimSpace s = ""
    · simp [conditionString, normalizeCondition, hblank]
    · simp [conditionString, hblank]
  | number _ | array _ | object _ => simp [hcondition, normalizeCondition] at h

/-- A rule that is accepted is the same after it was printed. -/
theorem normalizeRule_reprint {rule : Simplified.Rule} (h : normalizeRule P p.direct = .ok rule) :
    normalizeRule P (p.reprint P) = .ok rule := by
  obtain ⟨c, hc, rfl⟩ := Checked.map_eq_ok.mp h
  refine Checked.map_eq_ok.mpr ⟨c, normalizeCondition_toRule hc, ?_⟩
  simp only [policyPredicates, SimplifiedPolicy.reprint, SimplifiedPolicy.direct,
    predicateOf_unlessBlank]

/-- Without commas, the roles are the same set after they were printed. -/
theorem normalizeRoles_reprint (h : p.Plain)
    (hcomma : ∀ role ∈ p.roles.getD [], ',' ∉ (P.sprint role).toList) {roles : List String}
    (hroles : normalizeRoles P p.direct.roles = .ok roles) :
    normalizeRoles P (p.reprint P).roles = .ok roles := by
  rw [Simplified.normalizeRoles_eq hroles]
  simp only [SimplifiedPolicy.reprint, normalizeRoles, Except.ok.injEq]
  refine sortedSet_eq_iff.mpr fun name => ?_
  simp [Simplified.Policy.roleNames, h.parts_eq hcomma, SimplifiedPolicy.direct, P.sprint_string]

/-- Without commas, a policy that is accepted adds the same to the document
    after it was printed. -/
theorem policyEntry_reprint (h : p.Plain)
    (hcomma : ∀ role ∈ p.roles.getD [], ',' ∉ (P.sprint role).toList) {e : Simplified.Entry}
    (he : policyEntry P p.direct = .ok e) : policyEntry P (p.reprint P) = .ok e := by
  refine Simplified.policyEntry_congr ?_ ?_ ?_ ?_ ?_ he
  · simp only [SimplifiedPolicy.reprint, SimplifiedPolicy.direct, normalizeKey_spelled]
  · simp only [SimplifiedPolicy.reprint, SimplifiedPolicy.direct, normalizeKey_spelled]
  · simp only [SimplifiedPolicy.reprint, SimplifiedPolicy.direct]
  · exact fun _ => normalizeRoles_reprint h hcomma
  · exact fun _ => normalizeRule_reprint

/-! ## The document -/

/-- No role of a policy has a comma in its name. -/
def SimplifiedPolicy.CommaFree (P : Platform) (p : SimplifiedPolicy) : Prop :=
  ∀ role ∈ p.roles.getD [], ',' ∉ (P.sprint role).toList

variable {items : List SimplifiedPolicy}

/-- Without commas, the policies that are read back have the entries of the
    uploaded ones, in some order. -/
theorem entries_of_commaFree (hplain : ∀ p ∈ items, p.Plain) (hcomma : ∀ p ∈ items, p.CommaFree P)
    {es : List Simplified.Entry}
    (hes : List.Forall₂ (fun q e => policyEntry P q = .ok e)
      (items.map SimplifiedPolicy.direct) es) :
    List.Forall₂ (fun q e => policyEntry P q = .ok e)
      (items.filterMap (SimplifiedPolicy.reread P)) es := by
  induction items generalizing es with
  | nil => exact hes
  | cons p items ih =>
    rw [List.map_cons, List.forall₂_cons_left_iff] at hes
    obtain ⟨e, es, he, hes, rfl⟩ := hes
    have hp : p.Plain := hplain p List.mem_cons_self
    have hpc : p.CommaFree P := hcomma p List.mem_cons_self
    have hparts : ∀ part ∈ p.parts P, trimSpace part ≠ "" := by
      intro part hpart
      rw [hp.parts_eq hpc, List.mem_insertionSort] at hpart
      obtain ⟨role, hrole, rfl⟩ := List.mem_map.mp hpart
      obtain ⟨s, rfl, hs⟩ := hp.roles role hrole
      rw [P.sprint_string]
      exact hs.nonblank
    have hreread : p.reread P = some (p.reprint P) := by rw [hp.reread_eq, if_pos hparts]
    rw [List.filterMap_cons_some hreread]
    exact .cons (policyEntry_reprint hp hpc he)
      (ih (fun q hq => hplain q (List.mem_cons_of_mem p hq))
        (fun q hq => hcomma q (List.mem_cons_of_mem p hq)) hes)

theorem comma_mem_normalizeKey {s : String} :
    ',' ∈ (normalizeKey P s).toList ↔ ',' ∈ s.toList := by
  rw [normalizeKey, P.mem_toUpper_iff (by decide) (by decide), mem_trimSpace_iff (by decide)]

theorem comma_notMem_roleNames (hplain : ∀ p ∈ items, p.Plain) {q : Simplified.Policy}
    (hq : q ∈ convertPolicySets (toV3PolicySets P items)) {name : String}
    (hname : name ∈ q.roleNames P) : ',' ∉ name.toList := by
  obtain ⟨p, hp, hreread⟩ := List.mem_filterMap.mp ((convertPolicySets_perm P items).mem_iff.mp hq)
  rw [(hplain p hp).reread_eq] at hreread
  split_ifs at hreread
  obtain rfl := Option.some.inj hreread
  obtain ⟨part, hpart, rfl⟩ : ∃ part ∈ p.parts P, normalizeKey P part = name := by
    have hmem := (List.mem_filter.mp hname).1
    simpa [SimplifiedPolicy.reprint, P.sprint_string] using hmem
  rw [comma_mem_normalizeKey]
  intro hcomma
  rw [SimplifiedPolicy.parts] at hpart
  split_ifs at hpart
  · exact List.not_mem_nil hpart
  · exact (mem_of_mem_split hpart hcomma).2 rfl

/-- The pipeline commutes exactly for the uploads without a comma in the name
    of a role: acconfig's policies are accepted, and give the document of the
    uploaded policies up to the order of the rules. -/
theorem pipeline_commutes_iff (P : Platform) (items : List SimplifiedPolicy)
    (hplain : ∀ p ∈ items, p.Plain) (doc : Simplified.PolicyDoc)
    (hdoc : normalizePolicies P (items.map SimplifiedPolicy.direct) = .ok doc) :
    (∃ doc', normalizePolicies P (convertPolicySets (toV3PolicySets P items)) = .ok doc' ∧
        SameAccess doc doc') ↔
      ∀ p ∈ items, p.CommaFree P := by
  obtain ⟨es, hes⟩ := Simplified.normalizePolicies_document hdoc
  constructor
  · rintro ⟨doc', hdoc', hsame⟩ p hp role hrole hcomma
    obtain ⟨es', hes'⟩ := Simplified.normalizePolicies_document hdoc'
    -- the name of the role keeps its comma, and some policy read back has that name
    have hcomma' : ',' ∈ (normalizeKey P (P.sprint role)).toList :=
      comma_mem_normalizeKey.mpr hcomma
    have hname : normalizeKey P (P.sprint role) ∈ p.direct.roleNames P := by
      refine List.mem_filter.mpr ⟨List.mem_map.mpr ⟨role, hrole, rfl⟩, ?_⟩
      rw [decide_eq_true_iff]
      intro hempty
      simp [hempty] at hcomma'
    have hread : ∃ q ∈ convertPolicySets (toV3PolicySets P items),
        normalizeKey P (P.sprint role) ∈ q.roleNames P := by
      rcases hes.name_found (List.mem_map_of_mem hp) hname with ⟨rt, op, hols⟩ | ⟨g, hg⟩
      · rw [← hsame.ols] at hols
        obtain ⟨q, hq, -, -, -, hqname⟩ := hes'.mem_ols.mp hols
        exact ⟨q, hq, hqname⟩
      · rw [← hsame.global] at hg
        obtain ⟨q, hq, -, hqname, -⟩ := (hes'.has_iff _ g).mp hg
        exact ⟨q, hq, hqname⟩
    obtain ⟨q, hq, hqname⟩ := hread
    exact comma_notMem_roleNames hplain hq hqname hcomma'
  · intro hcomma
    have hentries := entries_of_commaFree hplain hcomma hes.entries
    obtain ⟨es', hes', hperm⟩ := List.perm_comp_forall₂ (convertPolicySets_perm P items) hentries
    obtain ⟨doc', hdoc', hdocument⟩ := Simplified.normalizePolicies_of_entries hes'
    exact ⟨doc', hdoc', hes.sameAccess hdocument hperm⟩

/-- An upload that lets the given roles read documents. -/
def readDocuments (roles : List String) : SimplifiedPolicy where
  component := "APP"
  resourceType := "doc"
  operation := "read"
  condition := .null
  rsqlPredicate := ""
  sqlPredicate := ""
  mongodbPredicate := ""
  predicate := ""
  roles := some (roles.map .string)

theorem plain_readDocuments {roles : List String} (h : ∀ s ∈ roles, PlainName s) :
    (readDocuments roles).Plain where
  component := (by decide +kernel : PlainName "APP")
  resourceType := (by decide +kernel : PlainName "doc")
  operation := (by decide +kernel : PlainName "read")
  roles := by
    intro role hrole
    obtain ⟨s, hs, rfl⟩ := List.mem_map.mp hrole
    exact ⟨s, rfl, h s hs⟩

/-- A policy for one role, whose name has a comma, is applied to two roles that
    its upload does not name. -/
theorem pipeline_splits_role :
    (readDocuments ["OPS,AUDIT"]).Plain ∧ ∃ doc doc',
      normalizePolicies .ascii [(readDocuments ["OPS,AUDIT"]).direct] = .ok doc ∧
      normalizePolicies .ascii
        (convertPolicySets (toV3PolicySets .ascii [readDocuments ["OPS,AUDIT"]])) = .ok doc' ∧
      Simplified.olsLookup doc.ols "DOC" "READ" = ["OPS,AUDIT"] ∧
      Simplified.olsLookup doc'.ols "DOC" "READ" = ["AUDIT", "OPS"] ∧ ¬ SameAccess doc doc' := by
  obtain ⟨doc, hdoc, hols⟩ := Simplified.exists_doc_of_any .ascii
    [(readDocuments ["OPS,AUDIT"]).direct]
    (fun doc => Simplified.olsLookup doc.ols "DOC" "READ" = ["OPS,AUDIT"]) (by decide +kernel)
  obtain ⟨doc', hdoc', hols'⟩ := Simplified.exists_doc_of_any .ascii
    (convertPolicySets (toV3PolicySets .ascii [readDocuments ["OPS,AUDIT"]]))
    (fun doc => Simplified.olsLookup doc.ols "DOC" "READ" = ["AUDIT", "OPS"]) (by decide +kernel)
  rw [decide_eq_true_iff] at hols hols'
  refine ⟨plain_readDocuments (by decide +kernel), doc, doc', hdoc, hdoc', hols, hols', fun hsame => ?_⟩
  have hsplit := hsame.ols "DOC" "READ"
  rw [hols, hols'] at hsplit
  exact absurd hsplit (by decide)

theorem pipeline_commutes_two_roles :
    (readDocuments ["OPS", "AUDIT"]).Plain ∧ ∃ doc doc',
      normalizePolicies .ascii [(readDocuments ["OPS", "AUDIT"]).direct] = .ok doc ∧
      normalizePolicies .ascii
        (convertPolicySets (toV3PolicySets .ascii [readDocuments ["OPS", "AUDIT"]])) = .ok doc' ∧
      SameAccess doc doc' := by
  have hplain : (readDocuments ["OPS", "AUDIT"]).Plain := plain_readDocuments (by decide +kernel)
  have hcomma : ∀ p ∈ [readDocuments ["OPS", "AUDIT"]], p.CommaFree .ascii := by
    intro p hp role hrole
    rw [List.mem_singleton.mp hp] at hrole
    obtain ⟨s, hs, rfl⟩ := List.mem_map.mp hrole
    rw [Platform.sprint_string]
    rcases List.mem_pair.mp hs with rfl | rfl <;> decide +kernel
  obtain ⟨doc, hdoc, -⟩ := Simplified.exists_doc_of_any .ascii
    [(readDocuments ["OPS", "AUDIT"]).direct] (fun _ => true) (by decide +kernel)
  obtain ⟨doc', hdoc', hsame⟩ := (pipeline_commutes_iff .ascii [readDocuments ["OPS", "AUDIT"]]
    (fun p hp => List.mem_singleton.mp hp ▸ hplain) doc hdoc).mpr hcomma
  exact ⟨hplain, doc, doc', hdoc, hdoc', hsame⟩

end

end PolicyAdmin

end AuthzAgent
