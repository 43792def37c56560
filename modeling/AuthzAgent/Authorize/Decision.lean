/-
  AuthzAgent.Authorize.Decision

  The decision for one resource (authorize_internals.rego, ols.rego): roles
  with global access first, then the roles of the operation, then the rules.

  A Rego function of several clauses is one function by cases on their guards.
  The clauses exclude each other and cover every case, so the function is
  defined wherever it is called; the functions that have a default keep it.
  The rules of pip.rego may have a conflict.  It ends the whole query, so a
  decision that calls them is an evaluation.  They are called only for a
  request that gets as far as the rules.
-/

import AuthzAgent.Pip.Resolve

namespace AuthzAgent

open GoText
open Rego (Value Eval)
open Simplified

namespace Authorize

/-- What a decision reads besides its request: `data.policies`, and what
    pip.rego reads. -/
structure Data where
  doc : PolicyDoc
  pip : Pip.Env

abbrev Data.platform (D : Data) : Platform := D.pip.builtins.platform

/-- The result of `normalize_resource_ref`. -/
structure ResourceRef where
  resourceType : String
  operation : String
  resourceTypeKey : String
  operationKey : String
  resource : Value

/-- The result of `normalized_request`, without its resources, and the payload
    of the token. -/
structure Request where
  subject : Fields
  subjectRoles : List String
  ignoreRls : Bool
  tokenPayload : Value

/-! ## Global access -/

/-- The result of `_build_wildcard_summary`. -/
structure WildcardSummary where
  all : Bool
  operations : Finset String
  resourceTypes : Finset String

def buildWildcardSummary (byRole : Dict GlobalAccess) (subjectRoles : List String) :
    WildcardSummary :=
  if subjectRoles.any fun role => (globalLookup byRole role).all then ⟨true, ∅, ∅⟩
  else if byRole.entries.isEmpty then ⟨false, ∅, ∅⟩
  else
    ⟨false,
      subjectRoles.toFinset.biUnion fun role => (globalLookup byRole role).operations,
      subjectRoles.toFinset.biUnion fun role => (globalLookup byRole role).resourceTypes⟩

namespace WildcardSummary

def matchesResource (wa : WildcardSummary) (rt op : String) : Bool :=
  wa.all || decide (op ∈ wa.operations) || decide (rt ∈ wa.resourceTypes)

def isEmpty (wa : WildcardSummary) : Bool :=
  !wa.all && decide (wa.operations = ∅) && decide (wa.resourceTypes = ∅)

end WildcardSummary

/-! ## Object-level security -/

/-- `ols.evaluate`: the roles of the operation that the subject holds.  The
    decision `allow` is that there is one. -/
def olsEvaluate (doc : PolicyDoc) (rt op : String) (subjectRoles : List String) : List String :=
  (olsLookup doc.ols rt op).filter (· ∈ subjectRoles)

/-! ## The reason of a refusal -/

/-- `lookup_keys`, undefined on the empty text. -/
def lookupKeys (P : Platform) (value : String) : Option (List String) :=
  if value = "" then none
  else if P.toUpper value = value then some [value]
  else some [value, P.toUpper value]

def directAndAllKeys (P : Platform) (value : String) : Option (List String) :=
  if P.toUpper value = "ALL" then some ["ALL"] else (lookupKeys P value).map (· ++ ["ALL"])

def indexedRlsSubjectRefs (P : Platform) (doc : PolicyDoc) (rt op : String) : List String :=
  match directAndAllKeys P rt, directAndAllKeys P op with
  | some rts, some ops =>
    sortedSet ((rts.flatMap fun r => ops.flatMap fun o => olsLookup doc.refIndex r o).filter
      (· ≠ ""))
  | _, _ => []

def rlsKeyMatch (P : Platform) (value key : String) : Bool :=
  key == "ALL" || P.toUpper key == P.toUpper value

mutual

/-- The first segments of the subject paths of a condition. -/
def subjectPathHeads : Node → List String
  | .ref (.path .subject (attr :: _)) => [attr]
  | .node _ args => subjectPathHeadsArgs args
  | _ => []

def subjectPathHeadsArgs : List Node → List String
  | [] => []
  | a :: as => subjectPathHeads a ++ subjectPathHeadsArgs as

end

/-- The references of the rules under the keys, as the fallback of
    `_find_missing_rls_refs` collects them. -/
def scannedRlsSubjectRefs (P : Platform) (doc : PolicyDoc) (rt op : String) : List String :=
  let ops := (doc.rls.entries.filter fun e => rlsKeyMatch P rt e.1).flatMap fun e => e.2.entries
  let roles := (ops.filter fun e => rlsKeyMatch P op e.1).flatMap fun e => e.2.entries
  let rules := roles.flatMap fun e => e.2
  rules.flatMap fun rule =>
    ((rule.predicates.getD []).flatMap fun p =>
      (placeholderMatches 0 p.predicate.toList).map String.ofList) ++
    (rule.conditionAst.map subjectPathHeads).getD []

def findMissingRlsRefs (P : Platform) (doc : PolicyDoc) (rt op : String) (subject : Fields) :
    List String :=
  let indexed := indexedRlsSubjectRefs P doc rt op
  if indexed ≠ [] then
    indexed.filter fun attr => (subject.lookup attr).getD Rls.missing = Rls.missing
  else if doc.refIndex.entries.isEmpty then
    -- the fallback also takes an attribute bound to `false` for a missing one
    sortedSet ((scannedRlsSubjectRefs P doc rt op).filter fun attr =>
      (subject.lookup attr).getD (.bool false) = .bool false)
  else []

def formatPipFailure (P : Platform) (kinds : Fields) (pip : String) : String :=
  match kinds.lookup pip with
  | some kind => pip ++ " (" ++ P.regoSprint kind ++ ")"
  | none => pip

def sortTexts (texts : List String) : List String := texts.insertionSort (· ≤ ·)

def buildRlsDenyReason (roles pipFailures missingAttrs : List String) : String :=
  let base := "ABAC validations failed for roles \x7b" ++ String.intercalate ", " roles ++ "\x7d"
  let pips := "PIP resolution failed: " ++ String.intercalate ", " pipFailures
  let attrs := "subject attribute not found: " ++ String.intercalate ", " missingAttrs
  String.intercalate "; "
    ([base] ++ (if pipFailures ≠ [] then [pips] else []) ++
      (if missingAttrs ≠ [] then [attrs] else []))

/-! ## The decision -/

/-- The result of `decision_for_resource`.  An absent `typedPredicates` or
    `reason` is empty. -/
structure Decision where
  index : Nat
  resourceType : String
  operation : String
  resource : Value
  allow : Bool
  olsAllow : Bool
  rlsChecked : Bool
  rlsPredicate : String
  typedPredicates : PredicateType → String
  reason : String
deriving Inhabited

/-- The members of an object under keys that are texts, in the order of the
    keys. -/
def textFields {ν : Type} (toValue : ν → Value) (map : Finmap fun _ : Value => ν) : Fields :=
  let keys := (map.keys.biUnion fun key => key.text.toFinset).sort (· ≤ ·)
  keys.filterMap fun key => (map.lookup (.string key)).map fun v => (key, toValue v)

/-- The entitlements as a member of the subject.  A condition names resource
    types and names by texts, so the members under other keys are left out. -/
def entitledResources (map : Pip.EntitlementsMap) : Value :=
  .object (textFields (fun names => .object (textFields .array names)) map)

section Decide

variable (D : Data)

/-- `_request_pip_base` -/
def requestPipBase (req : Request) : Eval Fields :=
  Pip.resolveRequestLevel D.pip req.tokenPayload D.pip.requestHeaders

/-- The subject scope of substitutions in PIP requests: `sub_scope`. -/
def subScope (req : Request) (base : Fields) : Value := .object (Value.unionFields req.subject base)

/-- `enriched_subject` of `rls_decision_context`. -/
def enrichedSubject (ref : ResourceRef) (req : Request) : Eval Fields := do
  let base ← requestPipBase D req
  let general ← Pip.resolveGeneralValues D.pip ref.resourceTypeKey ref.operationKey ref.resource
    (subScope req base)
  let entitled ← Pip.resolveEntitlementsMap D.pip (.object req.subject)
  let pips := Value.unionFields base general
  return Value.unionFields (Value.unionFields req.subject pips)
    [("entitledResources", entitledResources entitled)]

def rlsDecision (ref : ResourceRef) (olsRoles : List String) (subject : Fields) : Rls.Decision :=
  Rls.evaluate D.platform (Pip.knownPipAliases D.pip) D.doc ref.resourceTypeKey ref.operationKey
    ref.resource (.object subject) olsRoles

/-- The kinds of the failed PIPs that `_deny_resolution_extras` asks for. -/
def hardFailures (ref : ResourceRef) (req : Request) : Eval Fields := do
  let base ← requestPipBase D req
  Pip.generalPipHardFailures D.pip ref.resourceTypeKey ref.operationKey ref.resource
    (subScope req base)

/-- The reason of a refusal by the rules. -/
def rlsDenyReason (ref : ResourceRef) (olsRoles : List String) (subject kinds : Fields) : String :=
  let known := Pip.knownPipAliases D.pip
  let missing := findMissingRlsRefs D.platform D.doc ref.resourceTypeKey ref.operationKey subject
  let pips := missing.filter fun attr => known attr
  buildRlsDenyReason olsRoles
    (sortTexts (pips.map (formatPipFailure D.platform kinds)))
    (sortTexts (missing.filter fun attr => !known attr))

/-- A decision without a row filter. -/
def plainDecision (index : Nat) (ref : ResourceRef) (allow olsAllow : Bool) (reason : String) :
    Decision where
  index := index
  resourceType := ref.resourceType
  operation := ref.operation
  resource := ref.resource
  allow := allow
  olsAllow := olsAllow
  rlsChecked := false
  rlsPredicate := ""
  typedPredicates := fun _ => ""
  reason := reason

/-- A decision that the rules allow, with their row filters. -/
def rlsAllowed (index : Nat) (ref : ResourceRef) (rls : Rls.Decision) (subject : Fields) :
    Decision :=
  { plainDecision index ref true true "" with
    rlsChecked := true
    rlsPredicate := substitutePredicate D.platform rls.predicate subject
    typedPredicates := fun type =>
      renderPredicate D.platform type (rls.typedPredicates type) ref.resourceType subject }

/-- A decision that the rules refuse. -/
def rlsRefused (index : Nat) (ref : ResourceRef) (reason : String) : Decision :=
  { plainDecision index ref false true reason with rlsChecked := true }

def rlsResult (index : Nat) (ref : ResourceRef) (req : Request) (olsRoles : List String) :
    Eval Decision := do
  let subject ← enrichedSubject D ref req
  let rls := rlsDecision D ref olsRoles subject
  if rls.allow then return rlsAllowed D index ref rls subject
  else
    let kinds ← hardFailures D ref req
    return rlsRefused index ref (rlsDenyReason D ref olsRoles subject kinds)

def decisionFromOls (index : Nat) (ref : ResourceRef) (req : Request) (olsRoles : List String) :
    Eval Decision :=
  if olsRoles = [] then
    return plainDecision index ref false false
      "No user roles associated with resource and operation"
  else if req.ignoreRls then return plainDecision index ref true true ""
  else rlsResult D index ref req olsRoles

def decisionForResource (index : Nat) (ref : ResourceRef) (req : Request)
    (wa : WildcardSummary) : Eval Decision :=
  if !wa.isEmpty && wa.matchesResource ref.resourceTypeKey ref.operationKey then
    return plainDecision index ref true true ""
  else
    decisionFromOls D index ref req
      (olsEvaluate D.doc ref.resourceTypeKey ref.operationKey req.subjectRoles)

end Decide

end Authorize

end AuthzAgent
