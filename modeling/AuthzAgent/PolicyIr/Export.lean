/-
  AuthzAgent.PolicyIr.Export

  `FromRegular`, the reader of the v3 configuration export (export.go in
  policyir).

  The reader goes over the elements three times (the counts of the set IDs, the
  sets, the declarations) and keeps one record per tenant; each step changes the
  record of the element's tenant only and adds lines to its report.  The errors
  are values, with the positions and IDs that the source prints; the labels of a
  `nodeError` stand innermost first.  After an error the counter of variables is
  read no more, so the model does not keep it.
-/

import AuthzAgent.Lib.GoQuote
import AuthzAgent.PolicyIr.Decode
import AuthzAgent.PolicyIr.Parse
import AuthzAgent.PolicyIr.Tree

namespace AuthzAgent

open JsonText (Json bodyText)

namespace PolicyIr

/-- What the reader reads beside the documents. -/
structure ReaderWords extends Words where
  /-- `strconv.IsPrint` -/
  isPrint : Char → Bool

/-- The verb `%q`. -/
def ReaderWords.quoted (W : ReaderWords) (s : String) : String :=
  String.ofList (GoQuote.quote W.isPrint s)

/-! ## Heads -/

structure ExportHead where
  tenantID : Option String := none
  id : String := ""
  status : String := ""
deriving DecidableEq, Repr

def rawString : Option Json → Option String
  | some (.string body) => some (bodyText body)
  | _ => none

def readHead (raw : String) : ExportHead :=
  match decode .head raw with
  | .error _ => {}
  | .ok (fields, _) =>
    { tenantID := rawString (HeadFields.tenantID fields)
      id := (rawString (HeadFields.policySetID fields)).getD ""
      status := (rawString (HeadFields.status fields)).getD "" }

/-- The tenant of an element; an empty ID names none. -/
def ExportHead.tenant (h : ExportHead) : Option String := h.tenantID.filter (· ≠ "")

def topLevelApplies (status : String) : Bool :=
  match status with
  | "INACTIVE" | "DRAFT" | "ARCHIVED" => false
  | _ => true

/-! ## Errors -/

/-- What the builder of a set refuses. -/
inductive BuildReason where
  | algorithm (name : String)
  | effect (rule effect : String)
deriving DecidableEq, Repr

/-- A node that holds an error. -/
inductive NodeLabel where
  | policy (id : String)
  | policySet (id : String)
deriving DecidableEq, Repr

structure NodeError where
  labels : List NodeLabel
  reason : BuildReason
deriving DecidableEq, Repr

def within (label : NodeLabel) (e : NodeError) : NodeError := { e with labels := e.labels ++ [label] }

/-- The errors of `readPIP`. -/
inductive PIPError where
  | decode (e : DecodeError)
  | noName
  | pipType (name type : String)
  | headers (name : String)
  | headersKind (name text : String)
deriving DecidableEq, Repr

/-- Why a tenant has no tree. -/
inductive TenantError where
  | decode (i : Nat) (e : DecodeError)
  | set (id : String) (e : NodeError)
  | pip (i : Nat) (e : PIPError)
  | tree (e : TreeError)
deriving DecidableEq, Repr

/-- Why a document is refused. -/
inductive DocError where
  | sets (e : DecodeError)
  | noSets
  | pips (e : DecodeError)
  | noPips
deriving DecidableEq, Repr

/-! ## Conditions and predicates -/

def compact (raw : Json) : String := String.ofList (JsonText.print raw)

def condition (W : Words) (text : Option String) (place : Place) (iterVar : String) :
    Option Condition :=
  text.map fun text =>
    match parseCondition W text place iterVar with
    | .ok c => c
    | .error _ => ⟨place, [[.unsupported .syntaxForm text]]⟩

def predicates (r : ExportRule) : Predicates where
  text := [(Dialect.rsql, r.rsqlPredicate), (.sql, r.sqlPredicate), (.mongodb, r.mongodbPredicate),
    (.querydsl, r.predicate)].filter (·.2 ≠ "")
  custom := r.customPredicate.map fun c => ⟨c.predicate, c.params.mapValues compact⟩

def ruleTypeFrontend : String := "APPLICABLE_FOR_FRONTEND"

/-! ## Foreign elements -/

def foreign (tenant : String) (id : Option String) : Option String :=
  id.filter fun id => id ≠ "" ∧ id ≠ tenant

section

variable (W : ReaderWords)

/-- The part of `foreignElement` about a policy and its rules. -/
def foreignPolicy (tenant : String) (p : ExportPolicy) : Option String :=
  match foreign tenant p.tenantID with
  | some id => some ("policy " ++ W.quoted p.policyID ++ " has tenantId " ++ W.quoted id)
  | none => p.rules.findSome? fun r => (foreign tenant r.tenantID).map fun id =>
    "rule " ++ W.quoted r.ruleID ++ " has tenantId " ++ W.quoted id

mutual

def foreignElement (tenant : String) : ExportSet → String
  | ⟨_, _, _, _, _, _, _, _, _, _, policies, sets, _⟩ =>
    match policies.findSome? (foreignPolicy W tenant) with
    | some reason => reason
    | none => foreignSets tenant sets

/-- The loop of `foreignElement` over the nested sets. -/
def foreignSets (tenant : String) : List ExportSet → String
  | [] => ""
  | k :: sets =>
    match foreign tenant k.tenantID with
    | some id => "policy set " ++ W.quoted k.policySetID ++ " has tenantId " ++ W.quoted id
    | none =>
      let reason := foreignElement tenant k
      if reason ≠ "" then reason else foreignSets tenant sets

end

/-! ## Sets -/

def algorithmOf (a : String) : Except NodeError Algorithm :=
  match Algorithm.ofName a with
  | some alg => .ok alg
  | none => .error ⟨[], .algorithm a⟩

/-- What the iterate of a set adds to it, and the variable and the counter for
    its children. -/
structure Scope where
  iterate : Option Iterate
  alwaysFails : String
  inner : String
  vars : Nat

/-- The part of `setBuilder.set` about the iterate. -/
def iterateScope (iterVar : String) (vars : Nat) : Option ExportIterate → Scope
  | none => ⟨none, "", iterVar, vars⟩
  | some it =>
    if it.foreach ≠ "subject.permissionScope" then
      ⟨none, "iterate foreach " ++ W.quoted it.foreach, iterVar, vars⟩
    else if it.combiningAlgorithm = "" then
      ⟨none, "iterate without a combiningAlgorithm", iterVar, vars⟩
    else match Algorithm.ofName it.combiningAlgorithm with
      | none =>
        ⟨none, "iterate combiningAlgorithm " ++ W.quoted it.combiningAlgorithm ++ " unknown",
          iterVar, vars⟩
      | some alg =>
        let inner := "iterate" ++ toString (vars + 1)
        ⟨some ⟨inner, alg⟩, "", inner, vars + 1⟩

/-- A rule of `setBuilder.policy`. -/
def buildRule (iterVar : String) (r : ExportRule) : Except NodeError Rule :=
  match Effect.ofName r.effect with
  | none => .error ⟨[], .effect r.ruleID r.effect⟩
  | some effect => .ok {
      id := r.ruleID
      name := r.name
      effect
      frontend := r.ruleType = ruleTypeFrontend
      target := condition W.toWords r.target .ruleTarget iterVar
      condition := condition W.toWords r.condition .ruleCondition iterVar
      predicates := predicates r }

/-- `setBuilder.policy` -/
def buildPolicy (iterVar : String) (p : ExportPolicy) : Except NodeError Policy := do
  let algorithm ← algorithmOf p.combiningAlgorithm
  let rules ← p.rules.mapM (buildRule W iterVar)
  return {
    id := p.policyID
    name := p.name
    algorithm
    target := condition W.toWords p.target .policyTarget iterVar
    rules }

mutual

/-- `setBuilder.set`, with the counter of variables. -/
def buildSet (iterVar : String) (vars : Nat) : ExportSet → Except NodeError (PolicySet × Nat)
  | ⟨_, policySetID, name, _, domain, _, _, target, combiningAlgorithm, iterate, policies, sets,
      externalID⟩ => do
      let algorithm ← algorithmOf combiningAlgorithm
      let scope := iterateScope W iterVar vars iterate
      let bare : PolicySet := {
        id := policySetID
        name
        domain
        externalID
        algorithm
        target := condition W.toWords target .setTarget iterVar
        iterate := scope.iterate
        alwaysFails := scope.alwaysFails
        isolated := ""
        policies := []
        sets := [] }
      if scope.alwaysFails ≠ "" then return (bare, scope.vars)
      else do
        let policies ← policies.mapM fun p =>
          (buildPolicy W scope.inner p).mapError (within (.policy p.policyID))
        let (sets, vars) ← buildSets scope.inner scope.vars sets
        return ({ bare with policies, sets }, vars)

/-- The loop of `setBuilder.set` over the nested sets. -/
def buildSets (iterVar : String) (vars : Nat) :
    List ExportSet → Except NodeError (List PolicySet × Nat)
  | [] => .ok ([], vars)
  | k :: sets => do
    let (k, vars) ← (buildSet iterVar vars k).mapError (within (.policySet k.policySetID))
    let (sets, vars) ← buildSets iterVar vars sets
    return (k :: sets, vars)

end

end

/-! ## Simplified groups -/

def resourceTypeTarget (rt : String) : String := "resourceType == '" ++ rt ++ "'"

def operationTarget (op : String) : String :=
  if op = "ALL" then "true" else "operation == '" ++ op ++ "'"

def rolesTarget (roles : List String) : String :=
  "subject.roles CONTAINS ANY '" ++ "','".intercalate roles ++ "'"

section

variable (W : Words)

/-- The only comparison of a condition. -/
def onlyCompare (text : String) (place : Place) : Option Compare :=
  match parseCondition W text place "" with
  | .ok ⟨_, [[.compare c]]⟩ => some c
  | _ => none

def onlyEquality (text : String) (left : Operand) : Option String :=
  match onlyCompare W text .setTarget with
  | some ⟨op, l, some (.literal (.string value))⟩ => if op = .eq ∧ l = left then some value else none
  | _ => none

/-- The strings among which every literal is one. -/
def stringItems (items : List Literal) : Option (List String) :=
  items.mapM fun
    | .string value => some value
    | _ => none

def rolesOf (text : String) : Option (List String) :=
  match onlyCompare W text .ruleTarget with
  | some ⟨op, l, some (.list items _)⟩ =>
    if op = .containsAny ∧ l = .subject .roles "" then stringItems items else none
  | _ => none

/-- The operation of a policy in the shape of the PAP. -/
def groupOperation (target : String) : Option String :=
  if target = "true" then some "ALL"
  else (onlyEquality W target .operation).filter fun op => target = operationTarget op

/-- A rule of a policy in the shape of the PAP. -/
def groupRule (op : String) (r : ExportRule) : Option SimplifiedPolicy := do
  if r.effect ≠ "ALLOW" ∨ r.predicate ≠ "" ∨ r.customPredicate.isSome then none
  let target ← r.target
  let roles ← rolesOf W target
  if target ≠ rolesTarget roles then none
  return {
    id := r.ruleID
    frontend := r.ruleType = ruleTypeFrontend
    operation := op
    roles
    condition := condition W r.condition .simplified ""
    predicates := predicates r }

/-- A policy in the shape of the PAP. -/
def groupPolicy (p : ExportPolicy) : Option (List SimplifiedPolicy) := do
  let target ← p.target
  if p.combiningAlgorithm ≠ "DENY_UNLESS_PERMIT" then none
  let op ← groupOperation W target
  p.rules.mapM (groupRule W op)

def simplifiedGroup (s : ExportSet) : Option SimplifiedGroup := do
  if s.type ≠ "SIMPLIFIED" ∨ s.iterate.isSome ∨ s.policySets.length > 0 then none
  let target ← s.target
  if s.combiningAlgorithm ≠ "DENY_UNLESS_PERMIT" then none
  let rt ← onlyEquality W target .resourceType
  if target ≠ resourceTypeTarget rt then none
  let policies ← s.policies.mapM (groupPolicy W)
  return {
    id := s.policySetID
    name := s.name
    externalID := s.externalID
    domain := s.domain
    component := s.component.getD ""
    resourceType := rt
    policies := policies.flatten }

end

/-! ## Declarations -/

def present : Option Json → String
  | none | some .null => ""
  | some raw => compact raw

/-- The part of `readPIP` about the headers: their text, and whether they are an
    object. -/
def pipHeaders (name : String) : Option Json → Except PIPError (String × Bool)
  | none | some .null => .ok ("", false)
  | some (.string body) => .ok (bodyText body, false)
  | some (.array items) =>
    match items.mapM fun item => stringField (some item) with
    | .error _ => .error (.headers name)
    | .ok names => .ok (",".intercalate names, false)
  | some (.object _) => .ok ("", true)
  | some raw => .error (.headersKind name (compact raw))

/-- The extension fields of a declaration. -/
def pipExtensions (e : ExportPIP) : List String :=
  [("query", e.query), ("body", e.body), ("timeoutSeconds", e.timeoutSeconds),
    ("response", e.response)].filterMap fun f => if present f.2 ≠ "" then some f.1 else none

/-- The type that a declaration names. -/
def pipTypeOf (e : ExportPIP) : Option PIPType :=
  if e.pipType = "" then some .general else PIPType.ofName e.pipType

/-- The declaration of a decoded element. -/
def buildPIP (e : ExportPIP) : Except PIPError PIP := do
  match e.name with
  | none => throw .noName
  | some name =>
    match pipTypeOf e with
    | none => throw (.pipType name e.pipType)
    | some type =>
      let (headers, object) ← pipHeaders name e.headers
      let unsupported := (if object then ["headers object"] else []) ++ pipExtensions e
      return {
        name
        type := some type
        claim := e.claim
        header := e.header
        defaultValue := present e.defaultValue
        url := e.url
        httpMethod := e.httpMethod
        beanName := e.beanName
        jsonPath := e.jsonPath
        returnType := e.type
        headers
        resourceType := e.resourceType
        domain := e.domain
        requestAttributes := e.requestAttributes.mapValues compact
        productMapping := present e.productMapping
        customMapping := present e.customMapping
        cacheable := present e.cacheable
        cachePeriod := present e.cachePeriod
        unsupported := ", ".intercalate unsupported }

def readPIP (raw : String) : Except PIPError (PIP × List String) := do
  let (e, unknown) ← (decode .pip raw).mapError .decode
  let p ← buildPIP e
  return (p, unknown)

/-! ## Tenants -/

/-- The record of a tenant in `FromRegular`. -/
structure Tenant where
  simplified : List SimplifiedGroup := []
  sets : List PolicySet := []
  pips : List PIP := []
  pipCount : Dict Nat := ∅
  setCount : Dict Nat := ∅
  vars : Nat := 0
  err : Option TenantError := none

/-- The first pass: count the ID of a set. -/
def Tenant.countSet (head : ExportHead) (t : Tenant) : Tenant :=
  { t with setCount := t.setCount.modify head.id 0 (· + 1) }

section

variable (W : ReaderWords)

/-- Why a set is isolated, or empty. -/
def isolation (tenant : String) (count : Nat) (s : ExportSet) : String :=
  if count > 1 then
    "the tenant has " ++ toString count ++ " top-level sets with this policySetId"
  else foreignElement W tenant s

def isolatedSet (s : ExportSet) (reason : String) : PolicySet where
  id := s.policySetID
  name := s.name
  domain := s.domain
  externalID := s.externalID
  algorithm := .absent
  target := condition W.toWords s.target .setTarget ""
  iterate := none
  alwaysFails := ""
  isolated := reason
  policies := []
  sets := []

/-- A set that is not isolated: a group again, or a set. -/
def Tenant.placeSet (t : Tenant) (s : ExportSet) : Tenant :=
  match simplifiedGroup W.toWords s with
  | some g => { t with simplified := t.simplified ++ [g] }
  | none =>
    match buildSet W "" t.vars s with
    | .error e => { t with err := some (.set s.policySetID e) }
    | .ok (ps, vars) => { t with sets := t.sets ++ [ps], vars }

/-- A set whose status applies, once it is decoded. -/
def Tenant.readSet (tenant : String) (head : ExportHead) (s : ExportSet) (t : Tenant) : Tenant :=
  let reason := isolation W tenant (t.setCount.getD head.id 0) s
  if reason ≠ "" then { t with sets := t.sets ++ [isolatedSet W s reason] } else t.placeSet W s

/-- The second pass: read a set. -/
def Tenant.addSet (tenant : String) (i : Nat) (raw : String) (t : Tenant) : Tenant :=
  let head := readHead raw
  if t.err.isSome ∨ topLevelApplies head.status = false then t
  else match decode .set raw with
    | .error e => { t with err := some (.decode i e) }
    | .ok (s, _) => t.readSet W tenant head s

/-- The lines that the second pass reports of a set. -/
def Tenant.setLines (tenant : String) (i : Nat) (raw : String) (t : Tenant) : List String :=
  let head := readHead raw
  let line := "policy set " ++ toString i ++ " " ++ W.quoted head.id ++ ": "
  if t.err.isSome then []
  else if topLevelApplies head.status = false then [line ++ "status " ++ head.status]
  else match decode .set raw with
    | .error _ => []
    | .ok (s, unknown) =>
      let reason := isolation W tenant (t.setCount.getD head.id 0) s
      (unknown.map fun key => line ++ "unknown key " ++ key) ++
        if reason ≠ "" then [line ++ "isolated: " ++ reason] else []

/-- The third pass: read a declaration. -/
def Tenant.addPIP (i : Nat) (raw : String) (t : Tenant) : Tenant :=
  if t.err.isSome then t
  else match readPIP raw with
    | .error e => { t with err := some (.pip i e) }
    | .ok (p, _) =>
      { t with pips := t.pips ++ [p], pipCount := t.pipCount.modify p.name 0 (· + 1) }

/-- The lines that the third pass reports of a declaration. -/
def Tenant.pipLines (i : Nat) (raw : String) (t : Tenant) : List String :=
  if t.err.isSome then []
  else match readPIP raw with
    | .error _ => []
    | .ok (p, unknown) => unknown.map fun key =>
      "pip " ++ toString i ++ " " ++ W.quoted p.name ++ ": unknown key " ++ key

/-- The declarations of the tree: those of a name that is declared more than once
    become one, which is isolated. -/
def uniquePIPs (count : Dict Nat) : List PIP → List PIP
  | [] => []
  | p :: pips =>
    let n := count.getD p.name 0
    if n = 1 then p :: uniquePIPs count pips
    else if n > 1 then
      { name := p.name, isolated := "declared " ++ toString n ++ " times" } ::
        uniquePIPs (count.insert p.name 0) pips
    else uniquePIPs count pips

def Tenant.tree (t : Tenant) : Except TenantError Tree :=
  match t.err with
  | some e => .error e
  | none => (newTree W.compiles t.simplified t.sets (uniquePIPs t.pipCount t.pips)).mapError .tree

/-- The lines that the last loop reports of the isolated declarations. -/
def Tenant.isolatedLines (t : Tenant) : List String :=
  (uniquePIPs t.pipCount t.pips).filterMap fun p =>
    if p.isolated ≠ "" then some ("pip " ++ W.quoted p.name ++ ": isolated: " ++ p.isolated)
    else none

/-! ## The export -/

/-- The variables of `FromRegular`. -/
structure Reading where
  order : List String := []
  tenants : Dict Tenant := ∅
  orphans : List String := []
  dropped : Dict (List String) := ∅

/-- The lines of a report, for a tenant; no line adds no entry. -/
def addLines (dropped : Dict (List String)) (tenant : String) (lines : List String) :
    Dict (List String) :=
  if lines = [] then dropped else dropped.modify tenant [] (· ++ lines)

/-- A tenant is known from its first element on. -/
def Reading.open_ (st : Reading) (tenant : String) : Reading :=
  match st.tenants.lookup tenant with
  | some _ => st
  | none => { st with
      tenants := st.tenants.insert tenant {}
      order := st.order ++ [tenant] }

/-- Change the record of a tenant, and report of it. -/
def Reading.update (st : Reading) (tenant : String) (f : Tenant → Tenant)
    (lines : Tenant → List String) : Reading :=
  let t := st.tenants.getD tenant {}
  { st with
    tenants := st.tenants.insert tenant (f t)
    dropped := addLines st.dropped tenant (lines t) }

/-- An element without a tenant. -/
def orphanLine (kind : String) (i : Nat) : String :=
  kind ++ " " ++ toString i ++ ": tenantId absent, empty, or not a string"

/-- A round of the first pass. -/
def Reading.countSet (st : Reading) (raw : String × Nat) : Reading :=
  match (readHead raw.1).tenant with
  | none => { st with orphans := st.orphans ++ [orphanLine "policy set" raw.2] }
  | some tenant => (st.open_ tenant).update tenant (Tenant.countSet (readHead raw.1)) fun _ => []

/-- A round of the second pass. -/
def Reading.addSet (st : Reading) (raw : String × Nat) : Reading :=
  match (readHead raw.1).tenant with
  | none => st
  | some tenant =>
    st.update tenant (Tenant.addSet W tenant raw.2 raw.1) (Tenant.setLines W tenant raw.2 raw.1)

/-- A round of the third pass. -/
def Reading.addPIP (st : Reading) (raw : String × Nat) : Reading :=
  match (readHead raw.1).tenant with
  | none => { st with orphans := st.orphans ++ [orphanLine "pip" raw.2] }
  | some tenant =>
    (st.open_ tenant).update tenant (Tenant.addPIP raw.2 raw.1) (Tenant.pipLines W raw.2 raw.1)

/-- The three passes. -/
def readAll (sets pips : List String) : Reading :=
  let st := sets.zipIdx.foldl Reading.countSet {}
  let st := sets.zipIdx.foldl (Reading.addSet W) st
  pips.zipIdx.foldl (Reading.addPIP W) st

structure Export where
  trees : Dict Tree := ∅
  failed : Dict TenantError := ∅
  orphans : List String := []
  dropped : Dict (List String) := ∅

/-- A round of the last loop. -/
def Export.add (tenants : Dict Tenant) (out : Export) (tenant : String) : Export :=
  let t := tenants.getD tenant {}
  match t.tree W with
  | .error e => { out with
      failed := out.failed.insert tenant e
      dropped := out.dropped.erase tenant }
  | .ok tree => { out with
      trees := out.trees.insert tenant tree
      dropped := addLines out.dropped tenant (t.isolatedLines W) }

/-- The elements of a document as they are read: each is written compactly. -/
def elements (items : List Json) : List String := items.map compact

/-- The elements of a document with an array. -/
def setElements (policySets : String) : Except DocError (List String) :=
  match decode .setsDoc policySets with
  | .error e => .error (.sets e)
  | .ok (items, _) =>
    match (items : Option (List Json)) with
    | none => .error .noSets
    | some items => .ok (elements items)

def pipElements (pips : String) : Except DocError (List String) :=
  match decode .pipsDoc pips with
  | .error e => .error (.pips e)
  | .ok (items, _) =>
    match (items : Option (List Json)) with
    | none => .error .noPips
    | some items => .ok (elements items)

def fromRegular (policySets pips : String) : Except DocError Export := do
  let sets ← setElements policySets
  let pips ← pipElements pips
  let st := readAll W sets pips
  return st.order.foldl (Export.add W st.tenants) { orphans := st.orphans, dropped := st.dropped }

end

end PolicyIr

end AuthzAgent
