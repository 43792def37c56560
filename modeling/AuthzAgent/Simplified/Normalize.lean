/-
  AuthzAgent.Simplified.Normalize

  `NormalizePolicies` (normalize.go): a list of simplified policies becomes
  the policy document the evaluator reads, with one index for each of its
  steps: the roles with access to a whole resource type or operation
  (`globalAccessRoles`), the roles per resource type and operation (`ols`),
  and the rules per resource type, operation and role (`rls`).

  A round of the loop is cut in two.  `policyEntry` reads a policy: it checks
  the required fields, normalizes the keys and decides which indexes the
  policy goes to.  `Indexes.add` merges the result.  A policy on all resource
  types or all operations that names a role goes to `globalAccessRoles` alone,
  and its condition and predicates are not looked at.
-/

import AuthzAgent.Condition.Parser
import AuthzAgent.Lib.Dict

namespace AuthzAgent

open GoText
open Rego (Value)

namespace Simplified

/-- `Policy`.  A condition is any JSON value, with `null` for an absent one;
    `roles` is `none` for a nil slice. -/
structure Policy where
  component : String
  resourceType : String
  operation : String
  condition : Value
  rsqlPredicate : String
  sqlPredicate : String
  mongodbPredicate : String
  queryDSLPredicate : String
  roles : Option (List Value)

/-- The types of predicates.  The evaluator also knows `custom`, which no
    simplified policy has. -/
inductive PredicateType where
  | rsql | querydsl | mongodb | sql | custom
deriving DecidableEq, Repr

/-- A predicate of a rule; without placeholders the key `placeholderKeys` is
    absent. -/
structure Predicate where
  predicate : String
  type : PredicateType
  placeholderKeys : List String
deriving DecidableEq, Repr

/-- A rule as stored under `rls`; `none` is an absent key. -/
structure Rule where
  condition : Option Bool
  conditionAst : Option Node
  predicates : Option (List Predicate)
deriving DecidableEq

/-- The errors of `NormalizePolicies` about one policy. -/
inductive PolicyError where
  | resourceTypeRequired
  | operationRequired
  | componentRequired
  | rolesRequired
  | condition (e : ParseError)
  | conditionType
deriving DecidableEq, Repr

/-- The text of an error, with `quote` for the `%q` format. -/
def PolicyError.message (quote : String → String) : PolicyError → String
  | .resourceTypeRequired => "resourceType is required"
  | .operationRequired => "operation is required"
  | .componentRequired => "component is required"
  | .rolesRequired => "roles is required"
  | .condition e => e.message quote
  | .conditionType => "condition must be a string or boolean"

/-- An error of `NormalizePolicies`: the place of the policy in the list and
    what is wrong with it. -/
structure NormalizeError where
  index : Nat
  cause : PolicyError
deriving DecidableEq, Repr

def NormalizeError.message (quote : String → String) (e : NormalizeError) : String :=
  "simplified policy " ++ toString e.index ++ ": " ++ e.cause.message quote

/-! ## Keys and roles -/

def normalizeKey (P : Platform) (value : String) : String := P.toUpper (trimSpace value)

def normalizeRoles (P : Platform) : Option (List Value) → Except PolicyError (List String)
  | none => .error .rolesRequired
  | some raw =>
    .ok (sortedSet ((raw.map fun role => normalizeKey P (P.sprint role)).filter (· ≠ "")))

/-! ## Rules -/

/-- The submatches of `\$\{subject\.([^}]+)\}` from left to right.  The first
    argument counts the characters of the last match still to step over. -/
def placeholderMatches : Nat → List Char → List (List Char)
  | _, [] => []
  | skip + 1, _ :: cs => placeholderMatches skip cs
  | 0, c :: cs =>
    if "$\x7bsubject.".toList.isPrefixOf (c :: cs) then
      let after := (c :: cs).drop 10
      let key := after.takeWhile (· ≠ '}')
      if key ≠ [] ∧ key.length < after.length then
        key :: placeholderMatches (10 + key.length) cs
      else placeholderMatches 0 cs
    else placeholderMatches 0 cs

def extractPlaceholderKeys (predicate : String) : List String :=
  sortedSet ((placeholderMatches 0 predicate.toList).map String.ofList)

/-- The three outcomes of `normalizeCondition` other than an error. -/
inductive Condition where
  | absent
  | literal (b : Bool)
  | ast (t : Node)
deriving DecidableEq

def normalizeCondition (P : Platform) : Value → Except PolicyError Condition
  | .null => .ok .absent
  | .bool b => .ok (.literal b)
  | .string value =>
    let text := trimSpace value
    if text = "" then .ok .absent
    else if P.toLower text = "true" then .ok (.literal true)
    else if P.toLower text = "false" then .ok (.literal false)
    else
      match parseCondition P text with
      | .ok t => .ok (.ast t)
      | .error e => .error (.condition e)
  | _ => .error .conditionType

def predicateOf (type : PredicateType) (text : String) : List Predicate :=
  if trimSpace text ≠ "" then [⟨text, type, extractPlaceholderKeys text⟩] else []

def policyPredicates (p : Policy) : List Predicate :=
  predicateOf .rsql p.rsqlPredicate ++ predicateOf .querydsl p.queryDSLPredicate ++
  predicateOf .mongodb p.mongodbPredicate ++ predicateOf .sql p.sqlPredicate

/-- `normalizeRule`, on the outcome of `normalizeCondition`. -/
def ruleOf (condition : Condition) (predicates : List Predicate) : Rule where
  condition := match condition with
    | .absent => some true
    | .literal b => some b
    | .ast _ => none
  conditionAst := match condition with
    | .ast t => some t
    | _ => none
  predicates :=
    if predicates ≠ [] then some predicates
    else match condition with
      | .absent => some [⟨"true", .rsql, []⟩]
      | _ => none

def normalizeRule (P : Platform) (p : Policy) : Except PolicyError Rule :=
  (normalizeCondition P p.condition).map fun c => ruleOf c (policyPredicates p)

/-- `cloneRule`: a round trip through JSON, in which every number becomes a
    `float64`. -/
def cloneRule (P : Platform) (rule : Rule) : Rule :=
  { rule with conditionAst := rule.conditionAst.map (Node.mapConst (Value.mapNumbers P.float64)) }

theorem cloneRule_idem (P : Platform) (rule : Rule) :
    cloneRule P (cloneRule P rule) = cloneRule P rule := by
  have hconst : ∀ t : Node, (t.mapConst (Value.mapNumbers P.float64)).mapConst
      (Value.mapNumbers P.float64) = t.mapConst (Value.mapNumbers P.float64) :=
    Node.mapConst_idem (Value.mapNumbers_idem P.float64_idem)
  cases hast : rule.conditionAst <;> simp [cloneRule, hast, hconst]

/-! ## Reading one policy -/

/-- What one policy adds to the document. -/
inductive Entry where
  /-- Access to a whole resource type, a whole operation, or everything. -/
  | global (rt op : String) (roles : List String)
  /-- A rule, and the roles it gives access to the operation. -/
  | rule (rt op : String) (roles : List String) (rule : Rule)

/-- The checks of one round of the loop, in order, and the index the policy
    belongs to. -/
def policyEntry (P : Platform) (p : Policy) : Except PolicyError Entry :=
  let rt := normalizeKey P p.resourceType
  let op := normalizeKey P p.operation
  if rt = "" then .error .resourceTypeRequired
  else if op = "" then .error .operationRequired
  else if trimSpace p.component = "" then .error .componentRequired
  else
    match normalizeRoles P p.roles with
    | .error e => .error e
    | .ok roles =>
      if (rt = "ALL" ∨ op = "ALL") ∧ roles ≠ [] then .ok (.global rt op roles)
      else (normalizeRule P p).map fun rule => .rule rt op roles rule

def policyEntries (P : Platform) : Nat → List Policy → Except NormalizeError (List Entry)
  | _, [] => .ok []
  | idx, p :: ps =>
    match policyEntry P p with
    | .error e => .error ⟨idx, e⟩
    | .ok entry => (policyEntries P (idx + 1) ps).map (entry :: ·)

/-! ## Merging -/

/-- The entry of a role under `globalAccessRoles.byRole`. -/
structure GlobalAccess where
  all : Bool
  operations : Finset String
  resourceTypes : Finset String
deriving DecidableEq

def GlobalAccess.none : GlobalAccess := ⟨false, ∅, ∅⟩

/-- The maps that the loop of `NormalizePolicies` fills. -/
structure Indexes where
  ols : Dict (Dict (List String))
  rls : Dict (Dict (Dict (List Rule)))
  globalAccessByRole : Dict GlobalAccess

def Indexes.empty : Indexes := ⟨∅, ∅, ∅⟩

def GlobalAccess.merge (rt op : String) (entry : GlobalAccess) : GlobalAccess :=
  if rt = "ALL" ∧ op = "ALL" then { entry with all := true }
  else if rt = "ALL" then { entry with operations := insert op entry.operations }
  else { entry with resourceTypes := insert rt entry.resourceTypes }

def mergeGlobalAccessRole (byRole : Dict GlobalAccess) (rt op role : String) :
    Dict GlobalAccess :=
  Dict.modify byRole role .none (GlobalAccess.merge rt op)

/-- The merge of two role lists in `mergeOLSRule`. -/
def mergeRoles (roles existing : List String) : List String :=
  if existing = [] then roles else sortedSet (existing ++ roles)

def mergeOLSRule (ols : Dict (Dict (List String))) (rt op : String) (roles : List String) :
    Dict (Dict (List String)) :=
  Dict.modify ols rt ∅ fun rtObj => Dict.modify rtObj op [] (mergeRoles roles)

def appendRLSRule (P : Platform) (rls : Dict (Dict (Dict (List Rule)))) (rt op : String)
    (rule : Rule) (role : String) : Dict (Dict (Dict (List Rule))) :=
  Dict.modify rls rt ∅ fun rtObj => Dict.modify rtObj op ∅ fun opObj =>
    Dict.modify opObj role [] fun items => items.map (cloneRule P) ++ [cloneRule P rule]

/-- The role keys of a rule: a policy without roles is stored under `ALL`. -/
def roleKeys (roles : List String) : List String := if roles = [] then ["ALL"] else roles

/-- The rest of a round of the loop: merge what the policy adds. -/
def Indexes.add (P : Platform) (ix : Indexes) : Entry → Indexes
  | .global rt op roles =>
    let byRole := roles.foldl (fun byRole role => mergeGlobalAccessRole byRole rt op role)
      ix.globalAccessByRole
    { ix with globalAccessByRole := byRole }
  | .rule rt op roles rule =>
    let ols := if roles ≠ [] then mergeOLSRule ix.ols rt op roles else ix.ols
    let rls := (roleKeys roles).foldl (fun rls role => appendRLSRule P rls rt op rule role) ix.rls
    { ix with ols := ols, rls := rls }

/-! ## The reference index -/

mutual

/-- `scanASTNodeForSubjectRefs` -/
def astSubjectRefs : Node → List String
  | .ref (.path .subject (attr :: _)) => if attr ≠ "" then [attr] else []
  | .node _ args => astSubjectRefsArgs args
  | _ => []

def astSubjectRefsArgs : List Node → List String
  | [] => []
  | a :: as => astSubjectRefs a ++ astSubjectRefsArgs as

end

def ruleSubjectRefs (rule : Rule) : List String :=
  (rule.conditionAst.map astSubjectRefs).getD [] ++
  (rule.predicates.getD []).flatMap fun p =>
    (placeholderMatches 0 p.predicate.toList).map String.ofList

def collectSubjectRefs (opObj : Dict (List Rule)) : List String :=
  sortedSet (opObj.entries.flatMap fun e => e.2.flatMap ruleSubjectRefs)

def buildRefIndex (rls : Dict (Dict (Dict (List Rule)))) : Dict (Dict (List String)) :=
  rls.entries.foldl (fun index rt => rt.2.entries.foldl (fun index op =>
    if collectSubjectRefs op.2 = [] then index
    else Dict.modify index rt.1 ∅ fun rtIdx => rtIdx.insert op.1 (collectSubjectRefs op.2))
    index) ∅

/-- The document `NormalizePolicies` returns.  An empty `refIndex` or
    `globalAccessRoles` is an absent key. -/
structure PolicyDoc where
  ols : Dict (Dict (List String))
  rls : Dict (Dict (Dict (List Rule)))
  refIndex : Dict (Dict (List String))
  globalAccessRoles : Dict GlobalAccess

def Indexes.document (ix : Indexes) : PolicyDoc :=
  ⟨ix.ols, ix.rls, buildRefIndex ix.rls, ix.globalAccessByRole⟩

def normalizePolicies (P : Platform) (policies : List Policy) :
    Except NormalizeError PolicyDoc :=
  (policyEntries P 0 policies).map fun entries =>
    (entries.foldl (Indexes.add P) .empty).document

/-- A list is accepted, with a document that passes a test. -/
theorem exists_doc_of_any (P : Platform) (ps : List Policy) (test : PolicyDoc → Bool)
    (h : (normalizePolicies P ps).toOption.any test = true) :
    ∃ doc, normalizePolicies P ps = .ok doc ∧ test doc = true := by
  cases hps : normalizePolicies P ps with
  | error e => simp [hps, Except.toOption] at h
  | ok doc => exact ⟨doc, rfl, by simpa [hps, Except.toOption] using h⟩

end Simplified

end AuthzAgent
