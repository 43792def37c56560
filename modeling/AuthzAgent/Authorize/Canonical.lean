/-
  AuthzAgent.Authorize.Canonical

  The canonical response of authorize_internals.rego: the admission gate, the
  authentication of the subject, and the list of results.

  The results are built by three comprehensions, and a comprehension drops
  the elements that are undefined.  Of the functions they call only
  `normalize_resource_ref` can be undefined: its `upper` needs a text, and
  `object.get` an object.  A conflict in one decision leaves the whole query
  without a response.
-/

import AuthzAgent.Authorize.Decision

namespace AuthzAgent

open Identity (Credentials)
open Rego (Value Eval)
open Simplified

namespace Authorize

/-! ## The request -/

/-- The members of `input` that authorize_internals.rego reads, besides the
    request headers, which pip.rego reads too. -/
structure Input where
  credentials : Credentials
  ignoreRls : Value
  resources : Value

/-- The result of `validate_token_with_reason`, with the subject that
    `subject_from_verification` makes of it. -/
structure TokenValidation where
  valid : Bool
  reason : String
  subject : Option Fields
  payload : Value

/-- The result of `authenticate`. -/
structure Authentication where
  authenticated : Bool
  subject : Fields
  tokenPayload : Value
  reason : String

/-- What identity.rego computes. -/
structure Identity where
  validateTokenWithReason : Value → TokenValidation
  authenticate : Credentials → Authentication
  anonymousMode : Credentials → Bool

def canReuseAdmissionSubject (I : Identity) (c : Credentials) : Bool :=
  match c.authorizationToken with
  | some token => (I.validateTokenWithReason token).valid && !I.anonymousMode c &&
      decide (c.subject.getD (.string "") = token)
  | none => false

/-- The rule `authentication_context`; a reused token without a subject leaves
    it undefined. -/
def authenticationContext (I : Identity) (c : Credentials) : Option Authentication :=
  match c.authorizationToken with
  | some token =>
    let validation := I.validateTokenWithReason token
    if canReuseAdmissionSubject I c then
      validation.subject.map fun subject => ⟨true, subject, validation.payload, ""⟩
    else some (I.authenticate c)
  | none => some (I.authenticate c)

def admissionOk (I : Identity) (c : Credentials) : Bool :=
  match c.authorizationToken with
  | some token => (I.validateTokenWithReason token).valid
  | none => true

/-! ## The evaluation -/

/-- An entry of `results`; `none` is an absent reason, and an empty list an
    absent `predicates`. -/
structure Result where
  resourceType : Value
  operation : Value
  isAllowed : Bool
  reason : Option String
  predicates : List (PredicateType × String)
deriving DecidableEq

def boolOrFalse : Value → Bool
  | .bool b => b
  | _ => false

/-- `subject_roles_set`; a role that is no text is dropped. -/
def subjectRolesSet (P : Platform) (subject : Fields) : List String :=
  ((subject.lookup "roles").getD (.array [])).elements.filterMap fun role =>
    match role with
    | .string s => if s = "" then none else some (P.toUpper s)
    | _ => none

/-- `normalize_resource_ref`, undefined on an entry that is no object or whose
    resource type or operation is no text. -/
def normalizeResourceRef (P : Platform) (entry : Value) : Option ResourceRef := do
  let rt ← entry.objectGet "resourceType" (.string "")
  let op ← entry.objectGet "operation" (.string "")
  let resource ← entry.objectGet "resource" (.object [])
  match rt, op with
  | .string rt, .string op => some ⟨rt, op, P.toUpper rt, P.toUpper op, resource⟩
  | _, _ => none

def predicateTypeOrder : List PredicateType := [.rsql, .querydsl, .mongodb, .sql, .custom]

def buildPredicatesArray (typed : PredicateType → String) : List (PredicateType × String) :=
  (predicateTypeOrder.map fun type => (type, typed type)).filter fun p => p.2 ≠ ""

def canonicalResult (d : Decision) (ignoreRls : Bool) : Result where
  resourceType := .string d.resourceType
  operation := .string d.operation
  isAllowed := d.allow
  reason := if d.allow then none else some d.reason
  predicates := if d.allow && !ignoreRls then buildPredicatesArray d.typedPredicates else []

/-- The entries that `raw_resources[idx]` enumerates, undefined when the
    resources have no `count`. -/
def resourceEntries : Value → Option (List Value)
  | .array items => some items
  | .object _ => some []
  | .string _ => some []
  | _ => none

section Evaluation

variable (D : Data)

def normalizedRequest (auth : Authentication) (input : Input) : Request where
  subject := auth.subject
  subjectRoles := subjectRolesSet D.platform auth.subject
  ignoreRls := boolOrFalse input.ignoreRls
  tokenPayload := auth.tokenPayload

/-- The two comprehensions of `authorization_evaluation`. -/
def evaluationResults (req : Request) (resources : List ResourceRef) : Eval (List Result) := do
  let wa := buildWildcardSummary D.doc.globalAccessRoles req.subjectRoles
  let idxs := List.range resources.length
  let decisions ← Eval.collect do
    let idx ← Eval.solutions idxs
    let ref ← Eval.ofOption resources[idx]?
    decisionForResource D idx ref req wa
  return idxs.filterMap fun idx => decisions[idx]?.map fun d => canonicalResult d req.ignoreRls

def authorizationEvaluation (auth : Authentication) (input : Input) (entries : List Value) :
    Eval (List Result) :=
  evaluationResults D (normalizedRequest D auth input)
    (entries.filterMap (normalizeResourceRef D.platform))

def subjectDenyResults (auth : Authentication) (entries : List Value) : List Result :=
  entries.filterMap fun entry => do
    let rt ← entry.objectGet "resourceType" (.string "")
    let op ← entry.objectGet "operation" (.string "")
    pure ⟨rt, op, false, some auth.reason, []⟩

/-- The value of `canonical`. -/
inductive Canonical where
  | authError (message : String)
  | response (rlsIgnored : Bool) (results : List Result)
deriving DecidableEq

/-- The rules of `canonical` behind the admission gate, with the default for
    an input that none of them is defined on. -/
def admittedResponse (I : Identity) (input : Input) : Eval Canonical :=
  match authenticationContext I input.credentials, resourceEntries input.resources with
  | some auth, some entries => do
    let results ←
      if auth.authenticated then authorizationEvaluation D auth input entries
      else pure (subjectDenyResults auth entries)
    return .response (boolOrFalse input.ignoreRls) results
  | _, _ => return .response false []

/-- The rule `canonical`. -/
def canonical (I : Identity) (input : Input) : Eval Canonical :=
  match input.credentials.authorizationToken with
  | some token =>
    if (I.validateTokenWithReason token).valid then admittedResponse D I input
    else return .authError (I.validateTokenWithReason token).reason
  | none => admittedResponse D I input

end Evaluation

end Authorize

end AuthzAgent
