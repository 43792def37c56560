/-
  AuthzAgent.Pip.Resolve

  The values of PIPs (pip.rego): a TOKEN PIP reads a claim, a HEADER PIP a
  header, and a GENERAL PIP the response of an HTTP request built from its
  configuration.  The entitlements of a subject come from one more request.

  `http.send` is a parameter: what it answers to a request, undefined where it
  rejects the request itself.  A call that fails has the status 0.
-/

import AuthzAgent.Authorize.Substitute
import AuthzAgent.Identity.Rules
import AuthzAgent.Pip.Template
import AuthzAgent.Pips.Normalize

namespace AuthzAgent

open Rego (Value Eval)
open Pips
open Authorize (Fields)

namespace Pip

/-! ## What the rules read -/

/-- The operand of `http.send`. -/
structure HttpRequest where
  method : String
  url : String
  headers : Fields
  body : Option Value
  timeout : String

/-- The result of `http.send`; a failed call has no body. -/
structure HttpResponse where
  statusCode : Int
  body : Option Value

/-- `EntitlementsPIPConfig`, without the fields pip.rego does not read. -/
structure EntitlementsPIPConfig where
  url : String
  httpTimeoutSeconds : Int

/-- What the rules read beside their arguments. -/
structure Env where
  builtins : Builtins
  /-- `http.send` -/
  send : HttpRequest → Option HttpResponse
  /-- `data.pips` -/
  pips : NormalizedPIPs
  /-- `data.pips.activation.generalByResourceTypeOperation` -/
  activation : Dict (Dict (List String))
  /-- `data.pips.remote.entitlements` -/
  entitlements : Option EntitlementsPIPConfig
  /-- `data.m2m.bearerToken`, empty when it is absent. -/
  m2mBearerToken : String
  /-- `input.requestId`, empty when it is absent. -/
  requestId : Value
  /-- `input.requestHeaders`, an empty object when it is absent. -/
  requestHeaders : Value

section

variable (E : Env)

def requestIdText : String :=
  match E.requestId.text.map Identity.trimBlank with
  | some id => if id ≠ "" then id else E.builtins.uuidRfc4122 "authz-agent-x-request-id"
  | none => E.builtins.uuidRfc4122 "authz-agent-x-request-id"

def pipEntriesConfigured : Bool :=
  !E.pips.byName.entries.isEmpty || !E.pips.token.entries.isEmpty ||
    !E.pips.header.entries.isEmpty || !E.pips.general.entries.isEmpty

/-- `known_pip_aliases` -/
def knownPipAliases (aliasName : String) : Bool :=
  if E.pips.aliasSet.Nonempty then decide (aliasName ∈ E.pips.aliasSet)
  else aliasName ≠ "" &&
    (E.pips.token.entries.any (fun entry => entry.2.aliasName == aliasName) ||
      E.pips.header.entries.any (fun entry => entry.2.aliasName == aliasName) ||
      E.pips.general.entries.any fun entry => entry.2.aliasName == aliasName)

def coalesce (value dflt : Value) : Value := if value ≠ .null then value else dflt

/-! ## TOKEN and HEADER PIPs -/

def resolveTokenValues (subjectCtx : Value) : Eval Fields :=
  .ruleOr "resolve_token_values" []
    [do
      let result ← Eval.object "resolve_token_values" do
        let entry ← Eval.solutions E.pips.token.entries
        .require (entry.2.aliasName ≠ "")
        .require (entry.2.claim ≠ "")
        let rawValue ← .ofOption (subjectCtx.objectGet entry.2.claim .null)
        let value := coalesce rawValue (entry.2.defaultValue.getD .null)
        .require (value ≠ .null)
        return (entry.2.aliasName, value)
      return Value.ofMembers result]

def resolveHeaderValues (requestHeaders : Value) : Eval Fields :=
  .ruleOr "resolve_header_values" []
    [do
      let result ← Eval.object "resolve_header_values" do
        let entry ← Eval.solutions E.pips.header.entries
        .require (entry.2.aliasName ≠ "")
        let headerName := E.builtins.platform.toLower entry.2.header
        .require (headerName ≠ "")
        let rawValue ← .ofOption (requestHeaders.objectGet headerName .null)
        let value := coalesce rawValue (entry.2.defaultValue.getD .null)
        .require (value ≠ .null)
        return (entry.2.aliasName, value)
      return Value.ofMembers result]

def resolveRequestLevel (subjectCtx requestHeaders : Value) : Eval Fields :=
  .ruleOr "resolve_request_level" []
    [do
      .require (pipEntriesConfigured E)
      let tokenVals ← resolveTokenValues E subjectCtx
      let headerVals ← resolveHeaderValues E requestHeaders
      return Value.unionFields tokenVals headerVals]

/-! ## The request of a GENERAL PIP -/

def isQueryScalar : Value → Bool
  | .string _ | .number _ | .bool _ => true
  | _ => false

def urlqueryEncode (v : Value) : String :=
  E.builtins.urlqueryEncode (E.builtins.platform.regoSprint v)

def expandQuery (query : List (String × String)) (sub resource : Value) :
    Eval (List (String × String)) := do
  let params := (Dict.ofList query).entries
  let out ← Eval.object "expand_query" do
    let param ← Eval.solutions params
    let value ← expandString E.builtins (.string param.2) sub resource
    .require (isQueryScalar value)
    return (param.1, urlqueryEncode E value)
  .require (out.length = params.length)
  return out

def withQuery (url : String) (query : List (String × String)) : String :=
  if query = [] then url
  else
    let pairs := (query.map fun q => q.1 ++ "=" ++ q.2).insertionSort (· ≤ ·)
    url ++ "?" ++ String.intercalate "&" pairs

def stripCrlf (s : String) : String :=
  String.ofList (s.toList.filter fun c => c ≠ '\r' && c ≠ '\n')

/-- The value of a header to set: `strip_crlf(ev)` for `ev := expand_string(v, …)`. -/
def setHeaderText (v : String) (sub resource : Value) : Eval String := do
  let expanded ← expandString E.builtins (.string v) sub resource
  .ofOption (expanded.text.map stripCrlf)

def forwardedHeaders (cfg : GeneralPIPConfig) : Eval (List (String × Value)) :=
  Eval.object "build_headers" do
    let name ← Eval.solutions cfg.forwardHeaders
    let key := E.builtins.platform.toLower name
    let v ← .ofOption (E.requestHeaders.objectGet key (.string ""))
    .require (v ≠ .string "")
    return (key, v)

def explicitHeaders (cfg : GeneralPIPConfig) (sub resource : Value) :
    Eval (List (String × String)) :=
  Eval.object "build_headers" do
    let header ← Eval.solutions (Dict.ofList cfg.setHeaders).entries
    let text ← setHeaderText E header.2 sub resource
    return (E.builtins.platform.toLower header.1, text)

def m2mAuthorizationHeader (headers : Fields) : Fields :=
  -- the `not` of the source also holds of a header bound to `false`
  if E.m2mBearerToken ≠ "" ∧ (headers.lookup "authorization").getD (.bool false) = .bool false then
    [("authorization", .string ("Bearer " ++ E.m2mBearerToken))]
  else []

def addContentType (headers : Fields) (cfg : GeneralPIPConfig) : Fields :=
  match cfg.body with
  | some (.object _) =>
    if (headers.lookup "content-type").getD (.string "") = .string "" then
      Value.unionFields [("content-type", .string "application/json")] headers
    else headers
  | _ => headers

def buildHeaders (cfg : GeneralPIPConfig) (sub resource : Value) : Eval Fields := do
  let forwarded ← forwardedHeaders E cfg
  let explicit ← explicitHeaders E cfg sub resource
  -- all headers to set or none
  .require (explicit.length = (Dict.ofList cfg.setHeaders).entries.length)
  let base := Value.unionFields (Value.ofMembers forwarded)
    (Value.ofMembers (explicit.map fun h => (h.1, .string h.2)))
  let m2m := m2mAuthorizationHeader E base
  return addContentType (Value.unionFields base m2m) cfg

def jpEscape : Value → Option String
  | .number q => some (E.builtins.platform.regoSprint (.number q))
  | .string k =>
    some (String.ofList (k.toList.flatMap fun c =>
      if c = '~' then ['~', '0'] else if c = '/' then ['~', '1'] else [c]))
  | _ => none

def jsonPointer (path : List Value) : String :=
  String.join ((path.filterMap (jpEscape E)).map ("/" ++ ·))

def buildBody (cfg : GeneralPIPConfig) (sub resource : Value) : Eval Value :=
  .rule "build_body"
    [do
      .require (cfg.body.getD .null = .null)
      return .string "",
    do
      let raw := cfg.body.getD .null
      .require (raw ≠ .null)
      let leaves := raw.walk.filter fun node => node.2.text.isSome
      let ops ← Eval.collect do
        let leaf ← Eval.solutions leaves
        let value ← expandString E.builtins leaf.2 sub resource
        return (jsonPointer E leaf.1, value)
      .require (ops.length = leaves.length)
      .ofOption (E.builtins.jsonPatch raw ops)]

structure PipRequest where
  method : String
  url : String
  headers : Fields
  body : Value
  timeout : String

def buildPipRequest (cfg : GeneralPIPConfig) (resource sub : Value) : Eval PipRequest := do
  let url ← expandUrl E.builtins cfg.url sub resource
  let query ← expandQuery E cfg.query sub resource
  let headers ← buildHeaders E cfg sub resource
  let body ← buildBody E cfg sub resource
  return {
    method := E.builtins.platform.toUpper cfg.httpMethod
    url := withQuery url query
    headers := headers
    body := body
    timeout := toString cfg.timeoutSeconds ++ "s" }

def sendRequest (req : PipRequest) : HttpRequest where
  method := req.method
  url := req.url
  headers := Value.unionFields req.headers [("x-request-id", .string (requestIdText E))]
  body := if req.body = .string "" then none else some req.body
  timeout := req.timeout

def generalPipCall (req : PipRequest) : Eval HttpResponse := .ofOption (E.send (sendRequest E req))

/-! ## The response of a GENERAL PIP -/

def parsedBody (resp : HttpResponse) : Option Value :=
  match resp.body.getD .null with
  | .null => none
  | .string raw => E.builtins.jsonUnmarshal raw
  | raw => some raw

def coerceValue (v : Value) (coerce : Value) : Option Value :=
  match coerce, v with
  | .string "", v => some v
  | .string "string", v => (scalarToString E.builtins v).map .string
  | .string "number", .number q => some (.number q)
  | .string "bool", .bool b => some (.bool b)
  | .string "string[]", .array items =>
    (items.mapM (scalarToString E.builtins)).map fun texts => .array (texts.map .string)
  | .string "number[]", .array items =>
    if items.all fun e => e matches .number _ then some (.array items) else none
  | _, _ => none

def emptyFor (coerce : Value) : Option Value :=
  match coerce with
  | .string "string[]" | .string "number[]" | .string "" => some (.array [])
  | .string "string" => some (.string "")
  | .string "number" => some (.number 0)
  | .string "bool" => some (.bool false)
  | _ => none

def extractOrMiss (body path : Value) : Option Value := path.text.bind (jsonExtract E.builtins body)

/-- The value that is present and can be coerced: the first body of
    `apply_coerce_or_default`. -/
def coercePresent (raw : Option Value) (coerce : Value) : Option Value :=
  match raw with
  | none | some .null => none
  | some v => coerceValue E v coerce

def applyCoerceOrDefault (cfg : GeneralPIPConfig) (raw : Option Value) (coerce onMissing : Value) :
    Option Value :=
  (coercePresent E raw coerce).or
    (if onMissing = .string "defaultValue" then some (cfg.defaultValue.getD .null)
    else if onMissing = .string "empty" then emptyFor coerce
    else none)

def extractMapEntry (cfg : GeneralPIPConfig) (respCfg : ResponseConfig) (body entry : Value) :
    Option Value :=
  match entry with
  | .string path =>
    applyCoerceOrDefault E cfg (extractOrMiss E body (.string path)) (.string respCfg.coerce)
      (.string respCfg.onMissing)
  | .object fields => do
    let path ← fields.lookup "path"
    applyCoerceOrDefault E cfg (extractOrMiss E body path)
      ((fields.lookup "coerce").getD (.string respCfg.coerce))
      ((fields.lookup "onMissing").getD (.string respCfg.onMissing))
  | _ => none

def extractWithResponse (cfg : GeneralPIPConfig) (respCfg : ResponseConfig) (body : Value) :
    Eval Value :=
  let coerce := .string respCfg.coerce
  let onMissing := .string respCfg.onMissing
  match respCfg.extract.getD .null with
  | .string spec =>
    .ofOption (applyCoerceOrDefault E cfg (extractOrMiss E body (.string spec)) coerce onMissing)
  | .null => .ofOption (applyCoerceOrDefault E cfg (some body) coerce onMissing)
  | .object spec => do
    let value ← Eval.object "extract_with_response" do
      let entry ← Eval.solutions (Dict.ofList spec).entries
      let v ← .ofOption (extractMapEntry E cfg respCfg body entry.2)
      return (entry.1, v)
    return .object (Value.ofMembers value)
  | _ => .undefined

def extractResponse (cfg : GeneralPIPConfig) (body : Value) : Eval Value :=
  match cfg.response with
  | none => return body
  | some respCfg => extractWithResponse E cfg respCfg body

def onMissingOf (cfg : GeneralPIPConfig) : String := (cfg.response.map (·.onMissing)).getD ""

def coerceOf (cfg : GeneralPIPConfig) : String := (cfg.response.map (·.coerce)).getD ""

def softDefault (cfg : GeneralPIPConfig) : Option Value :=
  if onMissingOf cfg = "defaultValue" then cfg.defaultValue.filter (· ≠ .null) else none

def responseValue (cfg : GeneralPIPConfig) (resp : HttpResponse) : Eval Value :=
  Eval.orElse
    (do
      .require (resp.statusCode = 200)
      let body ← .ofOption (parsedBody E resp)
      extractResponse E cfg body)
    (.ofOption ((softDefault cfg).or
      (if onMissingOf cfg = "empty" then emptyFor (.string (coerceOf cfg)) else none)))

def generalPipValue (cfg : GeneralPIPConfig) (resource sub : Value) : Eval Value := do
  let req ← buildPipRequest E cfg resource sub
  let resp ← generalPipCall E req
  responseValue E cfg resp

/-! ## GENERAL PIPs -/

def activeGeneralPips (activation : Dict (Dict (List String))) (resourceType operation : String) :
    List String :=
  let rtObj := activation.getD resourceType ∅
  let allRtObj := activation.getD "ALL" ∅
  let exact := rtObj.getD operation []
  let rtAll := rtObj.getD "ALL" []
  let allOp := allRtObj.getD operation []
  let allAll := allRtObj.getD "ALL" []
  (exact ++ rtAll ++ allOp ++ allAll).dedup

/-- The active GENERAL PIPs with an alias. -/
def activeConfigs (resourceType operation : String) : Eval GeneralPIPConfig := do
  let name ← Eval.solutions (activeGeneralPips E.activation resourceType operation)
  let cfg ← .ofOption (E.pips.general.lookup name)
  .require (cfg.aliasName ≠ "")
  return cfg

def resolveGeneralValues (resourceType operation : String) (resource sub : Value) : Eval Fields :=
  .ruleOr "resolve_general_values" []
    [do
      let result ← Eval.object "resolve_general_values" do
        let cfg ← activeConfigs E resourceType operation
        let value ← generalPipValue E cfg resource sub
        return (cfg.aliasName, value)
      return Value.ofMembers result]

def hardFailureKind (cfg : GeneralPIPConfig) (resource sub : Value) : Eval String :=
  Eval.orElse
    (do
      Eval.negate (buildPipRequest E cfg resource sub)
      return "substitution")
    (Eval.orElse
      (do
        let req ← buildPipRequest E cfg resource sub
        let resp ← generalPipCall E req
        .require (resp.statusCode ≠ 200)
        return "http_error")
      (return "response"))

def generalPipHardFailures (resourceType operation : String) (resource sub : Value) :
    Eval Fields :=
  .ruleOr "general_pip_hard_failures" []
    [do
      let resolved ← resolveGeneralValues E resourceType operation resource sub
      let failures ← Eval.object "general_pip_hard_failures" do
        let cfg ← activeConfigs E resourceType operation
        .require (resolved.lookup cfg.aliasName).isNone
        let kind ← hardFailureKind E cfg resource sub
        return (cfg.aliasName, Value.string kind)
      return Value.ofMembers failures]

/-! ## Entitlements -/

/-- The object `{resourceType: {name: [resourceId, …]}}`.  Its keys are the JSON
    values of the response. -/
abbrev EntitlementsMap := Finmap fun _ : Value => Finmap fun _ : Value => List Value

/-- The object with the members of a comprehension. -/
def toMap {ν : Type} (members : List (Value × ν)) : Finmap fun _ : Value => ν :=
  (members.map fun m => (⟨m.1, m.2⟩ : Sigma fun _ : Value => ν)).toFinmap

/-- `object.get(v, key, "")`, undefined where it is the empty text. -/
def nonemptyField (v : Value) (key : String) : Option Value :=
  (v.objectGet key (.string "")).filter (· ≠ .string "")

/-- The items of the list under a key; a missing key counts as an empty list. -/
def itemsOf (v : Value) (key : String) : List Value :=
  ((v.objectGet key (.array [])).map Value.elements).getD []

def referenceIds (ref : Value) : List Value :=
  (itemsOf ref "resources").filterMap (nonemptyField · "resourceId")

/-- The members of `names`: the references of a block with a name. -/
def blockReferences (block : Value) : Eval (Value × List Value) := do
  let ref ← Eval.solutions (itemsOf block "references")
  let name ← .ofOption (nonemptyField ref "name")
  return (name, referenceIds ref)

def blockNames (block : Value) : Eval (Finmap fun _ : Value => List Value) := do
  let names ← Eval.object "build_entitlements_map" (blockReferences block)
  return toMap names

/-- The members of `result`: the blocks of a body with a resource type. -/
def bodyBlocks (body : Value) : Eval (Value × Finmap fun _ : Value => List Value) := do
  let block ← Eval.solutions (itemsOf body "entitlements")
  let rt ← .ofOption (nonemptyField block "resourceType")
  let names ← blockNames block
  return (rt, names)

def buildEntitlementsMap (body : Value) : Eval EntitlementsMap := do
  let result ← Eval.object "build_entitlements_map" (bodyBlocks body)
  return toMap result

def entitlementsPipConfig : Option EntitlementsPIPConfig := E.entitlements.filter (·.url ≠ "")

/-- The identifier the aggregator is asked about; undefined where it is no text. -/
def entitledUser (subjectCtx : Value) : Option String :=
  ((subjectCtx.objectGet "id" (.string "")).bind Value.text).map Identity.trimBlank

def entitlementsHttpCall (cfg : EntitlementsPIPConfig) (user : String) : Option HttpResponse :=
  E.send {
    method := "GET"
    url := cfg.url ++ "/api/v3/user-entitlements/user/" ++ user
    headers := [("Accept", .string "application/json"),
      ("x-request-id", .string (requestIdText E))]
    body := none
    timeout := toString cfg.httpTimeoutSeconds ++ "s" }

def resolveEntitlementsMap (subjectCtx : Value) : Eval EntitlementsMap :=
  .ruleOr "resolve_entitlements_map" ∅
    [do
      .require (entitlementsPipConfig E).isNone
      return ∅,
    do
      let _ ← Eval.ofOption (entitlementsPipConfig E)
      let user ← .ofOption (entitledUser subjectCtx)
      .require (user = "")
      return ∅,
    do
      let cfg ← .ofOption (entitlementsPipConfig E)
      let user ← .ofOption (entitledUser subjectCtx)
      .require (user ≠ "")
      let resp ← .ofOption (entitlementsHttpCall E cfg user)
      .require (resp.statusCode = 200)
      .require (resp.body.getD .null ≠ .null)
      buildEntitlementsMap (resp.body.getD .null),
    do
      let cfg ← .ofOption (entitlementsPipConfig E)
      let user ← .ofOption (entitledUser subjectCtx)
      .require (user ≠ "")
      let resp ← .ofOption (entitlementsHttpCall E cfg user)
      .require (resp.statusCode ≠ 200)
      return ∅]

end

end Pip

end AuthzAgent
