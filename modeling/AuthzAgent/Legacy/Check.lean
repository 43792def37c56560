/-
  AuthzAgent.Legacy.Check

  The check routes of the legacy API (legacy.go): a body becomes the resources
  of a decision, and the decision becomes the response of the route.

  A field of a body is kept as the text it is written with until it is
  needed; the empty text stands for an absent field.  What encoding/json makes
  of a text is a parameter, `Decoder`, with JSON itself as its instance.
-/

import AuthzAgent.Lib.Dict
import AuthzAgent.Lib.GoText
import AuthzAgent.Lib.JsonText

namespace AuthzAgent

open GoText
open Rego (Value)

namespace Legacy

/-- `RequestError`: the requests that are refused before any policy runs. -/
inductive RequestError where
  | badRequest
  | duplicateID
  | missing (parameter : String)
deriving DecidableEq, Repr

def RequestError.message : RequestError → String
  | .badRequest => "bad request"
  | .duplicateID => "Duplicate resource id in bulk request: resource ids must be unique"
  | .missing parameter => "Missing required parameter: " ++ parameter

/-- `Resource`: an entry of `input.resources`. -/
structure Resource where
  resourceType : Value
  operation : Value
  resource : Value
deriving DecidableEq

/-- `Entry`: the id and the operation behind a resource of bulk/operations. -/
structure Entry where
  id : String
  operation : String
deriving DecidableEq, Repr

/-! ## Decoding -/

/-- What encoding/json makes of a text; `none` is an error. -/
structure Decoder where
  /-- `json.Unmarshal` into `[]json.RawMessage`. -/
  array : String → Option (List String)
  /-- The members that `json.Unmarshal` offers to the fields of a struct, in
      order; `null` has none. -/
  object : String → Option (List (String × String))
  /-- `json.Unmarshal` into a `string`. -/
  string : String → Option String
  /-- `util.UnmarshalJSON` into `any`. -/
  value : String → Option Value

def Decoder.json : Decoder where
  array := JsonText.elements
  object := fun text => match JsonText.value text with
    | some .null => some []
    | some (.object _) => JsonText.members text
    | _ => none
  string := JsonText.string
  value := JsonText.value

/-- A field of a struct: the last member whose name is that of the field up to
    letter case. -/
def field (members : List (String × String)) (name : String) : String :=
  (((members.filter fun m => equalFold m.1 name).getLast?).map Prod.snd).getD ""

structure CheckItem where
  id : String
  type : String
  operation : String
  resource : String

/-- `operationsItem`; `v2Entry` is the same without a type. -/
structure OperationsItem where
  id : String
  type : String
  operations : String
  resource : String

structure V2Body where
  type : String
  entries : String

section Routes

variable (J : Decoder)

def decodeCheckItem (raw : String) : Option CheckItem :=
  (J.object raw).map fun m =>
    ⟨field m "id", field m "type", field m "operation", field m "resource"⟩

def decodeOperationsItem (raw : String) : Option OperationsItem :=
  (J.object raw).map fun m =>
    ⟨field m "id", field m "type", field m "operations", field m "resource"⟩

def decodeV2Body (raw : String) : Option V2Body :=
  (J.object raw).map fun m => ⟨field m "type", field m "entries"⟩

/-! ## Fields -/

def present (raw : String) : Bool := !(trimSpace raw ∈ ["", "null", "\"\""])

def value (raw : String) (fallback : Value) : Except RequestError Value :=
  if raw = "" then .ok fallback
  else match J.value raw with
    | some v => .ok v
    | none => .error .badRequest

def text (raw : String) : String :=
  let s := trimSpace raw
  if s = "" ∨ s = "null" then ""
  else if s.toList.head? = some '"' then (J.string raw).getD s
  else s

/-- A text that starts with an opening square bracket, as an array. -/
def bracketed (raw : String) : Option (List String) :=
  let trimmed := trimSpace raw
  if trimmed.toList.head? = some '[' then J.array trimmed else none

def array (body : String) : Except RequestError (List String) :=
  match bracketed J body with
  | some items => .ok items
  | none => .error .badRequest

def operations (raw : String) : Option (List String) :=
  (bracketed J raw).filter (· ≠ [])

def uniqueIDsFrom (seen : List String) : List String → Except RequestError Unit
  | [] => .ok ()
  | raw :: ids =>
    let s := trimSpace raw
    if s = "" ∨ s = "null" then uniqueIDsFrom seen ids
    else if s ∈ seen then .error .duplicateID
    else uniqueIDsFrom (s :: seen) ids

def uniqueIDs (ids : List String) : Except RequestError Unit := uniqueIDsFrom [] ids

def newResource (typ op res : String) : Except RequestError Resource := do
  let t ← value J typ (.string "")
  let o ← value J op (.string "")
  let r ← value J res (.object [])
  pure ⟨t, o, r⟩

def CheckItem.toResource (it : CheckItem) : Except RequestError Resource :=
  if present it.type = false then .error (.missing "type")
  else if present it.operation = false then .error (.missing "operation")
  else newResource J it.type it.operation it.resource

/-! ## Bodies -/

def checkResource (body : String) : Except RequestError (List Resource) :=
  if trimSpace body = "" then .error .badRequest
  else match decodeCheckItem J body with
    | none => .error .badRequest
    | some it => (it.toResource J).map ([·])

/-- One element of a check/resource/bulk body: its resource and its id. -/
def bulkItem (raw : String) : Except RequestError (Resource × String) :=
  match decodeCheckItem J raw with
  | none => .error (.missing "type")
  | some it => (it.toResource J).map fun r => (r, it.id)

def checkResourceBulk (body : String) : Except RequestError (List Resource × List String) := do
  let items ← array J body
  let parsed ← items.mapM (bulkItem J)
  uniqueIDs (parsed.map Prod.snd)
  pure (parsed.map Prod.fst, parsed.map fun p => text J p.2)

def expand (typ : String) (ops : List String) (res id : String) :
    Except RequestError (List (Resource × Entry)) :=
  ((ops.map (text J)).filter (· ≠ "")).mapM fun name =>
    (newResource J typ "" res).map fun r => ({ r with operation := .string name }, ⟨id, name⟩)

/-- The operations of one element of a bulk/operations body, whose type is
    checked already, and its id. -/
def expandItem (typ : String) (it : OperationsItem) :
    Except RequestError (List (Resource × Entry) × String) :=
  match operations J it.operations with
  | none => .error (.missing "operations")
  | some ops => (expand J typ ops it.resource (text J it.id)).map fun pairs => (pairs, it.id)

/-- One element of a v1 bulk/operations body. -/
def operationsItem (raw : String) : Except RequestError (List (Resource × Entry) × String) :=
  match decodeOperationsItem J raw with
  | none => .error (.missing "type")
  | some it =>
    if present it.type = false then .error (.missing "type") else expandItem J it.type it

/-- One element of the entries of a v2 bulk/operations body. -/
def v2Entry (typ raw : String) : Except RequestError (List (Resource × Entry) × String) :=
  match decodeOperationsItem J raw with
  | none => .error (.missing "operations")
  | some it => expandItem J typ it

/-- The loop over the elements of a bulk/operations body. -/
def collect (item : String → Except RequestError (List (Resource × Entry) × String))
    (items : List String) : Except RequestError (List Resource × List Entry) := do
  let parsed ← items.mapM item
  uniqueIDs (parsed.map Prod.snd)
  let pairs := parsed.flatMap Prod.fst
  pure (pairs.map Prod.fst, pairs.map Prod.snd)

def checkResourceBulkOperations (body : String) :
    Except RequestError (List Resource × List Entry) := do
  let items ← array J body
  collect (operationsItem J) items

def checkResourceBulkOperationsV2 (body : String) :
    Except RequestError (List Resource × List Entry) :=
  if trimSpace body = "" then .error .badRequest
  else match decodeV2Body J body with
    | none => .error .badRequest
    | some b =>
      if present b.type = false then .error (.missing "type")
      else if b.entries = "" then .error (.missing "entries")
      else do
        let items ← array J b.entries
        collect (v2Entry J b.type) items

end Routes

/-! ## Responses -/

def results : Value → List Value
  | .object fields => match fields.lookup "results" with
      | some (.array list) => list
      | _ => []
  | _ => []

def allowed : Value → Bool
  | .object fields => decide (fields.lookup "isAllowed" = some (.bool true))
  | _ => false

def checkResourceBulkResponse (result : Value) (ids : List String) : List String :=
  (ids.zip (results result)).filterMap fun p =>
    if p.1 ≠ "" ∧ allowed p.2 = true then some p.1 else none

/-- One round of the second loop of `CheckResourceBulkOperationsResponse`. -/
def addAllowed (byOperation : Dict (List String)) (p : Entry × Value) : Dict (List String) :=
  if p.1.id ≠ "" ∧ allowed p.2 = true then
    Dict.modify byOperation p.1.operation [] (· ++ [p.1.id])
  else byOperation

/-- The map that `CheckResourceBulkOperationsResponse` builds. -/
def byOperation (result : Value) (entries : List Entry) : Dict (List String) :=
  (entries.zip (results result)).foldl addAllowed
    (entries.foldl (fun m e => m.insert e.operation []) ∅)

/-- `CheckResourceBulkOperationsResponse`: the map with its keys in order,
    which v2 wraps. -/
def checkResourceBulkOperationsResponse (result : Value) (entries : List Entry) (v2 : Bool) :
    Value :=
  let m := byOperation result entries
  let object := Value.object ((sortedSet m.keys).map fun op =>
    (op, .array ((Dict.getD m op []).map .string)))
  if v2 then .object [("decision", object)] else object

end Legacy

end AuthzAgent
