/-
  AuthzAgent.Pips.Normalize

  The PIPs of a source become the document that pip.rego reads (types.go,
  contract.go and normalize.go of pips).  One loop files each PIP under its
  name in a map of all PIPs and in the map of its type.

  A raw JSON field is its value, `none` when it is absent or empty.  The
  members of a map of texts stand in key order, each key once.  The types of
  a PIP are texts, as in the source: a source can name any.
-/

import AuthzAgent.Platform
import AuthzAgent.Lib.Dict

namespace AuthzAgent

open GoText
open Rego (Value)

namespace Pips

/-! ## Types -/

/-- `ResponseSpec`, without the type that nothing reads. -/
structure ResponseSpec where
  extract : Option Value
  coerce : String
  onMissing : String

/-- `SimplifiedPIP`, without the description that nothing reads. -/
structure SimplifiedPIP where
  name : String
  pipType : String
  url : String
  httpMethod : String
  header : String
  claim : String
  beanName : String
  defaultValue : Option Value
  domain : String
  requestAttributes : List (String × String)
  headers : Option Value
  type : String
  jsonPath : String
  query : List (String × String)
  body : Option Value
  timeoutSeconds : Option Int
  response : Option ResponseSpec

structure NormalizedEntry where
  name : String
  aliasName : String
  pipType : String
deriving DecidableEq, Repr

structure TokenPIPConfig where
  name : String
  aliasName : String
  claim : String
  defaultValue : Option Value

structure HeaderPIPConfig where
  name : String
  aliasName : String
  header : String
  defaultValue : Option Value

structure ResponseConfig where
  extract : Option Value
  coerce : String
  onMissing : String

structure GeneralPIPConfig where
  name : String
  aliasName : String
  url : String
  httpMethod : String
  query : List (String × String)
  forwardHeaders : List String
  setHeaders : List (String × String)
  body : Option Value
  timeoutSeconds : Int
  response : Option ResponseConfig
  defaultValue : Option Value

/-- `NormalizedPIPs`; the activation index and the entitlements are added to it
    later. -/
structure NormalizedPIPs where
  byName : Dict NormalizedEntry
  aliasSet : Finset String
  token : Dict TokenPIPConfig
  header : Dict HeaderPIPConfig
  general : Dict GeneralPIPConfig

structure UploadSummary where
  total : Nat
  token : Nat
  header : Nat
  general : Nat
deriving DecidableEq, Repr

/-- `PIPDocument`; `items` is the raw part. -/
structure PIPDocument where
  items : List SimplifiedPIP
  normalized : NormalizedPIPs

/-- A panic of the Go runtime. -/
inductive Crash where
  | sliceOutOfRange
deriving DecidableEq, Repr

/-! ## Parts of a configuration -/

section

variable (P : Platform)

def resolvePipType (pip : SimplifiedPIP) : String :=
  let explicit := P.toUpper (trimSpace pip.pipType)
  let legacyType := P.toUpper (trimSpace pip.type)
  if explicit ≠ "" then explicit
  else if legacyType ≠ "" then legacyType
  else if trimSpace pip.claim ≠ "" then "TOKEN"
  else if trimSpace pip.header ≠ "" then "HEADER"
  else "GENERAL"

def clampTimeoutSeconds : Option Int → Int
  | none => 5
  | some v => if v < 1 then 1 else if v > 30 then 30 else v

/-- A JSON value decoded into a Go string, where null leaves the text empty. -/
def decodeString : Value → Option String
  | .string s => some s
  | .null => some ""
  | _ => none

/-- The result of `parseHeaders` without its error, which the caller drops:
    the names to forward and the headers to set. -/
def parseHeaders : Option Value → List String × List (String × String)
  | some (.array names) => ((names.mapM decodeString).getD [], [])
  | some (.object fields) =>
    ([], (fields.mapM fun kv => (decodeString kv.2).map (kv.1, ·)).getD [])
  | _ => ([], [])

def buildLegacyWrapperBody (attrs : List (String × String)) : Value :=
  .object
    [("filters", .null), ("id", .string "$\x7bsubject.id\x7d"),
      ("requestAttributes",
        if attrs = [] then .null else .object (attrs.map fun kv => (kv.1, .string kv.2)))]

def buildGeneralBody (item : SimplifiedPIP) (method : String) : Option Value :=
  if method ≠ "POST" then none
  else match item.body with
    | some body => some body
    | none => some (buildLegacyWrapperBody item.requestAttributes)

def buildResponseConfig (item : SimplifiedPIP) : Option ResponseConfig :=
  match item.response with
  | some r =>
    -- a null extract counts as absent
    let extract := if r.extract = some .null then none else r.extract
    if extract = none ∧ r.coerce = "" ∧ r.onMissing = "" then none
    else some ⟨extract, r.coerce, r.onMissing⟩
  | none =>
    if trimSpace item.pipType ≠ "" ∧ trimSpace item.jsonPath ≠ "" then
      some ⟨some (.string (trimSpace item.jsonPath)), "", ""⟩
    else none

def generalMethod (item : SimplifiedPIP) : String :=
  let method := P.toUpper (trimSpace item.httpMethod)
  if method = "" then "POST" else method

/-! ## The loop -/

def normalizedEntry (item : SimplifiedPIP) (aliasName : String) : NormalizedEntry :=
  ⟨item.name, aliasName, resolvePipType P item⟩

def tokenConfig (item : SimplifiedPIP) (aliasName : String) : TokenPIPConfig :=
  ⟨item.name, aliasName, trimSpace item.claim, item.defaultValue⟩

def headerConfig (item : SimplifiedPIP) (aliasName : String) : HeaderPIPConfig :=
  ⟨item.name, aliasName, trimSpace item.header, item.defaultValue⟩

def generalConfig (item : SimplifiedPIP) (aliasName : String) : GeneralPIPConfig where
  name := item.name
  aliasName := aliasName
  url := trimSpace item.url
  httpMethod := generalMethod P item
  query := item.query
  forwardHeaders := (parseHeaders item.headers).1
  setHeaders := (parseHeaders item.headers).2
  body := buildGeneralBody item (generalMethod P item)
  timeoutSeconds := clampTimeoutSeconds item.timeoutSeconds
  response := buildResponseConfig item
  defaultValue := item.defaultValue

/-- `item.Name[len("subject."):]` -/
def aliasOf (item : SimplifiedPIP) : Except Crash String :=
  match sliceFrom "subject.".utf8ByteSize item.name.toList with
  | some cs => .ok (String.ofList cs)
  | none => .error .sliceOutOfRange

/-- What a round of the loop does with the alias of its PIP. -/
def NormalizedPIPs.file (n : NormalizedPIPs) (item : SimplifiedPIP) (aliasName : String) :
    NormalizedPIPs :=
  let n := { n with
    byName := n.byName.insert item.name (normalizedEntry P item aliasName)
    aliasSet := insert aliasName n.aliasSet }
  if resolvePipType P item = "TOKEN" then
    { n with token := n.token.insert item.name (tokenConfig item aliasName) }
  else if resolvePipType P item = "HEADER" then
    { n with header := n.header.insert item.name (headerConfig item aliasName) }
  else if resolvePipType P item = "GENERAL" then
    { n with general := n.general.insert item.name (generalConfig P item aliasName) }
  else n

def NormalizedPIPs.empty : NormalizedPIPs := ⟨∅, ∅, ∅, ∅, ∅⟩

/-- One round of the loop of `NormalizeItems`. -/
def NormalizedPIPs.add (n : NormalizedPIPs) (item : SimplifiedPIP) :
    Except Crash NormalizedPIPs := do
  let aliasName ← aliasOf item
  return n.file P item aliasName

def uploadSummary (items : List SimplifiedPIP) : UploadSummary where
  total := items.length
  token := items.countP fun item => resolvePipType P item = "TOKEN"
  header := items.countP fun item => resolvePipType P item = "HEADER"
  general := items.countP fun item => resolvePipType P item = "GENERAL"

def normalizeItems (items : List SimplifiedPIP) : Except Crash (PIPDocument × UploadSummary) := do
  let normalized ← items.foldlM (NormalizedPIPs.add P) .empty
  return (⟨items, normalized⟩, uploadSummary P items)

end

end Pips

end AuthzAgent
