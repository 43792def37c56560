/-
  AuthzAgent.Authn.Manager

  The manager of `data.authn` (authn.go).  A load reads the file of the trusted
  providers, fetches the keys of each provider, and puts the document of the
  keys by kid and of the providers by id into the store; the status that it
  records is what the health rules read.

  A load takes two reads of the file, the answers to the requests for each
  provider, and the outcome of the put.  The decoders and the hash are
  parameters.  Log lines and the time of a status are left out.
-/

import AuthzAgent.Lib.RegoValue
import AuthzAgent.Token.Keys

namespace AuthzAgent

open Token (validProviderID)
open Rego (Value)

namespace Authn

/-! ## Types -/

/-- `Provider`; `audiences` is `none` for a nil slice. -/
structure Provider where
  id : String
  issuer : String
  jwksURI : String
  audiences : Option (List String)
  required : Bool
  allowMissingAud : Bool
deriving DecidableEq, Repr

structure Document where
  providers : List Provider

inductive Result where
  | success
  | failure
deriving DecidableEq, Repr

structure ProviderResult where
  id : String
  result : Result
  required : Bool
  failureReason : String
deriving DecidableEq, Repr

/-- The modes of a manager. -/
inductive Mode where
  | strict
  | permissive
deriving DecidableEq, Repr

/-- `Status`; `configError` is empty when there is none. -/
structure Status where
  mode : Mode
  configuredCount : Nat := 0
  successCount : Nat := 0
  failureCount : Nat := 0
  configError : String := ""
  providers : List ProviderResult := []
deriving DecidableEq, Repr

/-- `candidate`; `alg` is empty when the key declares none. -/
structure Candidate where
  providerID : String
  alg : String
  kty : String
  jwksJSON : String
deriving DecidableEq, Repr

structure IndexedKey where
  kid : String
  candidate : Candidate

structure Artifacts where
  results : List ProviderResult
  jwksByKid : Dict (List Candidate)
  successCount : Nat
  failureCount : Nat

/-- A provider as `publish` writes it. -/
structure ProviderEntry where
  id : String
  audiences : Option (List String)
  required : Bool
  allowMissingAud : Bool
deriving DecidableEq, Repr

/-- The document that `publish` writes. -/
structure AuthnDocument where
  byId : Dict ProviderEntry
  jwksByKid : Dict (List Candidate)

/-- The fields of `Config` that a load reads. -/
structure Config where
  file : String
  required : Bool

def Config.mode (cfg : Config) : Mode := if cfg.required then .strict else .permissive

/-- The decoders and formats that a load uses, for file contents, bodies of
    responses and keys of a JWKS. -/
structure Library (Content Bytes Jwk : Type) where
  /-- The digest that `hashFile` prints. -/
  hash : Content → String
  /-- The JSON decoder of a `Document`, with the text of its error. -/
  decode : Content → Except String Document
  /-- The format `%q`. -/
  quote : String → String
  /-- The `jwks_uri` of a discovery document, empty when it is missing. -/
  discoveryURI : Bytes → Option String
  /-- The `keys` of a JWKS, with `none` for a nil slice. -/
  jwks : Bytes → Option (Option (List Jwk))
  /-- A field of a key, empty when it is no string. -/
  field : Jwk → String → String
  /-- The JSON text of a JWKS of one key. -/
  single : Jwk → Option String

/-- The answers to the requests for one provider. -/
structure Web (Bytes : Type) where
  discovery : String → Option Bytes
  resolveIssuer : String → Option String
  resolvedDiscovery : String → Option Bytes
  jwks : String → Option Bytes

/-- What a load meets: the file when it is hashed and when it is parsed, the
    answers for each provider, and the outcome of the put. -/
structure Attempt (Content Bytes : Type) where
  hashRead : Except String Content
  loadRead : Except String Content
  web : Nat → Web Bytes
  put : Except String Unit

/-- `Manager`, with the document in its store. -/
structure Manager where
  status : Status
  appliedHash : String
  authn : Option AuthnDocument

section

variable {Content Bytes Jwk : Type} (L : Library Content Bytes Jwk)

/-! ## The file -/

def hashFile (read : Except String Content) : Except String String := read.map L.hash

/-- The loop of `Load`, with the ids seen so far. -/
def checkIDs (path : String) : List String → List Provider → Except String Unit
  | _, [] => .ok ()
  | seen, p :: ps =>
    if p.id ∈ seen then
      .error ("trusted providers file " ++ path ++ " declares provider id " ++ L.quote p.id ++
        " more than once")
    else checkIDs path (p.id :: seen) ps

def load (path : String) (read : Except String Content) : Except String Document := do
  let raw ← read.mapError fun _ => "missing file: " ++ path
  let doc ← (L.decode raw).mapError fun e =>
    "failed to parse trusted providers file " ++ path ++ ": " ++ e
  let _ ← checkIDs L path [] doc.providers
  return doc

def Provider.validate (p : Provider) (idx : Nat) : Except String Unit :=
  if p.id = "" then .error ("provider[" ++ toString idx ++ "] is missing required field 'id'")
  else if !validProviderID p.id then
    .error ("provider[" ++ toString idx ++ "] id contains unsupported characters: " ++ p.id)
  else if p.issuer = "" ∧ p.jwksURI = "" then
    .error ("provider '" ++ p.id ++
      "' sets neither 'issuer' (discovery form) nor 'jwksUri' (explicit form)")
  else if p.issuer ≠ "" ∧ p.jwksURI ≠ "" then
    .error ("provider '" ++ p.id ++
      "' sets both 'issuer' and 'jwksUri'; use one form or the other")
  else .ok ()

/-! ## Keys of a provider -/

def indexKey (providerID : String) (key : Jwk) : Option IndexedKey :=
  if L.field key "kid" = "" then none
  else if L.field key "use" ≠ "" ∧ L.field key "use" ≠ "sig" then none
  else (L.single key).map fun single =>
    ⟨L.field key "kid", ⟨providerID, L.field key "alg", L.field key "kty", single⟩⟩

def indexKeys (providerID : String) (keys : List Jwk) : List IndexedKey × Nat :=
  (keys.filterMap (indexKey L providerID), keys.countP fun key => (indexKey L providerID key).isNone)

/-- `strings.TrimRight(s, "/")` -/
def trimSlashes (s : String) : String :=
  String.ofList (s.toList.reverse.dropWhile (· = '/')).reverse

/-- The address of the discovery document of an issuer. -/
def discoveryURL (issuer : String) : String :=
  trimSlashes issuer ++ "/.well-known/openid-configuration"

/-- The discovery document, asked for under the resolved name after it was not
    found under the written one. -/
def discoveryBody (p : Provider) (web : Web Bytes) : Option Bytes :=
  web.discovery (discoveryURL p.issuer) <|> do
    let resolved ← web.resolveIssuer p.issuer
    web.resolvedDiscovery (discoveryURL resolved)

def jwksAddress (p : Provider) (web : Web Bytes) : Except String String :=
  if p.jwksURI ≠ "" then .ok p.jwksURI
  else match discoveryBody p web with
    | none => .error ("unable to fetch OIDC discovery document for provider '" ++ p.id ++
        "' from " ++ discoveryURL p.issuer)
    | some body =>
      match L.discoveryURI body with
      | none => .error ("OIDC discovery document for provider '" ++ p.id ++ "' is not valid JSON")
      | some uri =>
        if uri = "" then
          .error ("OIDC discovery document for provider '" ++ p.id ++ "' is missing jwks_uri")
        else .ok uri

def keysOfBody (p : Provider) (body : Bytes) : Except String (List IndexedKey) :=
  match L.jwks body with
  | none => .error ("unable to validate JWKS document for provider '" ++ p.id ++ "'")
  | some none => .error ("invalid JWKS structure for provider '" ++ p.id ++ "'")
  | some (some keys) =>
    if (indexKeys L p.id keys).1.isEmpty then
      .error ("JWKS for provider '" ++ p.id ++
        "' contains no usable signing key with a kid (" ++
        toString (indexKeys L p.id keys).2 ++ " skipped)")
    else .ok (indexKeys L p.id keys).1

/-- The keys of a provider, or the reason that it has none. -/
def providerKeys (p : Provider) (idx : Nat) (web : Web Bytes) :
    Except String (List IndexedKey) := do
  let _ ← p.validate idx
  let uri ← jwksAddress L p web
  match web.jwks uri with
  | none => throw ("unable to fetch JWKS for provider '" ++ p.id ++ "' from " ++ uri)
  | some body => keysOfBody L p body

def fetchProvider (p : Provider) (idx : Nat) (web : Web Bytes) :
    ProviderResult × List IndexedKey :=
  match providerKeys L p idx web with
  | .ok keys => (⟨p.id, .success, p.required, ""⟩, keys)
  | .error reason =>
    let id := if p.id = "" then "provider-" ++ toString idx else p.id
    (⟨id, .failure, p.required, reason⟩, [])

/-! ## Loads -/

def addKey (jwksByKid : Dict (List Candidate)) (key : IndexedKey) : Dict (List Candidate) :=
  Dict.modify jwksByKid key.kid [] (· ++ [key.candidate])

/-- One round of the loop of `fetch`. -/
def Artifacts.add (out : Artifacts) (fetched : ProviderResult × List IndexedKey) : Artifacts :=
  if fetched.1.result ≠ .success then
    { out with
      results := out.results ++ [fetched.1]
      failureCount := out.failureCount + 1 }
  else
    { out with
      results := out.results ++ [fetched.1]
      successCount := out.successCount + 1
      jwksByKid := fetched.2.foldl addKey out.jwksByKid }

def Artifacts.empty : Artifacts := ⟨[], ∅, 0, 0⟩

def fetches (providers : List Provider) (web : Nat → Web Bytes) :
    List (ProviderResult × List IndexedKey) :=
  providers.zipIdx.map fun pi => fetchProvider L pi.1 pi.2 (web pi.2)

def fetch (providers : List Provider) (web : Nat → Web Bytes) : Artifacts :=
  (fetches L providers web).foldl Artifacts.add .empty

def Artifacts.status (a : Artifacts) (mode : Mode) (configured : Nat) : Status where
  mode := mode
  configuredCount := configured
  successCount := a.successCount
  failureCount := a.failureCount
  providers := a.results

def Provider.entry (p : Provider) : ProviderEntry :=
  ⟨p.id, p.audiences, p.required, p.allowMissingAud⟩

/-- The value that `publish` puts. -/
def authnDocument (doc : Document) (fetched : Artifacts) : AuthnDocument where
  byId := Dict.ofList (doc.providers.map fun p => (p.id, p.entry))
  jwksByKid := fetched.jwksByKid

/-- The document in the store after `publish`. -/
def stored (old : Option AuthnDocument) (put : Except String Unit) (value : AuthnDocument) :
    Option AuthnDocument :=
  match put with
  | .ok () => some value
  | .error _ => old

def threshold (mode : Mode) (configured : Nat) : Nat :=
  if configured = 0 then 0 else if mode = .strict then configured else 1

def missingRequired (results : List ProviderResult) : List String :=
  (results.filter fun r => r.required && r.result ≠ .success).map ProviderResult.id

/-- `Bootstrap` of a new manager, whose store has no document. -/
def bootstrap (cfg : Config) (a : Attempt Content Bytes) : Manager :=
  let hash := (hashFile L a.hashRead).toOption.getD ""
  match load L cfg.file a.loadRead with
  | .error e => ⟨{ mode := cfg.mode, configError := e }, hash, none⟩
  | .ok doc =>
    if doc.providers = [] then
      ⟨{ mode := cfg.mode }, hash, stored none a.put (authnDocument doc .empty)⟩
    else
      let fetched := fetch L doc.providers a.web
      ⟨fetched.status cfg.mode doc.providers.length, hash,
        stored none a.put (authnDocument doc fetched)⟩

/-- `Reload`: its answer, and the manager after it. -/
def reload (cfg : Config) (m : Manager) (a : Attempt Content Bytes) :
    Except String Bool × Manager :=
  match hashFile L a.hashRead with
  | .error e => (.error e, m)
  | .ok hash =>
    if hash = m.appliedHash then (.ok false, m)
    else match load L cfg.file a.loadRead with
      | .error e => (.error e, m)
      | .ok doc =>
        let configured := doc.providers.length
        let fetched := fetch L doc.providers a.web
        let required := threshold cfg.mode configured
        if fetched.successCount < required then
          (.error (toString fetched.successCount ++ " of " ++ toString configured ++
            " providers fetched, " ++ (if cfg.required then "strict" else "permissive") ++
            " mode requires " ++ toString required), m)
        else if missingRequired fetched.results ≠ [] then
          (.error ("required providers " ++
            ", ".intercalate (missingRequired fetched.results) ++ " did not bootstrap"), m)
        else match a.put with
          | .error e => (.error e, m)
          | .ok () => (.ok true,
              ⟨fetched.status cfg.mode configured, hash, some (authnDocument doc fetched)⟩)

end

/-! ## Health -/

structure Details where
  mode : Mode
  successCount : Nat
  requiredCount : Nat
  missingRequired : List String

/-- The answer of `Evaluate`. -/
structure Verdict where
  healthy : Bool
  message : String
  configError : String
  details : Option Details

def evaluate (status : Status) : Verdict :=
  if status.configError ≠ "" then
    ⟨false, "trusted providers configuration is invalid", status.configError, none⟩
  else
    let required := threshold status.mode status.configuredCount
    let missing := missingRequired status.providers
    if missing ≠ [] then
      ⟨false, "required identity providers did not bootstrap", "",
        some ⟨status.mode, status.successCount, required, missing⟩⟩
    else if status.successCount < required then
      ⟨false, "bootstrap threshold not met", "",
        some ⟨status.mode, status.successCount, required, []⟩⟩
    else ⟨true, "", "", none⟩

/-! ## The document in the store -/

/-- The members of an object, with the values of a map. -/
def fieldsOf {β : Type} (value : β → Value) (d : Dict β) : List (String × Value) :=
  d.entries.foldr (fun e fields => Value.setField e.1 (value e.2) fields) []

theorem lookup_fieldsOf {β : Type} (value : β → Value) (d : Dict β) (k : String) :
    (fieldsOf value d).lookup k = (d.lookup k).map value := by
  rw [fieldsOf, AList.lookup]
  generalize d.entries = entries
  induction entries with
  | nil => rfl
  | cons e entries ih =>
    obtain ⟨l, b⟩ := e
    rw [List.foldr_cons]
    by_cases hk : k = l
    · subst hk
      rw [Value.lookup_setField_self, List.dlookup_cons_eq]
      rfl
    · rw [Value.lookup_setField_ne hk, List.dlookup_cons_ne _ _ hk, ih]

/-- A member of an object that may be omitted. -/
def optionalField (name : String) : Option Value → List (String × Value)
  | some v => [(name, v)]
  | none => []

/-- The JSON of a `candidate`. -/
def Candidate.toValue (c : Candidate) : Value :=
  .object (optionalField "alg" (if c.alg = "" then none else some (.string c.alg)) ++
    [("jwksJson", .string c.jwksJSON), ("kty", .string c.kty), ("providerId", .string c.providerID)])

/-- The JSON of a provider as `publish` writes it. -/
def ProviderEntry.toValue (p : ProviderEntry) : Value :=
  .object (optionalField "allowMissingAud" (if p.allowMissingAud then some (.bool true) else none) ++
    optionalField "audiences" (p.audiences.map fun auds => .array (auds.map .string)) ++
    [("id", .string p.id)] ++
    optionalField "required" (if p.required then some (.bool true) else none))

/-- The value that `publish` puts under `authn`. -/
def AuthnDocument.toValue (doc : AuthnDocument) : Value :=
  .object
    [("jwksByKid", .object (fieldsOf (fun cs => .array (cs.map Candidate.toValue)) doc.jwksByKid)),
      ("trustedProviders", .object [("byId", .object (fieldsOf ProviderEntry.toValue doc.byId))])]

end Authn

end AuthzAgent
