/-
  AuthzAgent.Token.Keys

  The signing keys of the trusted providers (config.go, fetch.go and keys.go
  of keys).  A JWKS body becomes the list of the keys that may verify a token;
  the lists of all providers, indexed by kid, are a snapshot, and a reload
  replaces the snapshot as a whole or leaves it alone.

  What the JWK library reads out of an entry is a parameter, with the two
  facts about public keys that the code relies on.  A request is its outcome,
  a body or a failure.  Log lines and the reasons that only they use are left
  out.
-/

import AuthzAgent.Lib.Checked
import AuthzAgent.Lib.Dict

namespace AuthzAgent.Token

/-! ## Providers -/

structure Provider where
  id : String
  issuer : String
  jwksURI : String
  audiences : List String
  allowMissingAud : Bool
  caFile : String
  tokenFile : String
deriving DecidableEq, Repr

def validProviderID (id : String) : Bool :=
  id.toList ≠ [] && id.toList.all fun c =>
    ('A' ≤ c && c ≤ 'Z') || ('a' ≤ c && c ≤ 'z') || ('0' ≤ c && c ≤ '9') ||
      c == '.' || c == '_' || c == '-'

section

variable (quote : String → String) (checkHTTPURL : String → Except String Unit)

def Provider.validate (p : Provider) : Except String Unit :=
  if p.id = "" then .error "id is empty"
  else if !validProviderID p.id then
    .error ("id " ++ quote p.id ++
      " has a character other than a letter, a digit, '.', '_', or '-'")
  else if p.issuer = "" ∧ p.jwksURI = "" then
    .error ("provider " ++ quote p.id ++ " sets neither issuer nor jwksUri")
  else if p.issuer ≠ "" ∧ p.jwksURI ≠ "" then
    .error ("provider " ++ quote p.id ++ " sets both issuer and jwksUri; keep one")
  else if p.tokenFile ≠ "" ∧ p.jwksURI = "" then
    .error ("provider " ++ quote p.id ++ " sets tokenFile without jwksUri; the token is sent " ++
      "only to a jwksUri the configuration names")
  else if p.allowMissingAud ∧ p.audiences = [] then
    .error ("provider " ++ quote p.id ++ " sets allowMissingAud without audiences")
  else if "" ∈ p.audiences then
    .error ("provider " ++ quote p.id ++ " lists an empty audience")
  else
    let (address, field) := if p.jwksURI ≠ "" then (p.jwksURI, "jwksUri") else (p.issuer, "issuer")
    (checkHTTPURL address).mapError fun e => "provider " ++ quote p.id ++ " " ++ field ++ ": " ++ e

/-- The loop of `Config.Validate` from an index on, with the ids seen so far. -/
def validateFrom : Nat → List String → List Provider → Except String Unit
  | _, _, [] => .ok ()
  | i, seen, p :: ps => do
    (p.validate quote checkHTTPURL).mapError fun e => "providers[" ++ toString i ++ "]: " ++ e
    if p.id ∈ seen then
      throw ("providers[" ++ toString i ++ "]: id " ++ quote p.id ++
        " is used by an earlier provider")
    else validateFrom (i + 1) (p.id :: seen) ps

def validateConfig (providers : List Provider) : Except String Unit :=
  if providers = [] then .error "no providers configured"
  else validateFrom quote checkHTTPURL 0 [] providers

/-- The ids of a valid configuration are distinct. -/
theorem nodup_of_validateFrom {ps : List Provider} {i : Nat} {seen : List String}
    (h : validateFrom quote checkHTTPURL i seen ps = .ok ()) :
    (ps.map Provider.id).Nodup ∧ ∀ p ∈ ps, p.id ∉ seen := by
  induction ps generalizing i seen with
  | nil => simp
  | cons p ps ih =>
    obtain ⟨u, -, h⟩ := Checked.bind_eq_ok.mp h
    by_cases hseen : p.id ∈ seen
    · rw [if_pos hseen] at h
      cases h
    rw [if_neg hseen] at h
    obtain ⟨hnodup, hfresh⟩ := ih h
    exact Checked.nodup_cons_of_unseen hseen hnodup hfresh

end

/-! ## Keys -/

/-- What the code takes from the JWK library, for raw entries and parsed keys. -/
structure JwkLibrary (Raw K Thumb : Type) where
  /-- `jwk.ParseKey` -/
  parseKey : Raw → Option K
  /-- `KeyID`, empty when there is none. -/
  keyID : K → String
  /-- `KeyUsage` -/
  keyUsage : K → Option String
  /-- `KeyType` -/
  keyType : K → String
  /-- `Algorithm` -/
  algorithm : K → Option String
  /-- `jwk.PublicKeyOf` -/
  publicKeyOf : K → Option K
  /-- The modulus and the exponent of a `jwk.RSAPublicKey`, `none` for any
      other key. -/
  rsaPublicKey : K → Option (Nat × Nat)
  /-- `curveOf`: the curve of an EC or OKP public key, empty for any other. -/
  curveOf : K → String
  /-- `Thumbprint(crypto.SHA256)` -/
  thumbprint : K → Option Thumb
  /-- The public key of a key is of its type. -/
  keyType_publicKeyOf : ∀ k pub, publicKeyOf k = some pub → keyType pub = keyType k
  /-- Only RSA keys are RSA public keys. -/
  keyType_rsaPublicKey : ∀ k n e, rsaPublicKey k = some (n, e) → keyType k = "RSA"

/-- A library whose keys are Ed25519 public keys, known by their kid. -/
def okpLibrary : JwkLibrary String String String where
  parseKey := some
  keyID := id
  keyUsage _ := none
  keyType _ := "OKP"
  algorithm _ := none
  publicKeyOf := some
  rsaPublicKey _ := none
  curveOf _ := "Ed25519"
  thumbprint := some
  keyType_publicKeyOf _ _ _ := rfl
  keyType_rsaPublicKey _ _ _ h := nomatch h

structure SigningKey (K : Type) where
  id : String
  jwk : K
  alg : String

structure Key (K : Type) extends SigningKey K where
  provider : Provider

def algorithmKeyType (alg : String) : Option String :=
  [("RS256", "RSA"), ("RS384", "RSA"), ("RS512", "RSA"), ("PS256", "RSA"), ("PS384", "RSA"),
    ("PS512", "RSA"), ("ES256", "EC"), ("ES384", "EC"), ("ES512", "EC"), ("EdDSA", "OKP")].lookup alg

def algorithmCurves : List (String × String) :=
  [("ES256", "P-256"), ("ES384", "P-384"), ("ES512", "P-521"), ("EdDSA", "Ed25519")]

def algorithmCurve (alg : String) : Option String := algorithmCurves.lookup alg

def acceptedCurve (curve : String) : Bool := algorithmCurves.any fun c => c.2 == curve

def acceptsAlgorithm (alg : String) : Bool := (algorithmKeyType alg).isSome

section

variable {Raw K Thumb : Type} (L : JwkLibrary Raw K Thumb)

def SigningKey.allows (k : SigningKey K) (alg : String) : Bool :=
  if k.alg ≠ "" then alg == k.alg
  else if (algorithmKeyType alg).getD "" ≠ L.keyType k.jwk then false
  else match algorithmCurve alg with
    | some curve => curve == L.curveOf k.jwk
    | none => true

/-- Whether `weakRSA` gives no reason. -/
def strongRSA (n e : Nat) : Bool := 2048 ≤ n.size && 3 ≤ e

/-- Whether `unusableKey` gives no reason. -/
def usableKey (pub : K) (alg : String) : Bool :=
  match L.rsaPublicKey pub with
  | some (n, e) => strongRSA n e
  | none => acceptedCurve (L.curveOf pub) && (algorithmCurve alg).all (· == L.curveOf pub)

/-- `signingKey`, `none` with any reason. -/
def signingKey (raw : Raw) : Option (SigningKey K) := do
  let key ← L.parseKey raw
  guard (L.keyID key ≠ "")
  guard ((L.keyUsage key).all (· == "sig"))
  guard (L.keyType key ∈ ["RSA", "EC", "OKP"])
  guard ((L.algorithm key).all fun alg => (algorithmKeyType alg).getD "" == L.keyType key)
  let alg := (L.algorithm key).getD ""
  let pub ← L.publicKeyOf key
  guard (usableKey L pub alg)
  return ⟨L.keyID key, pub, alg⟩

end

/-! ## A JWKS -/

/-- The `keys` member of a JWKS document. -/
inductive KeysMember (Raw : Type) where
  | missing
  | null
  | array (entries : List Raw)
  | other

/-- The body of a JWKS response; `none` is not a JSON object. -/
abbrev Body (Raw : Type) := Option (KeysMember Raw)

/-- The outcome of the requests of `fetch`: a body, or the reason of a
    failure. -/
abbrev Response (Raw : Type) := Except String (Body Raw)

inductive FetchError where
  | request (reason : String)
  | notJson
  | noKeysArray
  | keysNotArray
  | twoKeys (kid : String)
  | noUsableKey (skipped : Nat)
deriving DecidableEq, Repr

/-- The variables of the loop of `parseJWKS`. -/
structure ParseState (K Thumb : Type) where
  out : List (Key K)
  thumbprints : Dict Thumb
  skipped : Nat

section

variable {Raw K Thumb : Type} [DecidableEq Thumb] (L : JwkLibrary Raw K Thumb)

/-- The key of an entry with its thumbprint; `none` skips the entry. -/
def entryKey (raw : Raw) : Option (SigningKey K × Thumb) := do
  let key ← signingKey L raw
  let thumbprint ← L.thumbprint key.jwk
  return (key, thumbprint)

/-- One round of the loop of `parseJWKS`. -/
def parseEntry (p : Provider) (st : ParseState K Thumb) (raw : Raw) :
    Except FetchError (ParseState K Thumb) :=
  match entryKey L raw with
  | none => .ok { st with skipped := st.skipped + 1 }
  | some (key, thumbprint) =>
    match st.thumbprints.lookup key.id with
    | some earlier => if earlier = thumbprint then .ok st else .error (.twoKeys key.id)
    | none => .ok
        { st with
          thumbprints := st.thumbprints.insert key.id thumbprint
          out := st.out ++ [⟨key, p⟩] }

/-- The loop of `parseJWKS` and what follows it. -/
def parseEntries (p : Provider) (entries : List Raw) : Except FetchError (List (Key K)) := do
  let st ← entries.foldlM (parseEntry L p) ⟨[], ∅, 0⟩
  if st.out.isEmpty then throw (.noUsableKey st.skipped) else return st.out

def parseJWKS (p : Provider) : Body Raw → Except FetchError (List (Key K))
  | none => .error .notJson
  | some .missing => .error .noKeysArray
  | some .other => .error .keysNotArray
  | some .null => parseEntries L p []
  | some (.array entries) => parseEntries L p entries

def fetch (p : Provider) : Response Raw → Except FetchError (List (Key K))
  | .error reason => .error (.request reason)
  | .ok body => parseJWKS L p body

/-- `fetchWithRetry` with the attempts it makes before one succeeds or the time
    is up. -/
def fetchWithRetry (p : Provider) : Response Raw → List (Response Raw) →
    Except FetchError (List (Key K))
  | attempt, [] => fetch L p attempt
  | attempt, next :: more =>
    match fetch L p attempt with
    | .ok keys => .ok keys
    | .error _ => fetchWithRetry p next more

end

/-! ## The set -/

structure Snapshot (K : Type) where
  byKID : Dict (Key K)
  byProvider : Dict (List (Key K))

def Snapshot.keysOf {K : Type} (s : Snapshot K) (p : Provider) : List (Key K) :=
  Dict.getD s.byProvider p.id []

/-- The error of `newSnapshot`. -/
structure SharedKid where
  kid : String
  earlier : String
  later : String
deriving DecidableEq, Repr

inductive LoadError where
  | config (reason : String)
  | caFile (reason : String)
  | fetch (errors : List (String × FetchError))
  | sharedKid (e : SharedKid)

inductive RefreshFailure where
  | keepsPrevious (provider : String) (e : FetchError)
  | allKeepPrevious (e : SharedKid)

/-- `Set.Lookup` -/
def Snapshot.find {K : Type} (s : Snapshot K) (kid : String) : Option (Key K) :=
  s.byKID.lookup kid

def newSnapshot {K : Type} (fetchers : List Provider) (byProvider : Dict (List (Key K))) :
    Except SharedKid (Snapshot K) := do
  let published := fetchers.flatMap fun p => (Dict.getD byProvider p.id []).map (p, ·)
  let byKID ← published.foldlM
    (Dict.insertNew (fun pk => pk.2.id) (fun pk => pk.2)
      fun earlier pk => ⟨pk.2.id, earlier.provider.id, pk.1.id⟩) ∅
  return ⟨byKID, byProvider⟩

section

variable {Raw K Thumb : Type} [DecidableEq Thumb] (L : JwkLibrary Raw K Thumb)

def reload (old : List (Key K)) (p : Provider) (response : Response Raw) :
    List (Key K) × Option RefreshFailure :=
  match fetch L p response with
  | .error (.noUsableKey _) => ([], none)
  | .error e => (old, some (.keepsPrevious p.id e))
  | .ok keys => (keys, none)

def reloaded (fetchers : List Provider) (old : Snapshot K) (responses : String → Response Raw) :
    Dict (List (Key K)) :=
  Dict.ofList (fetchers.map fun p => (p.id, (reload L (old.keysOf p) p (responses p.id)).1))

/-- `Refresh`: the snapshot after it, and the failures of its error. -/
def refresh (fetchers : List Provider) (old : Snapshot K) (responses : String → Response Raw) :
    Snapshot K × List RefreshFailure :=
  let failures := fetchers.filterMap fun p => (reload L (old.keysOf p) p (responses p.id)).2
  match newSnapshot fetchers (reloaded L fetchers old responses) with
  | .error e => (old, failures ++ [.allKeepPrevious e])
  | .ok snap => (snap, failures)

/-- `Load` of a configuration, with the reason a fetcher cannot be built and the
    attempts for each provider. -/
def load (quote : String → String) (checkHTTPURL : String → Except String Unit)
    (caFileError : Provider → Option String) (providers : List Provider)
    (attempts : String → Response Raw × List (Response Raw)) : Except LoadError (Snapshot K) :=
  match validateConfig quote checkHTTPURL providers with
  | .error e => .error (.config e)
  | .ok () =>
    match providers.findSome? caFileError with
    | some reason => .error (.caFile reason)
    | none =>
      let results := providers.map fun p =>
        (p, fetchWithRetry L p (attempts p.id).1 (attempts p.id).2)
      let errors := results.filterMap fun r =>
        match r.2 with
        | .error e => some (r.1.id, e)
        | .ok _ => none
      if errors.isEmpty then
        let byProvider := Dict.ofList (results.map fun r => (r.1.id, r.2.toOption.getD []))
        (newSnapshot providers byProvider).mapError .sharedKid
      else .error (.fetch errors)

end

end AuthzAgent.Token
