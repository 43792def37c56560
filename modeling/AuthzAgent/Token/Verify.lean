/-
  AuthzAgent.Token.Verify

  The verifier of tokens (verify.go, claims.go and cache.go of verify).  A
  token is checked against the key that its header names, then its audience
  and its times; a verified token is kept in a cache by its digest.

  A time is the number of nanoseconds since the epoch.  The codecs, the hash,
  the signature check and the formats of details are parameters, and so is the
  key source of a call, which finds the same keys all through the call.
-/

import AuthzAgent.Lib.GoText
import AuthzAgent.Lib.Lru
import AuthzAgent.Token.Keys

namespace AuthzAgent

open GoText
open Token

namespace Verify

/-! ## Types -/

inductive Code where
  | formatInvalid
  | algNotAllowed
  | kidMissing
  | kidUnknown
  | signatureInvalid
  | expMissing
  | expired
  | notYetValid
  | iatMissing
  | iatInvalid
  | audienceMissing
  | audienceInvalid
  | namespaceNotAllowed
deriving DecidableEq, Repr

structure Error where
  code : Code
  detail : String
deriving DecidableEq, Repr

/-- What `decode` makes of a claim; an item of an array that is no string is
    `none`. -/
inductive ClaimValue where
  | number (text : String)
  | string (s : String)
  | array (items : List (Option String))
  | other

/-- The library functions that the verifier calls, for keys, byte strings and
    digests. -/
structure JwtLibrary (K Bytes Digest : Type) where
  /-- `sha256.Sum256` -/
  sha256 : String → Digest
  /-- `base64.RawURLEncoding.DecodeString`, with the text of its error. -/
  base64url : String → Except String Bytes
  /-- `json.Unmarshal` into a map of raw messages; `none` for a nil map. -/
  object : Bytes → Option (Dict Bytes)
  /-- The first value of a `json.Decoder` in a map of raw messages, and whether
      the input ends after it. -/
  leadingObject : Bytes → Option (Dict Bytes × Bool)
  /-- `json.Unmarshal` into a string, which null leaves empty. -/
  string : Bytes → Option String
  /-- `decode` -/
  decode : Bytes → ClaimValue
  /-- `json.Number.Float64`, `none` out of range. -/
  float64 : String → Option Rat
  /-- The `float64` nearest to a number. -/
  roundFloat : Rat → Rat
  /-- `jws.Verify` of a token with an algorithm and a key: the payload. -/
  jwsVerify : String → String → K → Option Bytes
  /-- The format `%q`. -/
  quote : List UInt8 → String
  /-- A time in the format `time.RFC3339`. -/
  rfc3339 : Int → String

structure Standard (Bytes : Type) where
  subject : Option Bytes
  preferredUsername : Option Bytes
  roles : Option Bytes
  scope : Option Bytes
  level : Option Bytes
  tenantID : Option Bytes

structure Token (K Bytes : Type) where
  raw : String
  payload : Bytes
  claims : Dict Bytes
  standard : Standard Bytes
  providerID : String
  keyID : String
  issuer : String
  expiry : Int
  key : K

/-- `KeyFinder`: its `Lookup` at one moment. -/
abbrev KeyFinder (K : Type) := String → Option (Key K)

section

variable {Raw K Thumb Bytes Digest : Type} (L : JwkLibrary Raw K Thumb)
  (J : JwtLibrary K Bytes Digest)

/-! ## Details -/

/-- The bytes of a string. -/
def utf8 (s : String) : List UInt8 := s.toUTF8.toList

def short (s : String) : String :=
  if 64 < (utf8 s).length then J.quote ((utf8 s).take 64) ++ "..." else J.quote (utf8 s)

def shortList (values : List String) : String :=
  let list := "[" ++ " ".intercalate ((values.take 3).map (short J)) ++ "]"
  if 3 < values.length then list ++ " and " ++ toString (values.length - 3) ++ " more" else list

/-- The format `%q` of a list. -/
def quoteList (values : List String) : String :=
  "[" ++ " ".intercalate (values.map fun v => J.quote (utf8 v)) ++ "]"

/-! ## The header -/

def headerString (header : Dict Bytes) (name : String) : Option String :=
  match header.lookup name with
  | none => some ""
  | some raw => J.string raw

def readParameters (header : Dict Bytes) : Except Error (String × String) :=
  match headerString J header "alg", headerString J header "kid" with
  | none, _ => .error ⟨.formatInvalid, "header alg is not a string"⟩
  | _, none => .error ⟨.formatInvalid, "header kid is not a string"⟩
  | some alg, some kid =>
    if "crit" ∈ header then
      .error ⟨.formatInvalid, "header has a crit parameter, and no extension is supported"⟩
    else if "b64" ∈ header then
      .error ⟨.formatInvalid, "header has a b64 parameter, and only the default payload " ++
        "encoding is supported"⟩
    else if !acceptsAlgorithm alg then
      .error ⟨.algNotAllowed, "alg " ++ short J alg ++ " is not an accepted signature algorithm"⟩
    else if kid = "" then .error ⟨.kidMissing, "header has no kid"⟩
    else .ok (alg, kid)

/-- A part of a token, decoded. -/
def decodePart (name part : String) : Except Error Bytes :=
  (J.base64url part).mapError fun e => ⟨.formatInvalid, name ++ " is not base64url: " ++ e⟩

def readHeader (raw : String) : Except Error (String × String) :=
  match split '.' raw with
  | [header, payload, signature] => do
    let header ← decodePart J "header" header
    let _ ← decodePart J "payload" payload
    let _ ← decodePart J "signature" signature
    match J.object header with
    | none => throw ⟨.formatInvalid, "header is not a JSON object"⟩
    | some header => readParameters J header
  | parts => .error ⟨.formatInvalid, "a compact JWS has 3 parts separated by dots, the token has " ++
      toString parts.length⟩

/-! ## Claims -/

def decodeClaims (payload : Bytes) : Except Error (Dict Bytes) :=
  match J.leadingObject payload with
  | none => .error ⟨.formatInvalid, "payload is not a JSON object"⟩
  | some (_, false) => .error ⟨.formatInvalid, "payload has data after the JSON object"⟩
  | some (claims, true) => .ok claims

def standardOf (claims : Dict Bytes) : Standard Bytes where
  subject := claims.lookup "sub"
  preferredUsername := claims.lookup "preferred_username"
  roles := do
    let realmAccess ← J.object (← claims.lookup "realm_access")
    realmAccess.lookup "roles"
  scope := claims.lookup "scope"
  level := claims.lookup "level"
  tenantID := claims.lookup "tenant-id"

def stringClaim (claims : Dict Bytes) (name : String) : String :=
  ((claims.lookup name).bind J.string).getD ""

def maxNumericDate : Nat := 2 ^ 53 - 1

/-- Whether a number of seconds is within the bounds. -/
def inNumericRange (seconds : Rat) : Bool :=
  -(maxNumericDate : Rat) ≤ seconds && seconds ≤ maxNumericDate

/-- The conversion of a `float64` to an `int64`. -/
def truncate (q : Rat) : Int := q.num.tdiv q.den

/-- The time at a number of seconds since the epoch. -/
def timeAt (seconds : Rat) : Int :=
  truncate seconds * 10 ^ 9 + truncate (J.roundFloat ((seconds - truncate seconds) * 10 ^ 9))

def numericDate (claims : Dict Bytes) (name : String) : Except Error (Option Int) :=
  match claims.lookup name with
  | none => .ok none
  | some raw =>
    match J.decode raw with
    | .number text =>
      match (J.float64 text).filter inNumericRange with
      | some seconds => .ok (some (timeAt J seconds))
      | none => .error ⟨.formatInvalid, "claim " ++ name ++ " is " ++ short J text ++
          ", outside ±" ++ toString maxNumericDate ++ " seconds"⟩
    | _ => .error ⟨.formatInvalid, "claim " ++ name ++ " is not a number"⟩

/-- The part of `checkTimes` that reads `exp`. -/
def checkExp (claims : Dict Bytes) (now leeway : Int) : Except Error Int := do
  match ← numericDate J claims "exp" with
  | none => throw ⟨.expMissing, "token has no exp claim"⟩
  | some exp =>
    if now < exp + leeway then return exp
    else throw ⟨.expired, "token expired at " ++ J.rfc3339 exp⟩

/-- The part of `checkTimes` that reads `nbf`. -/
def checkNbf (claims : Dict Bytes) (now leeway : Int) : Except Error Unit := do
  match ← numericDate J claims "nbf" with
  | none => return ()
  | some nbf =>
    if now < nbf - leeway then
      throw ⟨.notYetValid, "token is not valid before " ++ J.rfc3339 nbf⟩
    else return ()

/-- The part of `checkTimes` that reads `iat`. -/
def checkIat (claims : Dict Bytes) (now leeway : Int) : Except Error Unit := do
  match ← numericDate J claims "iat" with
  | none => throw ⟨.iatMissing, "token has no iat claim"⟩
  | some iat =>
    if now + leeway < iat then
      throw ⟨.iatInvalid, "token was issued at " ++ J.rfc3339 iat ++ ", in the future"⟩
    else return ()

def checkTimes (claims : Dict Bytes) (now leeway : Int) : Except Error Int := do
  let exp ← checkExp J claims now leeway
  let _ ← checkNbf J claims now leeway
  let _ ← checkIat J claims now leeway
  return exp

def audiencesOf : ClaimValue → Except Error (List String)
  | .string s => .ok [s]
  | .array items =>
    if items.all (·.isSome) then .ok (items.filterMap id)
    else .error ⟨.audienceInvalid, "aud holds a value that is not a string"⟩
  | _ => .error ⟨.audienceInvalid, "aud is neither a string nor an array of strings"⟩

def checkAudience (claims : Dict Bytes) (p : Provider) : Except Error Unit :=
  if p.audiences = [] then .ok ()
  else match claims.lookup "aud" with
    | none =>
      if p.allowMissingAud then .ok ()
      else .error ⟨.audienceMissing, "token has no aud claim, and provider " ++
        J.quote (utf8 p.id) ++ " requires one of " ++ quoteList J p.audiences⟩
    | some raw => do
      let audiences ← audiencesOf (J.decode raw)
      if audiences.any (· ∈ p.audiences) then return ()
      else throw ⟨.audienceInvalid, "aud " ++ shortList J audiences ++ " names none of " ++
        quoteList J p.audiences ++ ", the audiences of provider " ++ J.quote (utf8 p.id)⟩

/-! ## The verifier -/

/-- `Options`; `admission` is `Admit`, and also takes the moment of the call. -/
structure Options (K Bytes : Type) where
  leeway : Int
  cacheSize : Int
  admission : Option (Token K Bytes → Int → Option Error)

def defaultLeeway : Int := 30 * 10 ^ 9

def defaultCacheSize : Int := 10000

def Options.withDefaults (o : Options K Bytes) : Options K Bytes :=
  { o with
    leeway := if o.leeway ≤ 0 then defaultLeeway else o.leeway
    cacheSize := if o.cacheSize = 0 then defaultCacheSize else o.cacheSize }

/-- `Verifier`, apart from its key source. -/
structure Verifier (K Bytes Digest : Type) where
  opts : Options K Bytes
  cache : Option (Lru Digest (Token K Bytes) opts.cacheSize.toNat)

def new (Digest : Type) (opts : Options K Bytes) : Verifier K Bytes Digest where
  opts := opts.withDefaults
  cache := if 0 < opts.withDefaults.cacheSize then some (Lru.empty _ _ _) else none

/-- The token that `check` builds. -/
def tokenOf (raw kid : String) (key : Key K) (payload : Bytes) (claims : Dict Bytes)
    (expiry : Int) : Token K Bytes where
  raw := raw
  payload := payload
  claims := claims
  standard := standardOf J claims
  providerID := key.provider.id
  keyID := kid
  issuer := stringClaim J claims "iss"
  expiry := expiry
  key := key.jwk

/-- `check` up to the cache. -/
def checkToken (keys : KeyFinder K) (leeway : Int) (raw : String) (now : Int) :
    Except Error (Token K Bytes) := do
  let (alg, kid) ← readHeader J raw
  match keys kid with
  | none => throw ⟨.kidUnknown, "kid " ++ short J kid ++ " is published by no trusted provider"⟩
  | some key =>
    if !key.allows L alg then
      throw ⟨.algNotAllowed, "key " ++ short J kid ++ " of provider " ++
        J.quote (utf8 key.provider.id) ++ " does not accept " ++ alg⟩
    else match J.jwsVerify raw alg key.jwk with
      | none => throw ⟨.signatureInvalid, "signature does not verify with key " ++ short J kid ++
          " of provider " ++ J.quote (utf8 key.provider.id)⟩
      | some payload => do
        let claims ← decodeClaims J payload
        let _ ← checkAudience J claims key.provider
        let expiry ← checkTimes J claims now leeway
        return tokenOf J raw kid key payload claims expiry

variable [DecidableEq Digest]

def cacheGet {size : Nat} (c : Lru Digest (Token K Bytes) size) (digest : Digest)
    (now leeway : Int) : Option (Token K Bytes) × Lru Digest (Token K Bytes) size :=
  match (c.get digest).1 with
  | none => (none, (c.get digest).2)
  | some tok =>
    if now < tok.expiry + leeway then (some tok, (c.get digest).2)
    else (none, (c.get digest).2.remove digest)

def cached [DecidableEq K] (v : Verifier K Bytes Digest) (keys : KeyFinder K) (digest : Digest)
    (now : Int) : Option (Token K Bytes) × Verifier K Bytes Digest :=
  match v.cache with
  | none => (none, v)
  | some c =>
    let found := cacheGet c digest now v.opts.leeway
    let served := found.1.filter fun tok => (keys tok.keyID).any fun key => key.jwk = tok.key
    (served, { v with cache := some found.2 })

def check (v : Verifier K Bytes Digest) (keys : KeyFinder K) (raw : String) (digest : Digest)
    (now : Int) : Except Error (Token K Bytes) × Verifier K Bytes Digest :=
  match checkToken L J keys v.opts.leeway raw now with
  | .error e => (.error e, v)
  | .ok tok => (.ok tok, { v with cache := v.cache.map fun c => c.add digest tok })

/-- The end of `Verify`: what `Admit` makes of a token. -/
def afterAdmission (opts : Options K Bytes) (now : Int) (tok : Token K Bytes) :
    Except Error (Token K Bytes) :=
  match opts.admission.bind fun admission => admission tok now with
  | some e => .error e
  | none => .ok tok

/-- A call of `Verify`: its clock, its key source and its token. -/
structure Call (K : Type) where
  now : Int
  keys : KeyFinder K
  raw : String

variable [DecidableEq K]

def verify (v : Verifier K Bytes Digest) (call : Call K) :
    Except Error (Token K Bytes) × Verifier K Bytes Digest :=
  let digest := J.sha256 call.raw
  match cached v call.keys digest call.now with
  | (some tok, v) => (afterAdmission v.opts call.now tok, v)
  | (none, v) =>
    match check L J v call.keys call.raw digest call.now with
    | (.ok tok, v) => (afterAdmission v.opts call.now tok, v)
    | (.error e, v) => (.error e, v)

/-- The outcomes of calls, one after the other. -/
def outcomes (v : Verifier K Bytes Digest) : List (Call K) → List (Except Error (Token K Bytes))
  | [] => []
  | call :: calls => (verify L J v call).1 :: outcomes (verify L J v call).2 calls

end

end Verify

end AuthzAgent
