/-
  AuthzAgent.Identity.Rules

  identity.rego: from the credentials of a request to an authenticated subject
  or the reason of a refusal.

  A function with several bodies that could differ is a `rule` of its bodies.
  A function whose bodies test one operand for different types, or all have the
  value true, is an ordinary function; it is undefined where it gives `none`.
  The JWT builtins of OPA and the clock are parameters.
-/

import AuthzAgent.Lib.Rules
import AuthzAgent.Platform
import AuthzAgent.Authn.Manager

namespace AuthzAgent

open Rego (Value Eval)

namespace Identity

/-- The members of `input` that identity.rego reads; `none` is an absent one. -/
structure Credentials where
  authorizationToken : Option Value
  subject : Option Value
  authorizationType : Option Value
  authType : Option Value

/-! ## Builtins -/

/-- The JWT builtins of OPA.  `io.jwt.decode_verify` checks the signature and
    the times of a token with a certificate, and its audience. -/
structure Jwt where
  /-- The header and the payload that `io.jwt.decode` finds. -/
  decode : String → Option (Value × Value)
  /-- The header and the payload of a token with a valid signature and times. -/
  verified : String → Value → Option (Value × Value)
  /-- Whether a token meets the constraint on its audience, or the lack of one. -/
  audienceOk : String → Option Value → Bool

/-- `io.jwt.decode_verify(token, {"cert": cert, "aud": aud})`, where it accepts
    the token. -/
def Jwt.decodeVerify (J : Jwt) (token : String) (cert : Value) (aud : Option Value) :
    Option (Value × Value) :=
  if J.audienceOk token aud then J.verified token cert else none

/-- What the rules read beside their input. -/
structure Env where
  platform : Platform
  jwt : Jwt
  /-- `time.now_ns() / 1000000000` -/
  now : Rat
  /-- `data.authn` -/
  authn : Option Value

/-- Whether an expression holds: it is defined and not false. -/
def truthy : Option Value → Bool
  | none => false
  | some (.bool false) => false
  | some _ => true

/-- `v[k]` -/
def index : Value → Value → Option Value
  | .object fields, .string k => fields.lookup k
  | .array items, .number q => if q.den = 1 ∧ 0 ≤ q then items[q.num.toNat]? else none
  | _, _ => none

/-- `" \t\r\n"` -/
def isBlank (c : Char) : Bool := c == ' ' || c == '\t' || c == '\r' || c == '\n'

/-- `trim(s, " \t\r\n")` -/
def trimBlank (s : String) : String :=
  String.ofList ((s.toList.dropWhile isBlank).rdropWhile isBlank)

section

variable (E : Env)

/-- `upper(v)` -/
def upper : Value → Option String
  | .string s => some (E.platform.toUpper s)
  | _ => none

/-- `lower(v)` -/
def lower : Value → Option String
  | .string s => some (E.platform.toLower s)
  | _ => none

/-! ## Tokens -/

/-- The scheme of a Bearer token, after `lower`. -/
def bearer : List Char := "bearer ".toList

/-- `startswith(lower(subject), "bearer ")` -/
def hasBearer (subject : String) : Bool :=
  bearer.isPrefixOf (E.platform.toLower subject).toList

def bearerToken : Value → String
  | .string subject =>
    if 7 < subject.toList.length && hasBearer E subject then
      String.ofList (subject.toList.drop 7)
    else ""
  | _ => ""

def isEmptyTokenInput : Value → Bool
  | .string s => trimBlank s = ""
  | _ => false

def isNonBearerScheme : Value → Bool
  | .string s => trimBlank s ≠ "" && !hasBearer E s
  | _ => false

def decodedToken (token : String) : Value × Value :=
  (E.jwt.decode token).getD (.object [], .object [])

def canDecodeJwt (token : String) : Bool :=
  match decodedToken E token with
  | (.object header, .object _) => !header.isEmpty
  | _ => false

def algKeyType (alg : String) : Option String :=
  [("RS256", "RSA"), ("RS384", "RSA"), ("RS512", "RSA"), ("PS256", "RSA"), ("PS384", "RSA"),
    ("PS512", "RSA"), ("ES256", "EC"), ("ES384", "EC"), ("ES512", "EC"), ("EDDSA", "OKP")].lookup alg

/-- `upper(object.get(header, "alg", ""))` -/
def algOf (v : Value) : Option String := (v.objectGet "alg" (.string "")).bind (upper E)

/-- `asymmetric_alg(upper(object.get(header, "alg", "")))` -/
def asymmetricAlg (header : Value) : Bool := ((algOf E header).bind algKeyType).isSome

/-- `object.get(header, "kid", "")` -/
def kidOf (header : Value) : Option Value := header.objectGet "kid" (.string "")

/-! ## Keys -/

def authnData : Value := if truthy E.authn then E.authn.getD (.object []) else .object []

def verifiedTokenEntries : Value :=
  if truthy ((authnData E).field "verifiedTokens") then
    ((authnData E).field "verifiedTokens").getD (.object [])
  else .object []

def kidCandidates (kid : Value) : Value :=
  if kid ≠ .string "" then
    (((authnData E).field "jwksByKid").bind (index · kid)).getD (.array [])
  else .array []

def providerById (id : Value) : Option Value := do
  let providers ← (authnData E).field "trustedProviders"
  let byId ← providers.field "byId"
  index byId id

def candidateAlgMatches (candidate : Value) (alg : String) : Bool :=
  match algOf E candidate with
  | none => false
  | some declared =>
    if declared ≠ "" then declared == alg
    else match algKeyType alg, (candidate.objectGet "kty" (.string "")).bind (upper E) with
      | some keyType, some kty => keyType == kty
      | _, _ => false

def providerAudiences (provider : Value) : List Value :=
  (((provider.field "audiences").map Value.elements).getD []).filter (· ≠ .string "")

def audList : Value → List Value
  | .string s => if s ≠ "" then [.string s] else []
  | .array items => items.filter (· ≠ .string "")
  | _ => []

def verifyWithProviderConstraints (token : String) (cert provider payload : Value) :
    Eval (Option (Value × Value)) :=
  Eval.ruleOr "verify_with_provider_constraints" none
    [ do
        Eval.require (providerAudiences provider ≠ [])
        Eval.require (truthy (payload.field "aud"))
        let audience ← Eval.solutions (providerAudiences provider)
        let decoded ← Eval.ofOption (E.jwt.decodeVerify token cert (some audience))
        return some decoded,
      do
        Eval.require (providerAudiences provider ≠ [])
        Eval.require !truthy (payload.field "aud")
        Eval.require (provider.field "allowMissingAud" = some (.bool true))
        let decoded ← Eval.ofOption (E.jwt.decodeVerify token cert none)
        return some decoded,
      do
        Eval.require (providerAudiences provider = [])
        let aud ← Eval.ofOption (payload.field "aud")
        let first ← Eval.ofOption (audList aud).head?
        let decoded ← Eval.ofOption (E.jwt.decodeVerify token cert (some first))
        return some decoded,
      do
        Eval.require (providerAudiences provider = [])
        Eval.require !truthy (payload.field "aud")
        let decoded ← Eval.ofOption (E.jwt.decodeVerify token cert none)
        return some decoded ]

/-- An outcome that `successful_verifications` collects. -/
structure Outcome where
  header : Value
  payload : Value
  providerId : Value
deriving DecidableEq

/-- A round of the comprehension of `successful_verifications`. -/
def tryCandidate (token : String) (header payload candidate : Value) : Eval Outcome := do
  let alg ← Eval.ofOption (algOf E header)
  Eval.require (candidateAlgMatches E candidate alg)
  let providerId ← Eval.ofOption (candidate.field "providerId")
  let provider ← Eval.ofOption (providerById E providerId)
  let cert ← Eval.ofOption (candidate.field "jwksJson")
  let result ← verifyWithProviderConstraints E token cert provider payload
  let decoded ← Eval.ofOption result
  return ⟨decoded.1, decoded.2, providerId⟩

def successfulVerifications (token : String) (header payload : Value) : Eval (List Outcome) :=
  Eval.collect do
    let kid ← Eval.ofOption (kidOf header)
    let candidate ← Eval.solutions (kidCandidates E kid).elements
    tryCandidate E token header payload candidate

/-- The result of `verify_token`; `subject` is absent on the cold path. -/
inductive Verification where
  | invalid
  | valid (header payload providerId : Value) (subject : Option Value)
deriving DecidableEq

def verifyToken (token : String) : Eval Verification :=
  Eval.ruleOr "verify_token" .invalid
    [ do
        let cached ← Eval.ofOption (index (verifiedTokenEntries E) (.string token))
        let header ← Eval.ofOption (cached.objectGet "header" (.object []))
        let payload ← Eval.ofOption (cached.objectGet "payload" (.object []))
        let providerId ← Eval.ofOption (cached.objectGet "providerId" (.string ""))
        let subject ← Eval.ofOption (cached.objectGet "subject" (.object []))
        return .valid header payload (.string (E.platform.regoSprint providerId)) (some subject),
      do
        Eval.require !truthy (index (verifiedTokenEntries E) (.string token))
        let decoded := decodedToken E token
        Eval.require (asymmetricAlg E decoded.1)
        let results ← successfulVerifications E token decoded.1 decoded.2
        let verified ← Eval.ofOption results.head?
        return .valid verified.header verified.payload verified.providerId none ]

/-! ## Subjects -/

def subjectType (payload : Value) : String :=
  match (payload.field "level").bind (lower E) with
  | some level => if level = "m2m" ∨ level = "external" then "SERVICE" else "USER"
  | none => "USER"

def payloadRoles (payload : Value) : List Value :=
  let roles := (((payload.field "realm_access").bind (·.field "roles")).map Value.elements).getD []
  Value.sortSet ((roles.filter (· ≠ .string "")).filterMap fun role => (upper E role).map .string)

/-- The words of a text, without the blanks around them. -/
def scopeWords : Value → List Value
  | .string s => ((GoText.split ' ' s).map trimBlank).filterMap fun word =>
    if word ≠ "" then some (.string word) else none
  | _ => []

/-- The items of `scp` when it is an array. -/
def scopeItems : Value → List Value
  | .array items => items.filterMap fun
      | .string s => if trimBlank s ≠ "" then some (.string (trimBlank s)) else none
      | _ => none
  | _ => []

def payloadScopes (payload : Value) : List Value :=
  let scope := ((payload.field "scope").map scopeWords).getD []
  let scp := ((payload.field "scp").map fun v => scopeItems v ++ scopeWords v).getD []
  Value.sortSet (scope ++ scp)

def subjectFromPayload (payload : Value) : Value :=
  .object
    [("id", (payload.field "sub").getD (.string "")),
      ("name", if truthy (payload.field "preferred_username") then
        (payload.field "preferred_username").getD (.string "") else .string ""),
      ("roles", .array (payloadRoles E payload)),
      ("scopes", .array (payloadScopes payload)),
      ("type", .string (subjectType E payload))]

def canonicalSubject (fields : List (String × Value)) : Value :=
  .object
    [("id", (fields.lookup "id").getD (.string "")),
      ("name", (fields.lookup "name").getD (.string "")),
      ("roles", (fields.lookup "roles").getD (.array [])),
      ("scopes", (fields.lookup "scopes").getD (.array [])),
      ("type", (fields.lookup "type").getD (.string "USER"))]

def Verification.payload? : Verification → Option Value
  | .invalid => none
  | .valid _ payload _ _ => some payload

def Verification.subject? : Verification → Option Value
  | .invalid => none
  | .valid _ _ _ subject => subject

/-- The members of an object. -/
def members : Value → Option (List (String × Value))
  | .object fields => some fields
  | _ => none

def subjectFromVerification (verification : Verification) : Eval Value :=
  Eval.rule "subject_from_verification"
    [ do
        let cached ← Eval.ofOption (members (verification.subject?.getD (.object [])))
        Eval.require (cached ≠ [])
        return canonicalSubject cached,
      do
        let cached ← Eval.ofOption (members (verification.subject?.getD (.object [])))
        Eval.require (cached = [])
        return subjectFromPayload E (verification.payload?.getD (.object [])),
      do
        Eval.require !truthy verification.subject?
        let payload ← Eval.ofOption verification.payload?
        return subjectFromPayload E payload ]

def anonymousSubject : Value :=
  .object
    [("id", .string ""), ("name", .string ""), ("roles", .array []), ("scopes", .array []),
      ("type", .string "ANONYMOUS")]

/-! ## Reasons -/

structure TokenError where
  priority : Nat
  reasonCode : String
  reason : String
deriving DecidableEq, Repr

/-- A time claim, when it is a number. -/
def timeClaim (payload : Value) (name : String) : Option Rat :=
  match payload.field name with
  | some (.number q) => some q
  | _ => none

def expInPast (payload : Value) : Bool := (timeClaim payload "exp").any (· < E.now)

def nbfInFuture (payload : Value) : Bool := (timeClaim payload "nbf").any (E.now < ·)

def iatInFuture (payload : Value) : Bool := (timeClaim payload "iat").any (E.now + 300 < ·)

def audMatch (tokenAuds providerAuds : List Value) : Bool :=
  tokenAuds.any fun t => providerAuds.any fun p =>
    match lower E t, lower E p with
    | some t, some p => t == p
    | _, _ => false

def candidateProviders (header : Value) : List Value :=
  ((kidOf header).map fun kid => (kidCandidates E kid).elements).getD [] |>.filterMap fun candidate =>
    (candidate.field "providerId").bind (providerById E)

def matchingCandidates (header : Value) : List Value :=
  match header.field "kid", algOf E header with
  | some kid, some alg => (kidCandidates E kid).elements.filter (candidateAlgMatches E · alg)
  | _, _ => []

def errorIf (condition : Bool) (priority : Nat) (reasonCode reason : String) : List TokenError :=
  if condition then [⟨priority, reasonCode, reason⟩] else []

def collectTokenErrors (raw header payload : Value) (verification : Verification) :
    List TokenError :=
  let kid := kidOf header
  let candidates := kid.map fun kid => kidCandidates E kid
  errorIf (isEmptyTokenInput raw) 10 "TOKEN_MISSING" "Authorization token is missing" ++
  errorIf (isNonBearerScheme E raw) 20 "TOKEN_SCHEME_INVALID" "Authorization scheme must be Bearer" ++
  errorIf (members header = some []) 30 "TOKEN_FORMAT_INVALID" "Token is not a valid JWT" ++
  errorIf (!asymmetricAlg E header) 40 "TOKEN_ALG_NOT_ALLOWED"
    "JWT algorithm is not allowed by trusted provider" ++
  errorIf (kid = some (.string "")) 50 "TOKEN_KID_MISSING"
    "JWT header does not contain required kid" ++
  errorIf (kid ≠ some (.string "") && candidates.bind Value.count = some 0) 60 "TOKEN_KID_UNKNOWN"
    "JWT kid is not found in trusted provider keys" ++
  errorIf ((header.field "kid").any (fun kid => ((kidCandidates E kid).count).any (0 < ·)) &&
      (algOf E header).isSome && (matchingCandidates E header).isEmpty) 70 "TOKEN_ALG_NOT_ALLOWED"
    "JWT algorithm is not allowed by trusted provider" ++
  errorIf (!truthy (payload.field "aud") && (candidateProviders E header).any fun provider =>
      !(providerAudiences provider).isEmpty &&
        !(provider.field "allowMissingAud" == some (.bool true))) 90 "TOKEN_AUDIENCE_MISSING"
    "JWT does not contain aud claim" ++
  errorIf ((payload.field "aud").any fun aud => !(audList aud).isEmpty &&
      (candidateProviders E header).any fun provider => !(providerAudiences provider).isEmpty &&
        !audMatch E (audList aud) (providerAudiences provider)) 100 "TOKEN_AUDIENCE_INVALID"
    "JWT audience is not allowed by trusted provider" ++
  errorIf (expInPast E payload) 110 "TOKEN_EXPIRED" "Token has expired" ++
  errorIf (!expInPast E payload && nbfInFuture E payload) 120 "TOKEN_NOT_YET_VALID"
    "Token is not yet valid" ++
  errorIf (!expInPast E payload && !nbfInFuture E payload && iatInFuture E payload) 130
    "TOKEN_IAT_INVALID" "Token iat claim is invalid" ++
  errorIf (!(matchingCandidates E header).isEmpty && !expInPast E payload &&
      !nbfInFuture E payload && verification = .invalid) 140 "TOKEN_SIGNATURE_INVALID"
    "JWT signature verification failed"

/-- The error of the least priority. -/
def winner (errors : List TokenError) : Option TokenError :=
  (errors.map TokenError.priority).min?.bind fun least =>
    (errors.filter fun e => e.priority = least).head?

def primaryTokenError (raw : Value) (token : String) (verification : Verification) :
    Eval TokenError :=
  Eval.ruleOr "_primary_token_error" ⟨999, "TOKEN_READ_FAILED", "Token cannot be read"⟩
    [ do
        Eval.require (isEmptyTokenInput raw)
        return ⟨10, "TOKEN_MISSING", "Authorization token is missing"⟩,
      do
        Eval.require (isNonBearerScheme E raw)
        return ⟨20, "TOKEN_SCHEME_INVALID", "Authorization scheme must be Bearer"⟩,
      do
        Eval.require (token ≠ "")
        Eval.require !isNonBearerScheme E raw
        Eval.require !canDecodeJwt E token
        return ⟨30, "TOKEN_FORMAT_INVALID", "Token is not a valid JWT"⟩,
      do
        Eval.require (token ≠ "")
        Eval.require !isNonBearerScheme E raw
        Eval.require (canDecodeJwt E token)
        let decoded := decodedToken E token
        Eval.ofOption (winner (collectTokenErrors E raw decoded.1 decoded.2 verification)) ]

/-! ## Answers -/

def tokenVerification (raw : Value) : Eval Verification :=
  Eval.rule "token_verification"
    [ do
        Eval.require (bearerToken E raw ≠ "")
        verifyToken E (bearerToken E raw),
      do
        Eval.require (bearerToken E raw = "")
        return .invalid ]

/-- The result of `validate_token_with_reason`. -/
inductive Validation where
  | valid (header payload providerId subject : Value)
  | refused (reasonCode reason : String)
deriving DecidableEq

def validateTokenWithReason (raw : Value) : Eval Validation :=
  Eval.ruleOr "validate_token_with_reason" (.refused "TOKEN_READ_FAILED" "Token cannot be read")
    [ do
        match ← tokenVerification E raw with
        | .invalid => Eval.undefined
        | .valid header payload providerId subject =>
          return .valid header payload providerId (subject.getD (.object [])),
      do
        let verification ← tokenVerification E raw
        Eval.require (verification = .invalid)
        let error ← primaryTokenError E raw (bearerToken E raw) verification
        return .refused error.reasonCode error.reason ]

/-- The answer of `authenticate`. -/
inductive Answer where
  | refused (code message reason reasonCode : String)
  | accepted (subject tokenPayload : Value)
deriving DecidableEq

def anonymousMode (c : Credentials) : Bool :=
  (c.authorizationType.bind (lower E)) = some "anonymous" ||
    (c.authType.bind (lower E)) = some "anonymous"

/-- `object.get(request_input, "subject", "")` -/
def subjectRaw (c : Credentials) : Value := c.subject.getD (.string "")

def authenticate (c : Credentials) : Eval Answer :=
  Eval.ruleOr "authenticate" (.refused "UNAUTHORIZED" "unauthorized" "unauthorized" "")
    [ do
        Eval.require !anonymousMode E c
        match ← validateTokenWithReason E (subjectRaw c) with
        | .valid .. => Eval.undefined
        | .refused reasonCode reason => return .refused "UNAUTHORIZED" reason reason reasonCode,
      do
        Eval.require (anonymousMode E c)
        Eval.require !isEmptyTokenInput (subjectRaw c)
        match ← validateTokenWithReason E (subjectRaw c) with
        | .valid .. => Eval.undefined
        | .refused reasonCode reason => return .refused "UNAUTHORIZED" reason reason reasonCode,
      do
        Eval.require (anonymousMode E c)
        Eval.require (isEmptyTokenInput (subjectRaw c))
        return .accepted anonymousSubject (.object []),
      do
        Eval.require (bearerToken E (subjectRaw c) ≠ "")
        match ← verifyToken E (bearerToken E (subjectRaw c)) with
        | .invalid => Eval.undefined
        | .valid header payload providerId subject =>
          let subject ← subjectFromVerification E (.valid header payload providerId subject)
          return .accepted subject payload ]

end

end Identity

end AuthzAgent
