/-
  AuthzAgent.Identity.Sound

  The rules of identity.rego give one answer.  Each function has one value:
  bodies that apply together agree, since they differ in the audience they ask
  for and not in the token they read.  With the document that the manager
  stores, a token is valid exactly if a candidate key of its kid matches its
  algorithm and verifies it under the audience rule of the provider.
-/

import AuthzAgent.Identity.Rules

namespace AuthzAgent

open Rego (Value Eval)
open Authn (AuthnDocument Candidate ProviderEntry)

namespace Identity

variable {E : Env}

/-! ## The audience rule -/

/-- The audience rule of a provider: one of its audiences, if it has any and
    the token has one; none, if the provider lets the token off; and whatever
    the token has, if the provider has none. -/
def audienceAccepted (J : Jwt) (token : String) (provider payload : Value) : Bool :=
  if providerAudiences provider ≠ [] then
    if truthy (payload.field "aud") then
      (providerAudiences provider).any fun audience => J.audienceOk token (some audience)
    else decide (provider.field "allowMissingAud" = some (.bool true)) && J.audienceOk token none
  else if truthy (payload.field "aud") then
    ((payload.field "aud").bind fun aud => (audList aud).head?).any fun first =>
      J.audienceOk token (some first)
  else J.audienceOk token none

theorem decodeVerify_eq_some {J : Jwt} {token : String} {cert : Value} {aud : Option Value}
    {decoded : Value × Value} : J.decodeVerify token cert aud = some decoded ↔
      J.audienceOk token aud = true ∧ J.verified token cert = some decoded := by
  rw [Jwt.decodeVerify]
  split_ifs with h <;> simp [h]

theorem audList_of_not_truthy {aud : Value} (h : truthy (some aud) = false) :
    (audList aud).head? = none := by
  cases aud with
  | bool b => rfl
  | null => rfl
  | number q => rfl
  | string s => cases h
  | array items => cases h
  | object fields => rfl

/-- Enumerated audiences lead to the same token. -/
theorem clean_audiences (token : String) (cert : Value) (audiences : List Value) :
    (do
      let audience ← Eval.solutions audiences
      let decoded ← Eval.ofOption (E.jwt.decodeVerify token cert (some audience))
      return some decoded : Eval (Option (Value × Value))).Clean :=
  (Eval.clean_solutions _).bind fun audience => by simp

theorem yields_audiences (token : String) (cert : Value) (audiences : List Value)
    (v : Option (Value × Value)) :
    (do
      let audience ← Eval.solutions audiences
      let decoded ← Eval.ofOption (E.jwt.decodeVerify token cert (some audience))
      return some decoded : Eval (Option (Value × Value))).Yields v ↔
      ∃ audience ∈ audiences, ∃ decoded,
        E.jwt.decodeVerify token cert (some audience) = some decoded ∧ v = some decoded := by
  rw [Eval.yields_bind (Eval.clean_solutions _) fun audience => by simp]
  simp

theorem verifyWithProviderConstraints_eq (token : String) (cert provider payload : Value) :
    verifyWithProviderConstraints E token cert provider payload =
      .defined (if audienceAccepted E.jwt token provider payload then E.jwt.verified token cert
        else none) := by
  refine (Eval.ruleOr_eq_defined (o := if audienceAccepted E.jwt token provider payload then
    (E.jwt.verified token cert).map some else none) ?_ ?_).trans ?_
  · simp [clean_audiences]
  · intro v
    simp only [List.mem_cons, List.not_mem_nil, or_false, exists_eq_or_imp, exists_eq_left,
      Eval.yields_require_bind, Eval.yields_ofOption_bind, yields_audiences, Eval.yields_pure,
      decodeVerify_eq_some, decide_eq_true_eq]
    rw [audienceAccepted]
    cases hverified : E.jwt.verified token cert with
    | none => simp
    | some decoded =>
      by_cases hauds : providerAudiences provider = []
      · cases haud : truthy (payload.field "aud") with
        | false =>
          have hnone : ∀ aud, payload.field "aud" = some aud → (audList aud).head? = none :=
            fun aud h => audList_of_not_truthy (h ▸ haud)
          simp only [hauds]
          grind
        | true =>
          cases hfield : payload.field "aud" with
          | none => simp [hfield, truthy] at haud
          | some aud =>
            cases hhead : (audList aud).head? with
            | none => simp [hauds, hhead]
            | some first =>
              simp [hauds, hhead]
              grind
      · cases haud : truthy (payload.field "aud") with
        | false =>
          simp [hauds]
          grind
        | true =>
          simp [hauds]
          grind
  · cases E.jwt.verified token cert <;> split_ifs <;> rfl

/-! ## Candidates -/

variable (E) in
/-- What becomes of a candidate that is tried for a token. -/
def outcomeOf (token : String) (header payload candidate : Value) : Option Outcome :=
  (algOf E header).bind fun alg =>
    if candidateAlgMatches E candidate alg then
      (candidate.field "providerId").bind fun providerId =>
        (providerById E providerId).bind fun provider =>
          (candidate.field "jwksJson").bind fun cert =>
            (if audienceAccepted E.jwt token provider payload then E.jwt.verified token cert
              else none).map fun decoded => ⟨decoded.1, decoded.2, providerId⟩
    else none

theorem tryCandidate_eq (token : String) (header payload candidate : Value) :
    tryCandidate E token header payload candidate =
      Eval.ofOption (outcomeOf E token header payload candidate) := by
  have hverify : ∀ cert provider, verifyWithProviderConstraints E token cert provider payload =
      Eval.ofOption (some (if audienceAccepted E.jwt token provider payload then
        E.jwt.verified token cert else none)) :=
    fun cert provider => verifyWithProviderConstraints_eq token cert provider payload
  simp only [tryCandidate, hverify, Eval.pure_eq_ofOption, Eval.ofOption_bind_ofOption,
    Eval.require_bind_ofOption, outcomeOf, Option.bind_some, Option.map_eq_bind,
    Function.comp_def]

theorem successfulVerifications_eq (token : String) (header payload : Value) :
    successfulVerifications E token header payload =
      .defined (((kidOf header).map fun kid => (kidCandidates E kid).elements).getD []
        |>.filterMap (outcomeOf E token header payload)) := by
  have hround : tryCandidate E token header payload =
      fun candidate => Eval.ofOption (outcomeOf E token header payload candidate) :=
    funext (tryCandidate_eq token header payload)
  rw [successfulVerifications, Eval.ofOption_bind]
  cases kidOf header with
  | none => rfl
  | some kid =>
    rw [Option.elim_some, hround, Eval.solutions_bind_ofOption]
    rfl

/-! ## Tokens -/

variable (E) in
def firstOutcome (token : String) : Option Outcome :=
  let decoded := decodedToken E token
  if asymmetricAlg E decoded.1 then
    (((kidOf decoded.1).map fun kid => (kidCandidates E kid).elements).getD []
      |>.filterMap (outcomeOf E token decoded.1 decoded.2)).head?
  else none

variable (E) in
/-- The outcome of the Bearer token of a subject. -/
def acceptedOutcome (raw : Value) : Option Outcome :=
  if bearerToken E raw = "" then none else firstOutcome E (bearerToken E raw)

def Outcome.verification (o : Outcome) : Verification :=
  .valid o.header o.payload o.providerId none

/-! ## Schemes -/

theorem all_blank_of_trimBlank {s : String} (h : trimBlank s = "") :
    ∀ c ∈ s.toList, isBlank c = true := by
  have hchars : (s.toList.dropWhile isBlank).rdropWhile isBlank = [] := by
    have htoList := congrArg String.toList h
    rwa [trimBlank, String.toList_ofList] at htoList
  have hrest : s.toList.dropWhile isBlank = [] := by
    cases hdrop : s.toList.dropWhile isBlank with
    | nil => rfl
    | cons c cs =>
      rw [hdrop, List.rdropWhile_eq_nil_iff] at hchars
      have hhead := List.head?_dropWhile_not isBlank s.toList
      rw [hdrop] at hhead
      simp [hchars c List.mem_cons_self] at hhead
  exact List.dropWhile_eq_nil_iff.mp hrest

/-- A blank text has no Bearer scheme. -/
theorem hasBearer_of_blank {s : String} (h : trimBlank s = "") : hasBearer E s = false := by
  have hblank := all_blank_of_trimBlank h
  rw [hasBearer, GoText.Unicode.toLower, String.toList_ofList]
  cases hs : s.toList with
  | nil => rfl
  | cons c cs =>
    have hc : isBlank c = true := hblank c (by rw [hs]; exact List.mem_cons_self)
    have hlower : 'b' ≠ E.platform.lower c := by
      simp only [isBlank, Bool.or_eq_true, beq_iff_eq] at hc
      rcases hc with ((rfl | rfl) | rfl) | rfl <;> rw [E.platform.lower_ascii _ (by decide)] <;>
        decide
    have hbearer : bearer = 'b' :: "earer ".toList := by simp [bearer]
    rw [hbearer, List.map_cons, List.isPrefixOf_cons_cons, beq_eq_false_iff_ne.mpr hlower]
    rfl

theorem isNonBearerScheme_of_empty {raw : Value} (h : isEmptyTokenInput raw = true) :
    isNonBearerScheme E raw = false := by
  cases raw with
  | string s =>
    rw [isNonBearerScheme, decide_eq_false (not_not_intro (of_decide_eq_true h)), Bool.false_and]
  | _ => rfl

theorem bearerToken_of_empty {raw : Value} (h : isEmptyTokenInput raw = true) :
    bearerToken E raw = "" := by
  cases raw with
  | string s =>
    rw [bearerToken, hasBearer_of_blank (of_decide_eq_true h), Bool.and_false]
    rfl
  | _ => rfl

section Cold

variable (hcold : verifiedTokenEntries E = .object [])

include hcold

theorem verifyToken_eq (token : String) :
    verifyToken E token =
      .defined (((firstOutcome E token).map Outcome.verification).getD .invalid) := by
  have hresults : ∀ header payload, successfulVerifications E token header payload =
      Eval.ofOption (some _) := fun header payload => successfulVerifications_eq token header payload
  simp only [verifyToken, hcold, hresults, Eval.pure_eq_ofOption, Eval.ofOption_bind_ofOption,
    Eval.require_bind_ofOption, index, List.lookup_nil, Option.bind_none, Option.bind_some, truthy,
    Bool.not_false, if_true]
  refine Eval.ruleOr_options _ _ [_, _] fun v => ?_
  rw [firstOutcome]
  by_cases halg : asymmetricAlg E (decodedToken E token).1 = true
  · simp only [if_pos halg]
    generalize (List.filterMap _ _).head? = first
    cases first <;> simp [Outcome.verification]
  · simp [halg]

theorem tokenVerification_eq (raw : Value) :
    tokenVerification E raw =
      .defined (((acceptedOutcome E raw).map Outcome.verification).getD .invalid) := by
  have hverify : verifyToken E (bearerToken E raw) = Eval.ofOption (some _) :=
    verifyToken_eq hcold (bearerToken E raw)
  simp only [tokenVerification, hverify, Eval.pure_eq_ofOption, Eval.require_bind_ofOption]
  refine Eval.rule_options_defined _ [_, _] fun v => ?_
  rw [acceptedOutcome]
  by_cases htoken : bearerToken E raw = ""
  · simp [htoken]
  · simp [htoken]

omit hcold in
/-- A verified token has the subject of its payload. -/
theorem subjectFromVerification_eq (o : Outcome) :
    subjectFromVerification E o.verification = .defined (subjectFromPayload E o.payload) := by
  simp only [subjectFromVerification, Outcome.verification, Verification.subject?,
    Verification.payload?, Option.getD_none, Option.getD_some, members, truthy,
    Eval.pure_eq_ofOption, Eval.require_bind_ofOption, Eval.ofOption_bind_ofOption,
    Option.bind_some]
  refine Eval.rule_options_defined _ [_, _, _] fun v => ?_
  simp

omit hcold in
/-- The reason of a refusal is one. -/
theorem primaryTokenError_defined (raw : Value) (verification : Verification) :
    ∃ e, primaryTokenError E raw (bearerToken E raw) verification = .defined e := by
  let decoded := decodedToken E (bearerToken E raw)
  let o : Option TokenError :=
    if isEmptyTokenInput raw then some ⟨10, "TOKEN_MISSING", "Authorization token is missing"⟩
    else if isNonBearerScheme E raw then
      some ⟨20, "TOKEN_SCHEME_INVALID", "Authorization scheme must be Bearer"⟩
    else if bearerToken E raw = "" then none
    else if canDecodeJwt E (bearerToken E raw) then
      winner (collectTokenErrors E raw decoded.1 decoded.2 verification)
    else some ⟨30, "TOKEN_FORMAT_INVALID", "Token is not a valid JWT"⟩
  refine ⟨o.getD ⟨999, "TOKEN_READ_FAILED", "Token cannot be read"⟩, ?_⟩
  simp only [primaryTokenError, Eval.pure_eq_ofOption, Eval.require_bind_ofOption]
  refine Eval.ruleOr_options _ _ [_, _, _, _] fun v => ?_
  dsimp only [o]
  cases hempty : isEmptyTokenInput raw with
  | true =>
    simp [isNonBearerScheme_of_empty hempty, bearerToken_of_empty hempty]
  | false =>
    cases hscheme : isNonBearerScheme E raw with
    | true => simp
    | false =>
      by_cases htoken : bearerToken E raw = ""
      · simp [htoken]
      · cases hdecode : canDecodeJwt E (bearerToken E raw) with
        | true => simp [htoken, decoded]
        | false => simp [htoken]

/-- The validation of a subject: its outcome, or a refusal. -/
theorem validateTokenWithReason_cases (raw : Value) :
    (∃ o, acceptedOutcome E raw = some o ∧ validateTokenWithReason E raw =
        .defined (.valid o.header o.payload o.providerId (.object []))) ∨
      (acceptedOutcome E raw = none ∧ ∃ code reason,
        validateTokenWithReason E raw = .defined (.refused code reason)) := by
  have hverification : tokenVerification E raw = .defined _ := tokenVerification_eq hcold raw
  cases haccepted : acceptedOutcome E raw with
  | some o =>
    refine .inl ⟨o, rfl, ?_⟩
    simp only [haccepted, Option.map_some, Option.getD_some, Outcome.verification]
      at hverification
    simp only [validateTokenWithReason, hverification, Eval.defined_bind, Option.getD_none,
      reduceCtorEq, decide_false, Eval.require_bind, Bool.false_eq_true, if_false]
    rfl
  | none =>
    refine .inr ⟨rfl, ?_⟩
    simp only [haccepted, Option.map_none, Option.getD_none] at hverification
    obtain ⟨e, herror⟩ := primaryTokenError_defined (E := E) raw .invalid
    refine ⟨e.reasonCode, e.reason, ?_⟩
    simp only [validateTokenWithReason, hverification, Eval.defined_bind, decide_true, herror,
      Eval.require_bind, if_true]
    rfl

/-- The answer to a request: the subject of an accepted token, the anonymous
    one, or a refusal. -/
theorem authenticate_cases (c : Credentials) :
    (∃ o, acceptedOutcome E (subjectRaw c) = some o ∧ authenticate E c =
        .defined (.accepted (subjectFromPayload E o.payload) o.payload)) ∨
      (acceptedOutcome E (subjectRaw c) = none ∧ anonymousMode E c = true ∧
        isEmptyTokenInput (subjectRaw c) = true ∧
        authenticate E c = .defined (.accepted anonymousSubject (.object []))) ∨
      (acceptedOutcome E (subjectRaw c) = none ∧
        ¬ (anonymousMode E c = true ∧ isEmptyTokenInput (subjectRaw c) = true) ∧
        ∃ code message reason reasonCode,
          authenticate E c = .defined (.refused code message reason reasonCode)) := by
  have hverify : verifyToken E (bearerToken E (subjectRaw c)) = .defined _ :=
    verifyToken_eq hcold (bearerToken E (subjectRaw c))
  rcases validateTokenWithReason_cases hcold (subjectRaw c) with
    ⟨o, haccepted, hvalid⟩ | ⟨hnone, code, reason, hrefused⟩
  · -- a Bearer token is no blank subject, so only the last body applies
    refine .inl ⟨o, haccepted, ?_⟩
    have htoken : bearerToken E (subjectRaw c) ≠ "" := fun h => by
      rw [acceptedOutcome, if_pos h] at haccepted
      cases haccepted
    have hempty : isEmptyTokenInput (subjectRaw c) = false :=
      Bool.eq_false_iff.mpr fun h => htoken (bearerToken_of_empty h)
    rw [acceptedOutcome, if_neg htoken] at haccepted
    simp only [haccepted, Option.map_some, Option.getD_some, Outcome.verification] at hverify
    have hsubject := subjectFromVerification_eq (E := E) o
    rw [Outcome.verification] at hsubject
    simp only [authenticate, hvalid, hverify, hempty, Eval.defined_bind, Eval.require_bind,
      hsubject]
    cases anonymousMode E c <;> simp [htoken] <;> rfl
  · refine .inr ?_
    have hinvalid : bearerToken E (subjectRaw c) ≠ "" →
        verifyToken E (bearerToken E (subjectRaw c)) = .defined .invalid := fun htoken => by
      rw [acceptedOutcome, if_neg htoken] at hnone
      rw [hverify, hnone]
      rfl
    have hlast : ∀ f : Verification → Eval Answer, f .invalid = .undefined →
        (do
          Eval.require (bearerToken E (subjectRaw c) ≠ "")
          let verification ← verifyToken E (bearerToken E (subjectRaw c))
          f verification) = Eval.undefined := by
      intro f hf
      rw [Eval.require_bind]
      by_cases htoken : bearerToken E (subjectRaw c) = ""
      · simp [htoken]
      · rw [hinvalid htoken, Eval.defined_bind, hf]
        exact ite_self _
    rw [authenticate, hlast _ rfl, hrefused]
    cases hanonymous : anonymousMode E c with
    | false => exact .inr ⟨hnone, by simp, _, _, _, _, rfl⟩
    | true =>
      cases hempty : isEmptyTokenInput (subjectRaw c) with
      | true => exact .inl ⟨hnone, rfl, rfl, rfl⟩
      | false => exact .inr ⟨hnone, by simp, _, _, _, _, rfl⟩

end Cold

/-! ## The stored document -/

section Document

variable (P : Platform) (J : Jwt) (now : Rat) (doc : AuthnDocument)

/-- The environment with a document that the manager stored. -/
def storedEnv : Env := ⟨P, J, now, some doc.toValue⟩

/-- A candidate key matches an algorithm: it declares it, or its type is the
    one of the algorithm. -/
def CandidateMatches (c : Candidate) (alg : String) : Prop :=
  if P.toUpper c.alg ≠ "" then P.toUpper c.alg = alg else algKeyType alg = some (P.toUpper c.kty)

def audiencesOf (p : ProviderEntry) : List String := (p.audiences.getD []).filter (· ≠ "")

def AcceptsAudience (token : String) (p : ProviderEntry) (aud : Option Value) : Prop :=
  if audiencesOf p ≠ [] then
    if truthy aud then ∃ a ∈ audiencesOf p, J.audienceOk token (some (.string a)) = true
    else p.allowMissingAud = true ∧ J.audienceOk token none = true
  else if truthy aud then
    ∃ claim first, aud = some claim ∧ (audList claim).head? = some first ∧
      J.audienceOk token (some first) = true
  else J.audienceOk token none = true

/-- The subject is a Bearer token whose header names an accepted algorithm and
    whose kid has a candidate key that matches the algorithm and verifies the
    token under the audience rule of its provider. -/
def Verified (raw : Value) : Prop :=
  ∃ token header payload alg kid c p decoded,
    bearerToken (storedEnv P J now doc) raw = token ∧ token ≠ "" ∧
    J.decode token = some (header, payload) ∧
    algOf (storedEnv P J now doc) header = some alg ∧ (algKeyType alg).isSome = true ∧
    kidOf header = some (.string kid) ∧ kid ≠ "" ∧
    c ∈ (doc.jwksByKid.lookup kid).getD [] ∧ CandidateMatches P c alg ∧
    doc.byId.lookup c.providerID = some p ∧ AcceptsAudience J token p (payload.field "aud") ∧
    J.verified token (.string c.jwksJSON) = some decoded

variable {P J now doc}

theorem verifiedTokenEntries_stored :
    verifiedTokenEntries (storedEnv P J now doc) = .object [] := rfl

theorem kidCandidates_stored (kid : String) (hkid : kid ≠ "") :
    (kidCandidates (storedEnv P J now doc) (.string kid)).elements =
      ((doc.jwksByKid.lookup kid).getD []).map Candidate.toValue := by
  have hne : (Value.string kid) ≠ .string "" := fun h => hkid (Value.string.inj h)
  rw [kidCandidates, if_pos hne]
  show Value.elements ((List.lookup kid (Authn.fieldsOf _ doc.jwksByKid)).getD _) = _
  rw [Authn.lookup_fieldsOf]
  cases doc.jwksByKid.lookup kid <;> rfl

theorem kidCandidates_other {kid : Value} (h : ∀ k, kid = .string k → k = "") :
    (kidCandidates (storedEnv P J now doc) kid).elements = [] := by
  rw [kidCandidates]
  cases kid with
  | string k => rw [h k rfl]; rfl
  | _ => rfl

theorem providerById_stored (id : String) :
    providerById (storedEnv P J now doc) (.string id) =
      (doc.byId.lookup id).map ProviderEntry.toValue :=
  Authn.lookup_fieldsOf _ doc.byId id

theorem algOf_candidate (E : Env) (c : Candidate) :
    algOf E c.toValue = some (E.platform.toUpper c.alg) := by
  rw [algOf, Candidate.toValue, Value.objectGet]
  by_cases halg : c.alg = ""
  · simp [halg, Authn.optionalField, List.lookup_cons, upper]
  · simp [halg, Authn.optionalField, upper]

theorem field_candidate (c : Candidate) {name : String} (hname : name ≠ "alg") :
    c.toValue.field name = [("jwksJson", Value.string c.jwksJSON), ("kty", .string c.kty),
      ("providerId", .string c.providerID)].lookup name := by
  rw [Candidate.toValue, Value.field]
  have hbeq : (name == "alg") = false := beq_eq_false_iff_ne.mpr hname
  by_cases halg : c.alg = ""
  · simp [halg, Authn.optionalField]
  · simp [halg, Authn.optionalField, List.lookup_cons, hbeq]

theorem candidateAlgMatches_stored (c : Candidate) (alg : String) :
    candidateAlgMatches (storedEnv P J now doc) c.toValue alg = true ↔ CandidateMatches P c alg := by
  have hkty : (c.toValue.objectGet "kty" (.string "")).bind (upper (storedEnv P J now doc)) =
      some (P.toUpper c.kty) := by
    have hfield : c.toValue.field "kty" = _ := field_candidate c (by decide)
    rw [Candidate.toValue, Value.field] at hfield
    rw [Candidate.toValue, Value.objectGet, hfield]
    simp [List.lookup_cons, upper, storedEnv]
  rw [candidateAlgMatches, algOf_candidate, CandidateMatches, hkty]
  show (if P.toUpper c.alg ≠ "" then _ else _) = true ↔ _
  split_ifs with hdeclared
  · exact beq_iff_eq
  · cases algKeyType alg <;> simp

theorem providerAudiences_stored (p : ProviderEntry) :
    providerAudiences p.toValue = (audiencesOf p).map .string := by
  have hfield : p.toValue.field "audiences" =
      p.audiences.map fun auds => .array (auds.map .string) := by
    rw [ProviderEntry.toValue, Value.field]
    cases p.allowMissingAud <;> cases p.audiences <;> cases p.required <;>
      simp [Authn.optionalField, List.lookup_cons]
  rw [providerAudiences, hfield, audiencesOf]
  cases p.audiences with
  | none => rfl
  | some auds => simp [Value.elements, List.filter_map, Function.comp_def]

theorem allowMissingAud_stored (p : ProviderEntry) :
    p.toValue.field "allowMissingAud" = some (.bool true) ↔ p.allowMissingAud = true := by
  rw [ProviderEntry.toValue, Value.field]
  cases p.allowMissingAud <;> cases p.audiences <;> cases p.required <;>
    simp [Authn.optionalField, List.lookup_cons]

theorem audienceAccepted_stored (token : String) (p : ProviderEntry) (payload : Value) :
    audienceAccepted J token p.toValue payload = true ↔
      AcceptsAudience J token p (payload.field "aud") := by
  rw [audienceAccepted, AcceptsAudience, providerAudiences_stored]
  by_cases hauds : audiencesOf p = []
  · cases haud : truthy (payload.field "aud") with
    | false => simp [hauds]
    | true =>
      cases hfield : payload.field "aud" with
      | none => simp [hfield, truthy] at haud
      | some claim => cases hhead : (audList claim).head? <;> simp [hauds, hhead]
  · cases haud : truthy (payload.field "aud") with
    | false => simp [hauds, allowMissingAud_stored]
    | true => simp [hauds]

/-- When a candidate verifies a token. -/
theorem outcomeOf_stored (token : String) (header payload : Value) (c : Candidate) :
    (∃ o, outcomeOf (storedEnv P J now doc) token header payload c.toValue = some o) ↔
      ∃ alg p decoded, algOf (storedEnv P J now doc) header = some alg ∧ CandidateMatches P c alg ∧
        doc.byId.lookup c.providerID = some p ∧ AcceptsAudience J token p (payload.field "aud") ∧
        J.verified token (.string c.jwksJSON) = some decoded := by
  have hid : c.toValue.field "providerId" = some (.string c.providerID) :=
    (field_candidate c (by decide)).trans (by simp [List.lookup_cons])
  have hcert : c.toValue.field "jwksJson" = some (.string c.jwksJSON) :=
    (field_candidate c (by decide)).trans (by simp)
  simp only [outcomeOf, hid, hcert, Option.bind_some, providerById_stored]
  cases algOf (storedEnv P J now doc) header with
  | none => simp
  | some alg =>
    have hmatches : candidateAlgMatches (storedEnv P J now doc) c.toValue alg = true ↔ _ :=
      candidateAlgMatches_stored c alg
    by_cases hcandidate : CandidateMatches P c alg
    · rw [Option.bind_some, if_pos (hmatches.mpr hcandidate)]
      cases doc.byId.lookup c.providerID with
      | none => simp
      | some p =>
        have haudience : audienceAccepted J token p.toValue payload = true ↔ _ :=
          audienceAccepted_stored token p payload
        cases hverified : J.verified token (.string c.jwksJSON) with
        | none => simp [hverified, storedEnv]
        | some decoded => simp [hcandidate, hverified, storedEnv, haudience]
    · rw [Option.bind_some, if_neg (hcandidate ∘ hmatches.mp)]
      simp [hcandidate]

/-- When the first candidate that verifies a token exists. -/
theorem firstOutcome_eq_some (E : Env) (token : String) :
    (∃ o, firstOutcome E token = some o) ↔
      asymmetricAlg E (decodedToken E token).1 = true ∧
        ∃ kid candidate o, kidOf (decodedToken E token).1 = some kid ∧
          candidate ∈ (kidCandidates E kid).elements ∧
          outcomeOf E token (decodedToken E token).1 (decodedToken E token).2 candidate = some o := by
  rw [firstOutcome]
  cases asymmetricAlg E (decodedToken E token).1 with
  | false => simp
  | true =>
    cases kidOf (decodedToken E token).1 with
    | none => simp
    | some kid => simp [← Option.isSome_iff_exists]

theorem decodedToken_of_none {token : String} (h : J.decode token = none) :
    decodedToken (storedEnv P J now doc) token = (.object [], .object []) := by
  show (J.decode token).getD _ = _
  rw [h]
  rfl

theorem decodedToken_of_some {token : String} {decoded : Value × Value}
    (h : J.decode token = some decoded) : decodedToken (storedEnv P J now doc) token = decoded := by
  show (J.decode token).getD _ = _
  rw [h]
  rfl

theorem asymmetricAlg_empty (E : Env) : asymmetricAlg E (.object []) = false := by
  simp [asymmetricAlg, algOf, Value.objectGet, upper, GoText.Unicode.toUpper, algKeyType]

theorem acceptedOutcome_stored (raw : Value) :
    (∃ o, acceptedOutcome (storedEnv P J now doc) raw = some o) ↔ Verified P J now doc raw := by
  rw [acceptedOutcome]
  by_cases htoken : bearerToken (storedEnv P J now doc) raw = ""
  · rw [if_pos htoken]
    refine iff_of_false (by simp) ?_
    rintro ⟨token, _, _, _, _, _, _, _, rfl, hne, -⟩
    exact hne htoken
  rw [if_neg htoken, firstOutcome_eq_some]
  constructor
  · rintro ⟨hasymmetric, kid, candidate, o, hkid, hcandidate, ho⟩
    cases hdecode : J.decode (bearerToken (storedEnv P J now doc) raw) with
    | none =>
      rw [decodedToken_of_none hdecode, asymmetricAlg_empty] at hasymmetric
      cases hasymmetric
    | some decoded =>
      obtain ⟨header, payload⟩ := decoded
      rw [decodedToken_of_some hdecode] at hasymmetric hkid ho
      have htext : ∃ k, kid = .string k ∧ k ≠ "" := by
        by_contra hnone
        have hother : ∀ k, kid = .string k → k = "" := fun k hk =>
          by_contra fun hne => hnone ⟨k, hk, hne⟩
        rw [kidCandidates_other hother] at hcandidate
        cases hcandidate
      obtain ⟨k, rfl, hk⟩ := htext
      rw [kidCandidates_stored k hk] at hcandidate
      obtain ⟨c, hc, rfl⟩ := List.mem_map.mp hcandidate
      obtain ⟨alg, p, decoded, halg, hmatches, hp, haudience, hverified⟩ :=
        (outcomeOf_stored _ _ _ c).mp ⟨o, ho⟩
      rw [asymmetricAlg, halg, Option.bind_some] at hasymmetric
      exact ⟨_, header, payload, alg, k, c, p, decoded, rfl, htoken, hdecode, halg, hasymmetric,
        hkid, hk, hc, hmatches, hp, haudience, hverified⟩
  · rintro ⟨token, header, payload, alg, kid, c, p, decoded, rfl, -, hdecode, halg, hkey, hkid,
      hne, hc, hmatches, hp, haudience, hverified⟩
    obtain ⟨o, ho⟩ := (outcomeOf_stored _ header payload c).mpr
      ⟨alg, p, decoded, halg, hmatches, hp, haudience, hverified⟩
    rw [decodedToken_of_some hdecode]
    refine ⟨?_, .string kid, c.toValue, o, hkid, ?_, ho⟩
    · rw [asymmetricAlg, halg]
      exact hkey
    · rw [kidCandidates_stored kid hne]
      exact List.mem_map_of_mem hc

def BlankSubject (c : Credentials) : Prop :=
  ∃ s, subjectRaw c = .string s ∧ ∀ ch ∈ s.toList, isBlank ch = true

theorem isEmptyTokenInput_iff (c : Credentials) :
    isEmptyTokenInput (subjectRaw c) = true ↔ BlankSubject c := by
  rw [BlankSubject]
  cases subjectRaw c with
  | string s =>
    rw [isEmptyTokenInput, decide_eq_true_eq]
    constructor
    · exact fun h => ⟨s, rfl, all_blank_of_trimBlank h⟩
    · rintro ⟨s', hs, hblank⟩
      rw [trimBlank, Value.string.inj hs, List.dropWhile_eq_nil_iff.mpr hblank]
      rfl
  | _ => simp [isEmptyTokenInput]

theorem subjectFromPayload_ne_anonymous (E : Env) (payload : Value) :
    subjectFromPayload E payload ≠ anonymousSubject := by
  intro h
  have htype : subjectType E payload = "ANONYMOUS" := by
    simp only [subjectFromPayload, anonymousSubject, Value.object.injEq, List.cons.injEq,
      Prod.mk.injEq, Value.string.injEq, true_and, and_true] at h
    exact h.2.2.2.2
  rw [subjectType] at htype
  split at htype
  · split_ifs at htype
    · exact absurd htype (by decide)
    · exact absurd htype (by decide)
  · exact absurd htype (by decide)

end Document

/-- With a document that the manager stored, every request has one answer.  It
    accepts a subject other than the anonymous one exactly if the token is
    verified, and the anonymous one exactly in anonymous mode without a subject.
    The other rules have one value as well. -/
theorem authenticate_has_one_sound_answer (P : Platform) (J : Jwt) (now : Rat)
    (doc : AuthnDocument) (c : Credentials) :
    let E := storedEnv P J now doc
    (∃ answer, authenticate E c = .defined answer ∧
      ((∃ subject payload, answer = .accepted subject payload ∧ subject ≠ anonymousSubject) ↔
        Verified P J now doc (subjectRaw c)) ∧
      ((∃ payload, answer = .accepted anonymousSubject payload) ↔
        anonymousMode E c = true ∧ BlankSubject c)) ∧
    (∀ raw, ∃ v, validateTokenWithReason E raw = .defined v) ∧
    (∀ raw, ∃ v e, tokenVerification E raw = .defined v ∧
      primaryTokenError E raw (bearerToken E raw) v = .defined e) ∧
    (∀ token, ∃ v, verifyToken E token = .defined v) ∧
    ∀ token cert provider payload, ∃ v,
      verifyWithProviderConstraints E token cert provider payload = .defined v := by
  intro E
  have hcold : verifiedTokenEntries E = .object [] := verifiedTokenEntries_stored
  refine ⟨?_, fun raw => ?_, fun raw => ?_, fun token => ⟨_, verifyToken_eq hcold token⟩,
    fun token cert provider payload => ⟨_, verifyWithProviderConstraints_eq _ _ _ _⟩⟩
  · rw [← acceptedOutcome_stored, ← isEmptyTokenInput_iff]
    rcases authenticate_cases hcold c with ⟨o, haccepted, hanswer⟩ |
      ⟨hnone, hanonymous, hempty, hanswer⟩ | ⟨hnone, hnot, code, message, reason, rc, hanswer⟩
    · have hsubject := subjectFromPayload_ne_anonymous E o.payload
      refine ⟨_, hanswer, iff_of_true ⟨_, _, rfl, hsubject⟩ ⟨o, haccepted⟩, iff_of_false ?_ ?_⟩
      · rintro ⟨payload, h⟩
        exact hsubject (Answer.accepted.inj h).1
      · rintro ⟨-, hempty⟩
        rw [acceptedOutcome, if_pos (bearerToken_of_empty hempty)] at haccepted
        cases haccepted
    · refine ⟨_, hanswer, iff_of_false ?_ ?_, iff_of_true ⟨_, rfl⟩ ⟨hanonymous, hempty⟩⟩
      · rintro ⟨subject, payload, h, hsubject⟩
        exact hsubject (Answer.accepted.inj h).1.symm
      · rintro ⟨o, haccepted⟩
        exact absurd (hnone.symm.trans haccepted) nofun
    · refine ⟨_, hanswer, iff_of_false ?_ ?_, iff_of_false ?_ hnot⟩
      · rintro ⟨subject, payload, h, -⟩
        cases h
      · rintro ⟨o, haccepted⟩
        exact absurd (hnone.symm.trans haccepted) nofun
      · rintro ⟨payload, h⟩
        cases h
  · rcases validateTokenWithReason_cases hcold raw with ⟨o, -, h⟩ | ⟨-, code, reason, h⟩
    · exact ⟨_, h⟩
    · exact ⟨_, h⟩
  · obtain ⟨e, he⟩ := primaryTokenError_defined (E := E) raw
      (((acceptedOutcome E raw).map Outcome.verification).getD .invalid)
    exact ⟨_, e, tokenVerification_eq hcold raw, he⟩

end Identity

end AuthzAgent
