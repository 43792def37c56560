/-
  AuthzAgent.Token.Transparent

  The cache of the verifier changes no outcome.  Each cached token came out of
  the checks of an earlier call for the same text.  The checks of `nbf` and
  `iat` stay passed as time goes on, the cache looks at `exp` again, and the
  key of the same identity gives the same signature check and the same
  audience rule; so the checks would accept the token now with the same result.
-/

import AuthzAgent.Token.Verify

namespace AuthzAgent

open GoText
open Token

namespace Verify

variable {Raw K Thumb Bytes Digest : Type} {L : JwkLibrary Raw K Thumb}
  {J : JwtLibrary K Bytes Digest}

/-! ## Later checks -/

section Later

variable {claims : Dict Bytes} {now now' leeway exp : Int}

theorem checkExp_later (h : checkExp J claims now leeway = .ok exp)
    (hlive : now' < exp + leeway) : checkExp J claims now' leeway = .ok exp := by
  obtain ⟨date, hdate, h⟩ := Checked.bind_eq_ok.mp h
  cases date with
  | none => cases h
  | some exp' =>
    dsimp only at h
    split_ifs at h with hnow
    obtain rfl : exp' = exp := Checked.pure_eq_ok.mp h
    rw [checkExp, hdate]
    exact if_pos hlive

theorem checkNbf_later (h : checkNbf J claims now leeway = .ok ()) (hle : now ≤ now') :
    checkNbf J claims now' leeway = .ok () := by
  obtain ⟨date, hdate, h⟩ := Checked.bind_eq_ok.mp h
  rw [checkNbf, hdate]
  cases date with
  | none => rfl
  | some nbf =>
    dsimp only at h
    split_ifs at h with hnow
    exact if_neg (by omega)

theorem checkIat_later (h : checkIat J claims now leeway = .ok ()) (hle : now ≤ now') :
    checkIat J claims now' leeway = .ok () := by
  obtain ⟨date, hdate, h⟩ := Checked.bind_eq_ok.mp h
  rw [checkIat, hdate]
  cases date with
  | none => cases h
  | some iat =>
    dsimp only at h
    split_ifs at h with hnow
    exact if_neg (by omega)

/-- Times that were accepted are accepted until the token expires. -/
theorem checkTimes_later (h : checkTimes J claims now leeway = .ok exp) (hle : now ≤ now')
    (hlive : now' < exp + leeway) : checkTimes J claims now' leeway = .ok exp := by
  obtain ⟨exp', hexp, h⟩ := Checked.bind_eq_ok.mp h
  obtain ⟨_, hnbf, h⟩ := Checked.bind_eq_ok.mp h
  obtain ⟨_, hiat, h⟩ := Checked.bind_eq_ok.mp h
  obtain rfl : exp' = exp := Checked.pure_eq_ok.mp h
  rw [checkTimes, checkExp_later hexp hlive]
  show (checkNbf J claims now' leeway >>= fun _ => _) = _
  rw [checkNbf_later hnbf hle]
  show (checkIat J claims now' leeway >>= fun _ => _) = _
  rw [checkIat_later hiat hle]
  rfl

end Later

/-! ## The checks of a token -/

/-- What it takes for the checks to give a token. -/
theorem checkToken_eq_ok {keys : KeyFinder K} {leeway now : Int} {raw : String}
    {tok : Token K Bytes} :
    checkToken L J keys leeway raw now = .ok tok ↔
      ∃ alg kid key payload claims expiry, readHeader J raw = .ok (alg, kid) ∧
        keys kid = some key ∧ key.allows L alg = true ∧
        J.jwsVerify raw alg key.jwk = some payload ∧ decodeClaims J payload = .ok claims ∧
        checkAudience J claims key.provider = .ok () ∧
        checkTimes J claims now leeway = .ok expiry ∧
        tokenOf J raw kid key payload claims expiry = tok := by
  constructor
  · intro h
    obtain ⟨⟨alg, kid⟩, hheader, h⟩ := Checked.bind_eq_ok.mp h
    dsimp only at h
    split at h
    · cases h
    · next key hkey =>
        split_ifs at h with hallows
        split at h
        · cases h
        · next payload hpayload =>
            obtain ⟨claims, hclaims, h⟩ := Checked.bind_eq_ok.mp h
            obtain ⟨_, haudience, h⟩ := Checked.bind_eq_ok.mp h
            obtain ⟨expiry, htimes, h⟩ := Checked.bind_eq_ok.mp h
            exact ⟨alg, kid, key, payload, claims, expiry, hheader, hkey, by simpa using hallows,
              hpayload, hclaims, haudience, htimes, Checked.pure_eq_ok.mp h⟩
  · rintro ⟨alg, kid, key, payload, claims, expiry, hheader, hkey, hallows, hpayload, hclaims,
      haudience, htimes, htok⟩
    refine Checked.bind_eq_ok.mpr ⟨(alg, kid), hheader, ?_⟩
    simp only [hkey, hallows, Bool.not_true, Bool.false_eq_true, if_false, hpayload]
    exact Checked.bind_eq_ok.mpr ⟨claims, hclaims, Checked.bind_eq_ok.mpr ⟨(), haudience,
      Checked.bind_eq_ok.mpr ⟨expiry, htimes, Checked.pure_eq_ok.mpr htok⟩⟩⟩

/-- The identity of a JWK determines the provider and the declared algorithm. -/
def SameIdentity (keys keys' : KeyFinder K) : Prop :=
  ∀ kid kid' key key', keys kid = some key → keys' kid' = some key' → key.jwk = key'.jwk →
    key.provider = key'.provider ∧ key.alg = key'.alg

theorem allows_congr {k k' : SigningKey K} (halg : k.alg = k'.alg) (hjwk : k.jwk = k'.jwk)
    (alg : String) : k.allows L alg = k'.allows L alg := by
  rw [SigningKey.allows, SigningKey.allows, halg, hjwk]

/-- A token that was accepted is accepted again, until it expires, while its
    kid names a key of the same identity. -/
theorem checkToken_later {keys keys' : KeyFinder K} {leeway now now' : Int} {raw : String}
    {tok : Token K Bytes} {key' : Key K} (h : checkToken L J keys leeway raw now = .ok tok)
    (hle : now ≤ now') (hlive : now' < tok.expiry + leeway) (hkey' : keys' tok.keyID = some key')
    (hjwk : key'.jwk = tok.key) (hsame : SameIdentity keys keys') :
    checkToken L J keys' leeway raw now' = .ok tok := by
  obtain ⟨alg, kid, key, payload, claims, expiry, hheader, hkey, hallows, hpayload, hclaims,
    haudience, htimes, rfl⟩ := checkToken_eq_ok.mp h
  have hid : key.jwk = key'.jwk := hjwk.symm
  obtain ⟨hprovider, halg⟩ := hsame kid kid key key' hkey hkey' hid
  refine checkToken_eq_ok.mpr ⟨alg, kid, key', payload, claims, expiry, hheader, hkey', ?_, ?_,
    hclaims, ?_, checkTimes_later htimes hle hlive, ?_⟩
  · rw [← allows_congr halg hid]
    exact hallows
  · rw [← hid]
    exact hpayload
  · rw [← hprovider]
    exact haudience
  · rw [tokenOf, tokenOf, hprovider, hid]

/-! ## The cache -/

variable [DecidableEq Digest]

theorem cacheGet_eq_some {size : Nat} {c : Lru Digest (Token K Bytes) size} {digest : Digest}
    {now leeway : Int} {tok : Token K Bytes} (h : (cacheGet c digest now leeway).1 = some tok) :
    (digest, tok) ∈ c.entries ∧ now < tok.expiry + leeway := by
  rw [cacheGet] at h
  split at h
  · cases h
  · next tok' hget =>
      split_ifs at h with hlive
      obtain rfl : tok' = tok := Option.some.inj h
      exact ⟨Lru.get_eq_some hget, hlive⟩

theorem mem_cacheGet {size : Nat} {c : Lru Digest (Token K Bytes) size} {digest : Digest}
    {now leeway : Int} {e : Digest × Token K Bytes}
    (h : e ∈ (cacheGet c digest now leeway).2.entries) : e ∈ c.entries := by
  rw [cacheGet] at h
  split at h
  · exact Lru.mem_get h
  · split_ifs at h
    · exact Lru.mem_get h
    · exact Lru.mem_get (Lru.mem_remove h)

variable (L J) in
/-- Every cached token came out of the checks of a past call, for the text with
    its digest. -/
def Remembers (past : List (Call K)) (v : Verifier K Bytes Digest) : Prop :=
  ∀ c, v.cache = some c → ∀ e ∈ c.entries, ∃ call ∈ past, e.1 = J.sha256 call.raw ∧
    checkToken L J call.keys v.opts.leeway call.raw call.now = .ok e.2

omit [DecidableEq Digest] in
theorem Remembers.mono {past past' : List (Call K)} {v : Verifier K Bytes Digest}
    (h : Remembers L J past v) (hsub : past ⊆ past') : Remembers L J past' v := by
  intro c hc e he
  obtain ⟨call, hcall, hchecked⟩ := h c hc e he
  exact ⟨call, hsub hcall, hchecked⟩

omit [DecidableEq Digest] in
theorem remembers_new (opts : Options K Bytes) : Remembers L J [] (new Digest opts) := by
  intro c hc e he
  change (if 0 < opts.withDefaults.cacheSize then some (Lru.empty _ _ _) else none) = some c at hc
  split_ifs at hc
  obtain rfl := Option.some.inj hc
  cases he

theorem Remembers.check {past : List (Call K)} {v : Verifier K Bytes Digest} {call : Call K}
    (h : Remembers L J past v) :
    Remembers L J (call :: past)
      (check L J v call.keys call.raw (J.sha256 call.raw) call.now).2 := by
  rw [Verify.check]
  split
  · exact h.mono (List.subset_cons_self _ _)
  · next tok hchecked =>
      intro c hc e he
      obtain ⟨c', hc', rfl⟩ := Option.map_eq_some_iff.mp hc
      rcases Lru.mem_add he with rfl | hold
      · exact ⟨call, List.mem_cons_self, rfl, hchecked⟩
      · exact h.mono (List.subset_cons_self _ _) c' hc' e hold

theorem check_opts (v : Verifier K Bytes Digest) (keys : KeyFinder K) (raw : String)
    (digest : Digest) (now : Int) : (check L J v keys raw digest now).2.opts = v.opts := by
  rw [check]
  split <;> rfl

variable [DecidableEq K]

theorem cached_eq_some {v : Verifier K Bytes Digest} {keys : KeyFinder K} {digest : Digest}
    {now : Int} {tok : Token K Bytes} (h : (cached v keys digest now).1 = some tok) :
    (∃ c, v.cache = some c ∧ (digest, tok) ∈ c.entries) ∧ now < tok.expiry + v.opts.leeway ∧
      ∃ key, keys tok.keyID = some key ∧ key.jwk = tok.key := by
  rw [cached] at h
  split at h
  · cases h
  · next c hc =>
      obtain ⟨hfound, hserved⟩ := Option.filter_eq_some_iff.mp h
      obtain ⟨hentry, hlive⟩ := cacheGet_eq_some hfound
      obtain ⟨key, hkey, hjwk⟩ := (Option.any_eq_true _ _).mp hserved
      exact ⟨⟨c, hc, hentry⟩, hlive, key, hkey, of_decide_eq_true hjwk⟩

theorem cached_opts (v : Verifier K Bytes Digest) (keys : KeyFinder K) (digest : Digest)
    (now : Int) : (cached v keys digest now).2.opts = v.opts := by
  rw [cached]
  split <;> rfl

theorem Remembers.cached {past : List (Call K)} {v : Verifier K Bytes Digest} {keys : KeyFinder K}
    {digest : Digest} {now : Int} (h : Remembers L J past v) :
    Remembers L J past (cached v keys digest now).2 := by
  rw [Verify.cached]
  split
  · exact h
  · next c hc =>
      intro c' hc' e he
      obtain rfl := Option.some.inj hc'
      exact h c hc e (mem_cacheGet he)

/-! ## Runs -/

theorem verify_of_cached {v : Verifier K Bytes Digest} {call : Call K} {tok : Token K Bytes}
    (h : (cached v call.keys (J.sha256 call.raw) call.now).1 = some tok) :
    verify L J v call = (afterAdmission v.opts call.now tok,
      (cached v call.keys (J.sha256 call.raw) call.now).2) := by
  rw [verify, ← cached_opts v call.keys (J.sha256 call.raw) call.now]
  generalize cached v call.keys (J.sha256 call.raw) call.now = r at h
  obtain ⟨found, v'⟩ := r
  obtain rfl : found = some tok := h
  rfl

theorem verify_of_not_cached {v : Verifier K Bytes Digest} {call : Call K}
    (h : (cached v call.keys (J.sha256 call.raw) call.now).1 = none) :
    verify L J v call =
      ((checkToken L J call.keys v.opts.leeway call.raw call.now).bind (afterAdmission v.opts call.now),
        (check L J (cached v call.keys (J.sha256 call.raw) call.now).2 call.keys call.raw
          (J.sha256 call.raw) call.now).2) := by
  rw [verify, ← cached_opts v call.keys (J.sha256 call.raw) call.now]
  generalize cached v call.keys (J.sha256 call.raw) call.now = r at h
  obtain ⟨found, v'⟩ := r
  obtain rfl : found = none := h
  dsimp only
  rw [check]
  cases checkToken L J call.keys v'.opts.leeway call.raw call.now with
  | error e => rfl
  | ok tok => rfl

variable (L J) in
/-- The outcome of a call without a cache. -/
def plainOutcome (opts : Options K Bytes) (call : Call K) : Except Error (Token K Bytes) :=
  (verify L J (new Digest { opts with cacheSize := -1 }) call).1

theorem plainOutcome_eq (opts : Options K Bytes) (call : Call K) :
    plainOutcome L J opts call =
      (checkToken L J call.keys opts.withDefaults.leeway call.raw call.now).bind
        (afterAdmission opts.withDefaults call.now) := by
  rw [plainOutcome, verify_of_not_cached rfl]
  rfl

/-- One call has the outcome that it has without a cache, and the cache
    remembers it. -/
theorem verify_transparent {opts : Options K Bytes} {past : List (Call K)}
    {v : Verifier K Bytes Digest} {call : Call K} (hopts : v.opts = opts.withDefaults)
    (hsha : Function.Injective J.sha256) (h : Remembers L J past v)
    (hclock : ∀ earlier ∈ past, earlier.now ≤ call.now)
    (hsame : ∀ earlier ∈ past, SameIdentity earlier.keys call.keys) :
    (verify L J v call).1 = plainOutcome L J opts call ∧
      Remembers L J (call :: past) (verify L J v call).2 ∧
      (verify L J v call).2.opts = opts.withDefaults := by
  rw [plainOutcome_eq, ← hopts]
  cases hcached : (cached v call.keys (J.sha256 call.raw) call.now).1 with
  | none =>
    rw [verify_of_not_cached hcached]
    refine ⟨rfl, h.cached.check, ?_⟩
    rw [check_opts, cached_opts]
  | some tok =>
    rw [verify_of_cached hcached]
    obtain ⟨⟨c, hc, hentry⟩, hlive, key, hkey, hjwk⟩ := cached_eq_some hcached
    obtain ⟨earlier, hearlier, hdigest, hchecked⟩ := h c hc _ hentry
    have hraw : earlier.raw = call.raw := (hsha hdigest).symm
    rw [hraw] at hchecked
    have hagain := checkToken_later hchecked (hclock earlier hearlier) hlive hkey hjwk
      (hsame earlier hearlier)
    refine ⟨?_, h.cached.mono (List.subset_cons_self _ _), cached_opts _ _ _ _⟩
    rw [hagain]
    rfl

theorem outcomes_transparent {opts : Options K Bytes} (hsha : Function.Injective J.sha256)
    {calls past : List (Call K)} {v : Verifier K Bytes Digest}
    (hopts : v.opts = opts.withDefaults) (h : Remembers L J past v)
    (hclock : (past.reverse ++ calls).Pairwise fun a b => a.now ≤ b.now)
    (hsame : (past.reverse ++ calls).Pairwise fun a b => SameIdentity a.keys b.keys) :
    outcomes L J v calls = calls.map (plainOutcome L J opts) := by
  induction calls generalizing past v with
  | nil => rfl
  | cons call calls ih =>
    have hfrom : ∀ earlier ∈ past, earlier.now ≤ call.now ∧
        SameIdentity earlier.keys call.keys := fun earlier hmem =>
      ⟨(List.pairwise_append.mp hclock).2.2 _ (List.mem_reverse.mpr hmem) _ List.mem_cons_self,
        (List.pairwise_append.mp hsame).2.2 _ (List.mem_reverse.mpr hmem) _ List.mem_cons_self⟩
    obtain ⟨hout, hnext, hopts'⟩ := verify_transparent hopts hsha h
      (fun earlier hmem => (hfrom earlier hmem).1) (fun earlier hmem => (hfrom earlier hmem).2)
    rw [List.append_cons, ← List.reverse_cons] at hclock hsame
    rw [outcomes, List.map_cons, hout, ih hopts' hnext hclock hsame]

/-- For every run of calls, each outcome is the one without a cache.  A token
    is served from the cache only before it expires and while its kid names the
    key that verified it. -/
theorem cache_is_transparent (L : JwkLibrary Raw K Thumb) (J : JwtLibrary K Bytes Digest)
    (hsha : Function.Injective J.sha256) (opts : Options K Bytes) (calls : List (Call K))
    (hclock : calls.Pairwise fun a b => a.now ≤ b.now)
    (hsame : calls.Pairwise fun a b => SameIdentity a.keys b.keys) :
    outcomes L J (new Digest opts) calls = calls.map (plainOutcome L J opts) ∧
      ∀ (v : Verifier K Bytes Digest) (call : Call K) (tok : Token K Bytes),
        (cached v call.keys (J.sha256 call.raw) call.now).1 = some tok →
          call.now < tok.expiry + v.opts.leeway ∧
            ∃ key, call.keys tok.keyID = some key ∧ key.jwk = tok.key :=
  ⟨outcomes_transparent hsha rfl (remembers_new opts) hclock hsame,
    fun _ _ _ hserved => (cached_eq_some hserved).2⟩

/-- A library for which the header names `k1` and the token is valid from
    second 10 to second 100. -/
def plainJwt : JwtLibrary String String String where
  sha256 := id
  base64url := .ok
  object _ := some (Dict.ofList [("alg", "EdDSA"), ("kid", "k1")])
  leadingObject _ := some (Dict.ofList [("exp", "100"), ("iat", "10")], true)
  string := some
  decode := .number
  float64 text := if text = "100" then some 100 else some 10
  roundFloat := id
  jwsVerify raw _ _ := some raw
  quote _ := ""
  rfc3339 _ := ""

def publishesK1 : KeyFinder String := fun kid =>
  if kid = "k1" then some ⟨⟨"k1", "jwk1", "EdDSA"⟩, ⟨"keycloak", "", "", [], false, "", ""⟩⟩ else none

/-- A token that is verified, served from the cache, and refused when its key
    is no longer published. -/
def revocation : List (Call String) :=
  [⟨50 * 10 ^ 9, publishesK1, "h.p.s"⟩, ⟨60 * 10 ^ 9, publishesK1, "h.p.s"⟩,
    ⟨70 * 10 ^ 9, fun _ => none, "h.p.s"⟩]

theorem sameIdentity_publishesK1 : SameIdentity publishesK1 publishesK1 := by
  intro kid kid' key key' hkey hkey' _
  rw [publishesK1] at hkey hkey'
  split_ifs at hkey hkey'
  rw [← Option.some.inj hkey, ← Option.some.inj hkey']
  exact ⟨rfl, rfl⟩

theorem revoked_key_is_refused :
    outcomes okpLibrary plainJwt (new String ⟨0, 0, none⟩) revocation =
        revocation.map (plainOutcome okpLibrary plainJwt ⟨0, 0, none⟩) ∧
      (outcomes okpLibrary plainJwt (new String ⟨0, 0, none⟩) revocation).map Except.isOk =
        [true, true, false] := by
  have hclock : revocation.Pairwise fun a b => a.now ≤ b.now := by simp [revocation]
  have hsame : revocation.Pairwise fun a b => SameIdentity a.keys b.keys := by
    simp only [revocation, List.pairwise_cons, List.mem_cons, List.not_mem_nil, or_false,
      forall_eq_or_imp, forall_eq, IsEmpty.forall_iff, implies_true, List.Pairwise.nil, and_true]
    exact ⟨⟨sameIdentity_publishesK1, fun _ _ _ _ _ h => nomatch h⟩, fun _ _ _ _ _ h => nomatch h⟩
  exact ⟨(cache_is_transparent okpLibrary plainJwt Function.injective_id ⟨0, 0, none⟩ revocation
    hclock hsame).1, by decide +kernel⟩

end Verify

end AuthzAgent
