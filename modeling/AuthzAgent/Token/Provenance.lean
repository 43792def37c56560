/-
  AuthzAgent.Token.Provenance

  Where the served keys come from.  A run is one `Load` and any number of
  `Refresh` calls.  Beside the snapshot it carries, for each provider, the body
  that was adopted last; the list of the provider is always the usable keys of
  that body, and the index by kid is exactly the union of the lists.
-/

import AuthzAgent.Token.Keys

namespace AuthzAgent.Token

variable {Raw K Thumb : Type} (L : JwkLibrary Raw K Thumb)

/-! ## Usable keys -/

theorem algorithmKeyType_ne_rsa {alg curve : String} (h : algorithmCurve alg = some curve) :
    algorithmKeyType alg ≠ some "RSA" := by
  obtain ⟨before, after, hcurves, -⟩ := List.lookup_eq_some_iff.mp h
  have hcases : alg ∈ algorithmCurves.map Prod.fst := by
    rw [hcurves]
    simp
  intro hrsa
  simp only [algorithmCurves, List.map_cons, List.map_nil, List.mem_cons, List.not_mem_nil,
    or_false] at hcases
  rcases hcases with rfl | rfl | rfl | rfl <;> exact absurd hrsa (by decide)

/-- An algorithm is accepted for the type and the curve of a key. -/
def AcceptedFor (k : K) (alg : String) : Prop :=
  algorithmKeyType alg = some (L.keyType k) ∧
  ∀ curve, algorithmCurve alg = some curve → curve = L.curveOf k

structure Usable (k : SigningKey K) : Prop where
  /-- The key is public. -/
  isPublic : ∃ key, L.publicKeyOf key = some k.jwk
  /-- Its type is one that accepted algorithms use. -/
  keyType : L.keyType k.jwk ∈ ["RSA", "EC", "OKP"]
  /-- It verifies accepted algorithms of its type and curve only. -/
  allows : ∀ alg, k.allows L alg = true → AcceptedFor L k.jwk alg

/-- No key type is empty, so a lookup that gives one found it. -/
theorem algorithmKeyType_eq_some {alg kty : String} (h : (algorithmKeyType alg).getD "" = kty)
    (hkty : kty ∈ ["RSA", "EC", "OKP"]) : algorithmKeyType alg = some kty := by
  cases halg : algorithmKeyType alg with
  | some t => rw [← h, halg, Option.getD_some]
  | none =>
    rw [halg, Option.getD_none] at h
    rw [← h] at hkty
    exact absurd hkty (by decide)

theorem acceptedFor_declared {pub : K} {alg : String}
    (htype : (algorithmKeyType alg).getD "" = L.keyType pub)
    (hkty : L.keyType pub ∈ ["RSA", "EC", "OKP"]) (husable : usableKey L pub alg = true) :
    AcceptedFor L pub alg := by
  have hsome : algorithmKeyType alg = some (L.keyType pub) := algorithmKeyType_eq_some htype hkty
  refine ⟨hsome, fun curve hcurve => ?_⟩
  rw [usableKey] at husable
  cases hrsa : L.rsaPublicKey pub with
  | some ne =>
    -- an RSA key declares no algorithm with a curve
    rw [L.keyType_rsaPublicKey pub ne.1 ne.2 hrsa] at hsome
    exact absurd hsome (algorithmKeyType_ne_rsa hcurve)
  | none =>
    simp only [hrsa, hcurve, Option.all_some, Bool.and_eq_true, beq_iff_eq] at husable
    exact husable.2

theorem usable_signingKey {raw : Raw} {k : SigningKey K} (h : signingKey L raw = some k) :
    Usable L k := by
  simp only [signingKey, Option.bind_eq_bind, Option.bind_eq_some_iff, Option.guard_eq_some',
    Option.pure_def, Option.some.injEq] at h
  obtain ⟨key, -, -, -, -, -, -, hkty, -, halg, pub, hpub, -, husable, rfl⟩ := h
  have htype : L.keyType pub = L.keyType key := L.keyType_publicKeyOf key pub hpub
  rw [← htype] at hkty halg
  refine ⟨⟨key, hpub⟩, hkty, fun alg hallows => ?_⟩
  rw [SigningKey.allows] at hallows
  cases hdeclared : L.algorithm key with
  | some declared =>
    simp only [hdeclared, Option.all_some, Option.getD_some, beq_iff_eq] at halg hallows husable
    have haccepted := acceptedFor_declared L halg hkty husable
    -- a declared algorithm is accepted, so it is not empty
    have hne : declared ≠ "" := by
      rintro rfl
      have hnone : algorithmKeyType "" = none := by decide
      rw [AcceptedFor, hnone] at haccepted
      cases haccepted.1
    rw [if_pos hne, beq_iff_eq] at hallows
    rw [hallows]
    exact haccepted
  | none =>
    simp only [hdeclared, Option.getD_none, ne_eq, not_true_eq_false, if_false] at hallows
    split_ifs at hallows with hkey
    refine ⟨algorithmKeyType_eq_some hkey hkty, fun curve hcurve => ?_⟩
    rw [hcurve] at hallows
    exact beq_iff_eq.mp hallows

/-! ## The usable keys of a body -/

def firstPerKid : List String → List (Key K) → List (Key K)
  | _, [] => []
  | seen, k :: ks =>
    if k.id ∈ seen then firstPerKid seen ks else k :: firstPerKid (k.id :: seen) ks

theorem mem_of_mem_firstPerKid {ks : List (Key K)} {seen : List String} {k : Key K}
    (h : k ∈ firstPerKid seen ks) : k ∈ ks ∧ k.id ∉ seen := by
  induction ks generalizing seen with
  | nil => cases h
  | cons a ks ih =>
    rw [firstPerKid] at h
    split_ifs at h with hseen
    · exact ⟨List.mem_cons_of_mem _ (ih h).1, (ih h).2⟩
    · rcases List.mem_cons.mp h with rfl | h
      · exact ⟨List.mem_cons_self, hseen⟩
      · exact ⟨List.mem_cons_of_mem _ (ih h).1,
          fun hmem => (ih h).2 (List.mem_cons_of_mem _ hmem)⟩

theorem nodup_firstPerKid (seen : List String) (ks : List (Key K)) :
    ((firstPerKid seen ks).map fun k => k.id).Nodup := by
  induction ks generalizing seen with
  | nil => simp [firstPerKid]
  | cons a ks ih =>
    rw [firstPerKid]
    split_ifs with hseen
    · exact ih seen
    · rw [List.map_cons, List.nodup_cons]
      refine ⟨fun hmem => ?_, ih _⟩
      obtain ⟨k, hk, hid⟩ := List.mem_map.mp hmem
      exact (mem_of_mem_firstPerKid hk).2 (hid ▸ List.mem_cons_self)

def entries : Body Raw → List Raw
  | some (.array entries) => entries
  | _ => []

/-- The keys of entries that are not skipped. -/
def entryKeys (p : Provider) (raws : List Raw) : List (Key K) :=
  (raws.filterMap (entryKey L)).map fun kt => ⟨kt.1, p⟩

def usableKeys (p : Provider) (body : Body Raw) : List (Key K) :=
  firstPerKid [] (entryKeys L p (entries body))

variable {L} in
theorem usable_of_mem_usableKeys {p : Provider} {body : Body Raw} {k : Key K}
    (h : k ∈ usableKeys L p body) : k.provider = p ∧ Usable L k.toSigningKey := by
  obtain ⟨kt, hkt, rfl⟩ := List.mem_map.mp (mem_of_mem_firstPerKid h).1
  obtain ⟨raw, -, hraw⟩ := List.mem_filterMap.mp hkt
  obtain ⟨key, hkey, hrest⟩ := Option.bind_eq_some_iff.mp hraw
  obtain ⟨thumb, -, hpair⟩ := Option.bind_eq_some_iff.mp hrest
  obtain rfl : (key, thumb) = kt := Option.some.inj hpair
  exact ⟨rfl, usable_signingKey L hkey⟩

section Fetch

variable [DecidableEq Thumb]

variable {L} in
/-- The loop of `parseJWKS` collects the first key of each kid. -/
theorem out_of_foldlM_parseEntry {p : Provider} {raws : List Raw} {st st' : ParseState K Thumb}
    {seen : List String} (hseen : ∀ kid, kid ∈ seen ↔ kid ∈ st.thumbprints)
    (h : raws.foldlM (parseEntry L p) st = .ok st') :
    st'.out = st.out ++ firstPerKid seen (entryKeys L p raws) := by
  induction raws generalizing st seen with
  | nil =>
    obtain rfl : st = st' := Except.ok.inj h
    simp [entryKeys, firstPerKid]
  | cons raw raws ih =>
    obtain ⟨next, hstep, hrest⟩ := Checked.bind_eq_ok.mp h
    rw [parseEntry] at hstep
    cases hkey : entryKey L raw with
    | none =>
      simp only [hkey, Except.ok.injEq] at hstep
      subst hstep
      have hseen' : ∀ kid, kid ∈ seen ↔
          kid ∈ (ParseState.mk st.out st.thumbprints (st.skipped + 1)).thumbprints := hseen
      have hout := ih hseen' hrest
      rw [hout]
      simp [entryKeys, hkey]
    | some kt =>
      have hkeys : entryKeys L p (raw :: raws) = ⟨kt.1, p⟩ :: entryKeys L p raws := by
        simp [entryKeys, hkey]
      simp only [hkey] at hstep
      rw [hkeys, firstPerKid]
      cases hlookup : st.thumbprints.lookup kt.1.id with
      | some earlier =>
        simp only [hlookup] at hstep
        split_ifs at hstep with hsame
        obtain rfl := Except.ok.inj hstep
        have hmem : kt.1.id ∈ seen :=
          (hseen _).mpr (AList.lookup_isSome.mp (by rw [hlookup]; rfl))
        rw [if_pos hmem, ih hseen hrest]
      | none =>
        simp only [hlookup, Except.ok.injEq] at hstep
        have hnot : kt.1.id ∉ seen := fun hmem =>
          absurd ((hseen _).mp hmem) (AList.lookup_eq_none.mp hlookup)
        subst hstep
        have hseen' : ∀ kid, kid ∈ kt.1.id :: seen ↔
            kid ∈ st.thumbprints.insert kt.1.id kt.2 := fun kid => by
          rw [List.mem_cons, AList.mem_insert, hseen]
        have hout := ih hseen' hrest
        rw [if_neg hnot, hout, List.append_assoc, List.singleton_append]

omit [DecidableEq Thumb] in
theorem not_seen_yet (kid : String) : kid ∈ ([] : List String) ↔ kid ∈ (∅ : Dict Thumb) := by
  simp

variable {L} in
theorem parseEntries_ok {p : Provider} {raws : List Raw} {keys : List (Key K)}
    (h : parseEntries L p raws = .ok keys) :
    keys = firstPerKid [] (entryKeys L p raws) := by
  obtain ⟨st, hfold, hout⟩ := Checked.bind_eq_ok.mp h
  have hfirst := out_of_foldlM_parseEntry not_seen_yet hfold
  split_ifs at hout with hempty
  rw [← Checked.pure_eq_ok.mp hout, hfirst, List.nil_append]

variable {L} in
theorem parseEntries_noUsableKey {p : Provider} {raws : List Raw} {skipped : Nat}
    (h : parseEntries L p raws = .error (.noUsableKey skipped)) :
    firstPerKid [] (entryKeys L p raws) = [] := by
  rcases Checked.bind_eq_error.mp h with hfold | ⟨st, hfold, hout⟩
  · -- a round fails only on two keys of one kid
    obtain ⟨st, raw, -, hround⟩ := Checked.exists_of_foldlM_eq_error hfold
    rw [parseEntry] at hround
    split at hround
    · cases hround
    · split at hround
      · split_ifs at hround
        cases hround
      · cases hround
  · have hfirst := out_of_foldlM_parseEntry not_seen_yet hfold
    split_ifs at hout with hempty
    · rw [← List.nil_append (firstPerKid _ _), ← hfirst]
      exact List.isEmpty_iff.mp hempty
    · cases hout

variable {L} in
theorem parseJWKS_ok {p : Provider} {body : Body Raw} {keys : List (Key K)}
    (h : parseJWKS L p body = .ok keys) : keys = usableKeys L p body := by
  rcases body with - | - | - | raws | -
  · cases h
  · cases h
  · exact parseEntries_ok h
  · exact parseEntries_ok h
  · cases h

variable {L} in
theorem parseJWKS_noUsableKey {p : Provider} {body : Body Raw} {skipped : Nat}
    (h : parseJWKS L p body = .error (.noUsableKey skipped)) : usableKeys L p body = [] := by
  rcases body with - | - | - | raws | -
  · cases h
  · cases h
  · exact parseEntries_noUsableKey h
  · exact parseEntries_noUsableKey h
  · cases h

/-- The body of a response that a reload adopts: a JWKS that parses, with or
    without a usable key. -/
def adopts (p : Provider) : Response Raw → Option (Body Raw)
  | .error _ => none
  | .ok body =>
    match parseJWKS L p body with
    | .ok _ => some body
    | .error (.noUsableKey _) => some body
    | .error _ => none

/-- A reload gives a provider the usable keys of the body it adopts, and leaves
    its list alone when it adopts none. -/
theorem reload_eq (old : List (Key K)) (p : Provider) (response : Response Raw) :
    (reload L old p response).1 =
      match adopts L p response with
      | some body => usableKeys L p body
      | none => old := by
  cases response with
  | error reason => rfl
  | ok body =>
    rw [reload, fetch, adopts]
    cases hparse : parseJWKS L p body with
    | ok keys => exact parseJWKS_ok hparse
    | error e =>
      cases e with
      | noUsableKey skipped => exact (parseJWKS_noUsableKey hparse).symm
      | _ => rfl

end Fetch

/-! ## Snapshots -/

/-- The index by kid is the union of the lists, in which no two keys share a
    kid. -/
structure Indexed (ps : List Provider) (s : Snapshot K) : Prop where
  unique : ∀ p ∈ ps, ∀ q ∈ ps, ∀ k ∈ s.keysOf p, ∀ k' ∈ s.keysOf q, k.id = k'.id →
    p = q ∧ k = k'
  find_iff : ∀ kid k, s.find kid = some k ↔ ∃ p ∈ ps, k ∈ s.keysOf p ∧ k.id = kid

def SharesKid (ps : List Provider) (lists : Provider → List (Key K)) : Prop :=
  ∃ p ∈ ps, ∃ q ∈ ps, p ≠ q ∧ ∃ k ∈ lists p, ∃ k' ∈ lists q, k.id = k'.id

theorem SharesKid.congr {ps : List Provider} {lists lists' : Provider → List (Key K)}
    (h : SharesKid ps lists) (heq : ∀ p ∈ ps, lists p = lists' p) : SharesKid ps lists' := by
  obtain ⟨p, hp, q, hq, hne, k, hk, k', hk', hid⟩ := h
  rw [heq p hp] at hk
  rw [heq q hq] at hk'
  exact ⟨p, hp, q, hq, hne, k, hk, k', hk', hid⟩

theorem mem_published {ps : List Provider} {lists : Provider → List (Key K)} {p : Provider}
    {k : Key K} : (p, k) ∈ (ps.flatMap fun p => (lists p).map (p, ·)) ↔ p ∈ ps ∧ k ∈ lists p := by
  simp only [List.mem_flatMap, List.mem_map, Prod.mk.injEq]
  constructor
  · rintro ⟨q, hq, k', hk', rfl, rfl⟩
    exact ⟨hq, hk'⟩
  · rintro ⟨hp, hk⟩
    exact ⟨p, hp, k, hk, rfl, rfl⟩

theorem newSnapshot_ok {ps : List Provider} {byProvider : Dict (List (Key K))} {s : Snapshot K}
    (h : newSnapshot ps byProvider = .ok s) : s.byProvider = byProvider ∧ Indexed ps s := by
  obtain ⟨byKID, hfold, hs⟩ := Checked.bind_eq_ok.mp h
  obtain rfl := Checked.pure_eq_ok.mp hs
  obtain ⟨hnodup, -, hlookup⟩ := Dict.lookup_foldlM_insertNew _ _ _ hfold
  refine ⟨rfl, fun p hp q hq k hk k' hk' hid => ?_, fun kid k => ?_⟩
  · have heq : (p, k) = (q, k') := List.inj_on_of_nodup_map hnodup
      (mem_published.mpr ⟨hp, hk⟩) (mem_published.mpr ⟨hq, hk'⟩) hid
    exact Prod.mk.inj heq
  · rw [Snapshot.find, hlookup, AList.lookup_empty]
    constructor
    · rintro (hnone | ⟨⟨p, k'⟩, hmem, hid, rfl⟩)
      · cases hnone
      · exact ⟨p, (mem_published.mp hmem).1, (mem_published.mp hmem).2, hid⟩
    · rintro ⟨p, hp, hk, hid⟩
      exact .inr ⟨(p, k), mem_published.mpr ⟨hp, hk⟩, hid, rfl⟩

/-- Lists that each have distinct kids and share none make a snapshot. -/
theorem exists_newSnapshot {ps : List Provider} {byProvider : Dict (List (Key K))}
    (hps : ps.Nodup)
    (hkids : ∀ p ∈ ps, ((Dict.getD byProvider p.id []).map fun k => k.id).Nodup)
    (hshare : ¬ SharesKid ps fun p => Dict.getD byProvider p.id []) :
    ∃ s, newSnapshot ps byProvider = .ok s := by
  have hpairs : ((ps.flatMap fun p => (Dict.getD byProvider p.id []).map (p, ·)).map
      fun pk => pk.2.id).Nodup := by
    rw [List.map_flatMap, List.nodup_flatMap]
    refine ⟨fun p hp => ?_, hps.pairwise_of_forall_ne fun p hp q hq hne => ?_⟩
    · simpa only [List.map_map, Function.comp_def] using hkids p hp
    · simp only [Function.onFun, List.map_map, Function.comp_def]
      intro kid hkid hkid'
      obtain ⟨k, hk, rfl⟩ := List.mem_map.mp hkid
      obtain ⟨k', hk', hid⟩ := List.mem_map.mp hkid'
      exact hshare ⟨p, hp, q, hq, hne, k, hk, k', hk', hid.symm⟩
  obtain ⟨byKID, hfold⟩ := Dict.exists_foldlM_insertNew (fun pk : Provider × Key K => pk.2.id)
    (fun pk => pk.2) (fun earlier pk => (⟨pk.2.id, earlier.provider.id, pk.1.id⟩ : SharedKid))
    hpairs (fun pk _ => AList.lookup_empty _)
  refine ⟨⟨byKID, byProvider⟩, ?_⟩
  rw [newSnapshot, hfold]
  rfl

/-! ## Runs -/

section Runs

variable [DecidableEq Thumb]

def offered (old : Snapshot K) (responses : String → Response Raw) (p : Provider) : List (Key K) :=
  (reload L (old.keysOf p) p (responses p.id)).1

/-- A snapshot with the body adopted last for each provider. -/
structure Tracked (Raw K : Type) where
  snap : Snapshot K
  adopted : Provider → Body Raw

open Classical in
/-- A reload adopts the bodies it can read, unless their keys share a kid. -/
noncomputable def Tracked.refresh (ps : List Provider) (t : Tracked Raw K)
    (responses : String → Response Raw) : Tracked Raw K where
  snap := (Token.refresh L ps t.snap responses).1
  adopted :=
    if SharesKid ps (offered L t.snap responses) then t.adopted
    else fun p => (adopts L p (responses p.id)).getD (t.adopted p)

/-- The invariant of a run. -/
structure Provenance (ps : List Provider) (t : Tracked Raw K) : Prop where
  indexed : Indexed ps t.snap
  adopted : ∀ p ∈ ps, t.snap.keysOf p = usableKeys L p (t.adopted p)

variable {L}

theorem keysOf_reloaded {ps : List Provider} (hps : (ps.map Provider.id).Nodup)
    (old : Snapshot K) (responses : String → Response Raw) {p : Provider} (hp : p ∈ ps) :
    Dict.getD (reloaded L ps old responses) p.id [] = offered L old responses p :=
  Dict.getD_ofList_map hps hp []

theorem Provenance.offered_eq {ps : List Provider} {t : Tracked Raw K}
    (h : Provenance L ps t) (responses : String → Response Raw) {p : Provider} (hp : p ∈ ps) :
    offered L t.snap responses p =
      usableKeys L p ((adopts L p (responses p.id)).getD (t.adopted p)) := by
  rw [offered, reload_eq]
  cases adopts L p (responses p.id) with
  | some body => rfl
  | none => exact h.adopted p hp

/-- A reload replaces every list with the one it offers, or none when two
    providers share a kid. -/
theorem Provenance.refresh_cases {ps : List Provider} (hps : (ps.map Provider.id).Nodup)
    {t : Tracked Raw K} (h : Provenance L ps t) (responses : String → Response Raw) :
    (SharesKid ps (offered L t.snap responses) ∧ (Token.refresh L ps t.snap responses).1 = t.snap) ∨
    (¬ SharesKid ps (offered L t.snap responses) ∧
      Indexed ps (Token.refresh L ps t.snap responses).1 ∧
      ∀ p ∈ ps, (Token.refresh L ps t.snap responses).1.keysOf p =
        offered L t.snap responses p) := by
  have hlists : ∀ p ∈ ps, Dict.getD (reloaded L ps t.snap responses) p.id [] =
      offered L t.snap responses p := fun p hp => keysOf_reloaded hps t.snap responses hp
  rw [Token.refresh]
  cases hsnap : newSnapshot ps (reloaded L ps t.snap responses) with
  | ok snap =>
    obtain ⟨hby, hindexed⟩ := newSnapshot_ok hsnap
    have hkeys : ∀ p ∈ ps, snap.keysOf p = offered L t.snap responses p := by
      intro p hp
      rw [Snapshot.keysOf, hby, hlists p hp]
    refine .inr ⟨?_, hindexed, hkeys⟩
    rintro ⟨p, hp, q, hq, hne, k, hk, k', hk', hid⟩
    rw [← hkeys p hp] at hk
    rw [← hkeys q hq] at hk'
    exact hne (hindexed.unique p hp q hq k hk k' hk' hid).1
  | error e =>
    refine .inl ⟨?_, rfl⟩
    by_contra hnot
    obtain ⟨s, hs⟩ := exists_newSnapshot hps.of_map (fun p hp => by
      rw [hlists p hp, h.offered_eq responses hp]
      exact nodup_firstPerKid _ _) fun hshare => hnot (hshare.congr hlists)
    rw [hsnap] at hs
    cases hs

theorem Provenance.refresh {ps : List Provider} (hps : (ps.map Provider.id).Nodup)
    {t : Tracked Raw K} (h : Provenance L ps t) (responses : String → Response Raw) :
    Provenance L ps (t.refresh L ps responses) := by
  rcases h.refresh_cases hps responses with ⟨hshare, hsnap⟩ | ⟨hshare, hindexed, hkeys⟩
  · have hsame : t.refresh L ps responses = t := by
      rw [Tracked.refresh, hsnap, if_pos hshare]
    rw [hsame]
    exact h
  · refine ⟨hindexed, fun p hp => ?_⟩
    rw [Tracked.refresh, if_neg hshare]
    exact (hkeys p hp).trans (h.offered_eq responses hp)

theorem Provenance.run {ps : List Provider} (hps : (ps.map Provider.id).Nodup)
    {t : Tracked Raw K} (h : Provenance L ps t) (rs : List (String → Response Raw)) :
    Provenance L ps (rs.foldl (Tracked.refresh L ps) t) := by
  induction rs generalizing t with
  | nil => exact h
  | cons responses rs ih => exact ih (h.refresh hps responses)

/-! ## Load -/

def bodyOf : Response Raw → Body Raw
  | .ok body => body
  | .error _ => none

variable (L) in
/-- The body of the attempt that ends the retries. -/
def loadedBody (p : Provider) : Response Raw → List (Response Raw) → Body Raw
  | attempt, [] => bodyOf attempt
  | attempt, next :: more =>
    match fetch L p attempt with
    | .ok _ => bodyOf attempt
    | .error _ => loadedBody p next more

theorem fetch_ok {p : Provider} {response : Response Raw} {keys : List (Key K)}
    (h : fetch L p response = .ok keys) : keys = usableKeys L p (bodyOf response) := by
  cases response with
  | error reason => cases h
  | ok body => exact parseJWKS_ok h

theorem fetchWithRetry_ok {p : Provider} {attempt : Response Raw} {more : List (Response Raw)}
    {keys : List (Key K)} (h : fetchWithRetry L p attempt more = .ok keys) :
    keys = usableKeys L p (loadedBody L p attempt more) := by
  induction more generalizing attempt with
  | nil => exact fetch_ok h
  | cons next more ih =>
    rw [fetchWithRetry] at h
    rw [loadedBody]
    cases hfetch : fetch L p attempt with
    | ok keys' =>
      rw [hfetch] at h
      rw [← Except.ok.inj h]
      exact fetch_ok hfetch
    | error e =>
      rw [hfetch] at h
      exact ih h

theorem provenance_load {quote : String → String} {checkHTTPURL : String → Except String Unit}
    {caFileError : Provider → Option String} {ps : List Provider}
    {attempts : String → Response Raw × List (Response Raw)} {s : Snapshot K}
    (h : load L quote checkHTTPURL caFileError ps attempts = .ok s) :
    (ps.map Provider.id).Nodup ∧
      Provenance L ps ⟨s, fun p => loadedBody L p (attempts p.id).1 (attempts p.id).2⟩ := by
  rw [load] at h
  split at h
  · cases h
  rename_i hvalid
  split at h
  · cases h
  simp only [List.isEmpty_iff, List.filterMap_eq_nil_iff, List.forall_mem_map] at h
  split_ifs at h with hfetched
  have hps : (ps.map Provider.id).Nodup := by
    rw [validateConfig] at hvalid
    split_ifs at hvalid
    exact (nodup_of_validateFrom quote checkHTTPURL hvalid).1
  cases hsnap : newSnapshot ps (Dict.ofList ((ps.map fun p =>
      (p, fetchWithRetry L p (attempts p.id).1 (attempts p.id).2)).map fun r =>
        (r.1.id, r.2.toOption.getD []))) with
  | error e =>
    rw [hsnap] at h
    cases h
  | ok snap =>
    rw [hsnap] at h
    obtain rfl : snap = s := Except.ok.inj h
    obtain ⟨hby, hindexed⟩ := newSnapshot_ok hsnap
    refine ⟨hps, hindexed, fun p hp => ?_⟩
    rw [Snapshot.keysOf, hby, List.map_map]
    refine (Dict.getD_ofList_map hps hp []).trans ?_
    show (fetchWithRetry L p (attempts p.id).1 (attempts p.id).2).toOption.getD [] = _
    cases hkeys : fetchWithRetry L p (attempts p.id).1 (attempts p.id).2 with
    | ok keys => exact fetchWithRetry_ok hkeys
    | error e =>
      have hnone := hfetched p hp
      simp [hkeys] at hnone

end Runs

/-- After a load and any reloads, lookups serve exactly the lists of the
    providers, in which no two keys share a kid; the list of a provider is the
    usable keys of the body adopted last for it; and the next reload keeps the
    list of a provider whose fetch fails, empties one without a usable key,
    and changes nothing when two providers would share a kid. -/
theorem served_keys_are_published [DecidableEq Thumb] (quote : String → String)
    (checkHTTPURL : String → Except String Unit) (caFileError : Provider → Option String)
    (ps : List Provider) (attempts : String → Response Raw × List (Response Raw))
    (s : Snapshot K) (hload : load L quote checkHTTPURL caFileError ps attempts = .ok s)
    (rs : List (String → Response Raw)) :
    let t := rs.foldl (Tracked.refresh L ps)
      ⟨s, fun p => loadedBody L p (attempts p.id).1 (attempts p.id).2⟩
    (∀ p ∈ ps, ∀ kid k, t.snap.find kid = some k ∧ k.provider = p ↔
      k ∈ t.snap.keysOf p ∧ k.id = kid) ∧
    (∀ kid k, t.snap.find kid = some k → k.provider ∈ ps ∧ Usable L k.toSigningKey) ∧
    (∀ p ∈ ps, ∀ q ∈ ps, ∀ k ∈ t.snap.keysOf p, ∀ k' ∈ t.snap.keysOf q, k.id = k'.id →
      p = q ∧ k = k') ∧
    (∀ p ∈ ps, t.snap.keysOf p = usableKeys L p (t.adopted p)) ∧
    ∀ responses,
      (SharesKid ps (offered L t.snap responses) →
        (refresh L ps t.snap responses).1 = t.snap) ∧
      (¬ SharesKid ps (offered L t.snap responses) →
        ∀ p ∈ ps, (refresh L ps t.snap responses).1.keysOf p =
          match fetch L p (responses p.id) with
          | .ok keys => keys
          | .error (.noUsableKey _) => []
          | .error _ => t.snap.keysOf p) := by
  intro t
  obtain ⟨hps, hstart⟩ := provenance_load hload
  have h : Provenance L ps t := hstart.run hps rs
  -- a key of a list is of the provider of the list
  have hkey : ∀ p ∈ ps, ∀ k ∈ t.snap.keysOf p, k.provider = p ∧ Usable L k.toSigningKey := by
    intro p hp k hk
    rw [h.adopted p hp] at hk
    exact usable_of_mem_usableKeys hk
  refine ⟨fun p hp kid k => ?_, fun kid k hfind => ?_, h.indexed.unique, h.adopted,
    fun responses => ?_⟩
  · rw [h.indexed.find_iff]
    constructor
    · rintro ⟨⟨q, hq, hk, hid⟩, hprovider⟩
      rw [← hprovider, (hkey q hq k hk).1]
      exact ⟨hk, hid⟩
    · rintro ⟨hk, hid⟩
      exact ⟨⟨p, hp, hk, hid⟩, (hkey p hp k hk).1⟩
  · obtain ⟨q, hq, hk, -⟩ := (h.indexed.find_iff kid k).mp hfind
    obtain ⟨hprovider, husable⟩ := hkey q hq k hk
    exact ⟨hprovider ▸ hq, husable⟩
  · rcases h.refresh_cases hps responses with ⟨hshare, hsame⟩ | ⟨hshare, -, hkeys⟩
    · exact ⟨fun _ => hsame, fun hnot => absurd hshare hnot⟩
    · refine ⟨fun hyes => absurd hyes hshare, fun _ p hp => ?_⟩
      rw [hkeys p hp, offered, reload]
      cases fetch L p (responses p.id) with
      | ok keys => rfl
      | error e => cases e <;> rfl

/-- A provider with an address of its JWKS. -/
def keycloak : Provider := ⟨"keycloak", "", "http://keycloak/certs", [], false, "", ""⟩

/-- The key `k1`, loaded at the start, is served after a failed reload. -/
theorem loaded_key_survives_failure :
    ∃ s, load okpLibrary id (fun _ => .ok ()) (fun _ => none) [keycloak]
        (fun _ => (.ok (some (.array ["k1"])), [])) = .ok s ∧
      (refresh okpLibrary [keycloak] s fun _ => .error "timeout").1.keysOf keycloak =
        [⟨⟨"k1", "k1", ""⟩, keycloak⟩] := by
  have hload : ∃ s, load okpLibrary id (fun _ => .ok ()) (fun _ => none) [keycloak]
      (fun _ => (.ok (some (.array ["k1"])), [])) = .ok s ∧
        s.keysOf keycloak = [⟨⟨"k1", "k1", ""⟩, keycloak⟩] := ⟨_, rfl, rfl⟩
  obtain ⟨s, hload, hkeys⟩ := hload
  refine ⟨s, hload, ?_⟩
  have h := (served_keys_are_published okpLibrary id (fun _ => .ok ()) (fun _ => none) [keycloak] _ s hload
    []).2.2.2.2 fun _ => .error "timeout"
  have hshare : ¬ SharesKid [keycloak] (offered okpLibrary s fun _ => .error "timeout") := by
    rintro ⟨p, hp, q, hq, hne, -⟩
    rw [List.mem_singleton.mp hp, List.mem_singleton.mp hq] at hne
    exact hne rfl
  exact (h.2 hshare keycloak List.mem_cons_self).trans hkeys

end AuthzAgent.Token
