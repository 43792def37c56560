/-
  AuthzAgent.Authn.Health

  Health and published keys.  A reload records a status only after it stored
  the document of the same load, so from then on the two agree.  A bootstrap
  records its status whatever becomes of the put.
-/

import AuthzAgent.Authn.Manager

namespace AuthzAgent.Authn

variable {Content Bytes Jwk : Type} {L : Library Content Bytes Jwk}

/-! ## What a load builds -/

/-- The ids of a document that loads are distinct. -/
theorem nodup_of_checkIDs {path : String} {ps : List Provider} {seen : List String}
    (h : checkIDs L path seen ps = .ok ()) :
    (ps.map Provider.id).Nodup ∧ ∀ p ∈ ps, p.id ∉ seen := by
  induction ps generalizing seen with
  | nil => simp
  | cons p ps ih =>
    rw [checkIDs] at h
    split_ifs at h with hseen
    obtain ⟨hnodup, hfresh⟩ := ih h
    exact Checked.nodup_cons_of_unseen hseen hnodup hfresh

theorem nodup_of_load {path : String} {read : Except String Content} {doc : Document}
    (h : load L path read = .ok doc) : (doc.providers.map Provider.id).Nodup := by
  obtain ⟨raw, -, h⟩ := Checked.bind_eq_ok.mp h
  obtain ⟨doc', -, h⟩ := Checked.bind_eq_ok.mp h
  obtain ⟨_, hids, h⟩ := Checked.bind_eq_ok.mp h
  obtain rfl : doc' = doc := Checked.pure_eq_ok.mp h
  exact (nodup_of_checkIDs hids).1

def successKeys (fetched : List (ProviderResult × List IndexedKey)) : List IndexedKey :=
  (fetched.filter fun f => f.1.result = .success).flatMap Prod.snd

theorem foldl_add (fetched : List (ProviderResult × List IndexedKey)) (out : Artifacts) :
    (fetched.foldl Artifacts.add out).results = out.results ++ fetched.map Prod.fst ∧
      (fetched.foldl Artifacts.add out).jwksByKid =
        (successKeys fetched).foldl addKey out.jwksByKid := by
  induction fetched generalizing out with
  | nil => simp [successKeys]
  | cons f fetched ih =>
    obtain ⟨hresults, hkeys⟩ := ih (out.add f)
    rw [List.foldl_cons, hresults, hkeys, Artifacts.add]
    by_cases hf : f.1.result = .success
    · simp [hf, successKeys, List.foldl_append]
    · simp [hf, successKeys]

variable (L) in
/-- The candidates under a kid: those of the providers that a load lists as
    success, in configuration order. -/
def candidatesUnder (doc : Document) (web : Nat → Web Bytes) (kid : String) : List Candidate :=
  ((successKeys (fetches L doc.providers web)).filter fun key => key.kid = kid).map
    IndexedKey.candidate

theorem lookup_jwksByKid (doc : Document) (web : Nat → Web Bytes) (kid : String) :
    (fetch L doc.providers web).jwksByKid.lookup kid =
      if candidatesUnder L doc web kid = [] then none else some (candidatesUnder L doc web kid) := by
  have hkeys : (fetch L doc.providers web).jwksByKid =
      (successKeys (fetches L doc.providers web)).foldl addKey ∅ := (foldl_add _ _).2
  have hlist : Dict.getD (fetch L doc.providers web).jwksByKid kid [] =
      candidatesUnder L doc web kid := by
    rw [hkeys]
    exact (Dict.getD_foldl_append IndexedKey.kid IndexedKey.candidate _ ∅ kid).trans (by simp; rfl)
  have hmem : kid ∈ (fetch L doc.providers web).jwksByKid ↔
      ∃ key ∈ successKeys (fetches L doc.providers web), key.kid = kid := by
    rw [hkeys]
    exact (Dict.mem_foldl_append IndexedKey.kid IndexedKey.candidate _ ∅ kid).trans (by simp)
  cases hlookup : (fetch L doc.providers web).jwksByKid.lookup kid with
  | none =>
    rw [Dict.getD, hlookup] at hlist
    exact (if_pos hlist.symm).symm
  | some candidates =>
    have hbound := hmem.mp (AList.lookup_isSome.mp (by rw [hlookup]; rfl))
    obtain ⟨key, hkey, hkid⟩ := hbound
    rw [Dict.getD, hlookup] at hlist
    have hne : candidatesUnder L doc web kid ≠ [] := by
      refine List.ne_nil_of_mem (List.mem_map.mpr ⟨key, List.mem_filter.mpr ⟨hkey, ?_⟩, rfl⟩)
      exact decide_eq_true hkid
    rw [if_neg hne]
    exact congrArg some hlist

variable (L) in
/-- The status and the document of a manager are those of one load: the status
    lists the results of its providers, the keys are those of the providers
    listed as success, and the providers are those of its file. -/
def BuiltBy (cfg : Config) (a : Attempt Content Bytes) (m : Manager) : Prop :=
  ∃ doc authn, load L cfg.file a.loadRead = .ok doc ∧ m.authn = some authn ∧
    m.status.providers = (fetches L doc.providers a.web).map Prod.fst ∧
    (∀ kid, authn.jwksByKid.lookup kid =
      if candidatesUnder L doc a.web kid = [] then none
      else some (candidatesUnder L doc a.web kid)) ∧
    ∀ id entry, authn.byId.lookup id = some entry ↔
      ∃ p ∈ doc.providers, p.id = id ∧ p.entry = entry

theorem builtBy_of_load {cfg : Config} {a : Attempt Content Bytes} {doc : Document}
    (h : load L cfg.file a.loadRead = .ok doc) (hash : String) :
    BuiltBy L cfg a ⟨(fetch L doc.providers a.web).status cfg.mode doc.providers.length, hash,
      some (authnDocument doc (fetch L doc.providers a.web))⟩ :=
  ⟨doc, _, h, rfl, (foldl_add _ _).1, lookup_jwksByKid doc a.web,
    fun _ _ => Dict.lookup_ofList_map (nodup_of_load h)⟩

/-! ## Runs -/

/-- A manager with the load that recorded its status. -/
structure Tracked (Content Bytes : Type) where
  manager : Manager
  source : Attempt Content Bytes

variable (L) in
def Tracked.bootstrap (cfg : Config) (a : Attempt Content Bytes) : Tracked Content Bytes :=
  ⟨Authn.bootstrap L cfg a, a⟩

variable (L) in
def Tracked.reload (cfg : Config) (t : Tracked Content Bytes) (a : Attempt Content Bytes) :
    Tracked Content Bytes where
  manager := (Authn.reload L cfg t.manager a).2
  source := if (Authn.reload L cfg t.manager a).1.toOption = some true then a else t.source

/-- A reload changes nothing, or it records the status and stores the document
    of its load. -/
theorem reload_cases (cfg : Config) (m : Manager) (a : Attempt Content Bytes) :
    ((reload L cfg m a).1.toOption ≠ some true ∧ (reload L cfg m a).2 = m) ∨
      ∃ doc hash, load L cfg.file a.loadRead = .ok doc ∧
        reload L cfg m a = (.ok true,
          ⟨(fetch L doc.providers a.web).status cfg.mode doc.providers.length, hash,
            some (authnDocument doc (fetch L doc.providers a.web))⟩) := by
  rw [reload]
  cases hashFile L a.hashRead with
  | error e => exact .inl ⟨nofun, rfl⟩
  | ok hash =>
    dsimp only
    by_cases hsame : hash = m.appliedHash
    · rw [if_pos hsame]
      exact .inl ⟨nofun, rfl⟩
    rw [if_neg hsame]
    cases hload : load L cfg.file a.loadRead with
    | error e => exact .inl ⟨nofun, rfl⟩
    | ok doc =>
      dsimp only
      by_cases hcount : (fetch L doc.providers a.web).successCount <
          threshold cfg.mode doc.providers.length
      · rw [if_pos hcount]
        exact .inl ⟨nofun, rfl⟩
      rw [if_neg hcount]
      by_cases hmissing : missingRequired (fetch L doc.providers a.web).results ≠ []
      · rw [if_pos hmissing]
        exact .inl ⟨nofun, rfl⟩
      rw [if_neg hmissing]
      cases a.put with
      | error e => exact .inl ⟨nofun, rfl⟩
      | ok _ => exact .inr ⟨doc, hash, rfl, rfl⟩

theorem reload_error {cfg : Config} {m : Manager} {a : Attempt Content Bytes} {e : String}
    (h : (reload L cfg m a).1 = .error e) : (reload L cfg m a).2 = m := by
  rcases reload_cases cfg m a with ⟨-, hsame⟩ | ⟨doc, hash, -, hreload⟩
  · exact hsame
  · rw [hreload] at h
    cases h

variable (L) in
/-- A healthy status with configured providers comes with the document of the
    same load. -/
def Agrees (cfg : Config) (t : Tracked Content Bytes) : Prop :=
  (evaluate t.manager.status).healthy = true → t.manager.status.configuredCount ≠ 0 →
    BuiltBy L cfg t.source t.manager

theorem Agrees.reload {cfg : Config} {t : Tracked Content Bytes} (h : Agrees L cfg t)
    (a : Attempt Content Bytes) : Agrees L cfg (t.reload L cfg a) := by
  rw [Tracked.reload]
  rcases reload_cases cfg t.manager a with ⟨hanswer, hsame⟩ | ⟨doc, hash, hload, hreload⟩
  · rw [hsame, if_neg hanswer]
    exact h
  · rw [hreload]
    exact fun _ _ => builtBy_of_load hload hash

theorem Agrees.run {cfg : Config} {t : Tracked Content Bytes} (h : Agrees L cfg t)
    (rs : List (Attempt Content Bytes)) : Agrees L cfg (rs.foldl (Tracked.reload L cfg) t) := by
  induction rs generalizing t with
  | nil => exact h
  | cons a rs ih => exact ih (h.reload a)

variable (L) in
/-- The file that a load reads configures providers, and what is fetched of
    them meets the health rules. -/
def MeetsRules (cfg : Config) (a : Attempt Content Bytes) : Prop :=
  ∃ doc, load L cfg.file a.loadRead = .ok doc ∧ doc.providers ≠ [] ∧
    missingRequired (fetch L doc.providers a.web).results = [] ∧
    threshold cfg.mode doc.providers.length ≤ (fetch L doc.providers a.web).successCount

theorem evaluate_healthy (status : Status) :
    (evaluate status).healthy = true ↔ status.configError = "" ∧
      missingRequired status.providers = [] ∧
      threshold status.mode status.configuredCount ≤ status.successCount := by
  rw [evaluate]
  by_cases hconfig : status.configError = ""
  · by_cases hmissing : missingRequired status.providers = []
    · by_cases hcount : status.successCount < threshold status.mode status.configuredCount
      · simp [hconfig, hmissing, hcount]
      · have hle := not_lt.mp hcount
        simp [hconfig, hmissing, hcount, hle]
    · simp [hconfig, hmissing]
  · simp [hconfig]

theorem bootstrap_healthy (cfg : Config) (a : Attempt Content Bytes) :
    ((evaluate (bootstrap L cfg a).status).healthy = true ∧
      (bootstrap L cfg a).status.configuredCount ≠ 0) ↔ MeetsRules L cfg a := by
  rw [evaluate_healthy, bootstrap, MeetsRules]
  cases hload : load L cfg.file a.loadRead with
  | error e => simp
  | ok doc =>
    by_cases hdoc : doc.providers = []
    · simp [hdoc]
    · simp [hdoc, Artifacts.status]

theorem bootstrap_builtBy {cfg : Config} {a : Attempt Content Bytes} (hrules : MeetsRules L cfg a) :
    BuiltBy L cfg a (bootstrap L cfg a) ↔ a.put = .ok () := by
  obtain ⟨doc, hload, hdoc, -⟩ := hrules
  have hboot : bootstrap L cfg a =
      ⟨(fetch L doc.providers a.web).status cfg.mode doc.providers.length,
        (hashFile L a.hashRead).toOption.getD "",
        stored none a.put (authnDocument doc (fetch L doc.providers a.web))⟩ := by
    rw [bootstrap, hload]
    exact if_neg hdoc
  rw [hboot]
  cases a.put with
  | ok _ => exact iff_of_true (builtBy_of_load hload _) rfl
  | error e =>
    refine iff_of_false ?_ nofun
    rintro ⟨_, _, -, hauthn, -⟩
    cases hauthn

/-- In every state of every run, a healthy status with configured providers
    comes with the document of its load, and a reload that fails changes
    nothing; exactly if the put of the bootstrap succeeds where what it fetched
    meets the health rules. -/
theorem health_agrees_iff_bootstrap_stored (L : Library Content Bytes Jwk) (cfg : Config)
    (boot : Attempt Content Bytes) (rs : List (Attempt Content Bytes)) :
    (∀ n, let t := (rs.take n).foldl (Tracked.reload L cfg) (Tracked.bootstrap L cfg boot)
      Agrees L cfg t ∧ ∀ a e, (reload L cfg t.manager a).1 = .error e →
        (reload L cfg t.manager a).2 = t.manager) ↔
      (boot.put = .ok () ∨ ¬ MeetsRules L cfg boot) := by
  constructor
  · intro h
    by_cases hrules : MeetsRules L cfg boot
    · obtain ⟨hhealthy, hconfigured⟩ := (bootstrap_healthy cfg boot).mpr hrules
      exact .inl ((bootstrap_builtBy hrules).mp ((h 0).1 hhealthy hconfigured))
    · exact .inr hrules
  · intro h n
    have hstart : Agrees L cfg (Tracked.bootstrap L cfg boot) := by
      intro hhealthy hconfigured
      have hrules := (bootstrap_healthy cfg boot).mp ⟨hhealthy, hconfigured⟩
      exact (bootstrap_builtBy hrules).mpr (h.resolve_right (not_not_intro hrules))
    exact ⟨hstart.run _, fun _ _ herror => reload_error herror⟩

/-- A library whose file contents are documents, and whose bodies are lists of
    kids. -/
def plainLibrary : Library Document (List String) String where
  hash _ := "h"
  decode := .ok
  quote := id
  discoveryURI _ := none
  jwks body := some (some body)
  field key name := if name = "kid" then key else ""
  single := some

/-- A start with one provider, whose key is fetched but not stored. -/
def failedPut : Attempt Document (List String) where
  hashRead := .ok ⟨[⟨"keycloak", "", "http://keycloak/certs", none, true, false⟩]⟩
  loadRead := .ok ⟨[⟨"keycloak", "", "http://keycloak/certs", none, true, false⟩]⟩
  web _ := ⟨fun _ => none, fun _ => none, fun _ => none, fun _ => some ["k1"]⟩
  put := .error "storage_write_conflict_error"

/-- The service is healthy with one provider, and no document is stored; the
    next reload of the same file does not try again. -/
theorem healthy_without_document :
    let m := bootstrap plainLibrary ⟨"providers.json", true⟩ failedPut
    (evaluate m.status).healthy = true ∧ m.status.configuredCount = 1 ∧ m.authn.isNone = true ∧
      (reload plainLibrary ⟨"providers.json", true⟩ m { failedPut with put := .ok () }).2.authn.isNone
        = true := by
  decide +kernel

end AuthzAgent.Authn
