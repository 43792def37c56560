/-
  AuthzAgent.Pip.Entitlements

  The entitlements of a subject, as the aggregator's response lists them in
  blocks and references and as the map of pip.rego holds them.  The map has one
  list for a resource type and a name.  Blocks of one resource type, or
  references of one name, that list different resources have no place in it,
  and end the decision.
-/

import AuthzAgent.Pip.Local

namespace AuthzAgent

open Rego (Value Eval)
open Rego.Eval
open Pips

namespace Pip

/-! ## The map of a response -/

theorem lookup_toMap {ν : Type} {l : List (Value × ν)}
    (hsingle : ∀ m ∈ l, ∀ m' ∈ l, m.1 = m'.1 → m.2 = m'.2) {k : Value} {v : ν} :
    (toMap l).lookup k = some v ↔ (k, v) ∈ l := by
  have hmem : ∀ w, (⟨k, w⟩ : Sigma fun _ : Value => ν) ∈
      l.map (fun m => (⟨m.1, m.2⟩ : Sigma fun _ : Value => ν)) ↔ (k, w) ∈ l := by
    intro w
    rw [List.mem_map]
    constructor
    · rintro ⟨m, hm, heq⟩
      obtain ⟨rfl, hw⟩ := Sigma.mk.inj heq
      obtain rfl := eq_of_heq hw
      exact hm
    · exact fun h => ⟨(k, w), h, rfl⟩
  rw [toMap, Finmap.dlookup_list_toFinmap]
  constructor
  · exact fun h => (hmem v).mp (List.of_mem_dlookup h)
  · intro h
    have hkey : k ∈ (l.map (fun m => (⟨m.1, m.2⟩ : Sigma fun _ : Value => ν))).keys :=
      List.mem_keys_of_mem ((hmem v).mpr h)
    obtain ⟨w, hw⟩ := Option.isSome_iff_exists.mp (List.dlookup_isSome.mpr hkey)
    have hin : (k, w) ∈ l := (hmem w).mp (List.of_mem_dlookup hw)
    have heq : v = w := hsingle (k, v) h (k, w) hin rfl
    rw [hw, heq]

/-- The map of a comprehension binds what the comprehension enumerates. -/
theorem lookup_of_yields_object {ν : Type} [DecidableEq ν] {name : String} {x : Eval (Value × ν)}
    {o : List (Value × ν)} (h : (Eval.object name x).Yields o) {k : Value} {v : ν} :
    (toMap o).lookup k = some v ↔ x.Yields (k, v) := by
  obtain ⟨-, hmem⟩ := h.of_object
  rw [lookup_toMap, hmem]
  rintro ⟨k, v⟩ hm ⟨k', w⟩ hm' hk
  obtain rfl : k = k' := hk
  exact (clean_object.mp h.clean).2 k v w ((hmem _).mp hm) ((hmem _).mp hm')

/-- A reference of the block lists these resources under the name. -/
def NamesIds (block name : Value) (ids : List Value) : Prop :=
  ∃ ref ∈ itemsOf block "references",
    nonemptyField ref "name" = some name ∧ referenceIds ref = ids

/-- The body lists the resource under the resource type and the name. -/
def Listed (body rt name id : Value) : Prop :=
  ∃ block ∈ itemsOf body "entitlements", nonemptyField block "resourceType" = some rt ∧
    ∃ ids, NamesIds block name ids ∧ id ∈ ids

/-- References of one name list the same resources. -/
def ReferencesAgree (block : Value) : Prop :=
  ∀ name ids ids', NamesIds block name ids → NamesIds block name ids' → ids = ids'

/-- References of one name within a block, and blocks of one resource type, list
    the same. -/
structure BlocksAgree (body : Value) : Prop where
  references : ∀ block ∈ itemsOf body "entitlements",
    (nonemptyField block "resourceType").isSome → ReferencesAgree block
  blocks : ∀ block ∈ itemsOf body "entitlements", ∀ block' ∈ itemsOf body "entitlements", ∀ rt,
    nonemptyField block "resourceType" = some rt → nonemptyField block' "resourceType" = some rt →
      ∀ name ids, NamesIds block name ids → NamesIds block' name ids

theorem clean_blockReferences (block : Value) : (blockReferences block).Clean :=
  (clean_solutions _).bind fun _ => (clean_ofOption _).bind fun _ => clean_pure _

theorem yields_blockReferences {block name : Value} {ids : List Value} :
    (blockReferences block).Yields (name, ids) ↔ NamesIds block name ids := by
  rw [blockReferences, yields_bind (clean_solutions _) fun _ =>
    (clean_ofOption _).bind fun _ => clean_pure _, NamesIds]
  simp only [yields_solutions, yields_ofOption_bind, yields_pure, Prod.mk.injEq]
  refine exists_congr fun ref => and_congr_right fun _ => ?_
  constructor
  · rintro ⟨name', hname, rfl, rfl⟩
    exact ⟨hname, rfl⟩
  · rintro ⟨hname, rfl⟩
    exact ⟨name, hname, rfl, rfl⟩

theorem clean_blockNames_iff (block : Value) :
    (blockNames block).Clean ↔ ReferencesAgree block := by
  rw [blockNames, clean_bind, and_iff_left fun _ _ => clean_pure _, clean_object,
    and_iff_right (clean_blockReferences block)]
  simp only [SingleValued, yields_blockReferences, ReferencesAgree]

theorem lookup_blockNames {block : Value} {names : Finmap fun _ : Value => List Value}
    (h : (blockNames block).Yields names) {name : Value} {ids : List Value} :
    names.lookup name = some ids ↔ NamesIds block name ids := by
  rw [blockNames] at h
  obtain ⟨o, ho, hnames⟩ := h.of_bind
  rw [yields_pure] at hnames
  rw [hnames, lookup_of_yields_object ho, yields_blockReferences]

theorem exists_yields_blockNames {block : Value} (h : (blockNames block).Clean) :
    ∃ names, (blockNames block).Yields names := by
  rw [blockNames] at h ⊢
  obtain ⟨o, ho⟩ := object_eq_defined (clean_bind.mp h).1
  exact ⟨toMap o, by rw [ho, defined_bind, yields_pure]⟩

theorem clean_bodyBlocks_iff (body : Value) :
    (bodyBlocks body).Clean ↔ ∀ block ∈ itemsOf body "entitlements",
      (nonemptyField block "resourceType").isSome → ReferencesAgree block := by
  rw [bodyBlocks, clean_bind, and_iff_right (clean_solutions _)]
  simp only [yields_solutions, clean_ofOption_bind, Option.isSome_iff_exists]
  refine forall_congr' fun block => forall_congr' fun _ => ?_
  rw [forall_exists_index]
  refine forall_congr' fun rt => forall_congr' fun _ => ?_
  rw [clean_bind, clean_blockNames_iff]
  exact and_iff_left fun _ _ => clean_pure _

theorem yields_bodyBlocks {body rt : Value} {names : Finmap fun _ : Value => List Value}
    (hclean : (bodyBlocks body).Clean) :
    (bodyBlocks body).Yields (rt, names) ↔ ∃ block ∈ itemsOf body "entitlements",
      nonemptyField block "resourceType" = some rt ∧ (blockNames block).Yields names := by
  constructor
  · intro h
    obtain ⟨block, hblock, h⟩ := h.of_bind
    obtain ⟨rt', hrt, h⟩ := h.of_bind
    obtain ⟨names', hnames, h⟩ := h.of_bind
    rw [yields_pure, Prod.mk.injEq] at h
    obtain ⟨rfl, rfl⟩ := h
    exact ⟨block, yields_solutions.mp hblock, yields_ofOption.mp hrt, hnames⟩
  · rintro ⟨block, hblock, hrt, hnames⟩
    refine Yields.bind hclean (yields_solutions.mpr hblock) ?_
    rw [hrt, yields_ofOption_bind]
    refine ⟨rt, rfl, Yields.bind ?_ hnames (yields_pure.mpr rfl)⟩
    exact hnames.clean.bind fun _ => clean_pure _

/-- The map of a response fails exactly when blocks or references disagree. -/
theorem clean_buildEntitlementsMap_iff (body : Value) :
    (buildEntitlementsMap body).Clean ↔ BlocksAgree body := by
  rw [buildEntitlementsMap, clean_bind, and_iff_left fun _ _ => clean_pure _, clean_object]
  constructor
  · rintro ⟨hclean, hsingle⟩
    have hrefs := (clean_bodyBlocks_iff body).mp hclean
    refine ⟨hrefs, fun block hblock block' hblock' rt hrt hrt' name ids hids => ?_⟩
    have hnames : ∀ block ∈ itemsOf body "entitlements",
        nonemptyField block "resourceType" = some rt → ∃ names, (blockNames block).Yields names :=
      fun block hblock hrt => exists_yields_blockNames ((clean_blockNames_iff block).mpr
        (hrefs block hblock (Option.isSome_of_eq_some hrt)))
    obtain ⟨names, hn⟩ := hnames block hblock hrt
    obtain ⟨names', hn'⟩ := hnames block' hblock' hrt'
    have heq : names = names' := hsingle rt names names'
      ((yields_bodyBlocks hclean).mpr ⟨block, hblock, hrt, hn⟩)
      ((yields_bodyBlocks hclean).mpr ⟨block', hblock', hrt', hn'⟩)
    rw [← lookup_blockNames hn', ← heq, lookup_blockNames hn]
    exact hids
  · rintro ⟨hrefs, hsame⟩
    have hclean := (clean_bodyBlocks_iff body).mpr hrefs
    refine ⟨hclean, fun rt names names' hn hn' => ?_⟩
    obtain ⟨block, hblock, hrt, hn⟩ := (yields_bodyBlocks hclean).mp hn
    obtain ⟨block', hblock', hrt', hn'⟩ := (yields_bodyBlocks hclean).mp hn'
    refine Finmap.ext_lookup fun name => Option.ext fun ids => ?_
    rw [lookup_blockNames hn, lookup_blockNames hn']
    exact ⟨hsame block hblock block' hblock' rt hrt hrt' name ids,
      hsame block' hblock' block hblock rt hrt' hrt name ids⟩

/-- The resources a map holds under a resource type and a name. -/
def idsAt (map : EntitlementsMap) (rt name : Value) : List Value :=
  ((map.lookup rt).bind (·.lookup name)).getD []

theorem mem_idsAt {map : EntitlementsMap} {rt name id : Value} :
    id ∈ idsAt map rt name ↔
      ∃ names ids, map.lookup rt = some names ∧ names.lookup name = some ids ∧ id ∈ ids := by
  rw [idsAt]
  cases hrt : map.lookup rt with
  | none => simp
  | some names =>
    cases hname : names.lookup name with
    | none => simp [hname]
    | some ids => simp [hname]

/-- A map that is built holds the union of what the body lists. -/
theorem mem_idsAt_iff {body : Value} {map : EntitlementsMap}
    (h : (buildEntitlementsMap body).Yields map) {rt name id : Value} :
    id ∈ idsAt map rt name ↔ Listed body rt name id := by
  obtain ⟨o, ho, hmap⟩ := h.of_bind
  rw [yields_pure] at hmap
  have hclean := (clean_object.mp ho.clean).1
  have hlookup : ∀ names, map.lookup rt = some names ↔ _ := fun names => by
    rw [hmap, lookup_of_yields_object ho, yields_bodyBlocks hclean]
  rw [mem_idsAt]
  constructor
  · rintro ⟨names, ids, hnames, hids, hid⟩
    obtain ⟨block, hblock, hrt, hn⟩ := (hlookup names).mp hnames
    exact ⟨block, hblock, hrt, ids, (lookup_blockNames hn).mp hids, hid⟩
  · rintro ⟨block, hblock, hrt, ids, hids, hid⟩
    have hrefs := (clean_bodyBlocks_iff body).mp hclean block hblock (Option.isSome_of_eq_some hrt)
    obtain ⟨names, hn⟩ := exists_yields_blockNames ((clean_blockNames_iff block).mpr hrefs)
    exact ⟨names, ids, (hlookup names).mpr ⟨block, hblock, hrt, hn⟩,
      (lookup_blockNames hn).mpr hids, hid⟩

/-! ## The map of a subject -/

section

variable (E : Env)

/-- The body the aggregator answers with when it is asked about a subject. -/
def answeredBody (subjectCtx : Value) : Option Value :=
  match entitlementsPipConfig E, entitledUser subjectCtx with
  | some cfg, some user =>
    if user = "" then none
    else match entitlementsHttpCall E cfg user with
      | some resp => if resp.statusCode = 200 then resp.body.filter (· ≠ .null) else none
      | none => none
  | _, _ => none

theorem buildEntitlementsMap_cases (body : Value) :
    (∃ c, buildEntitlementsMap body = .conflict c) ∨
      ∃ map, buildEntitlementsMap body = defined map := by
  cases hobject : Eval.object "build_entitlements_map" (bodyBlocks body) with
  | conflict c => exact Or.inl ⟨c, by rw [buildEntitlementsMap, hobject]; rfl⟩
  | solutions l =>
    have hclean : (Eval.object "build_entitlements_map" (bodyBlocks body)).Clean := ⟨l, hobject⟩
    obtain ⟨o, ho⟩ := object_eq_defined hclean
    exact Or.inr ⟨toMap o, by rw [buildEntitlementsMap, ho, defined_bind]; rfl⟩

/-- The third body of `resolve_entitlements_map` for a response of status 200,
    where the other bodies are undefined. -/
theorem answered_eq (body : Option Value) :
    ruleOr "resolve_entitlements_map" ∅
        [undefined, undefined,
          if decide (body.getD .null ≠ .null) then buildEntitlementsMap (body.getD .null)
          else undefined,
          undefined] =
      (body.filter (· ≠ .null)).elim (defined ∅) buildEntitlementsMap := by
  cases body with
  | none => rfl
  | some body =>
    by_cases hnull : body = .null
    · rw [hnull]
      rfl
    · have hfilter : (some body).filter (· ≠ .null) = some body :=
        Option.filter_some_pos (decide_eq_true hnull)
      have hne : decide ((some body).getD .null ≠ .null) = true := decide_eq_true hnull
      rw [hfilter, if_pos hne, Option.getD_some, Option.elim_some]
      rcases buildEntitlementsMap_cases body with ⟨c, hc⟩ | ⟨map, hmap⟩
      · rw [hc]
        rfl
      · rw [hmap]
        rfl

/-- At most one body of `resolve_entitlements_map` is reached, and without an
    answer the map is empty. -/
theorem resolveEntitlementsMap_eq (subjectCtx : Value) :
    resolveEntitlementsMap E subjectCtx =
      (answeredBody E subjectCtx).elim (defined ∅) buildEntitlementsMap := by
  rw [resolveEntitlementsMap, answeredBody]
  cases entitlementsPipConfig E with
  | none => rfl
  | some cfg =>
    cases entitledUser subjectCtx with
    | none => rfl
    | some user =>
      by_cases hblank : user = ""
      · rw [hblank]
        rfl
      · have hne : decide (user ≠ "") = true := decide_eq_true hblank
        simp only [ofOption_bind, require_bind, Option.elim_some, Option.isNone_some, hne,
          decide_eq_false hblank, Bool.false_eq_true, if_false, if_true, if_neg hblank]
        cases entitlementsHttpCall E cfg user with
        | none => rfl
        | some resp =>
          by_cases hstatus : resp.statusCode = 200
          · have hnot : decide (resp.statusCode ≠ 200) = false := by simpa using hstatus
            simp only [Option.elim_some, hnot, decide_eq_true hstatus, if_true,
              Bool.false_eq_true, if_false, if_pos hstatus]
            exact answered_eq resp.body
          · simp only [Option.elim_some, decide_eq_false hstatus, decide_eq_true hstatus,
              if_true, Bool.false_eq_true, if_false, if_neg hstatus]
            rfl

theorem clean_resolveEntitlementsMap_iff (subjectCtx : Value) :
    (resolveEntitlementsMap E subjectCtx).Clean ↔
      ∀ body, answeredBody E subjectCtx = some body → BlocksAgree body := by
  rw [resolveEntitlementsMap_eq]
  cases answeredBody E subjectCtx with
  | none => exact iff_of_true (clean_defined ∅) nofun
  | some body =>
    rw [Option.elim_some, clean_buildEntitlementsMap_iff]
    exact ⟨fun h body' heq => Option.some.inj heq ▸ h, fun h => h body rfl⟩

/-- The map holds, for every resource type and name, the union of what the
    answer lists. -/
def HoldsUnion (subjectCtx : Value) (map : EntitlementsMap) : Prop :=
  ∀ rt name id, id ∈ idsAt map rt name ↔
    ∃ body, answeredBody E subjectCtx = some body ∧ Listed body rt name id

theorem exists_holdsUnion_of_clean {subjectCtx : Value}
    (h : (resolveEntitlementsMap E subjectCtx).Clean) :
    ∃ map, resolveEntitlementsMap E subjectCtx = defined map ∧ HoldsUnion E subjectCtx map := by
  rw [resolveEntitlementsMap_eq] at h ⊢
  cases hbody : answeredBody E subjectCtx with
  | none =>
    refine ⟨∅, rfl, fun rt name id => ?_⟩
    rw [hbody]
    simp [idsAt]
  | some body =>
    rw [hbody, Option.elim_some] at h
    rcases buildEntitlementsMap_cases body with ⟨c, hc⟩ | ⟨map, hmap⟩
    · rw [hc] at h
      exact absurd h not_clean_conflict
    · refine ⟨map, hmap, fun rt name id => ?_⟩
      have hyields : (buildEntitlementsMap body).Yields map := by
        rw [hmap]
        exact yields_defined.mpr rfl
      rw [mem_idsAt_iff hyields, hbody]
      simp

/-! ## Trouble stays local -/

/-- No value of a PIP ends the decision, and the entitlements are the union of
    what the aggregator lists. -/
structure StaysLocal (rt op : String) (tokenPayload requestHeaders resource sub subject : Value) :
    Prop where
  requestLevel : (resolveRequestLevel E tokenPayload requestHeaders).Clean
  general : (resolveGeneralValues E rt op resource sub).Clean
  hardFailures : (generalPipHardFailures E rt op resource sub).Clean
  entitlements : ∃ map, resolveEntitlementsMap E subject = defined map ∧ HoldsUnion E subject map

/-- The trouble of PIPs stays local exactly when two lists of the configuration
    and the answers agree with themselves.  Headers to set of an active GENERAL
    PIP whose names differ in case only expand to one text, wherever the
    request gets as far as its headers; and references of one name, and blocks
    of one resource type, list the same resources. -/
theorem stays_local_iff_agrees (items : List SimplifiedPIP) (hnamed : ∀ item ∈ items, item.Named)
    (doc : PIPDocument) (summary : UploadSummary)
    (hdoc : normalizeItems E.builtins.platform items = .ok (doc, summary))
    (hserved : E.pips = doc.normalized) (rt op : String)
    (tokenPayload requestHeaders resource sub subject : Value) :
    StaysLocal E rt op tokenPayload requestHeaders resource sub subject ↔
      (∀ name ∈ activeGeneralPips E.activation rt op, ∀ cfg, E.pips.general.lookup name = some cfg →
        cfg.aliasName ≠ "" → RequestAgrees E cfg sub resource) ∧
      ∀ body, answeredBody E subject = some body → BlocksAgree body := by
  have hdistinct : DistinctAliases E.pips := by
    rw [normalizeItems_of_named _ hnamed] at hdoc
    cases hdoc
    rw [hserved]
    exact distinctAliases_of_named hnamed
  have hactive : (∀ cfg, (activeConfigs E rt op).Yields cfg → RequestAgrees E cfg sub resource) ↔
      ∀ name ∈ activeGeneralPips E.activation rt op, ∀ cfg, E.pips.general.lookup name = some cfg →
        cfg.aliasName ≠ "" → RequestAgrees E cfg sub resource := by
    simp only [yields_activeConfigs]
    constructor
    · exact fun h name hname cfg hcfg hne => h cfg ⟨hne, name, hname, hcfg⟩
    · rintro h cfg ⟨hne, name, hname, hcfg⟩
      exact h name hname cfg hcfg hne
  rw [← hactive, ← clean_resolveGeneralValues_iff hdistinct, ← clean_resolveEntitlementsMap_iff]
  constructor
  · rintro ⟨-, hgeneral, -, map, hmap, -⟩
    rw [hmap]
    exact ⟨hgeneral, clean_defined map⟩
  · rintro ⟨hgeneral, hentitlements⟩
    have hagrees := (clean_resolveGeneralValues_iff hdistinct rt op resource sub).mp hgeneral
    exact ⟨clean_resolveRequestLevel hdistinct tokenPayload requestHeaders, hgeneral,
      clean_generalPipHardFailures hdistinct hagrees, exists_holdsUnion_of_clean E hentitlements⟩

end

/-- A GENERAL PIP that posts to a fixed URL. -/
def limitsPip : SimplifiedPIP where
  name := "subject.limits"
  pipType := "GENERAL"
  url := "http://limits"
  httpMethod := ""
  header := ""
  claim := ""
  beanName := ""
  defaultValue := none
  domain := ""
  requestAttributes := []
  headers := none
  type := ""
  jsonPath := ""
  query := []
  body := none
  timeoutSeconds := none
  response := none

/-- The PIP is served and active, and every call is answered with the body. -/
def answeringEnv (body : Value) : Env where
  builtins := ⟨Platform.ascii, id, fun _ => none, fun raw _ => some raw, id⟩
  send := fun _ => some ⟨200, some body⟩
  pips := filed Platform.ascii [limitsPip]
  activation := Dict.ofList [("DOC", Dict.ofList [("READ", ["subject.limits"])])]
  entitlements := some ⟨"http://aggregator", 5⟩
  m2mBearerToken := ""
  requestId := .string "r1"
  requestHeaders := .object []

/-- A block of a response with one reference. -/
def grantBlock (rt name : String) (ids : List String) : Value :=
  .object [("references", .array [.object [("name", .string name),
      ("resources", .array (ids.map fun id => .object [("resourceId", .string id)]))]]),
    ("resourceType", .string rt)]

/-- The body of a response with these blocks. -/
def grants (blocks : List Value) : Value := .object [("entitlements", .array blocks)]

/-- The subject the aggregator is asked about. -/
def alice : Value := .object [("id", .string "alice")]

theorem limitsPip_named : ∀ item ∈ [limitsPip], item.Named :=
  List.forall_mem_singleton.mpr ⟨"limits", by decide⟩

theorem one_block_stays_local :
    StaysLocal (answeringEnv (grants [grantBlock "DOC" "reader" ["1", "2"]])) "DOC" "READ"
      (.object []) (.object []) (.object []) alice alice := by
  refine (stays_local_iff_agrees _ [limitsPip] limitsPip_named _ _
    (normalizeItems_of_named _ limitsPip_named) rfl "DOC" "READ" _ _ _ _ _).mpr ⟨?_, ?_⟩
  · -- the PIP sets no header
    intro name _ cfg hcfg _ url query _ _ h hh
    have hlookup : (filed Platform.ascii [limitsPip]).general.lookup name = some cfg := hcfg
    rw [lookup_general] at hlookup
    obtain ⟨item, hitem, -, hval⟩ := exists_of_lastValue hlookup
    rw [ofType, Option.ite_none_right_eq_some, Option.some.injEq] at hval
    rw [← hval.2, List.mem_singleton.mp hitem] at hh
    exact absurd hh List.not_mem_nil
  · intro body hbody
    obtain rfl : grants [grantBlock "DOC" "reader" ["1", "2"]] = body := Option.some.inj hbody
    refine ⟨fun block hblock _ name ids ids' hids hids' => ?_, fun block hblock block' hblock' => ?_⟩
    · obtain rfl := List.mem_singleton.mp hblock
      obtain ⟨ref, href, -, rfl⟩ := hids
      obtain ⟨ref', href', -, rfl⟩ := hids'
      rw [List.mem_singleton.mp href, List.mem_singleton.mp href']
    · obtain rfl := List.mem_singleton.mp hblock
      obtain rfl := List.mem_singleton.mp hblock'
      exact fun _ _ _ _ _ hids => hids

/-- Two blocks of one resource type with different resources: the map does not
    hold their union, and the decision ends. -/
theorem split_entitlements_end_decision :
    let env := answeringEnv
      (grants [grantBlock "DOC" "reader" ["1"], grantBlock "DOC" "reader" ["2"]])
    normalizeItems Platform.ascii [limitsPip] =
        .ok (⟨[limitsPip], env.pips⟩, uploadSummary Platform.ascii [limitsPip]) ∧
      resolveEntitlementsMap env alice = .conflict "build_entitlements_map" ∧
      ¬ StaysLocal env "DOC" "READ" (.object []) (.object []) (.object []) alice alice := by
  have hconflict : resolveEntitlementsMap
      (answeringEnv (grants [grantBlock "DOC" "reader" ["1"], grantBlock "DOC" "reader" ["2"]]))
      alice = .conflict "build_entitlements_map" := by decide +kernel
  refine ⟨normalizeItems_of_named _ limitsPip_named, hconflict, ?_⟩
  rintro ⟨-, -, -, map, hmap, -⟩
  rw [hconflict] at hmap
  cases hmap

end Pip

end AuthzAgent
