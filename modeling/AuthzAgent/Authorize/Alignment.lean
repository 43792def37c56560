/-
  AuthzAgent.Authorize.Alignment

  Which entry of a bulk request an answer belongs to.  An entry that
  `normalize_resource_ref` is undefined on disappears from the list of
  resources, and every answer after it moves up by one; and a conflict in the
  decision for one entry leaves the others without an answer.  So the answers
  line up with the entries exactly when every entry is an object whose resource
  type and operation are texts or absent, and no decision has a conflict
  (`aligned_iff_entries_readable`).
-/

import AuthzAgent.Authorize.Conflict

namespace AuthzAgent

open Rego (Value Eval)
open Rego.Eval
open Simplified

namespace Authorize

section

variable {D : Data} {I : Identity}

/-! ## The comprehensions -/

/-- The answer for a resource. -/
def resultFor (D : Data) (req : Request) (ref : ResourceRef) : Eval Result := do
  let d ← decisionFor D req 0 ref
  return canonicalResult d req.ignoreRls

theorem resultFor_spec {ref : ResourceRef} {req : Request} (h : NoConflict D ref req) :
    ∃ r, r.resourceType = .string ref.resourceType ∧ r.operation = .string ref.operation ∧
      (r.isAllowed = true ↔ Granted D ref req) ∧ resultFor D req ref = defined r := by
  obtain ⟨d, hrt, hop, hallow, hdecision⟩ := decisionFor_spec h
  refine ⟨canonicalResult d req.ignoreRls, ?_, ?_, hallow, ?_⟩
  · rw [canonicalResult, hrt]
  · rw [canonicalResult, hop]
  · rw [resultFor, hdecision, defined_bind]
    rfl

/-- A comprehension over the indices of a list visits its elements in order. -/
theorem filterMap_range_getElem {α β : Type} (l : List α) (f : Nat → α → β) :
    ((List.range l.length).filterMap fun i => l[i]?.map (f i)) = l.mapIdx f := by
  induction l using List.reverseRecOn with
  | nil => rfl
  | append_singleton l a ih =>
    have hinit : ((List.range l.length).filterMap fun i => (l ++ [a])[i]?.map (f i)) =
        (List.range l.length).filterMap fun i => l[i]?.map (f i) := by
      refine List.filterMap_congr fun i hi => ?_
      rw [List.getElem?_append_left (List.mem_range.mp hi)]
    rw [List.length_append, List.length_singleton, List.range_succ, List.filterMap_append, hinit,
      ih, List.mapIdx_concat]
    simp

/-- Without a conflict the two comprehensions give the answers for the
    resources, in order. -/
theorem evaluationResults_eq {req : Request} {resources : List ResourceRef}
    (h : ∀ ref ∈ resources, NoConflict D ref req) :
    ∃ answer : ResourceRef → Result,
      (∀ ref ∈ resources, resultFor D req ref = defined (answer ref)) ∧
      evaluationResults D req resources = defined (resources.map answer) := by
  have hspec : ∀ ref ∈ resources, ∃ d : Decision,
      ∀ i, decisionFor D req i ref = defined { d with index := i } := by
    intro ref href
    obtain ⟨d, -, -, -, hd⟩ := decisionFor_spec (h ref href)
    exact ⟨d, hd⟩
  choose! d hd using hspec
  let decisions := resources.mapIdx fun i ref => { d ref with index := i }
  have hround : ∀ idx ∈ List.range resources.length,
      (do
        let ref ← Eval.ofOption resources[idx]?
        decisionFor D req idx ref) =
      .solutions (resources[idx]?.map fun ref => { d ref with index := idx }).toList := by
    intro idx _
    rw [ofOption_bind]
    cases hget : resources[idx]? with
    | none => rfl
    | some ref => exact hd ref (List.mem_of_getElem? hget) idx
  have hdecisions : (do
      let idx ← Eval.solutions (List.range resources.length)
      let ref ← Eval.ofOption resources[idx]?
      decisionFor D req idx ref) = .solutions decisions := by
    refine (forEach_eq hround).trans (congrArg solutions ?_)
    rw [← List.filterMap_eq_flatMap_toList]
    exact filterMap_range_getElem resources _
  refine ⟨fun ref => canonicalResult (d ref) req.ignoreRls, fun ref href => ?_, ?_⟩
  · rw [resultFor, hd ref href, defined_bind]
    rfl
  · have hlength : resources.length = decisions.length := (List.length_mapIdx).symm
    have hcanonical := filterMap_range_getElem decisions
      (fun _ d => canonicalResult d req.ignoreRls)
    rw [← hlength, List.mapIdx_mapIdx] at hcanonical
    have heval : evaluationResults D req resources =
        defined ((List.range resources.length).filterMap fun idx =>
          decisions[idx]?.map fun d => canonicalResult d req.ignoreRls) := by
      show (Eval.collect (do
        let idx ← Eval.solutions (List.range resources.length)
        let ref ← Eval.ofOption resources[idx]?
        decisionFor D req idx ref) >>= _) = _
      rw [hdecisions]
      exact defined_bind _ _
    rw [heval, hcanonical]
    refine congrArg defined (List.mapIdx_eq_iff.mpr fun i => ?_)
    rw [List.getElem?_map]
    rfl

/-- A conflict in one decision is one of the whole evaluation. -/
theorem noConflict_of_clean {req : Request} {resources : List ResourceRef}
    (h : (evaluationResults D req resources).Clean) :
    ∀ ref ∈ resources, NoConflict D ref req := by
  intro ref href
  obtain ⟨idx, hlt, hget⟩ := List.getElem_of_mem href
  have hrounds := clean_bind.mp (clean_collect.mp (clean_bind.mp h).1)
  have hround := hrounds.2 idx (yields_solutions.mpr (List.mem_range.mpr hlt))
  have hdecision := (clean_bind.mp hround).2 ref
    (yields_ofOption.mpr (List.getElem?_eq_some_iff.mpr ⟨hlt, hget⟩))
  exact (clean_decisionFor_iff idx).mp hdecision

theorem total_evaluationResults {req : Request} {resources : List ResourceRef} :
    (evaluationResults D req resources).Total :=
  total_collect.bind fun _ => total_pure _

/-- A comprehension that drops nothing keeps places. -/
theorem getElem?_filterMap_of_isSome {α β : Type} {f : α → Option β} {l : List α}
    (h : ∀ a ∈ l, (f a).isSome = true) (i : Nat) : (l.filterMap f)[i]? = l[i]?.bind f := by
  induction l generalizing i with
  | nil => simp
  | cons a l ih =>
    obtain ⟨b, hb⟩ := Option.isSome_iff_exists.mp (h a List.mem_cons_self)
    rw [List.filterMap_cons_some hb]
    cases i with
    | zero => simp [hb]
    | succ i =>
      simp only [List.getElem?_cons_succ]
      exact ih (fun a' ha' => h a' (List.mem_cons_of_mem a ha')) i

/-! ## Entries -/

/-- A text, or an absent member. -/
def isText : Option Value → Bool
  | none => true
  | some (.string _) => true
  | some _ => false

/-- An object whose resource type and operation are texts or absent. -/
def readableEntry : Value → Bool
  | .object fields => isText (fields.lookup "resourceType") && isText (fields.lookup "operation")
  | _ => false

theorem isSome_normalizeResourceRef (P : Platform) (entry : Value) :
    (normalizeResourceRef P entry).isSome = readableEntry entry := by
  cases entry with
  | object fields =>
    have htext : ∀ k, isText (fields.lookup k) = true ↔
        ∃ s, (fields.lookup k).getD (.string "") = .string s := by
      intro k
      cases hk : fields.lookup k with
      | none => simp [isText]
      | some v => cases v <;> simp [isText]
    rw [Bool.eq_iff_iff, readableEntry, Bool.and_eq_true, htext, htext]
    simp only [normalizeResourceRef, Value.objectGet, Option.bind_eq_bind, Option.bind_some]
    constructor
    · intro h
      split at h
      · rename_i rt op hrt hop
        exact ⟨⟨rt, hrt⟩, ⟨op, hop⟩⟩
      · simp at h
    · rintro ⟨⟨rt, hrt⟩, ⟨op, hop⟩⟩
      rw [hrt, hop]
      rfl
  | _ => rfl

theorem objectGet_of_normalizeResourceRef {P : Platform} {entry : Value} {ref : ResourceRef}
    (h : normalizeResourceRef P entry = some ref) :
    entry.objectGet "resourceType" (.string "") = some (.string ref.resourceType) ∧
    entry.objectGet "operation" (.string "") = some (.string ref.operation) := by
  obtain ⟨rt, hget, h⟩ := Option.bind_eq_some_iff.mp h
  obtain ⟨op, hget', h⟩ := Option.bind_eq_some_iff.mp h
  obtain ⟨resource, -, h⟩ := Option.bind_eq_some_iff.mp h
  split at h
  · obtain rfl := Option.some.inj h
    exact ⟨hget, hget'⟩
  · simp at h

/-! ## Alignment -/

/-- The query has a response with these results. -/
def Responds (D : Data) (I : Identity) (input : Input) (results : List Result) : Prop :=
  ∃ rlsIgnored, canonical D I input = defined (.response rlsIgnored results)

theorem responds_iff (input : Input) {auth : Authentication} {entries : List Value}
    (hadmission : admissionOk I input.credentials = true)
    (hauth : authenticationContext I input.credentials = some auth)
    (hok : auth.authenticated = true) (hentries : input.resources = .array entries)
    (results : List Result) :
    Responds D I input results ↔
      evaluationResults D (normalizedRequest D auth input)
        (entries.filterMap (normalizeResourceRef D.platform)) = defined results := by
  have hadmitted : canonical D I input = admittedResponse D I input := by
    rw [canonical]
    rw [admissionOk] at hadmission
    cases htoken : input.credentials.authorizationToken with
    | none => rfl
    | some token =>
      rw [htoken] at hadmission
      simp only [hadmission, if_true]
  have hcanonical : canonical D I input = (do
      let results ← evaluationResults D (normalizedRequest D auth input)
        (entries.filterMap (normalizeResourceRef D.platform))
      return .response (boolOrFalse input.ignoreRls) results) := by
    rw [hadmitted, admittedResponse, hauth, hentries]
    simp only [resourceEntries, hok, if_true, authorizationEvaluation]
  rw [Responds, hcanonical]
  constructor
  · rintro ⟨rlsIgnored, hresponse⟩
    have hclean := (clean_bind.mp (hresponse ▸ clean_defined _)).1
    obtain ⟨results', hresults⟩ := total_evaluationResults hclean
    rw [hresults, defined_bind] at hresponse
    obtain ⟨-, rfl⟩ := Canonical.response.inj (defined_inj.mp hresponse)
    exact hresults
  · intro hresults
    rw [hresults, defined_bind]
    exact ⟨_, rfl⟩

/-- The response to a request for one entry. -/
theorem responds_alone (input : Input) {auth : Authentication} {entry : Value} {ref : ResourceRef}
    (hadmission : admissionOk I input.credentials = true)
    (hauth : authenticationContext I input.credentials = some auth)
    (hok : auth.authenticated = true) (hentry : input.resources = .array [entry])
    (href : normalizeResourceRef D.platform entry = some ref)
    (hno : NoConflict D ref (normalizedRequest D auth input)) {r : Result}
    (hr : resultFor D (normalizedRequest D auth input) ref = defined r) :
    Responds D I input [r] := by
  refine (responds_iff input hadmission hauth hok hentry [r]).mpr ?_
  have hone : [entry].filterMap (normalizeResourceRef D.platform) = [ref] := by simp [href]
  obtain ⟨answer, hanswer, hanswers⟩ := evaluationResults_eq (List.forall_mem_singleton.mpr hno)
  have hsame : answer ref = r :=
    defined_inj.mp ((hanswer ref (List.mem_singleton_self ref)).symm.trans hr)
  rw [hone, ← hsame]
  exact hanswers

/-- Every answer belongs to its own entry: there are as many as entries, and
    each is the echo of its entry and the answer the entry would get alone. -/
def Aligned (D : Data) (I : Identity) (input : Input) (entries : List Value) : Prop :=
  ∃ results, Responds D I input results ∧ results.length = entries.length ∧
    ∀ (i : Nat) (entry : Value), entries[i]? = some entry →
      ∃ r, results[i]? = some r ∧
        entry.objectGet "resourceType" (.string "") = some r.resourceType ∧
        entry.objectGet "operation" (.string "") = some r.operation ∧
        Responds D I { input with resources := .array [entry] } [r]

end

/-- For every authenticated bulk request the answers line up with the entries
    exactly when every entry is readable and no rule of pip.rego that a
    decision for an entry calls has a conflict. -/
theorem aligned_iff_entries_readable (D : Data) (I : Identity) (input : Input)
    (entries : List Value) (auth : Authentication)
    (hadmission : admissionOk I input.credentials = true)
    (hauth : authenticationContext I input.credentials = some auth)
    (hok : auth.authenticated = true) (hentries : input.resources = .array entries) :
    Aligned D I input entries ↔
      ∀ entry ∈ entries, readableEntry entry = true ∧
        ∀ ref, normalizeResourceRef D.platform entry = some ref →
          NoConflict D ref (normalizedRequest D auth input) := by
  have hresponds := responds_iff (D := D) input hadmission hauth hok hentries
  constructor
  · rintro ⟨results, hresponse, hlength, -⟩ entry hentry
    have heval := (hresponds results).mp hresponse
    have hno := noConflict_of_clean (heval ▸ clean_defined _)
    obtain ⟨answer, -, hanswers⟩ := evaluationResults_eq hno
    rw [hanswers, defined_inj] at heval
    -- a dropped entry leaves fewer results than entries
    rw [← heval, List.length_map, List.filterMap_length_eq_length] at hlength
    rw [← isSome_normalizeResourceRef D.platform]
    exact ⟨hlength entry hentry, fun ref href =>
      hno ref (List.mem_filterMap.mpr ⟨entry, hentry, href⟩)⟩
  · intro hall
    have hsome : ∀ entry ∈ entries, (normalizeResourceRef D.platform entry).isSome = true :=
      fun entry h => (isSome_normalizeResourceRef D.platform entry).trans (hall entry h).1
    have hno : ∀ ref ∈ entries.filterMap (normalizeResourceRef D.platform),
        NoConflict D ref (normalizedRequest D auth input) := by
      intro ref href
      obtain ⟨entry, hentry, hnormalize⟩ := List.mem_filterMap.mp href
      exact (hall entry hentry).2 ref hnormalize
    obtain ⟨answer, hanswer, hanswers⟩ := evaluationResults_eq hno
    refine ⟨_, (hresponds _).mpr hanswers, ?_, fun i entry hi => ?_⟩
    · rw [List.length_map, List.filterMap_length_eq_length]
      exact hsome
    · have hentry : entry ∈ entries := List.mem_of_getElem? hi
      obtain ⟨ref, href⟩ := Option.isSome_iff_exists.mp (hsome entry hentry)
      have hmem := List.mem_filterMap.mpr ⟨entry, hentry, href⟩
      obtain ⟨r, hrt, hop, -, hr⟩ := resultFor_spec (hno ref hmem)
      obtain rfl : answer ref = r := defined_inj.mp ((hanswer ref hmem).symm.trans hr)
      obtain ⟨hgetrt, hgetop⟩ := objectGet_of_normalizeResourceRef href
      refine ⟨answer ref, ?_, hrt ▸ hgetrt, hop ▸ hgetop,
        responds_alone { input with resources := .array [entry] } hadmission hauth hok rfl href
          (hno ref hmem) hr⟩
      rw [List.getElem?_map, getElem?_filterMap_of_isSome hsome, hi]
      simp [href]

/-! ## A shifted answer -/

/-- No PIP is configured. -/
def noPips : Pip.Env where
  builtins := ⟨Platform.ascii, id, fun _ => none, fun raw _ => some raw, id⟩
  send := fun _ => none
  pips := ⟨∅, ∅, ∅, ∅, ∅⟩
  activation := ∅
  entitlements := none
  m2mBearerToken := ""
  requestId := .string ""
  requestHeaders := .object []

/-- The role `ADMIN` may do everything. -/
def adminData : Data where
  doc := ⟨∅, ∅, ∅, Dict.ofList [("ADMIN", ⟨true, ∅, ∅⟩)]⟩
  pip := noPips

/-- Everybody is the administrator `alice`. -/
def adminIdentity : Identity where
  validateTokenWithReason := fun _ => ⟨false, "", none, .object []⟩
  authenticate := fun _ =>
    ⟨true, [("id", .string "alice"), ("roles", .array [.string "admin"])], .object [], ""⟩
  anonymousMode := fun _ => false

/-- A bulk request with the given entries. -/
def bulkInput (entries : List Value) : Input where
  credentials := ⟨none, none, none, none⟩
  ignoreRls := .bool false
  resources := .array entries

/-- An entry whose resource type is a number. -/
def numberEntry : Value := .object [("operation", .string "read"), ("resourceType", .number 1)]

/-- An entry that can be evaluated. -/
def textEntry (rt : String) : Value :=
  .object [("operation", .string "read"), ("resourceType", .string rt)]

/-- The answer that allows it. -/
def allowedEntry (rt : String) : Result := ⟨.string rt, .string "read", true, none, []⟩

/-- Administrators read everything of the type `OPEN`, and the rules say what
    else; the aggregator splits the entitlements of one resource type. -/
def splitData : Data where
  doc := ⟨Dict.ofList [("T", Dict.ofList [("READ", ["ADMIN"])])], ∅, ∅,
    Dict.ofList [("ADMIN", ⟨false, ∅, {"OPEN"}⟩)]⟩
  pip := Pip.answeringEnv (Pip.grants
    [Pip.grantBlock "DOC" "reader" ["1"], Pip.grantBlock "DOC" "reader" ["2"]])

/-- The first answer to a request for a number and a text is that of the text.
    And an entry whose decision has a conflict leaves the entry before it
    without the answer that it gets alone. -/
theorem not_aligned_number_entry :
    (canonical adminData adminIdentity (bulkInput [numberEntry, textEntry "T"]) =
        defined (.response false [allowedEntry "T"]) ∧
      ¬ Aligned adminData adminIdentity (bulkInput [numberEntry, textEntry "T"])
        [numberEntry, textEntry "T"]) ∧
    canonical splitData adminIdentity (bulkInput [textEntry "OPEN", textEntry "T"]) =
        .conflict "build_entitlements_map" ∧
      canonical splitData adminIdentity (bulkInput [textEntry "OPEN"]) =
        defined (.response false [allowedEntry "OPEN"]) := by
  have hresults : canonical adminData adminIdentity (bulkInput [numberEntry, textEntry "T"]) =
      defined (.response false [allowedEntry "T"]) := by
    decide +kernel
  refine ⟨⟨hresults, ?_⟩, by decide +kernel, by decide +kernel⟩
  rintro ⟨results, ⟨rlsIgnored, hresponse⟩, hlength, -⟩
  rw [hresults, defined_inj] at hresponse
  obtain ⟨-, rfl⟩ := Canonical.response.inj hresponse
  simp at hlength

theorem aligned_text_entries :
    Aligned adminData adminIdentity (bulkInput [textEntry "T", textEntry "T"])
      [textEntry "T", textEntry "T"] := by
  refine (aligned_iff_entries_readable adminData adminIdentity
    (bulkInput [textEntry "T", textEntry "T"]) [textEntry "T", textEntry "T"] _ rfl rfl rfl
    rfl).mpr ?_
  have hentry : ∀ entry ∈ [textEntry "T", textEntry "T"], entry = textEntry "T" := by simp
  intro entry hmem
  obtain rfl := hentry entry hmem
  refine ⟨by decide, fun ref _ hreaches => absurd ?_ hreaches.1⟩
  have hall : (globalLookup adminData.doc.globalAccessRoles "ADMIN").all = true := by
    decide +kernel
  exact ⟨"ADMIN", by decide +kernel, .inl hall⟩

end Authorize

end AuthzAgent
