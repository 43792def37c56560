/-
  AuthzAgent.Legacy.Bulk

  Whose answer a bulk response gives.  The resources of a bulk request are a
  flat list, and the response finds the entry behind each result by its place;
  `slots` is that list, with the entry and the operation behind each place.
  Entries whose ids are written differently can have the same id in the
  response (`1` and `"1"`), so an id is listed when one of the entries it
  stands for was allowed.
-/

import AuthzAgent.Legacy.Check
import AuthzAgent.Lib.Checked

namespace AuthzAgent

open GoText
open Checked
open Rego (Value)

namespace Legacy

/-! ## What a request asks for -/

/-- An entry of a bulk request: its fields as they are written, and its operations
    as the response names them. -/
structure Requested where
  id : String
  type : String
  operation : String
  operations : List String
  resource : String
deriving DecidableEq

section

variable (J : Decoder)

/-- The entry that an element of the array asks about. -/
def requestedItem (item : String) : Requested :=
  let members := (J.object item).getD []
  ⟨field members "id", field members "type", field members "operation",
    ((bracketed J (field members "operations")).getD []).map (text J), field members "resource"⟩

/-- The entries of a bulk request in the array `raw`. -/
def requested (raw : String) : List Requested :=
  ((bracketed J raw).getD []).map (requestedItem J)

/-- The operations of an entry that are decided. -/
def Requested.decided (r : Requested) : List String := r.operations.filter (· ≠ "")

/-- The entry, with its place, and the operation behind each resource of
    bulk/operations. -/
def slots (rs : List Requested) : List ((Requested × Nat) × String) :=
  rs.zipIdx.flatMap fun p => p.1.decided.map fun op => (p, op)

/-- A resource asks about an entry: it carries the type, the operation and the
    resource of the entry. -/
structure Asks (typ : String) (operation : Except RequestError Value) (r : Requested)
    (res : Resource) : Prop where
  type : value J typ (.string "") = .ok res.resourceType
  operation : operation = .ok res.operation
  resource : value J r.resource (.object []) = .ok res.resource

/-- The results for an operation, with the entry each belongs to. -/
def answers (rs : List Requested) (result : Value) (op : String) :
    List ((Requested × Nat) × Value) :=
  ((slots rs).zip (results result)).filterMap fun a =>
    if a.1.2 = op then some (a.1.1, a.2) else none

/-- One of the results of the entry is allowed. -/
def AllowedIn (answers : List ((Requested × Nat) × Value)) (p : Requested × Nat) : Prop :=
  ∃ item, (p, item) ∈ answers ∧ allowed item = true

/-- The response names the entries that were allowed. -/
structure NamesAllowed (rs : List Requested) (answers : List ((Requested × Nat) × Value))
    (listed : List String) : Prop where
  /-- An id is listed when an entry with this id was allowed. -/
  listed_iff : ∀ p ∈ rs.zipIdx, text J p.1.id ≠ "" →
    (text J p.1.id ∈ listed ↔
      ∃ q ∈ rs.zipIdx, text J q.1.id = text J p.1.id ∧ AllowedIn answers q)
  /-- An entry whose id no other entry has answers for itself. -/
  own : ∀ p ∈ rs.zipIdx, text J p.1.id ≠ "" →
    (∀ q ∈ rs.zipIdx, text J q.1.id = text J p.1.id → q = p) →
    (text J p.1.id ∈ listed ↔ AllowedIn answers p)
  /-- No two entries have the same written id. -/
  written : ∀ p ∈ rs.zipIdx, ∀ q ∈ rs.zipIdx, trimSpace p.1.id = trimSpace q.1.id →
    trimSpace p.1.id ≠ "" → trimSpace p.1.id ≠ "null" → p = q

/-! ## Loops -/

def comparedIDs (ids : List String) : List String :=
  (ids.map trimSpace).filter fun s => s ≠ "" ∧ s ≠ "null"

/-- The loop accepts ids that are new and differ from each other. -/
theorem uniqueIDsFrom_ok {seen ids : List String} (h : uniqueIDsFrom seen ids = .ok ()) :
    (comparedIDs ids).Nodup ∧ ∀ s ∈ comparedIDs ids, s ∉ seen := by
  induction ids generalizing seen with
  | nil => simp [comparedIDs]
  | cons raw ids ih =>
    rw [uniqueIDsFrom] at h
    by_cases hskip : trimSpace raw = "" ∨ trimSpace raw = "null"
    · have hsame : comparedIDs (raw :: ids) = comparedIDs ids := by
        rcases hskip with hs | hs <;> simp [comparedIDs, hs]
      rw [hsame]
      simp only [hskip, if_true] at h
      exact ih h
    · have hnew : comparedIDs (raw :: ids) = trimSpace raw :: comparedIDs ids := by
        simp only [not_or] at hskip
        simp [comparedIDs, hskip.1, hskip.2]
      simp only [hskip, if_false] at h
      split_ifs at h with hseen
      obtain ⟨hnodup, hfresh⟩ := ih h
      rw [hnew, List.nodup_cons]
      refine ⟨⟨fun hmem => hfresh _ hmem List.mem_cons_self, hnodup⟩, ?_⟩
      intro s hs
      rcases List.mem_cons.mp hs with rfl | hs
      · exact hseen
      · exact fun hmem => hfresh s hs (List.mem_cons_of_mem _ hmem)

/-- Entries at different places have different written ids. -/
theorem written_of_uniqueIDs {rs : List Requested}
    (h : uniqueIDs (rs.map Requested.id) = .ok ()) :
    ∀ p ∈ rs.zipIdx, ∀ q ∈ rs.zipIdx, trimSpace p.1.id = trimSpace q.1.id →
      trimSpace p.1.id ≠ "" → trimSpace p.1.id ≠ "null" → p = q := by
  have hpair : rs.Pairwise fun r r' => trimSpace r.id = trimSpace r'.id →
      trimSpace r.id ≠ "" → trimSpace r.id ≠ "null" → False := by
    have hnodup := (uniqueIDsFrom_ok h).1
    rw [comparedIDs, List.map_map, List.Nodup, List.pairwise_filter, List.pairwise_map] at hnodup
    refine hnodup.imp fun {r r'} hne hsame hempty hnull => ?_
    have hcompared : trimSpace r'.id ≠ "" ∧ trimSpace r'.id ≠ "null" := hsame ▸ ⟨hempty, hnull⟩
    exact hne (by simpa using ⟨hempty, hnull⟩) (by simpa using hcompared) hsame
  rw [List.pairwise_iff_getElem] at hpair
  rintro ⟨r, i⟩ hp ⟨r', j⟩ hq hsame hempty hnull
  obtain ⟨hi, rfl⟩ := List.getElem?_eq_some_iff.mp (List.mk_mem_zipIdx_iff_getElem?.mp hp)
  obtain ⟨hj, rfl⟩ := List.getElem?_eq_some_iff.mp (List.mk_mem_zipIdx_iff_getElem?.mp hq)
  rcases lt_trichotomy i j with hlt | rfl | hlt
  · exact (hpair i j hi hj hlt hsame hempty hnull).elim
  · rfl
  · exact (hpair j i hj hi hlt hsame.symm (hsame ▸ hempty) (hsame ▸ hnull)).elim

/-- What a response lists, in terms of the answers, is enough. -/
theorem namesAllowed_of_listed {rs : List Requested} {answers : List ((Requested × Nat) × Value)}
    {listed : List String} (hunique : uniqueIDs (rs.map Requested.id) = .ok ())
    (howner : ∀ a ∈ answers, a.1 ∈ rs.zipIdx)
    (hlisted : ∀ x, x ∈ listed ↔
      ∃ a ∈ answers, text J a.1.1.id = x ∧ x ≠ "" ∧ allowed a.2 = true) :
    NamesAllowed J rs answers listed := by
  have hiff : ∀ p ∈ rs.zipIdx, text J p.1.id ≠ "" → (text J p.1.id ∈ listed ↔
      ∃ q ∈ rs.zipIdx, text J q.1.id = text J p.1.id ∧ AllowedIn answers q) := by
    intro p hp hne
    rw [hlisted]
    constructor
    · rintro ⟨⟨q, item⟩, ha, hsame, -, hallowed⟩
      exact ⟨q, howner _ ha, hsame, item, ha, hallowed⟩
    · rintro ⟨q, hq, hsame, item, ha, hallowed⟩
      exact ⟨(q, item), ha, hsame, hne, hallowed⟩
  refine ⟨hiff, fun p hp hne hown => ?_, written_of_uniqueIDs hunique⟩
  rw [hiff p hp hne]
  constructor
  · rintro ⟨q, hq, hsame, hallowed⟩
    rwa [hown q hq hsame] at hallowed
  · intro hallowed
    exact ⟨p, hp, rfl, hallowed⟩

/-! ## Responses -/

theorem mem_checkResourceBulkResponse {result : Value} {ids : List String} {x : String} :
    x ∈ checkResourceBulkResponse result ids ↔
      ∃ p ∈ ids.zip (results result), p.1 = x ∧ x ≠ "" ∧ allowed p.2 = true := by
  simp only [checkResourceBulkResponse, List.mem_filterMap, Option.ite_none_right_eq_some,
    Option.some.injEq]
  constructor
  · rintro ⟨p, hp, ⟨hne, hallowed⟩, rfl⟩
    exact ⟨p, hp, rfl, hne, hallowed⟩
  · rintro ⟨p, hp, rfl, hne, hallowed⟩
    exact ⟨p, hp, ⟨hne, hallowed⟩, rfl⟩

/-- Run: the ids under an operation are those of the allowed entries for it. -/
theorem mem_getD_addAllowed (l : List (Entry × Value)) (m : Dict (List String)) (op x : String) :
    x ∈ Dict.getD (l.foldl addAllowed m) op [] ↔
      x ∈ Dict.getD m op [] ∨
      ∃ p ∈ l, p.1.operation = op ∧ p.1.id = x ∧ x ≠ "" ∧ allowed p.2 = true := by
  induction l generalizing m with
  | nil => simp
  | cons p l ih =>
    have hstep : x ∈ Dict.getD (addAllowed m p) op [] ↔ x ∈ Dict.getD m op [] ∨
        (p.1.operation = op ∧ p.1.id = x ∧ x ≠ "" ∧ allowed p.2 = true) := by
      rw [addAllowed]
      split_ifs with hadd
      · by_cases hop : op = p.1.operation
        · subst hop
          rw [Dict.getD_modify_self, List.mem_append, List.mem_singleton]
          refine or_congr_right ⟨?_, fun h => h.2.1.symm⟩
          rintro rfl
          exact ⟨rfl, rfl, hadd⟩
        · rw [Dict.getD_modify_ne _ hop]
          simp [Ne.symm hop]
      · refine ⟨.inl, fun h => h.resolve_right ?_⟩
        rintro ⟨-, rfl, hadd'⟩
        exact hadd hadd'
    rw [List.foldl_cons, ih, hstep]
    simp [or_assoc]

/-- Run: a key is never lost. -/
theorem mem_keys_addAllowed (l : List (Entry × Value)) {m : Dict (List String)} {op : String}
    (h : op ∈ m) : op ∈ l.foldl addAllowed m := by
  induction l generalizing m with
  | nil => exact h
  | cons p l ih =>
    refine ih ?_
    rw [addAllowed]
    split_ifs
    · exact AList.mem_insert _ |>.mpr (.inr h)
    · exact h

theorem getD_initial (entries : List Entry) (m : Dict (List String)) (op : String)
    (h : Dict.getD m op [] = []) :
    Dict.getD (entries.foldl (fun m e => m.insert e.operation []) m) op [] = [] := by
  induction entries generalizing m with
  | nil => exact h
  | cons e entries ih =>
    refine ih _ ?_
    by_cases hop : op = e.operation
    · rw [hop, Dict.getD_insert_self]
    · rw [Dict.getD_insert_ne _ hop, h]

theorem mem_keys_initial (entries : List Entry) (m : Dict (List String)) (op : String) :
    op ∈ entries.foldl (fun m e => m.insert e.operation []) m ↔
      op ∈ m ∨ ∃ e ∈ entries, e.operation = op := by
  induction entries generalizing m with
  | nil => simp
  | cons e entries ih =>
    rw [List.foldl_cons, ih, AList.mem_insert, @eq_comm _ op]
    simp only [List.mem_cons, exists_eq_or_imp]
    tauto

theorem mem_byOperation {result : Value} {entries : List Entry} {op x : String} :
    x ∈ Dict.getD (byOperation result entries) op [] ↔
      ∃ p ∈ entries.zip (results result),
        p.1.operation = op ∧ p.1.id = x ∧ x ≠ "" ∧ allowed p.2 = true := by
  rw [byOperation, mem_getD_addAllowed, getD_initial _ _ _ (Dict.getD_empty op [])]
  simp only [List.not_mem_nil, false_or]

theorem mem_keys_byOperation (result : Value) {entries : List Entry} {e : Entry}
    (he : e ∈ entries) : e.operation ∈ byOperation result entries :=
  mem_keys_addAllowed _ ((mem_keys_initial _ _ _).mpr (.inr ⟨e, he, rfl⟩))

/-- The ids that a response lists under an operation, `none` when the operation
    is no key of it. -/
def idsUnder (response : Value) (v2 : Bool) (op : String) : Option (List String) :=
  let m := if v2 then response.field "decision" else some response
  match m.bind (·.field op) with
  | some (.array items) => some (items.filterMap fun item => match item with
      | .string s => some s
      | _ => none)
  | _ => none

theorem lookup_map_key {β : Type} (keys : List String) (f : String → β) (k : String) :
    (keys.map fun l => (l, f l)).lookup k = if k ∈ keys then some (f k) else none := by
  induction keys with
  | nil => rfl
  | cons l keys ih =>
    rw [List.map_cons, List.lookup_cons]
    by_cases hk : k = l
    · simp [hk]
    · simp [beq_eq_false_iff_ne.mpr hk, hk, ih]

theorem idsUnder_response (result : Value) (entries : List Entry) (v2 : Bool) (op : String) :
    idsUnder (checkResourceBulkOperationsResponse result entries v2) v2 op =
      (byOperation result entries).lookup op := by
  let m := byOperation result entries
  let object := Value.object ((sortedSet m.keys).map fun op =>
    (op, .array ((Dict.getD m op []).map .string)))
  have hunwrap : (if v2 then (checkResourceBulkOperationsResponse result entries v2).field "decision"
      else some (checkResourceBulkOperationsResponse result entries v2)) = some object := by
    cases v2 <;> rfl
  have hfield : object.field op =
      if op ∈ m then some (.array ((Dict.getD m op []).map .string)) else none := by
    simp only [object, Value.field, lookup_map_key, mem_sortedSet, AList.mem_keys]
  rw [idsUnder, hunwrap, Option.bind_some, hfield]
  cases hlookup : m.lookup op with
  | none =>
    rw [if_neg (AList.lookup_eq_none.mp hlookup)]
  | some ids =>
    have hmem : op ∈ m := AList.lookup_isSome.mp (by rw [hlookup]; rfl)
    have hids : Dict.getD m op [] = ids := by rw [Dict.getD, hlookup, Option.getD_some]
    have hstrings : (ids.map Value.string).filterMap (fun item => match item with
        | .string s => some s
        | _ => none) = ids := by
      simp [List.filterMap_map]
    rw [if_pos hmem, hids]
    simp only [hstrings]

/-! ## Bodies -/

theorem array_ok {body : String} {items : List String} (h : array J body = .ok items) :
    requested J body = items.map (requestedItem J) := by
  rw [array] at h
  cases hb : bracketed J body with
  | none => simp [hb] at h
  | some items' =>
    simp only [hb, Except.ok.injEq] at h
    rw [requested, hb, Option.getD_some, h]

theorem asks_of_newResource {typ op : String} {r : Requested} {res : Resource}
    (h : newResource J typ op r.resource = .ok res) :
    Asks J typ (value J op (.string "")) r res := by
  obtain ⟨t, ht, h⟩ := bind_eq_ok.mp h
  obtain ⟨o, ho, h⟩ := bind_eq_ok.mp h
  obtain ⟨v, hv, h⟩ := bind_eq_ok.mp h
  obtain rfl := pure_eq_ok.mp h
  exact ⟨ht, ho, hv⟩

theorem bulkItem_ok {raw : String} {out : Resource × String} (h : bulkItem J raw = .ok out) :
    out.2 = (requestedItem J raw).id ∧
    Asks J (requestedItem J raw).type (value J (requestedItem J raw).operation (.string ""))
      (requestedItem J raw) out.1 := by
  rw [bulkItem, decodeCheckItem] at h
  cases hm : J.object raw with
  | none => simp [hm] at h
  | some members =>
    simp only [hm, Option.map_some] at h
    obtain ⟨r, hr, rfl⟩ := map_eq_ok.mp h
    rw [CheckItem.toResource] at hr
    split_ifs at hr
    rw [requestedItem, hm, Option.getD_some]
    exact ⟨rfl, asks_of_newResource J hr⟩

theorem checkResourceBulk_ok {body : String} {resources : List Resource} {ids : List String}
    (h : checkResourceBulk J body = .ok (resources, ids)) :
    List.Forall₂ (fun r => Asks J r.type (value J r.operation (.string "")) r)
      (requested J body) resources ∧
    ids = (requested J body).map (fun r => text J r.id) ∧
    uniqueIDs ((requested J body).map Requested.id) = .ok () := by
  obtain ⟨items, harray, h⟩ := bind_eq_ok.mp h
  obtain ⟨parsed, hparsed, h⟩ := bind_eq_ok.mp h
  obtain ⟨_, hunique, h⟩ := bind_eq_ok.mp h
  obtain ⟨rfl, rfl⟩ := Prod.mk.inj (pure_eq_ok.mp h)
  have hforall := mapM_forall₂ hparsed
  have hids : parsed.map Prod.snd = (requested J body).map Requested.id := by
    rw [array_ok J harray, List.map_map]
    exact map_eq_of_forall₂ (fun raw out (hab : bulkItem J raw = .ok out) =>
      (bulkItem_ok J hab).1) hforall
  refine ⟨?_, ?_, ?_⟩
  · rw [array_ok J harray, List.forall₂_map_left_iff, List.forall₂_map_right_iff]
    exact hforall.imp fun _ _ hab => (bulkItem_ok J hab).2
  · have htexts := congrArg (List.map (text J)) hids
    simpa only [List.map_map, Function.comp_def] using htexts
  · rw [← hids, hunique]

/-- A resource and an entry of bulk/operations that stand for an operation of an
    element. -/
structure Stands (typ : String) (r : Requested) (op : String) (p : Resource × Entry) : Prop where
  asks : Asks J typ (.ok (.string op)) r p.1
  entry : p.2 = ⟨text J r.id, op⟩

/-- What an element of bulk/operations gives: a resource and an entry for each
    operation that is decided, and its id. -/
structure Expands (typeOf : Requested → String) (r : Requested)
    (out : List (Resource × Entry) × String) : Prop where
  id : out.2 = r.id
  pairs : List.Forall₂ (Stands J (typeOf r) r) r.decided out.1

theorem expand_ok {typ id : String} {r : Requested} {ops : List String}
    {pairs : List (Resource × Entry)} (hid : id = text J r.id)
    (h : expand J typ ops r.resource id = .ok pairs) :
    List.Forall₂ (Stands J typ r) ((ops.map (text J)).filter (· ≠ "")) pairs := by
  refine (mapM_forall₂ h).imp fun name p hp => ?_
  obtain ⟨res, hres, rfl⟩ := map_eq_ok.mp hp
  have hasks := asks_of_newResource J hres
  exact ⟨⟨hasks.type, rfl, hasks.resource⟩, by rw [hid]⟩

theorem expandItem_ok {typeOf : Requested → String} {typ raw : String} {it : OperationsItem}
    {out : List (Resource × Entry) × String} (hit : decodeOperationsItem J raw = some it)
    (htyp : typ = typeOf (requestedItem J raw)) (h : expandItem J typ it = .ok out) :
    Expands J typeOf (requestedItem J raw) out := by
  obtain ⟨members, hm, rfl⟩ := Option.map_eq_some_iff.mp hit
  rw [expandItem] at h
  cases hops : operations J (field members "operations") with
  | none => simp [hops] at h
  | some ops =>
    simp only [hops] at h
    obtain ⟨pairs, hpairs, rfl⟩ := map_eq_ok.mp h
    have hraw : requestedItem J raw = ⟨field members "id", field members "type",
        field members "operation", ops.map (text J), field members "resource"⟩ := by
      rw [requestedItem, hm, Option.getD_some, (Option.filter_eq_some_iff.mp hops).1,
        Option.getD_some]
    rw [htyp] at hpairs
    rw [hraw] at hpairs ⊢
    exact ⟨rfl, expand_ok J rfl hpairs⟩

theorem operationsItem_ok {raw : String} {out : List (Resource × Entry) × String}
    (h : operationsItem J raw = .ok out) : Expands J Requested.type (requestedItem J raw) out := by
  rw [operationsItem] at h
  cases hit : decodeOperationsItem J raw with
  | none => simp [hit] at h
  | some it =>
    simp only [hit] at h
    split_ifs at h
    refine expandItem_ok J hit ?_ h
    obtain ⟨members, hm, rfl⟩ := Option.map_eq_some_iff.mp hit
    rw [requestedItem, hm, Option.getD_some]

theorem v2Entry_ok {typ raw : String} {out : List (Resource × Entry) × String}
    (h : v2Entry J typ raw = .ok out) : Expands J (fun _ => typ) (requestedItem J raw) out := by
  rw [v2Entry] at h
  cases hit : decodeOperationsItem J raw with
  | none => simp [hit] at h
  | some it =>
    simp only [hit] at h
    exact expandItem_ok J hit rfl h

/-- The resource at each place of bulk/operations asks for the operation of the
    slot, about its entry. -/
def AsksSlots (typeOf : Requested → String) (rs : List Requested) (resources : List Resource) :
    Prop :=
  List.Forall₂ (fun s => Asks J (typeOf s.1.1) (.ok (.string s.2)) s.1.1) (slots rs) resources

/-- The resources and the entries of bulk/operations are those of the slots. -/
theorem collect_ok {item : String → Except RequestError (List (Resource × Entry) × String)}
    {typeOf : Requested → String}
    (hitem : ∀ raw out, item raw = .ok out → Expands J typeOf (requestedItem J raw) out)
    {items : List String} {resources : List Resource} {entries : List Entry}
    (h : collect item items = .ok (resources, entries)) :
    AsksSlots J typeOf (items.map (requestedItem J)) resources ∧
    entries = (slots (items.map (requestedItem J))).map (fun s => ⟨text J s.1.1.id, s.2⟩) ∧
    uniqueIDs ((items.map (requestedItem J)).map Requested.id) = .ok () := by
  obtain ⟨parsed, hparsed, h⟩ := bind_eq_ok.mp h
  obtain ⟨_, hunique, h⟩ := bind_eq_ok.mp h
  obtain ⟨rfl, rfl⟩ := Prod.mk.inj (pure_eq_ok.mp h)
  have hexpands : List.Forall₂ (Expands J typeOf) (items.map (requestedItem J)) parsed :=
    List.forall₂_map_left_iff.mpr ((mapM_forall₂ hparsed).imp fun raw out hok => hitem raw out hok)
  have hids := map_eq_of_forall₂ (fun _ _ hout => hout.id) hexpands
  generalize items.map (requestedItem J) = rs at hexpands hids ⊢
  -- slot by slot: the slots of an entry and what the entry gives
  have hslots : List.Forall₂ (fun s => Stands J (typeOf s.1.1) s.1.1 s.2) (slots rs)
      (parsed.flatMap Prod.fst) := by
    have hfst : rs.zipIdx.map Prod.fst = rs := List.zipIdx_map_fst 0 rs
    rw [← hfst, List.forall₂_map_left_iff] at hexpands
    refine List.rel_flatMap hexpands fun p out hout => ?_
    exact List.forall₂_map_left_iff.mpr hout.pairs
  refine ⟨?_, map_eq_of_forall₂ (fun _ _ hs => hs.entry) hslots, by rw [← hids, hunique]⟩
  exact List.forall₂_map_right_iff.mpr (hslots.imp fun _ _ hs => hs.asks)

/-- What the response to an accepted bulk/operations body says. -/
structure OperationsAnswered (typeOf : Requested → String) (rs : List Requested)
    (resources : List Resource) (entries : List Entry) (result : Value) (v2 : Bool) : Prop where
  /-- There is one resource for each operation that is decided, in this order. -/
  aligned : AsksSlots J typeOf rs resources
  names : ∀ op, NamesAllowed J rs (answers rs result op)
    ((idsUnder (checkResourceBulkOperationsResponse result entries v2) v2 op).getD [])
  /-- Every operation that is decided is a key of the response. -/
  keys : ∀ r ∈ rs, ∀ op ∈ r.operations, op ≠ "" →
    (idsUnder (checkResourceBulkOperationsResponse result entries v2) v2 op).isSome = true

theorem mem_slots {rs : List Requested} {p : Requested × Nat} {op : String} :
    (p, op) ∈ slots rs ↔ p ∈ rs.zipIdx ∧ op ∈ p.1.decided := by
  simp only [slots, List.mem_flatMap, List.mem_map, Prod.mk.injEq]
  constructor
  · rintro ⟨q, hq, o, ho, rfl, rfl⟩
    exact ⟨hq, ho⟩
  · rintro ⟨hp, hop⟩
    exact ⟨p, hp, op, hop, rfl, rfl⟩

theorem mem_answers {rs : List Requested} {result : Value} {op : String} {p : Requested × Nat}
    {item : Value} :
    (p, item) ∈ answers rs result op ↔ ((p, op), item) ∈ (slots rs).zip (results result) := by
  simp only [answers, List.mem_filterMap, Option.ite_none_right_eq_some, Option.some.injEq,
    Prod.mk.injEq]
  constructor
  · rintro ⟨⟨⟨q, o⟩, i⟩, hmem, rfl, rfl, rfl⟩
    exact hmem
  · intro hmem
    exact ⟨_, hmem, rfl, rfl, rfl⟩

theorem operationsAnswered {typeOf : Requested → String} {rs : List Requested}
    {resources : List Resource} {entries : List Entry}
    (h : AsksSlots J typeOf rs resources ∧
      entries = (slots rs).map (fun s => ⟨text J s.1.1.id, s.2⟩) ∧
      uniqueIDs (rs.map Requested.id) = .ok ()) (result : Value) (v2 : Bool) :
    OperationsAnswered J typeOf rs resources entries result v2 := by
  obtain ⟨haligned, rfl, hunique⟩ := h
  refine ⟨haligned, fun op => ?_, fun r hr op hop hne => ?_⟩
  · refine namesAllowed_of_listed J hunique ?_ fun x => ?_
    · rintro ⟨p, item⟩ ha
      exact (mem_slots.mp (List.of_mem_zip (mem_answers.mp ha)).1).1
    · rw [idsUnder_response]
      refine mem_byOperation.trans ?_
      rw [List.zip_map_left]
      simp only [List.mem_map]
      constructor
      · rintro ⟨p, ⟨⟨⟨q, o⟩, item⟩, ha, rfl⟩, rfl, rfl, hne, hallowed⟩
        simp only [Prod.map] at hne hallowed ⊢
        exact ⟨(q, item), mem_answers.mpr ha, rfl, hne, hallowed⟩
      · rintro ⟨⟨q, item⟩, ha, rfl, hne, hallowed⟩
        refine ⟨_, ⟨((q, op), item), mem_answers.mp ha, rfl⟩, ?_⟩
        simp only [Prod.map] at hne hallowed ⊢
        exact ⟨trivial, trivial, hne, hallowed⟩
  · obtain ⟨i, hi⟩ := List.mem_iff_getElem?.mp hr
    have hslot : (((r, i), op) : (Requested × Nat) × String) ∈ slots rs :=
      mem_slots.mpr ⟨List.mk_mem_zipIdx_iff_getElem?.mpr hi,
        List.mem_filter.mpr ⟨hop, by simpa using hne⟩⟩
    rw [idsUnder_response, AList.lookup_isSome]
    exact mem_keys_byOperation result (List.mem_map_of_mem hslot)

end

/-- The responses of the three bulk routes name the entries that were allowed,
    as far as ids in the response tell entries apart, and each resource that is
    decided asks about the entry at its place. -/
theorem bulk_responses_name_allowed (J : Decoder) (result : Value) :
    (∀ body resources ids, checkResourceBulk J body = .ok (resources, ids) →
      List.Forall₂ (fun r => Asks J r.type (value J r.operation (.string "")) r)
        (requested J body) resources ∧
      NamesAllowed J (requested J body) ((requested J body).zipIdx.zip (results result))
        (checkResourceBulkResponse result ids)) ∧
    (∀ body resources entries, checkResourceBulkOperations J body = .ok (resources, entries) →
      OperationsAnswered J Requested.type (requested J body) resources entries result false) ∧
    (∀ body resources entries, checkResourceBulkOperationsV2 J body = .ok (resources, entries) →
      OperationsAnswered J (fun _ => field ((J.object body).getD []) "type")
        (requested J (field ((J.object body).getD []) "entries")) resources entries result true) := by
  refine ⟨fun body resources ids h => ?_, fun body resources entries h => ?_,
    fun body resources entries h => ?_⟩
  · obtain ⟨hasks, hids, hunique⟩ := checkResourceBulk_ok J h
    rw [hids]
    refine ⟨hasks, namesAllowed_of_listed J hunique ?_ fun x => ?_⟩
    · rintro ⟨p, item⟩ ha
      exact (List.of_mem_zip ha).1
    · have hfst : (requested J body).zipIdx.map Prod.fst = requested J body :=
        List.zipIdx_map_fst 0 _
      rw [mem_checkResourceBulkResponse]
      conv_lhs => rw [← hfst, List.map_map, List.zip_map_left]
      simp only [List.mem_map]
      constructor
      · rintro ⟨-, ⟨a, ha, rfl⟩, rfl, hne, hallowed⟩
        simp only [Prod.map, Function.comp_apply] at hne hallowed ⊢
        exact ⟨a, ha, rfl, hne, hallowed⟩
      · rintro ⟨a, ha, rfl, hne, hallowed⟩
        refine ⟨_, ⟨a, ha, rfl⟩, ?_⟩
        simp only [Prod.map, Function.comp_apply] at hne hallowed ⊢
        exact ⟨trivial, hne, hallowed⟩
  · obtain ⟨items, harray, h⟩ := bind_eq_ok.mp h
    rw [array_ok J harray]
    exact operationsAnswered J (collect_ok J (fun _ _ => operationsItem_ok J) h) result false
  · rw [checkResourceBulkOperationsV2, decodeV2Body] at h
    split_ifs at h
    cases hm : J.object body with
    | none => simp [hm] at h
    | some members =>
      simp only [hm, Option.map_some] at h
      split_ifs at h
      obtain ⟨items, harray, h⟩ := bind_eq_ok.mp h
      rw [Option.getD_some, array_ok J harray]
      exact operationsAnswered J (collect_ok J (fun _ _ => v2Entry_ok J) h) result true

/-! ## Two entries with one id -/

/-- A check/resource/bulk body with the ids `1` and `"1"`. -/
def sameIds : String :=
  "[\x7b\"id\":1,\"type\":\"T\",\"operation\":\"read\"\x7d," ++
  "\x7b\"id\":\"1\",\"type\":\"T\",\"operation\":\"read\"\x7d]"

/-- A result that says whether its resource is allowed. -/
def resultOf (isAllowed : Bool) : Value := .object [("isAllowed", .bool isAllowed)]

/-- A decision that allows the first of two resources. -/
def firstAllowed : Value := .object [("results", .array [resultOf true, resultOf false])]

/-- An entry of `sameIds`, with its id as it is written. -/
def sameId (id : String) : Requested := ⟨id, "\"T\"", "\"read\"", [], ""⟩

theorem requested_sameIds : requested .json sameIds = [sameId "1", sameId "\"1\""] := by
  decide +kernel

theorem checkResourceBulk_sameIds : ∃ resources,
    checkResourceBulk .json sameIds = .ok (resources, ["1", "1"]) := by
  refine ⟨[⟨.string "T", .string "read", .object []⟩, ⟨.string "T", .string "read", .object []⟩], ?_⟩
  decide +kernel

theorem bulk_lists_refused_entry : ∃ resources ids,
    checkResourceBulk .json sameIds = .ok (resources, ids) ∧
    ∃ p ∈ (requested .json sameIds).zipIdx, text .json p.1.id ≠ "" ∧
      text .json p.1.id ∈ checkResourceBulkResponse firstAllowed ids ∧
      ¬ AllowedIn ((requested .json sameIds).zipIdx.zip (results firstAllowed)) p := by
  obtain ⟨resources, h⟩ := checkResourceBulk_sameIds
  refine ⟨resources, ["1", "1"], h, (sameId "\"1\"", 1), ?_, ?_, ?_, ?_⟩
  · rw [requested_sameIds]
    decide
  · decide +kernel
  · decide +kernel
  · rw [requested_sameIds]
    rintro ⟨item, hmem, hallowed⟩
    have hitem : item = resultOf false := by simpa [firstAllowed, results] using hmem
    rw [hitem] at hallowed
    exact absurd hallowed (by decide)

theorem bulk_lists_some_entry : ∃ resources ids,
    checkResourceBulk .json sameIds = .ok (resources, ids) ∧
    NamesAllowed .json (requested .json sameIds)
      ((requested .json sameIds).zipIdx.zip (results firstAllowed))
      (checkResourceBulkResponse firstAllowed ids) := by
  obtain ⟨resources, h⟩ := checkResourceBulk_sameIds
  exact ⟨resources, ["1", "1"], h,
    ((bulk_responses_name_allowed .json firstAllowed).1 sameIds resources ["1", "1"] h).2⟩

end Legacy

end AuthzAgent
