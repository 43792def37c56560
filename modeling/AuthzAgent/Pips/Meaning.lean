/-
  AuthzAgent.Pips.Meaning

  What the normalized document says about a PIP.  The loop of
  `NormalizeItems` leaves each name with its last entry, and each map of a
  type with the last PIP of that name and type.  So a name has one meaning
  when the last PIP of the name has a type the agent handles and no other PIP
  of the name has another one of these types: a repeated name whose type
  changes stays in the map of the old type as well.
-/

import AuthzAgent.Pips.Normalize

namespace AuthzAgent

open GoText

namespace Pips

/-! ## Aliases -/

/-- The name starts with `subject.`. -/
def SimplifiedPIP.Named (item : SimplifiedPIP) : Prop := ∃ rest, item.name = "subject." ++ rest

/-- The name after its first eight characters. -/
def SimplifiedPIP.rest (item : SimplifiedPIP) : String := String.ofList (item.name.toList.drop 8)

theorem toList_subject_append (rest : String) :
    ("subject." ++ rest).toList = ['s', 'u', 'b', 'j', 'e', 'c', 't', '.'] ++ rest.toList := by
  simp

theorem SimplifiedPIP.Named.name_eq {item : SimplifiedPIP} (h : item.Named) :
    item.name = "subject." ++ item.rest := by
  obtain ⟨rest, hname⟩ := h
  have hrest : item.rest = rest := by
    rw [SimplifiedPIP.rest, hname, toList_subject_append]
    simp
  rw [hrest, hname]

theorem SimplifiedPIP.Named.aliasOf_eq {item : SimplifiedPIP} (h : item.Named) :
    aliasOf item = .ok item.rest := by
  have hsize : "subject.".utf8ByteSize =
      (['s', 'u', 'b', 'j', 'e', 'c', 't', '.'].map Char.utf8Size).sum := by decide
  have hslice : sliceFrom "subject.".utf8ByteSize item.name.toList = some item.rest.toList := by
    nth_rewrite 1 [h.name_eq]
    rw [toList_subject_append, hsize]
    exact sliceFrom_append _ _
  rw [aliasOf, hslice]
  simp

/-- For PIPs whose names start with `subject.` the loop is a plain fold. -/
theorem foldlM_add_of_named (P : Platform) {items : List SimplifiedPIP}
    (h : ∀ item ∈ items, item.Named) (n : NormalizedPIPs) :
    items.foldlM (NormalizedPIPs.add P) n =
      .ok (items.foldl (fun n item => n.file P item item.rest) n) := by
  induction items generalizing n with
  | nil => rfl
  | cons item items ih =>
    have hadd : n.add P item = .ok (n.file P item item.rest) := by
      rw [NormalizedPIPs.add, (h item List.mem_cons_self).aliasOf_eq]
      rfl
    have hrest : ∀ item ∈ items, item.Named :=
      fun item hitem => h item (List.mem_cons_of_mem _ hitem)
    rw [List.foldlM_cons, hadd, List.foldl_cons, ← ih hrest (n.file P item item.rest)]
    rfl

/-! ## The maps after the loop -/

/-- The configuration that a PIP of one type leaves in the map of that type. -/
def ofType {β : Type} (P : Platform) (type : String) (config : SimplifiedPIP → String → β)
    (item : SimplifiedPIP) (aliasName : String) : Option β :=
  if resolvePipType P item = type then some (config item aliasName) else none

section

variable (P : Platform) (n : NormalizedPIPs) (item : SimplifiedPIP) (aliasName : String)

theorem file_byName : (n.file P item aliasName).byName =
    Dict.insertSome n.byName item.name (some (normalizedEntry P item aliasName)) := by
  rw [NormalizedPIPs.file]
  split_ifs <;> rfl

theorem file_token : (n.file P item aliasName).token =
    Dict.insertSome n.token item.name (ofType P "TOKEN" tokenConfig item aliasName) := by
  rw [NormalizedPIPs.file, ofType]
  split_ifs <;> rfl

theorem file_header : (n.file P item aliasName).header =
    Dict.insertSome n.header item.name (ofType P "HEADER" headerConfig item aliasName) := by
  rw [NormalizedPIPs.file, ofType]
  split_ifs with htoken hheader
  · exact absurd (htoken.symm.trans hheader) (by decide)
  all_goals rfl

theorem file_general : (n.file P item aliasName).general =
    Dict.insertSome n.general item.name (ofType P "GENERAL" (generalConfig P) item aliasName) := by
  rw [NormalizedPIPs.file, ofType]
  split_ifs with htoken hgeneral hheader hgeneral
  · exact absurd (htoken.symm.trans hgeneral) (by decide)
  · rfl
  · exact absurd (hheader.symm.trans hgeneral) (by decide)
  all_goals rfl

end

def lastValue {β : Type} (items : List SimplifiedPIP) (val : SimplifiedPIP → Option β)
    (name : String) : Option β :=
  items.reverse.findSome? fun item => if item.name = name then val item else none

/-- A map that each round extends by the value of its PIP. -/
theorem lookup_foldl_file {β : Type} (P : Platform) (part : NormalizedPIPs → Dict β)
    (val : SimplifiedPIP → Option β)
    (hpart : ∀ n item, part (n.file P item item.rest) =
      Dict.insertSome (part n) item.name (val item))
    (hempty : part .empty = ∅) (items : List SimplifiedPIP) (name : String) :
    (part (items.foldl (fun n item => n.file P item item.rest) .empty)).lookup name =
      lastValue items val name := by
  have hfold : part (items.foldl (fun n item => n.file P item item.rest) .empty) =
      items.foldl (fun d item => Dict.insertSome d item.name (val item)) ∅ := by
    rw [← hempty]
    exact (List.foldl_hom part fun n item => (hpart n item).symm).symm
  rw [hfold, Dict.lookup_foldl_insertSome, AList.lookup_empty, Option.or_none]
  rfl

theorem exists_of_lastValue {β : Type} {items : List SimplifiedPIP}
    {val : SimplifiedPIP → Option β} {name : String} {v : β}
    (h : lastValue items val name = some v) :
    ∃ item ∈ items, item.name = name ∧ val item = some v := by
  obtain ⟨item, hitem, hval⟩ := List.exists_of_findSome?_eq_some h
  rw [Option.ite_none_right_eq_some] at hval
  exact ⟨item, List.mem_reverse.mp hitem, hval⟩

theorem lastValue_eq_none {β : Type} {items : List SimplifiedPIP}
    {val : SimplifiedPIP → Option β} {name : String} :
    lastValue items val name = none ↔ ∀ item ∈ items, item.name = name → val item = none := by
  simp [lastValue, List.findSome?_eq_none_iff]

def lastNamed (items : List SimplifiedPIP) (name : String) : Option SimplifiedPIP :=
  lastValue items some name

/-- The value of the last PIP of a name is found before all others. -/
theorem lastValue_of_lastNamed {β : Type} {items : List SimplifiedPIP}
    {val : SimplifiedPIP → Option β} {name : String} {last : SimplifiedPIP} {v : β}
    (hlast : lastNamed items name = some last) (hval : val last = some v) :
    lastValue items val name = some v := by
  obtain ⟨before, item, after, hitems, hitem, hbefore⟩ := List.findSome?_eq_some_iff.mp hlast
  rw [Option.ite_none_right_eq_some, Option.some.injEq] at hitem
  obtain ⟨hname, rfl⟩ := hitem
  refine List.findSome?_eq_some_iff.mpr ⟨before, item, after, hitems, ?_, fun x hx => ?_⟩
  · rw [if_pos hname, hval]
  · have hother : x.name ≠ name := by simpa using hbefore x hx
    rw [if_neg hother]

/-! ## One meaning -/

/-- The types that have a map of their own. -/
def Handled (type : String) : Prop := type = "TOKEN" ∨ type = "HEADER" ∨ type = "GENERAL"

/-- The document describes the PIP under its name, and holds the name in the
    map of its type only, with the configuration of the PIP. -/
structure Describes (P : Platform) (n : NormalizedPIPs) (item : SimplifiedPIP) : Prop where
  byName : n.byName.lookup item.name = some (normalizedEntry P item item.rest)
  handled : Handled (resolvePipType P item)
  token : n.token.lookup item.name = ofType P "TOKEN" tokenConfig item item.rest
  header : n.header.lookup item.name = ofType P "HEADER" headerConfig item item.rest
  general : n.general.lookup item.name = ofType P "GENERAL" (generalConfig P) item item.rest

/-- Some entry of the document gives a name the alias. -/
def NormalizedPIPs.HasAlias (n : NormalizedPIPs) (name aliasName : String) : Prop :=
  (∃ e, n.byName.lookup name = some e ∧ e.aliasName = aliasName) ∨
  (∃ e, n.token.lookup name = some e ∧ e.aliasName = aliasName) ∨
  (∃ e, n.header.lookup name = some e ∧ e.aliasName = aliasName) ∨
  (∃ e, n.general.lookup name = some e ∧ e.aliasName = aliasName)

/-- Each name of the list stands for one of its PIPs, and no alias for two
    names. -/
def OneMeaning (P : Platform) (items : List SimplifiedPIP) (n : NormalizedPIPs) : Prop :=
  (∀ item ∈ items, ∃ described ∈ items, described.name = item.name ∧ Describes P n described) ∧
  (∀ name name' aliasName, n.HasAlias name aliasName → n.HasAlias name' aliasName → name = name')

/-- The last PIP of each name has a type with a map, and no PIP of the name has
    another such type. -/
def SingleTyped (P : Platform) (items : List SimplifiedPIP) : Prop :=
  ∀ item ∈ items, ∃ type, Handled type ∧
    (lastNamed items item.name).map (resolvePipType P) = some type ∧
    ∀ other ∈ items, other.name = item.name → Handled (resolvePipType P other) →
      resolvePipType P other = type

section

variable {P : Platform} {items : List SimplifiedPIP} {name : String}

/-- The document of PIPs whose names start with `subject.`. -/
def filed (P : Platform) (items : List SimplifiedPIP) : NormalizedPIPs :=
  items.foldl (fun n item => n.file P item item.rest) .empty

theorem lookup_byName : (filed P items).byName.lookup name =
    lastValue items (fun item => some (normalizedEntry P item item.rest)) name :=
  lookup_foldl_file P (fun n => n.byName) _ (fun n item => file_byName P n item item.rest) rfl
    items name

theorem lookup_token : (filed P items).token.lookup name =
    lastValue items (fun item => ofType P "TOKEN" tokenConfig item item.rest) name :=
  lookup_foldl_file P (fun n => n.token) _ (fun n item => file_token P n item item.rest) rfl
    items name

theorem lookup_header : (filed P items).header.lookup name =
    lastValue items (fun item => ofType P "HEADER" headerConfig item item.rest) name :=
  lookup_foldl_file P (fun n => n.header) _ (fun n item => file_header P n item item.rest) rfl
    items name

theorem lookup_general : (filed P items).general.lookup name =
    lastValue items (fun item => ofType P "GENERAL" (generalConfig P) item item.rest) name :=
  lookup_foldl_file P (fun n => n.general) _ (fun n item => file_general P n item item.rest) rfl
    items name

theorem name_eq_of_hasAlias (h : ∀ item ∈ items, item.Named) {aliasName : String}
    (halias : (filed P items).HasAlias name aliasName) : name = "subject." ++ aliasName := by
  rw [NormalizedPIPs.HasAlias, lookup_byName, lookup_token, lookup_header, lookup_general] at halias
  have hofType : ∀ {β : Type} {type : String} {config : SimplifiedPIP → String → β}
      {item : SimplifiedPIP} {e : β}, ofType P type config item item.rest = some e →
        e = config item item.rest := by
    intro β type config item e he
    rw [ofType, Option.ite_none_right_eq_some] at he
    exact (Option.some.inj he.2).symm
  obtain ⟨item, hitem, hname, hrest⟩ :
      ∃ item ∈ items, item.name = name ∧ item.rest = aliasName := by
    rcases halias with ⟨e, he, hea⟩ | ⟨e, he, hea⟩ | ⟨e, he, hea⟩ | ⟨e, he, hea⟩ <;>
      obtain ⟨item, hitem, hname, hval⟩ := exists_of_lastValue he
    · rw [← Option.some.inj hval] at hea
      exact ⟨item, hitem, hname, hea⟩
    all_goals
      rw [hofType hval] at hea
      exact ⟨item, hitem, hname, hea⟩
  rw [← hname, (h item hitem).name_eq, hrest]

/-- A map that holds what the described PIP leaves there holds nothing of
    another type. -/
theorem type_eq_of_lookup {β : Type} {type : String} {config : SimplifiedPIP → String → β}
    {item other : SimplifiedPIP} (hother : other ∈ items) (hname : other.name = name)
    (htype : resolvePipType P other = type)
    (hlookup : lastValue items (fun item => ofType P type config item item.rest) name =
      ofType P type config item item.rest) :
    resolvePipType P item = type := by
  by_contra hne
  rw [ofType, if_neg hne] at hlookup
  have hnone := lastValue_eq_none.mp hlookup other hother hname
  rw [ofType, if_pos htype] at hnone
  cases hnone

/-- When no PIP of the name is of the type unless the last one is, the map of
    the type holds what the last one leaves there. -/
theorem lastValue_ofType {β : Type} {type : String} {config : SimplifiedPIP → String → β}
    {last : SimplifiedPIP} (hlast : lastNamed items name = some last)
    (hsame : ∀ other ∈ items, other.name = name → resolvePipType P other = type →
      resolvePipType P last = type) :
    lastValue items (fun item => ofType P type config item item.rest) name =
      ofType P type config last last.rest := by
  by_cases htype : resolvePipType P last = type
  · have hval : ofType P type config last last.rest = some (config last last.rest) := if_pos htype
    rw [hval]
    exact lastValue_of_lastNamed hlast hval
  · have hval : ofType P type config last last.rest = none := if_neg htype
    rw [hval]
    refine lastValue_eq_none.mpr fun other hother hname => ?_
    exact if_neg fun h => htype (hsame other hother hname h)

theorem lastType_of_byName {item : SimplifiedPIP} {aliasName : String}
    (hsome : ∃ item ∈ items, item.name = name)
    (he : (filed P items).byName.lookup name = some (normalizedEntry P item aliasName)) :
    (lastNamed items name).map (resolvePipType P) = some (resolvePipType P item) := by
  obtain ⟨first, hfirst, hname⟩ := hsome
  rw [lookup_byName] at he
  cases hlast : lastNamed items name with
  | none => cases lastValue_eq_none.mp hlast first hfirst hname
  | some last =>
    have hlookup : lastValue items (fun item => some (normalizedEntry P item item.rest)) name =
        some (normalizedEntry P last last.rest) := lastValue_of_lastNamed hlast rfl
    have hentry := Option.some.inj (he.symm.trans hlookup)
    simp only [normalizedEntry, NormalizedEntry.mk.injEq] at hentry
    rw [Option.map_some, hentry.2.2]

/-- The document gives each name one meaning exactly when the list gives it one
    type. -/
theorem oneMeaning_filed_iff (h : ∀ item ∈ items, item.Named) :
    OneMeaning P items (filed P items) ↔ SingleTyped P items := by
  constructor
  · rintro ⟨hdescribed, -⟩ item hitem
    obtain ⟨described, -, hname, hd⟩ := hdescribed item hitem
    rw [← hname]
    refine ⟨resolvePipType P described, hd.handled, ?_, fun other hother hsame htype => ?_⟩
    · exact lastType_of_byName ⟨item, hitem, hname.symm⟩ hd.byName
    · rcases htype with ht | ht | ht <;> rw [ht]
      · exact (type_eq_of_lookup hother hsame ht (lookup_token ▸ hd.token)).symm
      · exact (type_eq_of_lookup hother hsame ht (lookup_header ▸ hd.header)).symm
      · exact (type_eq_of_lookup hother hsame ht (lookup_general ▸ hd.general)).symm
  · intro hsingle
    refine ⟨fun item hitem => ?_, fun name name' aliasName ha ha' => ?_⟩
    · obtain ⟨type, hhandled, htype, hsame⟩ := hsingle item hitem
      obtain ⟨last, hlast, rfl⟩ := Option.map_eq_some_iff.mp htype
      obtain ⟨x, hx, hname, hx'⟩ := exists_of_lastValue hlast
      obtain rfl := Option.some.inj hx'
      rw [← hname] at hlast hsame
      -- a PIP of a type with a map has the type of the last one
      have hmap : ∀ type, Handled type → ∀ other ∈ items, other.name = x.name →
          resolvePipType P other = type → resolvePipType P x = type := by
        intro type htype other hother hon ht
        rw [← hsame other hother hon (ht ▸ htype), ht]
      refine ⟨x, hx, hname, ⟨?_, hhandled, ?_, ?_, ?_⟩⟩
      · rw [lookup_byName]
        exact lastValue_of_lastNamed hlast rfl
      · rw [lookup_token, lastValue_ofType hlast (hmap _ (.inl rfl))]
      · rw [lookup_header, lastValue_ofType hlast (hmap _ (.inr (.inl rfl)))]
      · rw [lookup_general, lastValue_ofType hlast (hmap _ (.inr (.inr rfl)))]
    · rw [name_eq_of_hasAlias h ha, name_eq_of_hasAlias h ha']

end

theorem normalizeItems_of_named (P : Platform) {items : List SimplifiedPIP}
    (h : ∀ item ∈ items, item.Named) :
    normalizeItems P items = .ok (⟨items, filed P items⟩, uploadSummary P items) := by
  rw [normalizeItems, foldlM_add_of_named P h]
  rfl

/-- For PIPs whose names start with `subject.` the normalized document gives
    each name one meaning, and each alias one name, exactly when the last PIP
    of each name has a type with a map and no PIP of the name has another such
    type. -/
theorem one_meaning_iff_single_typed (P : Platform) (items : List SimplifiedPIP)
    (h : ∀ item ∈ items, item.Named) :
    ∃ doc summary, normalizeItems P items = .ok (doc, summary) ∧
      (OneMeaning P items doc.normalized ↔ SingleTyped P items) :=
  ⟨⟨items, filed P items⟩, uploadSummary P items, normalizeItems_of_named P h,
    oneMeaning_filed_iff h⟩

/-! ## Two tenants, one name -/

/-- The unit of the subject, from a claim of its token. -/
def unitFromToken : SimplifiedPIP where
  name := "subject.unit"
  pipType := "TOKEN"
  url := ""
  httpMethod := ""
  header := ""
  claim := "unit"
  beanName := ""
  defaultValue := none
  domain := ""
  requestAttributes := []
  headers := none
  type := ""
  jsonPath := ""
  query := []
  body := none
  timeoutSeconds := none
  response := none

/-- The same name from a header of the request, as another tenant has it. -/
def unitFromHeader : SimplifiedPIP :=
  { unitFromToken with
    pipType := "HEADER"
    header := "X-Unit"
    claim := "" }

/-- Another PIP. -/
def localeFromHeader : SimplifiedPIP :=
  { unitFromHeader with
    name := "subject.locale"
    header := "Accept-Language" }

theorem named_unit (items : List SimplifiedPIP)
    (h : ∀ item ∈ items, item.name = "subject.unit" ∨ item.name = "subject.locale") :
    ∀ item ∈ items, item.Named := by
  intro item hitem
  rcases h item hitem with hname | hname
  · exact ⟨"unit", hname⟩
  · exact ⟨"locale", hname⟩

/-- The name stays in the map of its first type. -/
theorem unit_has_two_meanings :
    (∀ item ∈ [unitFromToken, unitFromHeader], item.Named) ∧
    ∃ doc summary, normalizeItems .ascii [unitFromToken, unitFromHeader] = .ok (doc, summary) ∧
      "subject.unit" ∈ doc.normalized.token ∧ "subject.unit" ∈ doc.normalized.header ∧
      ¬ OneMeaning .ascii [unitFromToken, unitFromHeader] doc.normalized := by
  have hnamed : ∀ item ∈ [unitFromToken, unitFromHeader], item.Named :=
    named_unit _ (by simp [unitFromToken, unitFromHeader])
  have htoken : resolvePipType .ascii unitFromToken = "TOKEN" := by decide +kernel
  have hheader : resolvePipType .ascii unitFromHeader = "HEADER" := by decide +kernel
  have hboth : "subject.unit" ∈ (filed .ascii [unitFromToken, unitFromHeader]).token ∧
      "subject.unit" ∈ (filed .ascii [unitFromToken, unitFromHeader]).header := by
    decide +kernel
  refine ⟨hnamed, _, _, normalizeItems_of_named .ascii hnamed, hboth.1, hboth.2, fun hone => ?_⟩
  obtain ⟨type, -, -, hsame⟩ := (oneMeaning_filed_iff hnamed).mp hone unitFromToken List.mem_cons_self
  have h1 := hsame unitFromToken List.mem_cons_self rfl (.inl htoken)
  have h2 := hsame unitFromHeader (List.mem_cons_of_mem _ List.mem_cons_self) rfl
    (.inr (.inl hheader))
  rw [← h2, htoken, hheader] at h1
  exact absurd h1 (by decide)

theorem unit_and_locale_have_one_meaning :
    ∃ doc summary, normalizeItems .ascii [unitFromToken, localeFromHeader] = .ok (doc, summary) ∧
      OneMeaning .ascii [unitFromToken, localeFromHeader] doc.normalized := by
  have htoken : resolvePipType .ascii unitFromToken = "TOKEN" := by decide +kernel
  have hheader : resolvePipType .ascii localeFromHeader = "HEADER" := by decide +kernel
  obtain ⟨doc, summary, hdoc, hiff⟩ := one_meaning_iff_single_typed .ascii
    [unitFromToken, localeFromHeader]
    (named_unit _ (by simp [unitFromToken, localeFromHeader]))
  refine ⟨doc, summary, hdoc, hiff.mpr fun item hitem => ?_⟩
  rcases List.mem_pair.mp hitem with rfl | rfl
  · refine ⟨"TOKEN", .inl rfl, by decide +kernel, fun other hother hname _ => ?_⟩
    rcases List.mem_pair.mp hother with rfl | rfl
    · exact htoken
    · exact absurd hname (by decide)
  · refine ⟨"HEADER", .inr (.inl rfl), by decide +kernel, fun other hother hname _ => ?_⟩
    rcases List.mem_pair.mp hother with rfl | rfl
    · exact absurd hname (by decide)
    · exact hheader

end Pips

end AuthzAgent
