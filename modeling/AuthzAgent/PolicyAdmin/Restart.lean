/-
  AuthzAgent.PolicyAdmin.Restart

  What a restart of authz-policy-admin serves, against what the running store
  serves.  A restart looks for the file of a domain with the path of the data
  directory as a pattern, and takes the last one it finds and can read
  (`onDisk_eq_some_iff`).  An upload changes the running store and what a restart
  finds alike, except when its domain file is written and the state file is not,
  so that only the store is rolled back, or when the restart does not take the
  written file.
-/

import AuthzAgent.Lib.JsonText
import AuthzAgent.Lib.Runs
import AuthzAgent.PolicyAdmin.Store

namespace AuthzAgent

open GoPath
open GoText

namespace PolicyAdmin

/-! ## File names -/

theorem recoverDomain_eq_some {k : Kind} {name domain : String} :
    recoverDomain k name = some domain ↔
      name = domainFileName k domain ∧ validDomain domain = true := by
  rw [recoverDomain, Option.filter_eq_some_iff, Option.bind_eq_some_iff, domainFileName]
  refine and_congr_left fun _ => ?_
  constructor
  · rintro ⟨rest, hrest, hdomain⟩
    rw [cutFront_eq_some.mp hrest, cutBack_eq_some.mp hdomain, String.append_assoc]
  · intro hname
    refine ⟨domain ++ ".json", cutFront_eq_some.mpr ?_, cutBack_eq_some.mpr rfl⟩
    rw [hname, String.append_assoc]

theorem domainFileName_inj {k : Kind} {a b : String} :
    domainFileName k a = domainFileName k b ↔ a = b := by
  constructor
  · intro h
    rw [domainFileName, domainFileName, ← String.toList_inj] at h
    simpa [String.toList_append, String.toList_inj] using h
  · rintro rfl
    rfl

/-- The files of the two kinds have different names. -/
theorem domainFileName_ne {k l : Kind} (hkl : k ≠ l) (a b : String) :
    domainFileName k a ≠ domainFileName l b := by
  have hpolicies : "policies-".toList = 'p' :: 'o' :: "licies-".toList := by simp
  have hpips : "pips-".toList = 'p' :: 'i' :: "ps-".toList := by simp
  intro h
  rw [domainFileName, domainFileName, ← String.toList_inj] at h
  cases k <;> cases l <;>
    simp [Kind.filePrefix, String.toList_append, hpolicies, hpips] at h hkl

theorem domainFileName_ne_stateFileName (k : Kind) (domain : String) :
    domainFileName k domain ≠ stateFileName := by
  have hpolicies : "policies-".toList = 'p' :: "olicies-".toList := by simp
  have hpips : "pips-".toList = 'p' :: "ips-".toList := by simp
  have hstate : "state.json".toList = 's' :: "tate.json".toList := by simp
  intro h
  rw [domainFileName, stateFileName, ← String.toList_inj] at h
  cases k <;> simp [Kind.filePrefix, String.toList_append, hpolicies, hpips, hstate] at h

/-- Domains and the names of their files are single elements of a path. -/
theorem slash_not_mem_domainFileName {domain : String} (h : validDomain domain = true) (k : Kind) :
    '/' ∉ (domainFileName k domain).toList := by
  have hdomain : '/' ∉ domain.toList := by
    intro hmem
    simp only [validDomain, Bool.and_eq_true] at h
    exact absurd (List.all_eq_true.mp h.1.1.2 '/' hmem) (by decide)
  rw [domainFileName, String.toList_append, String.toList_append]
  cases k <;> simp [Kind.filePrefix, hdomain]

def domainPath (dir : String) (k : Kind) (domain : String) : String :=
  joinPath dir (domainFileName k domain)

theorem base_domainPath (dir : String) (k : Kind) {domain : String}
    (h : validDomain domain = true) : base (domainPath dir k domain) = domainFileName k domain :=
  base_joinPath dir (slash_not_mem_domainFileName h k)

theorem base_statePath (dir : String) : base (joinPath dir stateFileName) = stateFileName :=
  base_joinPath dir (by decide)

/-- A file that `globDomainFiles` takes for the one of a domain. -/
def Names (dir : String) (k : Kind) (domain path : String) : Prop :=
  globMatches dir (k.filePrefix ++ "*" ++ ".json") path = true ∧
    recoverDomain k (base path) = some domain

theorem names_domainPath_iff {dir : String} {k : Kind} {domain : String}
    (h : validDomain domain = true) : Names dir k domain (domainPath dir k domain) ↔
      globMatches dir (k.filePrefix ++ "*" ++ ".json") (domainPath dir k domain) = true := by
  refine and_iff_left ?_
  rw [base_domainPath dir k h]
  exact recoverDomain_eq_some.mpr ⟨rfl, h⟩

/-- In a directory without characters of patterns, the file of a domain in it is
    the one that is found. -/
theorem names_iff_of_plain {dir : String} (hdir : ∀ c ∈ dir.toList, isPlain c = true)
    (k : Kind) {domain path : String} (h : validDomain domain = true) :
    Names dir k domain path ↔ path = domainPath dir k domain := by
  constructor
  · intro hnames
    have hbase := (recoverDomain_eq_some.mp hnames.2).1
    rw [eq_joinPath_of_globMatches hdir hnames.1, hbase, domainPath]
  · rintro rfl
    rw [names_domainPath_iff h]
    refine globMatches_of_plain hdir ?_ (JsonText.forall_mem_of_all rfl)
      (slash_not_mem_domainFileName h k)
    cases k with
    | policies => exact JsonText.forall_mem_of_all rfl
    | pips => exact JsonText.forall_mem_of_all rfl

/-! ## Loading -/

section

variable {Item : Kind → Type} (E : Encoding Item)

/-- The items of a file that can be read and decoded. -/
def fileItems (disk : Disk) (k : Kind) (path : String) : Option (List (Item k)) :=
  (readFile disk path).bind fun raw => (E.unmarshal k raw).toOption.map normalizeItems

/-- What a restart has for a domain. -/
def onDisk (dir : String) (disk : Disk) (k : Kind) (domain : String) : Option (List (Item k)) :=
  ((loadFromDisk E dir disk).items k).lookup domain

/-- Step: one file. -/
theorem lookup_loadFile (disk : Disk) (k : Kind) (items : Dict (List (Item k))) (f : DomainFile)
    (domain : String) :
    (loadFile E disk k items f).lookup domain =
      if domain = f.domain then (fileItems E disk k f.path).or (items.lookup domain)
      else items.lookup domain := by
  rw [loadFile, fileItems]
  cases readFile disk f.path with
  | none => simp
  | some raw =>
    cases hraw : E.unmarshal k raw with
    | error e => simp [hraw, Except.toOption]
    | ok loaded =>
      by_cases hdomain : domain = f.domain
      · subst hdomain
        simp [hraw, Except.toOption]
      · simp [hraw, AList.lookup_insert_ne hdomain, hdomain]

/-- Run: the last file of a domain that loads is the one that counts. -/
theorem lookup_foldl_loadFile (disk : Disk) (k : Kind) (files : List DomainFile)
    (items : Dict (List (Item k))) (domain : String) :
    (files.foldl (loadFile E disk k) items).lookup domain =
      (files.reverse.findSome? fun f =>
        if domain = f.domain then fileItems E disk k f.path else none).or (items.lookup domain) := by
  induction files generalizing items with
  | nil => rfl
  | cons f files ih =>
    rw [List.foldl_cons, ih, lookup_loadFile, List.reverse_cons, List.findSome?_append, Option.or_assoc]
    congr 1
    split_ifs with hdomain <;> simp [hdomain]

/-- A restart has the last file that is taken for the domain and can be loaded. -/
theorem onDisk_eq_some_iff {dir : String} {disk : Disk} {k : Kind} {domain : String}
    {items : List (Item k)} : onDisk E dir disk k domain = some items ↔
      ∃ path, Names dir k domain path ∧ fileItems E disk k path = some items ∧
        ∀ later, Names dir k domain later → path < later → fileItems E disk k later = none := by
  let paths := sortedSet (disk.keys.filter (globMatches dir (k.filePrefix ++ "*" ++ ".json")))
  let taken := fun path => if recoverDomain k (base path) = some domain
    then fileItems E disk k path else none
  have hfind : onDisk E dir disk k domain = paths.reverse.findSome? taken := by
    show ((globDomainFiles disk dir k).foldl (loadFile E disk k) ∅).lookup domain = _
    rw [lookup_foldl_loadFile, AList.lookup_empty, Option.or_none, globDomainFiles,
      ← List.filterMap_reverse, ← List.head?_filterMap, List.filterMap_filterMap,
      List.head?_filterMap]
    refine congrFun (congrArg _ (funext fun path => ?_)) _
    cases hdomain : recoverDomain k (base path) with
    | none => simp [taken, hdomain]
    | some d => simp [taken, hdomain, eq_comm]
  -- a path that is taken and loads is among the sorted ones
  have hmem : ∀ {path} {loaded : List (Item k)}, Names dir k domain path →
      fileItems E disk k path = some loaded → path ∈ paths := by
    intro path loaded hnames hloaded
    rw [mem_sortedSet, List.mem_filter]
    refine ⟨?_, hnames.1⟩
    rw [← AList.mem_keys, ← AList.lookup_isSome]
    cases hlookup : disk.lookup path with
    | none => simp [fileItems, readFile, hlookup] at hloaded
    | some content => rfl
  have htaken : ∀ {path}, path ∈ paths → ∀ {loaded : List (Item k)}, taken path = some loaded ↔
      Names dir k domain path ∧ fileItems E disk k path = some loaded := by
    intro path hpath loaded
    have hmatch := (List.mem_filter.mp (mem_sortedSet.mp hpath)).2
    rw [Option.ite_none_right_eq_some, Names, hmatch]
    simp
  have hsorted : paths.reverse.Pairwise (· > ·) := by
    rw [List.pairwise_reverse]
    exact pairwise_sortedSet _
  rw [hfind, List.findSome?_eq_some_iff]
  constructor
  · rintro ⟨before, path, after, hsplit, htakes, hbefore⟩
    have hpath : path ∈ paths := List.mem_reverse.mp (by rw [hsplit]; simp)
    obtain ⟨hnames, hitems⟩ := (htaken hpath).mp htakes
    refine ⟨path, hnames, hitems, fun later hlater hlt => Option.eq_none_iff_forall_ne_some.mpr ?_⟩
    intro loaded hloaded
    have hin : later ∈ before ++ path :: after := by
      rw [← hsplit]
      exact List.mem_reverse.mpr (hmem hlater hloaded)
    rcases List.mem_append.mp hin with hin | hin
    · have hnone := hbefore later hin
      rw [(htaken (hmem hlater hloaded)).mpr ⟨hlater, hloaded⟩] at hnone
      cases hnone
    · rw [hsplit, List.pairwise_append] at hsorted
      rcases List.mem_cons.mp hin with rfl | hin
      · exact lt_irrefl _ hlt
      · exact lt_asymm hlt ((List.pairwise_cons.mp hsorted.2.1).1 later hin)
  · rintro ⟨path, hnames, hitems, hlast⟩
    have hpath := hmem hnames hitems
    obtain ⟨before, after, hsplit⟩ := List.append_of_mem (List.mem_reverse.mpr hpath)
    refine ⟨before, path, after, hsplit, (htaken hpath).mpr ⟨hnames, hitems⟩, fun other hother => ?_⟩
    have hotherIn : other ∈ paths := List.mem_reverse.mp (by rw [hsplit]; simp [hother])
    rw [hsplit, List.pairwise_append] at hsorted
    refine Option.eq_none_iff_forall_ne_some.mpr fun loaded hloaded => ?_
    obtain ⟨hnamesOther, hitemsOther⟩ := (htaken hotherIn).mp hloaded
    rw [hlast other hnamesOther (hsorted.2.2 other hother path List.mem_cons_self)] at hitemsOther
    cases hitemsOther

/-! ## Content -/

/-- Two stores that serve the same: the items of every domain, and the hashes. -/
structure SameContent (s t : Store Item) : Prop where
  items : ∀ k domain, (s.items k).lookup domain = (t.items k).lookup domain
  hash : ∀ k, s.hash k = t.hash k

def Store.Hashed (s : Store Item) : Prop :=
  ∀ k, s.hash k = E.hashItems k (mergedItems (s.items k))

theorem mergedItems_congr {α : Type} {a b : Dict (List α)}
    (h : ∀ domain, a.lookup domain = b.lookup domain) : mergedItems a = mergedItems b := by
  have hkeys : sortedSet a.keys = sortedSet b.keys := by
    refine sortedSet_eq_iff.mpr fun domain => ?_
    rw [← AList.mem_keys, ← AList.mem_keys, ← AList.lookup_isSome, ← AList.lookup_isSome, h]
  simp only [mergedItems, hkeys, Dict.getD, h]

variable {E}

theorem Store.Hashed.sameContent {s t : Store Item} (hs : s.Hashed E) (ht : t.Hashed E)
    (h : ∀ k domain, (s.items k).lookup domain = (t.items k).lookup domain) : SameContent s t where
  items := h
  hash := fun k => by rw [hs k, ht k, mergedItems_congr (h k)]

theorem SameContent.hashed {s t : Store Item} (h : SameContent s t) (ht : t.Hashed E) :
    s.Hashed E := by
  intro k
  rw [h.hash, ht, mergedItems_congr (h.items k)]

theorem hashed_rehash (s : Store Item) : (s.rehash E).Hashed E := fun _ => rfl

theorem hashed_loadFromDisk (dataDir : String) (disk : Disk) :
    (loadFromDisk E dataDir disk).Hashed E := hashed_rehash _

/-- Comparing a store with a restart is comparing it with the directory. -/
theorem sameContent_loadFromDisk_iff {s : Store Item} (hs : s.Hashed E) (dataDir : String)
    (disk : Disk) : SameContent s (loadFromDisk E dataDir disk) ↔
      ∀ k domain, (s.items k).lookup domain = onDisk E dataDir disk k domain :=
  ⟨fun h => h.items, hs.sameContent (hashed_loadFromDisk dataDir disk)⟩

/-! ## Writes -/

theorem fileItems_insert_self {k : Kind} {path raw : String} {items : Option (List (Item k))}
    (hraw : E.unmarshal k raw = .ok items) (disk : Disk) :
    fileItems E (disk.insert path (some raw)) k path = some (normalizeItems items) := by
  simp [fileItems, readFile, hraw, Except.toOption]

theorem fileItems_insert_ne {path other : String} (h : other ≠ path) (disk : Disk) (raw : String)
    (k : Kind) : fileItems E (disk.insert path (some raw)) k other = fileItems E disk k other := by
  simp [fileItems, readFile, AList.lookup_insert_ne h]

/-- A restart depends on the files that it takes for the domain. -/
theorem onDisk_congr {dir : String} {disk disk' : Disk} {k : Kind} {domain : String}
    (h : ∀ path, Names dir k domain path → fileItems E disk k path = fileItems E disk' k path) :
    onDisk E dir disk k domain = onDisk E dir disk' k domain := by
  refine Option.ext fun items => ?_
  rw [onDisk_eq_some_iff, onDisk_eq_some_iff]
  refine exists_congr fun path => and_congr_right fun hpath => ?_
  rw [h path hpath]
  refine and_congr_right fun _ => forall_congr' fun later => forall_congr' fun hlater => ?_
  rw [h later hlater]

/-- Writing a file that is not taken for the domain. -/
theorem onDisk_insert_of_not_names {dir path : String} {k : Kind} {domain : String}
    (h : ¬ Names dir k domain path) (disk : Disk) (raw : String) :
    onDisk E dir (disk.insert path (some raw)) k domain = onDisk E dir disk k domain := by
  refine onDisk_congr fun other hother => fileItems_insert_ne ?_ disk raw k
  rintro rfl
  exact h hother

theorem onDisk_insert_statePath (dir : String) (disk : Disk) (text : String) (k : Kind)
    (domain : String) :
    onDisk E dir (disk.insert (joinPath dir stateFileName) (some text)) k domain =
      onDisk E dir disk k domain := by
  refine onDisk_insert_of_not_names (fun h => ?_) disk text
  have hname := (recoverDomain_eq_some.mp h.2).1
  rw [base_statePath] at hname
  exact domainFileName_ne_stateFileName k domain hname.symm

/-- Writing the file of a domain changes nothing else. -/
theorem onDisk_insert_ne {k l : Kind} {domain other : String} (hvalid : validDomain domain = true)
    (h : k ≠ l ∨ domain ≠ other) (dir : String) (disk : Disk) (raw : String) :
    onDisk E dir (disk.insert (domainPath dir k domain) (some raw)) l other =
      onDisk E dir disk l other := by
  refine onDisk_insert_of_not_names (fun hnames => ?_) disk raw
  have hname := (recoverDomain_eq_some.mp hnames.2).1
  rw [base_domainPath dir k hvalid] at hname
  by_cases hkl : k = l
  · subst hkl
    exact h.resolve_left (by simp) (domainFileName_inj.mp hname)
  · exact domainFileName_ne hkl domain other hname

variable (E)

/-- A restart takes the file of the domain in the data directory: the path of
    the directory matches itself, and no file that is loaded later is one of the
    domain. -/
def Served (dir : String) (disk : Disk) (k : Kind) (domain : String) : Prop :=
  Names dir k domain (domainPath dir k domain) ∧
    ∀ later, Names dir k domain later → domainPath dir k domain < later →
      fileItems E disk k later = none

/-- In a directory without characters of patterns a restart takes every file that
    an upload writes. -/
theorem served_of_plain {dir : String} (hdir : ∀ c ∈ dir.toList, isPlain c = true) (disk : Disk)
    (k : Kind) {domain : String} (h : validDomain domain = true) : Served E dir disk k domain := by
  refine ⟨(names_iff_of_plain hdir k h).mpr rfl, fun later hlater hlt => ?_⟩
  rw [(names_iff_of_plain hdir k h).mp hlater] at hlt
  exact absurd hlt (lt_irrefl _)

variable {E}

/-- Writing the file of a domain that a restart takes. -/
theorem onDisk_insert_served {dir : String} {disk : Disk} {k : Kind} {domain raw : String}
    {items : Option (List (Item k))} (h : Served E dir disk k domain)
    (hraw : E.unmarshal k raw = .ok items) :
    onDisk E dir (disk.insert (domainPath dir k domain) (some raw)) k domain =
      some (normalizeItems items) := by
  refine (onDisk_eq_some_iff E).mpr ⟨_, h.1, fileItems_insert_self hraw disk, ?_⟩
  intro later hlater hlt
  rw [fileItems_insert_ne (ne_of_gt hlt)]
  exact h.2 later hlater hlt

/-- Writing the file of a domain that a restart does not take, or hides behind a
    later one. -/
theorem onDisk_insert_not_served {dir : String} {disk : Disk} {k : Kind} {domain : String}
    (h : ¬ Served E dir disk k domain) (raw : String) :
    onDisk E dir (disk.insert (domainPath dir k domain) (some raw)) k domain =
      onDisk E dir disk k domain := by
  by_cases hnames : Names dir k domain (domainPath dir k domain)
  · obtain ⟨late, hlate, hlt, hloads⟩ : ∃ late, Names dir k domain late ∧
        domainPath dir k domain < late ∧ fileItems E disk k late ≠ none := by
      by_contra hno
      refine h ⟨hnames, fun later hlater hlt => ?_⟩
      by_contra hne
      exact hno ⟨later, hlater, hlt, hne⟩
    refine Option.ext fun loaded => ?_
    rw [onDisk_eq_some_iff, onDisk_eq_some_iff]
    -- the last file that loads is not before the late one, so it is not the written one
    constructor
    · rintro ⟨path, hpath, hitems, hlast⟩
      have hle : late ≤ path := by
        by_contra hgt
        have hnone := hlast late hlate (not_le.mp hgt)
        rw [fileItems_insert_ne (ne_of_gt hlt)] at hnone
        exact hloads hnone
      have hafter : ∀ later, path ≤ later → later ≠ domainPath dir k domain := fun later hpl =>
        ne_of_gt (lt_of_lt_of_le hlt (le_trans hle hpl))
      rw [fileItems_insert_ne (hafter path (le_refl path))] at hitems
      refine ⟨path, hpath, hitems, fun later hlater hpl => ?_⟩
      have hnone := hlast later hlater hpl
      rwa [fileItems_insert_ne (hafter later (le_of_lt hpl))] at hnone
    · rintro ⟨path, hpath, hitems, hlast⟩
      have hle : late ≤ path := by
        by_contra hgt
        exact hloads (hlast late hlate (not_le.mp hgt))
      have hafter : ∀ later, path ≤ later → later ≠ domainPath dir k domain := fun later hpl =>
        ne_of_gt (lt_of_lt_of_le hlt (le_trans hle hpl))
      refine ⟨path, hpath, ?_, fun later hlater hpl => ?_⟩
      · rw [fileItems_insert_ne (hafter path (le_refl path)), hitems]
      · rw [fileItems_insert_ne (hafter later (le_of_lt hpl)), hlast later hlater hpl]
  · exact onDisk_insert_of_not_names hnames disk raw

/-! ## One upload -/

def uploaded (s : Store Item) (k : Kind) (domain : String) (items : Option (List (Item k))) :
    (l : Kind) → Dict (List (Item l)) :=
  (s.setItems k ((s.items k).insert domain (normalizeItems items))).items

theorem lookup_uploaded_self (s : Store Item) (k : Kind) (domain : String)
    (items : Option (List (Item k))) :
    (uploaded s k domain items k).lookup domain = some (normalizeItems items) := by
  simp [uploaded, Store.setItems]

theorem lookup_uploaded_ne (s : Store Item) {k l : Kind} {domain other : String}
    (h : k ≠ l ∨ domain ≠ other) (items : Option (List (Item k))) :
    (uploaded s k domain items l).lookup other = (s.items l).lookup other := by
  by_cases hkl : k = l
  · subst hkl
    have hne : other ≠ domain := (h.resolve_left (by simp)).symm
    simp [uploaded, Store.setItems, AList.lookup_insert_ne hne]
  · simp [uploaded, Store.setItems, Function.update_of_ne (Ne.symm hkl)]

/-- What a call leaves behind. -/
inductive Outcome (sys : System Item) (k : Kind) (faults : Faults) (domain : String)
    (items : Option (List (Item k))) (raw : String) : Option String × System Item → Prop where
  /-- Both files are written. -/
  | written {s : Store Item} {text : String} (hfile : faults.file = none)
      (hstate : faults.state = none) (hs : s.items = uploaded sys.store k domain items) :
      Outcome sys k faults domain items raw
        (none, ⟨s, (sys.disk.insert (domainPath sys.store.dataDir k domain) (some raw)).insert
          (joinPath sys.store.dataDir stateFileName) (some text)⟩)
  /-- Nothing is written, and the store is rolled back. -/
  | refused {s : Store Item} {e : String} (hfile : faults.file ≠ none)
      (hs : ∀ l other, (s.items l).lookup other = (sys.store.items l).lookup other) :
      Outcome sys k faults domain items raw (some e, ⟨s, sys.disk⟩)
  /-- Only the file of the domain is written, and the store is rolled back. -/
  | torn {s : Store Item} {e : String} (hfile : faults.file = none) (hstate : faults.state ≠ none)
      (hs : ∀ l other, (s.items l).lookup other = (sys.store.items l).lookup other) :
      Outcome sys k faults domain items raw
        (some e, ⟨s, sys.disk.insert (domainPath sys.store.dataDir k domain) (some raw)⟩)

theorem lookup_rollback (s : Store Item) (k : Kind) (domain : String)
    (items : Option (List (Item k))) (t : Store Item) (ht : t.items = uploaded s k domain items)
    (l : Kind) (other : String) :
    (((t.setItems k (match (s.items k).lookup domain with
        | some previous => (t.items k).insert domain previous
        | none => (t.items k).erase domain)).items l).lookup other) =
      (s.items l).lookup other := by
  by_cases hkl : k = l
  · subst hkl
    by_cases hdomain : other = domain
    · subst hdomain
      cases hprevious : (s.items k).lookup other <;> simp [Store.setItems]
    · have huploaded := lookup_uploaded_ne s (Or.inr (Ne.symm hdomain) : k ≠ k ∨ _) items
      cases hprevious : (s.items k).lookup domain <;>
        simp [Store.setItems, ht, AList.lookup_insert_ne hdomain, AList.lookup_erase_ne hdomain,
          huploaded]
  · have huploaded := lookup_uploaded_ne s (Or.inl hkl : k ≠ l ∨ domain ≠ other) items
    simp [Store.setItems, Function.update_of_ne (Ne.symm hkl), ht, huploaded]

theorem writeState_none {faults : Faults} (hstate : faults.state = none) (updatedAt : String)
    (s : Store Item) (disk : Disk) : ∃ text, writeState E faults updatedAt s disk =
      .ok (disk.insert (joinPath s.dataDir stateFileName) (some text)) := by
  obtain ⟨text, htext⟩ := E.marshalState_ok (s.persisted updatedAt)
  exact ⟨text, by simp [writeState, htext, writeFileAtomic, hstate]⟩

theorem writeState_some {faults : Faults} {fault : String} (hstate : faults.state = some fault)
    (updatedAt : String) (s : Store Item) (disk : Disk) :
    ∃ e, writeState E faults updatedAt s disk = .error e := by
  obtain ⟨text, htext⟩ := E.marshalState_ok (s.persisted updatedAt)
  exact ⟨_, by simp [writeState, htext, writeFileAtomic, hstate]; rfl⟩

/-- A commit keeps the items, hashes them, and writes both files, none or the
    first. -/
theorem commitLocked_cases (sys : System Item) (hdir : sys.store.dataDir ≠ "") (faults : Faults)
    (updatedAt fileName raw : String) :
    ∃ s : Store Item, s.items = sys.store.items ∧ s.Hashed E ∧ s.dataDir = sys.store.dataDir ∧
      ((faults.file = none ∧ faults.state = none ∧ ∃ text,
          commitLocked E faults updatedAt sys fileName raw =
            (none, ⟨s, (sys.disk.insert (joinPath sys.store.dataDir fileName) (some raw)).insert
              (joinPath sys.store.dataDir stateFileName) (some text)⟩)) ∨
        (faults.file ≠ none ∧ ∃ e,
          commitLocked E faults updatedAt sys fileName raw = (some e, ⟨s, sys.disk⟩)) ∨
        (faults.file = none ∧ faults.state ≠ none ∧ ∃ e,
          commitLocked E faults updatedAt sys fileName raw =
            (some e, ⟨s, sys.disk.insert (joinPath sys.store.dataDir fileName) (some raw)⟩))) := by
  have hdir' : (sys.store.rehash E).dataDir ≠ "" := hdir
  -- the store with the next revision, and with the revision taken back
  let s : Store Item := { sys.store.rehash E with revision := sys.store.revision + 1 }
  let undone : Store Item := { s with revision := s.revision - 1 }
  have hashed (t : Store Item) (hitems : t.items = sys.store.items)
      (hhash : t.hash = (sys.store.rehash E).hash) : t.Hashed E := by
    intro k
    rw [hhash, hitems]
    exact hashed_rehash sys.store k
  cases hfile : faults.file with
  | some fault =>
    refine ⟨undone, rfl, hashed undone rfl rfl, rfl, Or.inr (Or.inl ⟨by simp, ?_⟩)⟩
    refine ⟨"persist " ++ fileName ++ ": " ++ fault, ?_⟩
    simp only [commitLocked, hdir', if_false, writeFileAtomic, hfile]
    rfl
  | none =>
    cases hstate : faults.state with
    | none =>
      obtain ⟨text, htext⟩ := writeState_none (E := E) hstate updatedAt
        { sys.store.rehash E with revision := sys.store.revision + 1 }
        (sys.disk.insert (joinPath (sys.store.rehash E).dataDir fileName) (some raw))
      refine ⟨s, rfl, hashed s rfl rfl, rfl, Or.inl ⟨rfl, rfl, text, ?_⟩⟩
      simp only [commitLocked, hdir', if_false, writeFileAtomic, hfile, htext]
      rfl
    | some fault =>
      obtain ⟨e, he⟩ := writeState_some (E := E) hstate updatedAt
        { sys.store.rehash E with revision := sys.store.revision + 1 }
        (sys.disk.insert (joinPath (sys.store.rehash E).dataDir fileName) (some raw))
      refine ⟨undone, rfl, hashed undone rfl rfl, rfl,
        Or.inr (Or.inr ⟨rfl, by simp, e, ?_⟩)⟩
      simp only [commitLocked, hdir', if_false, writeFileAtomic, hfile, he]
      rfl

/-- A call has one of the three outcomes, and leaves a store with its directory
    and with the hashes of its items. -/
theorem setDomain_outcome {sys : System Item} (hdir : sys.store.dataDir ≠ "") (k : Kind)
    (faults : Faults) (updatedAt domain : String) (items : Option (List (Item k))) (raw : String) :
    Outcome sys k faults domain items raw
        (setDomain E k faults updatedAt sys domain items raw) ∧
      (setDomain E k faults updatedAt sys domain items raw).2.store.Hashed E ∧
      (setDomain E k faults updatedAt sys domain items raw).2.store.dataDir =
        sys.store.dataDir := by
  obtain ⟨s, hitems, hs, hsdir, hcommit⟩ := commitLocked_cases (E := E)
    ⟨sys.store.setItems k ((sys.store.items k).insert domain (normalizeItems items)), sys.disk⟩
    hdir faults updatedAt (domainFileName k domain) raw
  have hrollback := lookup_rollback sys.store k domain items s hitems
  rcases hcommit with ⟨hfile, hstate, text, hcommit⟩ | ⟨hfile, e, hcommit⟩ |
    ⟨hfile, hstate, e, hcommit⟩
  · simp only [setDomain, hcommit]
    exact ⟨.written hfile hstate hitems, hs, hsdir⟩
  · simp only [setDomain, hcommit]
    exact ⟨.refused hfile hrollback, hashed_rehash _, hsdir⟩
  · simp only [setDomain, hcommit]
    exact ⟨.torn hfile hstate hrollback, hashed_rehash _, hsdir⟩

/-! ## Requests -/

variable (E)

/-- The handler of a request calls the store, with these items. -/
structure Accepted (r : Request) (raw : String) (items : Option (List (Item r.kind))) : Prop where
  domain : validDomain r.upload.domain = true
  body : r.upload.body = some raw
  decoded : E.unmarshal r.kind raw = .ok items

variable {E}

theorem serve_eq (sys : System Item) (r : Request) :
    serve E sys r = handlePut E r.kind (setDomain E r.kind) sys r.upload := by
  obtain ⟨k, u⟩ := r
  cases k <;> rfl

/-- An accepted upload has one of the three outcomes, and its answer tells
    whether the call failed. -/
theorem serve_accepted {sys : System Item} {r : Request} {raw : String}
    {items : Option (List (Item r.kind))} (h : Accepted E r raw items)
    (hdir : sys.store.dataDir ≠ "") :
    ∃ result, Outcome sys r.kind r.upload.faults r.upload.domain items raw result ∧
      result.2.store.Hashed E ∧ result.2.store.dataDir = sys.store.dataDir ∧
      (serve E sys r).2 = result.2 ∧
      ((∃ status text, (serve E sys r).1 = .error status text) ↔ result.1 ≠ none) := by
  obtain ⟨houtcome, hhashed, hdir'⟩ := setDomain_outcome (E := E) hdir r.kind r.upload.faults
    r.upload.updatedAt r.upload.domain items raw
  refine ⟨_, houtcome, hhashed, hdir', ?_⟩
  rw [serve_eq, handlePut, if_neg (by simp [h.domain])]
  simp only [h.body, h.decoded]
  rcases setDomain E r.kind r.upload.faults r.upload.updatedAt sys r.upload.domain items raw with
    ⟨e, next⟩
  cases e <;> simp

/-- A request that does not reach the store changes nothing. -/
theorem serve_rejected {r : Request} (h : ∀ raw items, ¬ Accepted E r raw items)
    (sys : System Item) : ∃ text, serve E sys r = (.error 400 text, sys) := by
  rw [serve_eq, handlePut]
  by_cases hdomain : validDomain r.upload.domain = false
  · exact ⟨_, if_pos hdomain⟩
  · rw [if_neg hdomain]
    cases hbody : r.upload.body with
    | none => exact ⟨_, rfl⟩
    | some raw =>
      cases hdecoded : E.unmarshal r.kind raw with
      | error e => exact ⟨errorText e, by simp [hdecoded]⟩
      | ok items =>
        exact absurd ⟨by simpa using hdomain, hbody, hdecoded⟩ (h raw items)

/-! ## Restarts -/

variable (E)

/-- A restart serves what the running store serves. -/
def Restartable (sys : System Item) : Prop :=
  SameContent sys.store (loadFromDisk E sys.store.dataDir sys.disk)

/-- After the request a restart serves what the store serves, and if the answer
    is an error, neither of the two serves anything else than before. -/
structure RestartFaithful (sys : System Item) (r : Request) : Prop where
  restart : Restartable E (serve E sys r).2
  store_of_error : ∀ status text, (serve E sys r).1 = .error status text →
    SameContent sys.store (serve E sys r).2.store
  disk_of_error : ∀ status text, (serve E sys r).1 = .error status text →
    SameContent (loadFromDisk E sys.store.dataDir sys.disk)
      (loadFromDisk E sys.store.dataDir (serve E sys r).2.disk)

/-- When an accepted upload gets its domain file written, and the store is
    rolled back while a restart takes the file, or keeps the upload while a restart
    does not, the store has the uploaded items already. -/
def WrittenWhole (sys : System Item) (r : Request) : Prop :=
  ∀ raw items, Accepted E r raw items → r.upload.faults.file = none →
    (r.upload.faults.state ≠ none ↔
      Served E sys.store.dataDir sys.disk r.kind r.upload.domain) →
    (sys.store.items r.kind).lookup r.upload.domain = some (normalizeItems items)

variable {E}

theorem SameContent.refl (s : Store Item) : SameContent s s := ⟨fun _ _ => rfl, fun _ => rfl⟩

theorem restartable_loadFromDisk (dataDir : String) (disk : Disk) :
    Restartable E ⟨loadFromDisk E dataDir disk, disk⟩ := SameContent.refl _

/-- Where the store has what a restart has, so it does after an upload that a
    restart takes. -/
theorem onDisk_written_served {sys : System Item} {r : Request} {raw : String}
    {items : Option (List (Item r.kind))} (haccepted : Accepted E r raw items)
    (hserved : Served E sys.store.dataDir sys.disk r.kind r.upload.domain)
    (h : ∀ k domain, (sys.store.items k).lookup domain =
      onDisk E sys.store.dataDir sys.disk k domain) (l : Kind) (other : String) :
    onDisk E sys.store.dataDir
        (sys.disk.insert (domainPath sys.store.dataDir r.kind r.upload.domain) (some raw)) l other =
      (uploaded sys.store r.kind r.upload.domain items l).lookup other := by
  by_cases hself : r.kind = l ∧ r.upload.domain = other
  · obtain ⟨rfl, rfl⟩ := hself
    rw [lookup_uploaded_self, onDisk_insert_served hserved haccepted.decoded]
  · have hne : r.kind ≠ l ∨ r.upload.domain ≠ other := not_and_or.mp hself
    rw [lookup_uploaded_ne _ hne, onDisk_insert_ne haccepted.domain hne, h]

/-- A restart is what it was after an upload that it does not take. -/
theorem onDisk_written_not_served {sys : System Item} {r : Request} {raw : String}
    {items : Option (List (Item r.kind))} (haccepted : Accepted E r raw items)
    (hserved : ¬ Served E sys.store.dataDir sys.disk r.kind r.upload.domain) (l : Kind)
    (other : String) :
    onDisk E sys.store.dataDir
        (sys.disk.insert (domainPath sys.store.dataDir r.kind r.upload.domain) (some raw)) l other =
      onDisk E sys.store.dataDir sys.disk l other := by
  by_cases hself : r.kind = l ∧ r.upload.domain = other
  · obtain ⟨rfl, rfl⟩ := hself
    exact onDisk_insert_not_served hserved _
  · exact onDisk_insert_ne haccepted.domain (not_and_or.mp hself) _ _ _

/-- A rolled back store has the items of the written file only if it had them
    before. -/
theorem lookup_eq_uploaded_iff (s : Store Item) (k : Kind) (domain : String)
    (items : Option (List (Item k))) :
    (∀ l other, (s.items l).lookup other = (uploaded s k domain items l).lookup other) ↔
      (s.items k).lookup domain = some (normalizeItems items) := by
  constructor
  · intro h
    rw [h k domain, lookup_uploaded_self]
  · intro h l other
    by_cases hself : k = l ∧ domain = other
    · obtain ⟨rfl, rfl⟩ := hself
      rw [lookup_uploaded_self, h]
    · rw [lookup_uploaded_ne s (not_and_or.mp hself)]

/-- The store keeps its directory. -/
theorem serve_dataDir {sys : System Item} (hdir : sys.store.dataDir ≠ "") (r : Request) :
    (serve E sys r).2.store.dataDir ≠ "" := by
  by_cases haccepted : ∃ raw items, Accepted E r raw items
  · obtain ⟨raw, items, h⟩ := haccepted
    obtain ⟨result, -, -, hresult, hserve, -⟩ := serve_accepted h hdir
    rw [hserve, hresult]
    exact hdir
  · obtain ⟨text, h⟩ := serve_rejected (fun raw items h => haccepted ⟨raw, items, h⟩) sys
    rw [h]
    exact hdir

theorem restartFaithful_accepted_iff {sys : System Item} (hdir : sys.store.dataDir ≠ "")
    (hsys : Restartable E sys) {r : Request} {raw : String} {items : Option (List (Item r.kind))}
    (h : Accepted E r raw items) :
    RestartFaithful E sys r ↔
      (r.upload.faults.file = none →
        (r.upload.faults.state ≠ none ↔
          Served E sys.store.dataDir sys.disk r.kind r.upload.domain) →
        (sys.store.items r.kind).lookup r.upload.domain = some (normalizeItems items)) := by
  obtain ⟨result, houtcome, hhashed, hdir', hserve, herror⟩ := serve_accepted h hdir
  have hstore : sys.store.Hashed E := SameContent.hashed hsys (hashed_loadFromDisk _ _)
  have hitems := (sameContent_loadFromDisk_iff hstore _ _).mp hsys
  have hserved := @onDisk_written_served _ E sys _ _ _ h
  have hrestart : Restartable E (serve E sys r).2 ↔ ∀ k domain,
      (result.2.store.items k).lookup domain =
        onDisk E sys.store.dataDir result.2.disk k domain := by
    rw [Restartable, hserve, hdir']
    exact sameContent_loadFromDisk_iff hhashed _ _
  have hsame := lookup_eq_uploaded_iff sys.store r.kind r.upload.domain items
  cases houtcome with
  | written hfile hstate hs =>
    -- the store has the upload
    have hafter : RestartFaithful E sys r ↔ Restartable E (serve E sys r).2 :=
      ⟨fun hfaithful => hfaithful.restart, fun hrestarts => ⟨hrestarts,
        fun status text he => absurd rfl (herror.mp ⟨status, text, he⟩),
        fun status text he => absurd rfl (herror.mp ⟨status, text, he⟩)⟩⟩
    rw [hafter, hrestart]
    simp only [hs, onDisk_insert_statePath]
    by_cases hserve' : Served E sys.store.dataDir sys.disk r.kind r.upload.domain
    · refine iff_of_true (fun k domain => (hserved hserve' hitems k domain).symm) fun _ hiff => ?_
      exact absurd hstate (hiff.mpr hserve')
    · simp only [onDisk_written_not_served h hserve', ← hitems]
      rw [← hsame]
      constructor
      · exact fun heq _ _ l other => (heq l other).symm
      · exact fun heq l other =>
          (heq hfile (iff_of_false (fun hne => hne hstate) hserve') l other).symm
  | refused hfile hs =>
    refine iff_of_true ⟨hrestart.mpr fun k domain => ?_, ?_, ?_⟩ fun hnone => absurd hnone hfile
    · rw [hs, hitems]
    · intro _ _ _
      rw [hserve]
      exact hstore.sameContent hhashed fun k domain => (hs k domain).symm
    · intro _ _ _
      rw [hserve]
      exact SameContent.refl _
  | torn hfile hstate hs =>
    -- the store is as it was
    have hkept : SameContent sys.store (serve E sys r).2.store := by
      rw [hserve]
      exact hstore.sameContent hhashed fun k domain => (hs k domain).symm
    have hafter : RestartFaithful E sys r ↔ Restartable E (serve E sys r).2 := by
      refine ⟨fun hfaithful => hfaithful.restart, fun hrestarts => ⟨hrestarts, fun _ _ _ => hkept,
        fun _ _ _ => ?_⟩⟩
      refine (hashed_loadFromDisk _ _).sameContent (hashed_loadFromDisk _ _) fun k domain => ?_
      show onDisk E sys.store.dataDir sys.disk k domain = onDisk E sys.store.dataDir _ k domain
      rw [← hitems, hserve, ← hrestart.mp hrestarts, hs]
    rw [hafter, hrestart]
    simp only [hs]
    by_cases hserve' : Served E sys.store.dataDir sys.disk r.kind r.upload.domain
    · simp only [hserved hserve' hitems]
      rw [hsame]
      exact ⟨fun heq _ _ => heq, fun heq => heq hfile (iff_of_true hstate hserve')⟩
    · refine iff_of_true (fun k domain => ?_) fun _ hiff => absurd (hiff.mp hstate) hserve'
      rw [onDisk_written_not_served h hserve', hitems]

/-- Step: one request. -/
theorem restartFaithful_iff {sys : System Item} (hdir : sys.store.dataDir ≠ "")
    (hsys : Restartable E sys) (r : Request) :
    RestartFaithful E sys r ↔ WrittenWhole E sys r := by
  by_cases haccepted : ∃ raw items, Accepted E r raw items
  · obtain ⟨raw, items, h⟩ := haccepted
    rw [restartFaithful_accepted_iff hdir hsys h]
    constructor
    · intro hwhole raw' items' h'
      obtain rfl := Option.some.inj (h.body.symm.trans h'.body)
      obtain rfl := Except.ok.inj (h.decoded.symm.trans h'.decoded)
      exact hwhole
    · exact fun hwhole => hwhole raw items h
  · have hno : ∀ raw items, ¬ Accepted E r raw items := fun raw items h => haccepted ⟨raw, items, h⟩
    obtain ⟨text, hserve⟩ := serve_rejected hno sys
    refine iff_of_true ⟨?_, fun _ _ _ => ?_, fun _ _ _ => ?_⟩
      fun raw items h => absurd h (hno raw items)
    · rw [hserve]
      exact hsys
    · rw [hserve]
      exact SameContent.refl _
    · rw [hserve]
      exact SameContent.refl _

/-! ## Runs -/

/-- In every run of uploads, from any content of the directory, all of them keep
    restarts faithful exactly if every upload is written whole or not at all. -/
theorem restart_faithful_run_iff (E : Encoding Item) (dataDir : String) (hdir : dataDir ≠ "")
    (disk : Disk) (requests : List Request) :
    Runs.AllSteps (fun sys r => (serve E sys r).2) (RestartFaithful E)
        ⟨loadFromDisk E dataDir disk, disk⟩ requests ↔
      Runs.AllSteps (fun sys r => (serve E sys r).2) (WrittenWhole E)
        ⟨loadFromDisk E dataDir disk, disk⟩ requests := by
  refine Runs.allSteps_iff (fun sys => sys.store.dataDir ≠ "" ∧ Restartable E sys) ?_ ?_
    ⟨hdir, restartable_loadFromDisk dataDir disk⟩ requests
  · exact fun sys r hsys => restartFaithful_iff hsys.1 hsys.2 r
  · exact fun sys r hsys hfaithful => ⟨serve_dataDir hsys.1 r, hfaithful.restart⟩

/-- Items as the texts of the elements of a JSON array, and their join for the
    hash. -/
def elementTexts : Encoding fun _ => String where
  unmarshal := fun _ raw => match JsonText.elements raw with
    | some items => .ok (some items)
    | none => .error "not an array"
  hashItems := fun _ items => join ',' items
  marshalState := fun state => .ok (toString state.revision)
  marshalState_ok := fun _ => ⟨_, rfl⟩
  unmarshalState := fun _ => .ok 0

/-- An upload of one policy to the domain `BSS`. -/
def uploadBss (faults : Faults) : Request where
  kind := .policies
  upload :=
    { domain := "BSS"
      body := some "[\x7b\"resourceType\":\"doc\"\x7d]"
      faults := faults
      updatedAt := "2026-08-01T00:00:00Z" }

/-- The two ways to break it.  With room for the domain file and not for the state
    file, the upload is refused and not served, and a restart serves it.  And in a
    directory that its own path as a pattern does not match, an upload that is
    written whole is gone after a restart. -/
theorem restart_serves_refused_upload :
    ((serve elementTexts ⟨loadFromDisk elementTexts "/data" ∅, ∅⟩
          (uploadBss ⟨none, some "no space left on device"⟩)).1 =
        .error 500 "\x7b\"error\":\"persist state.json: no space left on device\"\x7d" ∧
      ((serve elementTexts ⟨loadFromDisk elementTexts "/data" ∅, ∅⟩
          (uploadBss ⟨none, some "no space left on device"⟩)).2.store.items .policies).lookup
            "BSS" = none ∧
      ((loadFromDisk elementTexts "/data" (serve elementTexts
          ⟨loadFromDisk elementTexts "/data" ∅, ∅⟩
          (uploadBss ⟨none, some "no space left on device"⟩)).2.disk).items .policies).lookup
            "BSS" = some ["\x7b\"resourceType\":\"doc\"\x7d"] ∧
      ¬ RestartFaithful elementTexts ⟨loadFromDisk elementTexts "/data" ∅, ∅⟩
          (uploadBss ⟨none, some "no space left on device"⟩)) ∧
    ¬ RestartFaithful elementTexts ⟨loadFromDisk elementTexts "/data[1]" ∅, ∅⟩
        (uploadBss ⟨none, none⟩) := by
  have hvalid : validDomain "BSS" = true := by decide +kernel
  have hbody : elementTexts.unmarshal .policies "[\x7b\"resourceType\":\"doc\"\x7d]" =
      .ok (some ["\x7b\"resourceType\":\"doc\"\x7d"]) := by decide +kernel
  have haccepted (faults : Faults) : Accepted elementTexts (uploadBss faults)
      "[\x7b\"resourceType\":\"doc\"\x7d]" (some ["\x7b\"resourceType\":\"doc\"\x7d"]) :=
    ⟨hvalid, rfl, hbody⟩
  have hserved : Served elementTexts "/data" ∅ .policies "BSS" :=
    served_of_plain _ (JsonText.forall_mem_of_all rfl) ∅ .policies (by decide +kernel)
  refine ⟨⟨by decide +kernel, by decide +kernel, ?_, fun h => ?_⟩, fun h => ?_⟩
  · exact onDisk_insert_served hserved (haccepted ⟨none, some "no space left on device"⟩).decoded
  · have hholds := (restartFaithful_accepted_iff (by decide) (restartable_loadFromDisk _ _)
      (haccepted _)).mp h rfl (iff_of_true (by simp [uploadBss]) hserved)
    cases hholds
  · have hnot : ¬ Served elementTexts "/data[1]" ∅ .policies "BSS" := fun h =>
      absurd ((names_domainPath_iff hvalid).mp h.1) (by decide +kernel)
    have hholds := (restartFaithful_accepted_iff (by decide) (restartable_loadFromDisk _ _)
      (haccepted _)).mp h rfl (iff_of_false (fun h => h rfl) hnot)
    cases hholds

theorem restart_faithful_two_uploads :
    "/data" ≠ "" ∧ Runs.AllSteps (fun sys r => (serve elementTexts sys r).2)
      (RestartFaithful elementTexts) ⟨loadFromDisk elementTexts "/data" ∅, ∅⟩
      [uploadBss ⟨some "no space left on device", none⟩, uploadBss ⟨none, none⟩] := by
  refine ⟨by decide, (restart_faithful_run_iff elementTexts "/data" (by decide) ∅ _).mpr ?_⟩
  have hserved : Served elementTexts "/data" ∅ .policies "BSS" :=
    served_of_plain _ (JsonText.forall_mem_of_all rfl) ∅ .policies (by decide +kernel)
  refine ⟨fun _ _ _ hfile => ?_, fun _ _ _ _ hstate => ?_, trivial⟩
  · exact absurd hfile (by simp [uploadBss])
  · exact absurd rfl (hstate.mpr hserved)

end

end PolicyAdmin

end AuthzAgent
