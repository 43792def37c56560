/-
  AuthzAgent.Simplified.Order

  `NormalizePolicies` does not depend on the order of the policies.  What the
  maps read under their keys is known from `Lookup`; here no key is bound to an
  empty value, so maps that read alike are the same maps.  The reference index
  is a function of the rules under each resource type and operation, taken as
  a set.
-/

import AuthzAgent.Simplified.Lookup

namespace AuthzAgent

open GoText

namespace Simplified

/-! ## No key without a value -/

/-- The maps of the loop hold nothing empty. -/
structure Indexes.Full (ix : Indexes) : Prop where
  ols : Dict.Full ix.ols
  global : Dict.All (· ≠ GlobalAccess.none) ix.globalAccessByRole

theorem mergeRoles_ne_nil {roles : List String} (hroles : roles ≠ []) (existing : List String) :
    mergeRoles roles existing ≠ [] := by
  rw [mergeRoles]
  split_ifs with hnil
  · exact hroles
  · intro h
    exact hnil (List.append_eq_nil_iff.mp (sortedSet_eq_nil.mp h)).1

theorem GlobalAccess.merge_ne_none (rt op : String) (entry : GlobalAccess) :
    entry.merge rt op ≠ .none := by
  intro h
  have hhas := (GlobalAccess.has_merge rt op entry (grantOf rt op)).mpr (.inr rfl)
  rw [h] at hhas
  exact GlobalAccess.not_has_none _ hhas

theorem Indexes.Full.add (P : Platform) {ix : Indexes} (hix : ix.Full) (e : Entry) :
    (ix.add P e).Full := by
  cases e with
  | global rt op roles =>
    refine ⟨hix.ols, ?_⟩
    show Dict.All _ (roles.foldl (fun byRole role => mergeGlobalAccessRole byRole rt op role)
      ix.globalAccessByRole)
    refine List.foldlRecOn roles _ hix.global fun byRole hall role _ => ?_
    exact Dict.all_insert hall role (GlobalAccess.merge_ne_none rt op _)
  | rule rt op roles rule =>
    refine ⟨?_, hix.global⟩
    show Dict.Full (if roles ≠ [] then mergeOLSRule ix.ols rt op roles else ix.ols)
    split_ifs with hroles
    · exact hix.ols.modify rt op (mergeRoles_ne_nil hroles)
    · exact hix.ols

theorem Indexes.full_foldl (P : Platform) (es : List Entry) :
    (es.foldl (Indexes.add P) .empty).Full :=
  List.foldlRecOn es _ ⟨Dict.all_empty _, Dict.all_empty _⟩ fun _ hix e _ => hix.add P e

/-! ## The reference index -/

/-- The rules under a resource type and an operation. -/
def rulesUnder (rls : Dict (Dict (Dict (List Rule)))) (rt op : String) : Dict (List Rule) :=
  Dict.getD (Dict.getD rls rt ∅) op ∅

theorem mem_collectSubjectRefs (opObj : Dict (List Rule)) (ref : String) :
    ref ∈ collectSubjectRefs opObj ↔
      ∃ role, ∃ rule ∈ Dict.getD opObj role [], ref ∈ ruleSubjectRefs rule := by
  rw [collectSubjectRefs, mem_sortedSet, List.mem_flatMap]
  constructor
  · rintro ⟨⟨role, rules⟩, he, href⟩
    obtain ⟨rule, hrule, href⟩ := List.mem_flatMap.mp href
    refine ⟨role, rule, ?_, href⟩
    rw [Dict.getD, AList.mem_lookup_iff.mpr he]
    exact hrule
  · rintro ⟨role, rule, hrule, href⟩
    rw [Dict.getD] at hrule
    cases hlookup : opObj.lookup role with
    | none =>
      rw [hlookup] at hrule
      cases hrule
    | some rules =>
      rw [hlookup] at hrule
      exact ⟨⟨role, rules⟩, AList.mem_lookup_iff.mp hlookup, List.mem_flatMap.mpr ⟨rule, hrule, href⟩⟩

/-- The loops of `buildRefIndex` as one loop over the operations. -/
def operationsOf (rls : Dict (Dict (Dict (List Rule)))) : List (String × String × Dict (List Rule)) :=
  rls.entries.flatMap fun rt => rt.2.entries.map fun op => (rt.1, op.1, op.2)

/-- One round of that loop. -/
def addRefs (index : Dict (Dict (List String))) (o : String × String × Dict (List Rule)) :
    Dict (Dict (List String)) :=
  if collectSubjectRefs o.2.2 = [] then index
  else Dict.modify index o.1 ∅ fun rtIdx => rtIdx.insert o.2.1 (collectSubjectRefs o.2.2)

theorem buildRefIndex_eq (rls : Dict (Dict (Dict (List Rule)))) :
    buildRefIndex rls = (operationsOf rls).foldl addRefs ∅ := by
  rw [buildRefIndex, operationsOf, List.foldl_flatMap]
  congr 1
  funext index rt
  rw [List.foldl_map]
  rfl

theorem full_addRefs {index : Dict (Dict (List String))} (h : Dict.Full index)
    (o : String × String × Dict (List Rule)) : Dict.Full (addRefs index o) := by
  rw [addRefs]
  split_ifs with hnil
  · exact h
  · exact h.modify o.1 o.2.1 fun _ => hnil

theorem full_buildRefIndex (rls : Dict (Dict (Dict (List Rule)))) :
    Dict.Full (buildRefIndex rls) := by
  rw [buildRefIndex_eq]
  exact List.foldlRecOn _ _ (Dict.all_empty _) fun _ h o _ => full_addRefs h o

theorem mem_operationsOf {rls : Dict (Dict (Dict (List Rule)))} {rt op : String}
    {opObj : Dict (List Rule)} :
    (rt, op, opObj) ∈ operationsOf rls ↔
      ∃ rtObj, rls.lookup rt = some rtObj ∧ rtObj.lookup op = some opObj := by
  rw [operationsOf, List.mem_flatMap]
  constructor
  · rintro ⟨⟨rt', rtObj⟩, hrt, hop⟩
    obtain ⟨⟨op', opObj'⟩, hmem, heq⟩ := List.mem_map.mp hop
    simp only [Prod.mk.injEq] at heq
    obtain ⟨rfl, rfl, rfl⟩ := heq
    exact ⟨rtObj, AList.mem_lookup_iff.mpr hrt, AList.mem_lookup_iff.mpr hmem⟩
  · rintro ⟨rtObj, hrt, hop⟩
    exact ⟨⟨rt, rtObj⟩, AList.mem_lookup_iff.mp hrt,
      List.mem_map.mpr ⟨⟨op, opObj⟩, AList.mem_lookup_iff.mp hop, rfl⟩⟩

/-- `subjectRefsByResourceTypeOperation[rt][op]`, with an absent key read as empty. -/
def refLookup (index : Dict (Dict (List String))) (rt op : String) : List String :=
  Dict.getD (Dict.getD index rt ∅) op []

theorem refLookup_addRefs (index : Dict (Dict (List String)))
    (o : String × String × Dict (List Rule)) (rt op : String) :
    refLookup (addRefs index o) rt op =
      if (rt = o.1 ∧ op = o.2.1) ∧ collectSubjectRefs o.2.2 ≠ [] then collectSubjectRefs o.2.2
      else refLookup index rt op := by
  rw [addRefs, refLookup]
  by_cases hnil : collectSubjectRefs o.2.2 = []
  · rw [if_pos hnil, if_neg fun h => h.2 hnil, refLookup]
  · rw [if_neg hnil]
    by_cases hrt : rt = o.1
    · subst hrt
      rw [Dict.getD_modify_self]
      by_cases hop : op = o.2.1
      · rw [if_pos ⟨⟨rfl, hop⟩, hnil⟩, hop, Dict.getD_insert_self]
      · rw [if_neg fun h => hop h.1.2, Dict.getD_insert_ne _ hop, refLookup]
    · rw [if_neg fun h => hrt h.1.1, Dict.getD_modify_ne _ hrt, refLookup]

/-- The loop over operations of which those under the keys have the same rules. -/
theorem refLookup_foldl {rt op : String} {rules : Dict (List Rule)}
    {os : List (String × String × Dict (List Rule))}
    (hos : ∀ o ∈ os, rt = o.1 ∧ op = o.2.1 → o.2.2 = rules) (index : Dict (Dict (List String))) :
    refLookup (os.foldl addRefs index) rt op =
      if (∃ o ∈ os, rt = o.1 ∧ op = o.2.1) ∧ collectSubjectRefs rules ≠ [] then
        collectSubjectRefs rules
      else refLookup index rt op := by
  induction os generalizing index with
  | nil =>
    rw [if_neg]
    · rfl
    · rintro ⟨⟨o, ho, -⟩, -⟩
      cases ho
  | cons o os ih =>
    have htail := ih (fun o' ho' => hos o' (List.mem_cons_of_mem o ho')) (addRefs index o)
    rw [List.foldl_cons, htail, refLookup_addRefs]
    by_cases hkeys : rt = o.1 ∧ op = o.2.1
    · rw [hos o List.mem_cons_self hkeys]
      by_cases hnil : collectSubjectRefs rules = []
      · rw [if_neg fun h => h.2 hnil, if_neg fun h => h.2 hnil, if_neg fun h => h.2 hnil]
      · rw [if_pos (⟨hkeys, hnil⟩ : _ ∧ _), ite_self,
          if_pos ⟨⟨o, List.mem_cons_self, hkeys⟩, hnil⟩]
    · rw [if_neg fun h : (rt = o.1 ∧ op = o.2.1) ∧ _ => hkeys h.1]
      refine if_congr (and_congr_left fun _ => ?_) rfl rfl
      rw [List.exists_mem_cons_iff]
      exact (or_iff_right hkeys).symm

/-- The index holds, for each operation, the references of its rules. -/
theorem refLookup_buildRefIndex (rls : Dict (Dict (Dict (List Rule)))) (rt op : String) :
    refLookup (buildRefIndex rls) rt op = collectSubjectRefs (rulesUnder rls rt op) := by
  have hrules : ∀ o ∈ operationsOf rls, rt = o.1 ∧ op = o.2.1 → o.2.2 = rulesUnder rls rt op := by
    rintro ⟨rt', op', opObj⟩ ho ⟨rfl, rfl⟩
    obtain ⟨rtObj, hrt, hop⟩ := mem_operationsOf.mp ho
    rw [rulesUnder, Dict.getD, Dict.getD, hrt, Option.getD_some, hop, Option.getD_some]
  -- keys that no operation has are bound to no rule
  have habsent : (¬ ∃ o ∈ operationsOf rls, rt = o.1 ∧ op = o.2.1) → rulesUnder rls rt op = ∅ := by
    intro hnone
    rw [rulesUnder, Dict.getD, Dict.getD]
    cases hrt : rls.lookup rt with
    | none => rfl
    | some rtObj =>
      rw [Option.getD_some]
      cases hop : rtObj.lookup op with
      | none => rfl
      | some opObj =>
        exact absurd ⟨_, mem_operationsOf.mpr ⟨rtObj, hrt, hop⟩, rfl, rfl⟩ hnone
  rw [buildRefIndex_eq, refLookup_foldl hrules]
  split_ifs with h
  · rfl
  · rw [refLookup, Dict.getD_empty, Dict.getD_empty]
    by_cases hop : ∃ o ∈ operationsOf rls, rt = o.1 ∧ op = o.2.1
    · by_contra hne
      exact h ⟨hop, Ne.symm hne⟩
    · rw [habsent hop]
      rfl

/-! ## Permutations -/

/-- Two documents with the same maps, but for the order of the rules under a
    role. -/
structure SameDocument (doc doc' : PolicyDoc) : Prop where
  ols : Dict.Same (Dict.Same Eq) doc.ols doc'.ols
  globalAccessRoles : Dict.Same Eq doc.globalAccessRoles doc'.globalAccessRoles
  refIndex : Dict.Same (Dict.Same Eq) doc.refIndex doc'.refIndex
  rls : ∀ rt op role,
    (rlsLookup doc.rls rt op role : Multiset Rule) = rlsLookup doc'.rls rt op role

/-- Rules that are the same up to their order have the same references. -/
theorem collectSubjectRefs_congr {rules rules' : Dict (List Rule)}
    (h : ∀ role, (Dict.getD rules role []).Perm (Dict.getD rules' role [])) :
    collectSubjectRefs rules = collectSubjectRefs rules' := by
  refine sortedSet_eq_iff.mpr fun ref => ?_
  have hrefs := mem_collectSubjectRefs rules ref
  have hrefs' := mem_collectSubjectRefs rules' ref
  rw [collectSubjectRefs, mem_sortedSet] at hrefs hrefs'
  rw [hrefs, hrefs']
  exact exists_congr fun role => exists_congr fun rule => and_congr_left' (h role).mem_iff

theorem sameDocument_of_perm {P : Platform} {es es' : List Entry} {ps ps' : List Policy}
    (hes : List.Forall₂ (fun p e => policyEntry P p = .ok e) ps es)
    (hes' : List.Forall₂ (fun p e => policyEntry P p = .ok e) ps' es') (hperm : es'.Perm es) :
    SameDocument (es.foldl (Indexes.add P) .empty).document
      (es'.foldl (Indexes.add P) .empty).document := by
  have haccess := (document_of_entries hes).sameAccess (document_of_entries hes') hperm
  have hfull := Indexes.full_foldl P es
  have hfull' := Indexes.full_foldl P es'
  refine ⟨?_, ?_, ?_, fun rt op role => ?_⟩
  · exact Dict.same_of_full hfull.ols hfull'.ols fun rt op => (haccess.ols rt op).symm
  · exact Dict.same_of_getD (fun a ha => ⟨ha, Ne.symm ha⟩) hfull.global hfull'.global
      fun role => (haccess.global role).symm
  · refine Dict.same_of_full (full_buildRefIndex _) (full_buildRefIndex _) fun rt op => ?_
    show refLookup (buildRefIndex _) rt op = refLookup (buildRefIndex _) rt op
    rw [refLookup_buildRefIndex, refLookup_buildRefIndex]
    exact collectSubjectRefs_congr fun role => (haccess.rls rt op role).symm
  · exact Multiset.coe_eq_coe.mpr (haccess.rls rt op role).symm

theorem normalizePolicies_order {P : Platform} {ps ps' : List Policy} {doc : PolicyDoc}
    (h : normalizePolicies P ps = .ok doc) (hperm : ps'.Perm ps) :
    ∃ doc', normalizePolicies P ps' = .ok doc' ∧ SameDocument doc doc' := by
  obtain ⟨es, hes, rfl⟩ := Checked.map_eq_ok.mp h
  have hentries := policyEntries_forall₂ hes
  obtain ⟨es', hentries', hperm'⟩ := List.perm_comp_forall₂ hperm hentries
  refine ⟨(es'.foldl (Indexes.add P) .empty).document, ?_,
    sameDocument_of_perm hentries hentries' hperm'⟩
  rw [normalizePolicies, policyEntries_of_forall₂ hentries', Except.map]

def readOrder (role predicate : String) : Policy where
  component := "catalog"
  resourceType := "Order"
  operation := "READ"
  condition := .null
  rsqlPredicate := predicate
  sqlPredicate := ""
  mongodbPredicate := ""
  queryDSLPredicate := ""
  roles := some [.string role]

theorem normalizePolicies_swapped :
    ∃ doc doc', normalizePolicies .ascii [readOrder "a" "x==1", readOrder "b" "y==2"] = .ok doc ∧
      normalizePolicies .ascii [readOrder "b" "y==2", readOrder "a" "x==1"] = .ok doc' ∧
      SameDocument doc doc' := by
  obtain ⟨doc, hdoc, -⟩ := exists_doc_of_any .ascii [readOrder "a" "x==1", readOrder "b" "y==2"]
    (fun _ => true) (by decide +kernel)
  obtain ⟨doc', hdoc', hsame⟩ := normalizePolicies_order hdoc (List.Perm.swap _ _ [])
  exact ⟨doc, doc', hdoc, hdoc', hsame⟩

end Simplified

end AuthzAgent
