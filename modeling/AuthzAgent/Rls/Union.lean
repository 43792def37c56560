/-
  AuthzAgent.Rls.Union

  The row filter against the union of the granted rules.

  A predicate language gives its texts a meaning on rows (`Language`); its
  separator is a disjunction of lowest precedence.  A rule that is neither
  conditional nor restricted lifts the filter.  A conditional rule without a
  predicate does not: it counts only where no granted rule has a predicate, so
  it widens no filter of another rule, and a rule with a predicate narrows what
  it gave alone.
-/

import AuthzAgent.Rls.Evaluate

namespace AuthzAgent

open GoText
open Rego (Value)
open Simplified (Policy PolicyDoc Predicate PredicateType Rule exists_doc_of_any normalizePolicies)

namespace Rls

/-! ## Predicate languages -/

/-- What joins predicates of a type in a filter. -/
def separator : PredicateType → String
  | .sql => " OR "
  | _ => ","

/-- A language of predicates: its texts, and the rows that a text lets pass.  The
    empty text lets every row pass, and joined texts what one of them does. -/
structure Language (Row : Type) (sep : String) where
  isPredicate : String → Prop
  passes : String → Row → Prop
  passes_empty : ∀ row, passes "" row
  passes_joined : ∀ ps, ps ≠ [] → (∀ p ∈ ps, isPredicate p) → ∀ row,
    (passes (String.intercalate sep ps) row ↔ ∃ p ∈ ps, passes p row)

section Rows

variable (P : Platform) {Row : Type} {sep : String} (L : Language Row sep)

/-- The predicates of a rule that restrict rows. -/
def restrictions (rule : Rule) : List String :=
  ((rule.predicates.getD []).filter fun p => !trivialPredicate P p.predicate).map
    Predicate.predicate

/-- What a rule lets pass by its predicates alone, where a rule without one that
    restricts lets every row pass. -/
def rulePasses (rule : Rule) (row : Row) : Prop :=
  restrictions P rule = [] ∨ ∃ p ∈ restrictions P rule, L.passes p row

/-- What a rule adds to a filter: every row for a rule that is neither conditional
    nor restricted, what its predicates let pass, and every row for a conditional
    rule without a predicate where no rule has one. -/
def ruleAdds (rules : List Rule) (rule : Rule) (row : Row) : Prop :=
  ruleIsUnrestricted P rule = true ∨ (∃ p ∈ restrictions P rule, L.passes p row) ∨
    ∀ other ∈ rules, restrictions P other = []

/-- All predicates of a rule are texts of the language under one type. -/
def Speaks (type : PredicateType) (rule : Rule) : Prop :=
  ∀ p ∈ rule.predicates.getD [], p.type = type ∧
    (trivialPredicate P p.predicate = false → L.isPredicate p.predicate)

variable {P L}

theorem mem_restrictions {rule : Rule} {text : String} :
    text ∈ restrictions P rule ↔
      ∃ p ∈ rule.predicates.getD [], trivialPredicate P p.predicate = false ∧
        p.predicate = text := by
  simp only [restrictions, List.mem_map, List.mem_filter, Bool.not_eq_true', and_assoc]

theorem mem_predicateValuesForType {type : PredicateType} {rules : List Rule}
    (hspeaks : ∀ rule ∈ rules, Speaks P L type rule) {text : String} :
    text ∈ predicateValuesForType P rules type ↔ ∃ rule ∈ rules, text ∈ restrictions P rule := by
  rw [predicateValuesForType, mem_sortedSet, List.mem_flatMap]
  refine exists_congr fun rule => and_congr_right fun hrule => ?_
  rw [mem_restrictions, List.mem_map]
  constructor
  · rintro ⟨p, hp, rfl⟩
    obtain ⟨hmem, hp⟩ := List.mem_filter.mp hp
    exact ⟨p, hmem, (of_decide_eq_true hp).2, rfl⟩
  · rintro ⟨p, hp, hnot, rfl⟩
    exact ⟨p, List.mem_filter.mpr ⟨hp, decide_eq_true ⟨(hspeaks rule hrule p hp).1, hnot⟩⟩, rfl⟩

theorem aggregateByType_eq {type : PredicateType} (htype : type = .rsql ∨ type = .sql)
    (values : List String) :
    aggregateByType type values = String.intercalate (separator type) values := by
  rcases htype with rfl | rfl
  · match values with
    | [] => rfl
    | [value] => rfl
    | _ :: _ :: _ => rfl
  · match values with
    | [] => rfl
    | [value] => rfl
    | _ :: _ :: _ => rfl

/-- A filter lets pass what an unrestricted rule, a predicate of a rule, or the
    absence of predicates lets pass. -/
theorem passes_aggregatedPredicate {type : PredicateType} (htype : type = .rsql ∨ type = .sql)
    {L : Language Row (separator type)} {rules : List Rule}
    (hspeaks : ∀ rule ∈ rules, Speaks P L type rule) (row : Row) :
    L.passes (aggregatedPredicate P rules type) row ↔
      (∃ rule ∈ rules, ruleIsUnrestricted P rule = true) ∨
      (∃ rule ∈ rules, ∃ p ∈ restrictions P rule, L.passes p row) ∨
      ∀ rule ∈ rules, restrictions P rule = [] := by
  have hmem : ∀ text, text ∈ predicateValuesForType P rules type ↔
      ∃ rule ∈ rules, text ∈ restrictions P rule :=
    fun text => mem_predicateValuesForType hspeaks
  rw [aggregatedPredicate]
  split_ifs with hany
  · exact iff_of_true (L.passes_empty row) (Or.inl (List.any_eq_true.mp hany))
  · have hno : ¬ ∃ rule ∈ rules, ruleIsUnrestricted P rule = true := by
      rwa [← List.any_eq_true]
    rw [aggregateByType_eq htype, or_iff_right hno]
    cases hvalues : predicateValuesForType P rules type with
    | nil =>
      refine iff_of_true (L.passes_empty row) (Or.inr fun rule hrule => ?_)
      rw [List.eq_nil_iff_forall_not_mem]
      intro text htext
      have hvalue := (hmem text).mpr ⟨rule, hrule, htext⟩
      rw [hvalues] at hvalue
      cases hvalue
    | cons value values =>
      have hne : predicateValuesForType P rules type ≠ [] := by rw [hvalues]; exact nofun
      have htexts : ∀ text ∈ predicateValuesForType P rules type, L.isPredicate text := by
        intro text htext
        obtain ⟨rule, hrule, htext⟩ := (hmem text).mp htext
        obtain ⟨p, hp, hnot, rfl⟩ := mem_restrictions.mp htext
        exact (hspeaks rule hrule p hp).2 hnot
      rw [← hvalues, L.passes_joined _ hne htexts]
      have hsome : ¬ ∀ rule ∈ rules, restrictions P rule = [] := by
        intro hnone
        obtain ⟨rule, hrule, htext⟩ := (hmem value).mp (by rw [hvalues]; exact List.mem_cons_self)
        rw [hnone rule hrule] at htext
        cases htext
      rw [or_iff_left hsome]
      constructor
      · rintro ⟨text, htext, hpass⟩
        obtain ⟨rule, hrule, htext⟩ := (hmem text).mp htext
        exact ⟨rule, hrule, text, htext, hpass⟩
      · rintro ⟨rule, hrule, text, htext, hpass⟩
        exact ⟨text, (hmem text).mpr ⟨rule, hrule, htext⟩, hpass⟩

end Rows

/-! ## The filter as a union -/

/-- Where a rule is granted, the filter lets exactly the rows pass that some
    granted rule adds.  One more rule does not narrow it, unless every granted
    rule so far is conditional without a predicate and the new one has one. -/
theorem row_filter_union (P : Platform) {Row : Type} (type : PredicateType)
    (htype : type = .rsql ∨ type = .sql) (L : Language Row (separator type))
    (known : String → Bool) (doc : PolicyDoc) (rt op : String) (resource subject : Value)
    (olsRoles : List String) :
    let rules := grantedRules P known doc resource subject rt op olsRoles
    rules ≠ [] → (∀ rule ∈ rules, Speaks P L type rule) →
      (∀ row, L.passes ((evaluate P known doc rt op resource subject olsRoles).typedPredicates type)
        row ↔ ∃ rule ∈ rules, ruleAdds P L rules rule row) ∧
      ∀ more rules', Speaks P L type more → (∀ rule, rule ∈ rules' ↔ rule = more ∨ rule ∈ rules) →
        (restrictions P more = [] ∨
          ∃ rule ∈ rules, ruleIsUnrestricted P rule = true ∨ restrictions P rule ≠ []) →
        ∀ row, L.passes (aggregatedPredicate P rules type) row →
          L.passes (aggregatedPredicate P rules' type) row := by
  intro rules hne hspeaks
  constructor
  · intro row
    show L.passes (aggregatedPredicate P rules type) row ↔ _
    rw [passes_aggregatedPredicate htype hspeaks]
    constructor
    · rintro (⟨rule, hrule, h⟩ | ⟨rule, hrule, h⟩ | h)
      · exact ⟨rule, hrule, Or.inl h⟩
      · exact ⟨rule, hrule, Or.inr (Or.inl h)⟩
      · obtain ⟨rule, hrule⟩ := List.exists_mem_of_ne_nil rules hne
        exact ⟨rule, hrule, Or.inr (Or.inr h)⟩
    · rintro ⟨rule, hrule, h | h | h⟩
      · exact Or.inl ⟨rule, hrule, h⟩
      · exact Or.inr (Or.inl ⟨rule, hrule, h⟩)
      · exact Or.inr (Or.inr h)
  · intro more rules' hmore hrules' hkeeps row hpass
    have hspeaks' : ∀ rule ∈ rules', Speaks P L type rule := by
      intro rule hrule
      rcases (hrules' rule).mp hrule with rfl | hrule
      · exact hmore
      · exact hspeaks rule hrule
    have hold : ∀ {rule}, rule ∈ rules → rule ∈ rules' :=
      fun {rule} hrule => (hrules' rule).mpr (Or.inr hrule)
    rw [passes_aggregatedPredicate htype hspeaks] at hpass
    rw [passes_aggregatedPredicate htype hspeaks']
    rcases hpass with ⟨rule, hrule, h⟩ | ⟨rule, hrule, h⟩ | hnone
    · exact Or.inl ⟨rule, hold hrule, h⟩
    · exact Or.inr (Or.inl ⟨rule, hold hrule, h⟩)
    · rcases hkeeps with hmore | ⟨rule, hrule, h | h⟩
      · refine Or.inr (Or.inr fun rule hrule => ?_)
        rcases (hrules' rule).mp hrule with rfl | hrule
        · exact hmore
        · exact hnone rule hrule
      · exact Or.inl ⟨rule, hold hrule, h⟩
      · exact absurd (hnone rule hrule) h

/-! ## A conditional rule beside a predicate -/

theorem mem_toList_joined {c : Char} (hc : c ≠ ',') (ps : List String) :
    c ∈ (String.intercalate "," ps).toList ↔ ∃ p ∈ ps, c ∈ p.toList := by
  induction ps with
  | nil => simp
  | cons p ps ih =>
    cases ps with
    | nil => simp
    | cons q ps =>
      rw [String.intercalate_cons_cons, String.toList_append, String.toList_append,
        List.mem_append, List.mem_append, ih, List.exists_mem_cons_iff _ p]
      have hsep : c ∉ ",".toList := by simpa using hc
      rw [or_iff_left hsep]

theorem joined_ne_empty {ps : List String} (hne : ps ≠ []) (hps : ∀ p ∈ ps, p ≠ "") :
    String.intercalate "," ps ≠ "" := by
  match ps with
  | [] => exact absurd rfl hne
  | [p] =>
    rw [String.intercalate_singleton]
    exact hps p List.mem_cons_self
  | p :: q :: ps =>
    intro h
    rw [String.intercalate_cons_cons] at h
    have hlength := congrArg (fun text => text.toList.length) h
    simp at hlength

/-- Rows are characters, and a predicate lets the characters of its text pass. -/
def characters : Language {c : Char // c ≠ ','} "," where
  isPredicate := fun p => p ≠ ""
  passes := fun p c => p = "" ∨ c.val ∈ p.toList
  passes_empty := fun _ => Or.inl rfl
  passes_joined := by
    intro ps hne hps c
    rw [or_iff_right (joined_ne_empty hne hps), mem_toList_joined c.property]
    refine exists_congr fun p => and_congr_right fun hp => ?_
    rw [or_iff_right (hps p hp)]

/-- The policy that grants readers the open resources. -/
def readOpen : Policy :=
  { component := "c", resourceType := "T", operation := "R",
    condition := .string "resource.status = 'OPEN'", rsqlPredicate := "", sqlPredicate := "",
    mongodbPredicate := "", queryDSLPredicate := "", roles := some [.string "reader"] }

/-- The policy that grants readers their own resources. -/
def readOwn : Policy :=
  { readOpen with condition := .string "", rsqlPredicate := "owner==me" }

/-- The rules granted to readers of an open resource. -/
def readerRules (doc : PolicyDoc) : List Rule :=
  grantedRules .ascii (fun _ => false) doc (.object [("status", .string "OPEN")]) (.object [])
    "T" "R" ["READER"]

/-- The row filter of readers of an open resource. -/
def readerFilter (doc : PolicyDoc) : String :=
  (evaluate .ascii (fun _ => false) doc "T" "R" (.object [("status", .string "OPEN")])
    (.object []) ["READER"]).typedPredicates .rsql

/-- The predicates of the rules granted to readers, and their filter. -/
def readerGrants (doc : PolicyDoc) : List (List Predicate) × String :=
  ((readerRules doc).map fun rule => rule.predicates.getD [], readerFilter doc)

/-- A rule whose predicates are those of `readOpen` or of `readOwn` speaks of
    characters. -/
theorem speaks_reader {rule : Rule}
    (h : rule.predicates.getD [] = [] ∨ rule.predicates.getD [] = [⟨"owner==me", .rsql, []⟩]) :
    Speaks .ascii characters .rsql rule := by
  rintro p hp
  rcases h with h | h
  · rw [h] at hp
    cases hp
  · rw [h, List.mem_singleton] at hp
    subst hp
    have hne : "owner==me" ≠ "" := by decide
    exact ⟨rfl, fun _ => hne⟩

theorem speaks_readerRules {doc : PolicyDoc}
    (h : (readerRules doc).map (fun rule => rule.predicates.getD []) =
      [[], [⟨"owner==me", .rsql, []⟩]]) :
    ∀ rule ∈ readerRules doc, Speaks .ascii characters .rsql rule := by
  intro rule hrule
  have hmem : rule.predicates.getD [] ∈ [[], [⟨"owner==me", .rsql, []⟩]] :=
    h ▸ List.mem_map_of_mem hrule
  simp only [List.mem_cons, List.not_mem_nil, or_false] at hmem
  exact speaks_reader hmem

theorem exists_readOpen : ∃ doc, normalizePolicies .ascii [readOpen] = .ok doc ∧
    readerGrants doc = ([[]], "") := by
  obtain ⟨doc, hdoc, h⟩ := exists_doc_of_any .ascii [readOpen]
    (fun doc => readerGrants doc = ([[]], "")) (by decide +kernel)
  exact ⟨doc, hdoc, of_decide_eq_true h⟩

theorem exists_readOpen_readOwn : ∃ doc, normalizePolicies .ascii [readOpen, readOwn] = .ok doc ∧
    readerGrants doc = ([[], [⟨"owner==me", .rsql, []⟩]], "owner==me") := by
  obtain ⟨doc, hdoc, h⟩ := exists_doc_of_any .ascii [readOpen, readOwn]
    (fun doc => readerGrants doc = ([[], [⟨"owner==me", .rsql, []⟩]], "owner==me"))
    (by decide +kernel)
  exact ⟨doc, hdoc, of_decide_eq_true h⟩

/-- The grant of the open resources lets the row `z` pass, alone and by its own
    predicates; beside the grant of the own resources the filter does not. -/
theorem conditional_grant_narrowed :
    ∃ doc, normalizePolicies .ascii [readOpen] = .ok doc ∧
    ∃ doc', normalizePolicies .ascii [readOpen, readOwn] = .ok doc' ∧
      (∀ rule ∈ readerRules doc', Speaks .ascii characters .rsql rule) ∧
      (∃ rule ∈ readerRules doc', rulePasses .ascii characters rule ⟨'z', by decide⟩) ∧
      characters.passes (readerFilter doc) ⟨'z', by decide⟩ ∧
      ¬ characters.passes (readerFilter doc') ⟨'z', by decide⟩ := by
  obtain ⟨doc, hdoc, h⟩ := exists_readOpen
  obtain ⟨doc', hdoc', h'⟩ := exists_readOpen_readOwn
  obtain ⟨hrules, hfilter'⟩ := Prod.mk.injEq .. ▸ h'
  have hfilter : readerFilter doc = "" := congrArg Prod.snd h
  obtain ⟨rule, rest, hcons, hnone, -⟩ := List.map_eq_cons_iff.mp hrules
  refine ⟨doc, hdoc, doc', hdoc', speaks_readerRules hrules, ?_, ?_, ?_⟩
  · refine ⟨rule, by rw [hcons]; exact List.mem_cons_self, Or.inl ?_⟩
    rw [restrictions, hnone]
    rfl
  · rw [hfilter]
    exact characters.passes_empty _
  · rw [hfilter']
    show ¬ ("owner==me" = "" ∨ 'z' ∈ "owner==me".toList)
    decide

/-- The filter of both grants is the union of what the two rules add. -/
theorem reader_filter_union :
    ∃ doc, normalizePolicies .ascii [readOpen, readOwn] = .ok doc ∧
      ∀ row, characters.passes (readerFilter doc) row ↔
        ∃ rule ∈ readerRules doc, ruleAdds .ascii characters (readerRules doc) rule row := by
  obtain ⟨doc, hdoc, h⟩ := exists_readOpen_readOwn
  have hrules : (readerRules doc).map (fun rule => rule.predicates.getD []) = _ :=
    congrArg Prod.fst h
  have hne : readerRules doc ≠ [] := by
    intro hnil
    rw [hnil] at hrules
    cases hrules
  exact ⟨doc, hdoc, (row_filter_union .ascii .rsql (.inl rfl) characters _ doc _ _ _ _ _ hne
    (speaks_readerRules hrules)).1⟩

end Rls

end AuthzAgent
