/-
  AuthzAgent.Simplified.Lookup

  What the evaluator finds in a normalized document, in terms of the policies
  it was built from.  The loop of `NormalizePolicies` merges one entry after
  another into three nested maps; for each of them a step lemma says how one
  entry changes a lookup, and a run lemma what the lookup is after the whole
  list:

  * `rls`: the rules of all entries for the keys, in the order of the list;
  * `ols`: the sorted set of the roles of all entries for the keys;
  * `globalAccessRoles`: the grants of all entries that name the role.
-/

import AuthzAgent.Lib.Checked
import AuthzAgent.Simplified.Normalize

namespace AuthzAgent

open GoText

namespace Simplified

/-! ## Lookups -/

/-- `rls[rt][op][role]`, with an absent key read as empty. -/
def rlsLookup (rls : Dict (Dict (Dict (List Rule)))) (rt op role : String) : List Rule :=
  Dict.getD (Dict.getD (Dict.getD rls rt ∅) op ∅) role []

/-- `ols[rt][op]`, with an absent key read as empty. -/
def olsLookup (ols : Dict (Dict (List String))) (rt op : String) : List String :=
  Dict.getD (Dict.getD ols rt ∅) op []

/-- `globalAccessRoles.byRole[role]`, with an absent key read as no access. -/
def globalLookup (byRole : Dict GlobalAccess) (role : String) : GlobalAccess :=
  Dict.getD byRole role .none

/-! ## Rules -/

theorem rlsLookup_appendRLSRule (P : Platform) (rls : Dict (Dict (Dict (List Rule))))
    (rt op : String) (rule : Rule) (role rt' op' role' : String) :
    rlsLookup (appendRLSRule P rls rt op rule role) rt' op' role' =
      if rt' = rt ∧ op' = op ∧ role' = role then
        (rlsLookup rls rt' op' role').map (cloneRule P) ++ [cloneRule P rule]
      else rlsLookup rls rt' op' role' := by
  rw [rlsLookup, appendRLSRule]
  by_cases hrt : rt' = rt
  · subst hrt
    rw [Dict.getD_modify_self]
    by_cases hop : op' = op
    · subst hop
      rw [Dict.getD_modify_self]
      by_cases hrole : role' = role
      · subst hrole
        simp [rlsLookup]
      · rw [Dict.getD_modify_ne _ hrole]
        simp [hrole, rlsLookup]
    · rw [Dict.getD_modify_ne _ hop]
      simp [hop, rlsLookup]
  · rw [Dict.getD_modify_ne _ hrt]
    simp [hrt, rlsLookup]

/-- The loop over the role keys of one rule adds it once under each of them. -/
theorem rlsLookup_foldl (P : Platform) (rt op : String) (rule : Rule) (keys : List String)
    (hnodup : keys.Nodup) (rls : Dict (Dict (Dict (List Rule)))) (rt' op' role' : String) :
    rlsLookup (keys.foldl (fun rls role => appendRLSRule P rls rt op rule role) rls) rt' op' role' =
      if rt' = rt ∧ op' = op ∧ role' ∈ keys then
        (rlsLookup rls rt' op' role').map (cloneRule P) ++ [cloneRule P rule]
      else rlsLookup rls rt' op' role' := by
  induction keys generalizing rls with
  | nil => simp
  | cons key keys ih =>
    obtain ⟨hkey, hnodup⟩ := List.nodup_cons.mp hnodup
    rw [List.foldl_cons, ih hnodup, rlsLookup_appendRLSRule]
    by_cases hrole : role' = key
    · subst hrole
      simp [hkey]
    · simp [hrole]

/-- The rules that one entry adds under the keys. -/
def Entry.rlsRules (P : Platform) (rt op role : String) : Entry → List Rule
  | .global _ _ _ => []
  | .rule rt' op' roles r =>
    if rt = rt' ∧ op = op' ∧ role ∈ roleKeys roles then [cloneRule P r] else []

/-- The roles of an entry are a sorted set. -/
def Entry.Sorted : Entry → Prop
  | .global _ _ roles => sortedSet roles = roles
  | .rule _ _ roles _ => sortedSet roles = roles

theorem roleKeys_nodup {roles : List String} (h : sortedSet roles = roles) :
    (roleKeys roles).Nodup := by
  rw [roleKeys]
  split_ifs
  · simp
  · rw [← h]
    exact nodup_sortedSet roles

/-- Every stored rule has been through JSON. -/
def Indexes.Cloned (P : Platform) (ix : Indexes) : Prop :=
  ∀ rt op role, ∀ rule ∈ rlsLookup ix.rls rt op role, cloneRule P rule = rule

/-- Step: an entry appends its rules, and cloning the stored ones again does
    not change them. -/
theorem Indexes.rlsLookup_add (P : Platform) {ix : Indexes} (hcloned : ix.Cloned P) {e : Entry}
    (he : e.Sorted) (rt op role : String) :
    rlsLookup (ix.add P e).rls rt op role =
      rlsLookup ix.rls rt op role ++ e.rlsRules P rt op role := by
  have hmap : (rlsLookup ix.rls rt op role).map (cloneRule P) = rlsLookup ix.rls rt op role := by
    conv_rhs => rw [← List.map_id (rlsLookup ix.rls rt op role)]
    exact List.map_congr_left fun rule h => hcloned rt op role rule h
  cases e with
  | global rt' op' roles => simp [add, Entry.rlsRules]
  | rule rt' op' roles rule =>
    rw [add]
    simp only [rlsLookup_foldl P rt' op' rule _ (roleKeys_nodup he), hmap, Entry.rlsRules]
    split_ifs <;> simp

theorem Indexes.cloned_add (P : Platform) {ix : Indexes} (hcloned : ix.Cloned P) {e : Entry}
    (he : e.Sorted) : (ix.add P e).Cloned P := by
  intro rt op role rule hrule
  rw [rlsLookup_add P hcloned he, List.mem_append] at hrule
  rcases hrule with hrule | hrule
  · exact hcloned rt op role rule hrule
  · cases e with
    | global rt' op' roles => simp [Entry.rlsRules] at hrule
    | rule rt' op' roles r =>
      rw [Entry.rlsRules] at hrule
      split_ifs at hrule
      · obtain rfl := List.mem_singleton.mp hrule
        exact cloneRule_idem P r
      · simp at hrule

theorem Indexes.cloned_empty (P : Platform) : Indexes.empty.Cloned P := by
  intro rt op role rule hrule
  simp [empty, rlsLookup] at hrule

/-- Run: the rules under the keys are those of all entries, in order. -/
theorem Indexes.rlsLookup_foldl (P : Platform) (entries : List Entry)
    (hsorted : ∀ e ∈ entries, e.Sorted) {ix : Indexes} (hcloned : ix.Cloned P)
    (rt op role : String) :
    rlsLookup (entries.foldl (add P) ix).rls rt op role =
      rlsLookup ix.rls rt op role ++ entries.flatMap (Entry.rlsRules P rt op role) := by
  induction entries generalizing ix with
  | nil => simp
  | cons e es ih =>
    have he := hsorted e List.mem_cons_self
    rw [List.foldl_cons, ih (fun e' h => hsorted e' (List.mem_cons_of_mem e h))
      (cloned_add P hcloned he), rlsLookup_add P hcloned he, List.flatMap_cons,
      List.append_assoc]

/-! ## Roles per operation -/

theorem olsLookup_mergeOLSRule (ols : Dict (Dict (List String))) (rt op : String)
    (roles : List String) (rt' op' : String) :
    olsLookup (mergeOLSRule ols rt op roles) rt' op' =
      if rt' = rt ∧ op' = op then mergeRoles roles (olsLookup ols rt' op')
      else olsLookup ols rt' op' := by
  rw [olsLookup, mergeOLSRule]
  by_cases hrt : rt' = rt
  · subst hrt
    rw [Dict.getD_modify_self]
    by_cases hop : op' = op
    · subst hop
      simp [olsLookup]
    · rw [Dict.getD_modify_ne _ hop]
      simp [hop, olsLookup]
  · rw [Dict.getD_modify_ne _ hrt]
    simp [hrt, olsLookup]

/-- The roles that one entry gives access to the operation. -/
def Entry.olsRoles (rt op : String) : Entry → List String
  | .global _ _ _ => []
  | .rule rt' op' roles _ => if rt = rt' ∧ op = op' then roles else []

theorem mergeRoles_sortedSet {roles : List String} (hroles : sortedSet roles = roles)
    (existing : List String) :
    mergeRoles roles (sortedSet existing) = sortedSet (existing ++ roles) := by
  rw [mergeRoles]
  split_ifs with hnil
  · rw [sortedSet_eq_nil.mp hnil, List.nil_append, hroles]
  · refine sortedSet_eq_iff.mpr fun s => ?_
    simp [mem_sortedSet]

theorem Indexes.olsLookup_add (P : Platform) {ix : Indexes} {e : Entry} (he : e.Sorted)
    {rt op : String} {roles : List String} (hix : olsLookup ix.ols rt op = sortedSet roles) :
    olsLookup (ix.add P e).ols rt op = sortedSet (roles ++ e.olsRoles rt op) := by
  cases e with
  | global rt' op' roles' => simpa [add, Entry.olsRoles] using hix
  | rule rt' op' roles' rule =>
    simp only [add, Entry.olsRoles]
    by_cases hne : roles' = []
    · simp [hne, hix]
    · simp only [hne, ne_eq, not_false_eq_true, if_true, olsLookup_mergeOLSRule, hix]
      split_ifs
      · exact mergeRoles_sortedSet he roles
      · rw [List.append_nil]

/-- Run: the roles under the keys are the sorted set of those of all entries. -/
theorem Indexes.olsLookup_foldl (P : Platform) (entries : List Entry)
    (hsorted : ∀ e ∈ entries, e.Sorted) {ix : Indexes} {rt op : String} {roles : List String}
    (hix : olsLookup ix.ols rt op = sortedSet roles) :
    olsLookup (entries.foldl (add P) ix).ols rt op =
      sortedSet (roles ++ entries.flatMap (Entry.olsRoles rt op)) := by
  induction entries generalizing ix roles with
  | nil => simpa using hix
  | cons e es ih =>
    have he := hsorted e List.mem_cons_self
    rw [List.foldl_cons, ih (fun e' h => hsorted e' (List.mem_cons_of_mem e h))
      (olsLookup_add P he hix), List.flatMap_cons, List.append_assoc]

/-! ## Global access -/

/-- What one policy on all resource types or all operations grants a role. -/
inductive Grant where
  | all
  | operation (op : String)
  | resourceType (rt : String)

def grantOf (rt op : String) : Grant :=
  if rt = "ALL" ∧ op = "ALL" then .all
  else if rt = "ALL" then .operation op
  else .resourceType rt

/-- Whether the entry of a role holds a grant. -/
def GlobalAccess.Has (a : GlobalAccess) : Grant → Prop
  | .all => a.all = true
  | .operation op => op ∈ a.operations
  | .resourceType rt => rt ∈ a.resourceTypes

theorem GlobalAccess.eq_of_has {a b : GlobalAccess} (h : ∀ g, a.Has g ↔ b.Has g) : a = b := by
  cases a with
  | mk all operations resourceTypes =>
    cases b with
    | mk all' operations' resourceTypes' =>
      have hall : all = all' := Bool.eq_iff_iff.mpr (h .all)
      have hops : operations = operations' := Finset.ext fun op => h (.operation op)
      have hrts : resourceTypes = resourceTypes' := Finset.ext fun rt => h (.resourceType rt)
      rw [hall, hops, hrts]

theorem GlobalAccess.not_has_none (g : Grant) : ¬ GlobalAccess.none.Has g := by
  cases g <;> simp [Has, none]

theorem GlobalAccess.has_merge (rt op : String) (a : GlobalAccess) (g : Grant) :
    (a.merge rt op).Has g ↔ a.Has g ∨ g = grantOf rt op := by
  rw [merge, grantOf]
  split_ifs <;> cases g <;> simp [Has, or_comm]

/-- The loop over the roles of one policy. -/
theorem globalLookup_foldl (rt op : String) (roles : List String) (byRole : Dict GlobalAccess)
    (role : String) (g : Grant) :
    (globalLookup (roles.foldl (fun byRole role => mergeGlobalAccessRole byRole rt op role) byRole)
        role).Has g ↔
      (globalLookup byRole role).Has g ∨ (role ∈ roles ∧ g = grantOf rt op) := by
  induction roles generalizing byRole with
  | nil => simp
  | cons r rs ih =>
    rw [List.foldl_cons, ih, mergeGlobalAccessRole, globalLookup]
    by_cases hrole : role = r
    · subst hrole
      rw [Dict.getD_modify_self, GlobalAccess.has_merge]
      simp only [globalLookup, List.mem_cons, true_or, true_and]
      tauto
    · rw [Dict.getD_modify_ne _ hrole]
      simp [globalLookup, hrole]

def Entry.Grants (role : String) (g : Grant) : Entry → Prop
  | .global rt op roles => role ∈ roles ∧ g = grantOf rt op
  | .rule _ _ _ _ => False

theorem Indexes.globalLookup_add (P : Platform) (ix : Indexes) (e : Entry) (role : String)
    (g : Grant) :
    (globalLookup (ix.add P e).globalAccessByRole role).Has g ↔
      (globalLookup ix.globalAccessByRole role).Has g ∨ e.Grants role g := by
  cases e with
  | global rt op roles => exact AuthzAgent.Simplified.globalLookup_foldl rt op roles _ role g
  | rule rt op roles rule => simp [add, Entry.Grants]

theorem Indexes.globalLookup_foldl (P : Platform) (entries : List Entry) (ix : Indexes)
    (role : String) (g : Grant) :
    (globalLookup (entries.foldl (add P) ix).globalAccessByRole role).Has g ↔
      (globalLookup ix.globalAccessByRole role).Has g ∨ ∃ e ∈ entries, e.Grants role g := by
  induction entries generalizing ix with
  | nil => simp
  | cons e es ih =>
    rw [List.foldl_cons, ih, globalLookup_add]
    simp [or_assoc]

/-! ## Policies -/

/-- A policy on all resource types or all operations. -/
def Policy.isWildcard (P : Platform) (p : Policy) : Prop :=
  normalizeKey P p.resourceType = "ALL" ∨ normalizeKey P p.operation = "ALL"

/-- The roles a policy names, normalized; a blank name is none. -/
def Policy.roleNames (P : Platform) (p : Policy) : List String :=
  ((p.roles.getD []).map fun role => normalizeKey P (P.sprint role)).filter (· ≠ "")

/-- A policy on all resource types or all operations that names a role; it
    goes to `globalAccessRoles`. -/
def Policy.isGlobal (P : Platform) (p : Policy) : Prop := p.isWildcard P ∧ p.roleNames P ≠ []

theorem normalizeRoles_eq {P : Platform} {p : Policy} {roles : List String}
    (h : normalizeRoles P p.roles = .ok roles) : roles = sortedSet (p.roleNames P) := by
  cases hr : p.roles with
  | none => simp [hr, normalizeRoles] at h
  | some raw =>
    rw [hr, normalizeRoles, Except.ok.injEq] at h
    rw [← h, Policy.roleNames, hr, Option.getD_some]

theorem mem_roleKeys_sortedSet {names : List String} {role : String} :
    role ∈ roleKeys (sortedSet names) ↔ role ∈ roleKeys names := by
  simp only [roleKeys, sortedSet_eq_nil]
  split_ifs
  · rfl
  · exact mem_sortedSet

theorem policyEntry_cases {P : Platform} {p : Policy} {e : Entry} (h : policyEntry P p = .ok e) :
    (p.isGlobal P ∧ e = .global (normalizeKey P p.resourceType) (normalizeKey P p.operation)
        (sortedSet (p.roleNames P))) ∨
    (¬ p.isGlobal P ∧ ∃ rule, normalizeRule P p = .ok rule ∧
      e = .rule (normalizeKey P p.resourceType) (normalizeKey P p.operation)
        (sortedSet (p.roleNames P)) rule) := by
  rw [policyEntry] at h
  split_ifs at h
  cases hroles : normalizeRoles P p.roles with
  | error err => simp [hroles] at h
  | ok roles =>
    obtain rfl := normalizeRoles_eq hroles
    simp only [hroles, ne_eq, sortedSet_eq_nil] at h
    split_ifs at h with hwild
    · exact .inl ⟨hwild, (Except.ok.inj h).symm⟩
    · obtain ⟨rule, hrule, rfl⟩ := Checked.map_eq_ok.mp h
      exact .inr ⟨hwild, rule, hrule, rfl⟩

theorem policyEntry_congr {P : Platform} {p q : Policy} {e : Entry}
    (hrt : normalizeKey P q.resourceType = normalizeKey P p.resourceType)
    (hop : normalizeKey P q.operation = normalizeKey P p.operation)
    (hcomponent : q.component = p.component)
    (hroles : ∀ roles, normalizeRoles P p.roles = .ok roles → normalizeRoles P q.roles = .ok roles)
    (hrule : ∀ rule, normalizeRule P p = .ok rule → normalizeRule P q = .ok rule)
    (h : policyEntry P p = .ok e) : policyEntry P q = .ok e := by
  simp only [policyEntry, hrt, hop, hcomponent] at h ⊢
  split_ifs at h ⊢
  cases hp : normalizeRoles P p.roles with
  | error err => simp [hp] at h
  | ok roles =>
    simp only [hp, hroles roles hp] at h ⊢
    split_ifs at h ⊢
    · exact h
    · obtain ⟨rule, hr, rfl⟩ := Checked.map_eq_ok.mp h
      exact Checked.map_eq_ok.mpr ⟨rule, hrule rule hr, rfl⟩

theorem policyEntry_sorted {P : Platform} {p : Policy} {e : Entry} (h : policyEntry P p = .ok e) :
    e.Sorted := by
  rcases policyEntry_cases h with ⟨-, rfl⟩ | ⟨-, rule, -, rfl⟩ <;> exact sortedSet_sortedSet _

theorem policyEntries_forall₂ {P : Platform} {idx : Nat} {ps : List Policy} {es : List Entry}
    (h : policyEntries P idx ps = .ok es) :
    List.Forall₂ (fun p e => policyEntry P p = .ok e) ps es := by
  induction ps generalizing idx es with
  | nil =>
    rw [policyEntries, Except.ok.injEq] at h
    rw [← h]
    exact .nil
  | cons p ps ih =>
    rw [policyEntries] at h
    cases hp : policyEntry P p with
    | error err => simp [hp] at h
    | ok e =>
      rw [hp] at h
      obtain ⟨es', hps, rfl⟩ := Checked.map_eq_ok.mp h
      exact .cons hp (ih hps)

theorem policyEntries_of_forall₂ {P : Platform} {ps : List Policy} {es : List Entry}
    (h : List.Forall₂ (fun p e => policyEntry P p = .ok e) ps es) (idx : Nat) :
    policyEntries P idx ps = .ok es := by
  induction h generalizing idx with
  | nil => rfl
  | cons hp _ ih => simp only [policyEntries, hp, ih, Except.map]

/-- The document of a list of policies: one entry for each of them, and the
    lookups of the evaluator in terms of the entries. -/
structure Document (P : Platform) (ps : List Policy) (doc : PolicyDoc) (es : List Entry) :
    Prop where
  entries : List.Forall₂ (fun p e => policyEntry P p = .ok e) ps es
  rls : ∀ rt op role, rlsLookup doc.rls rt op role = es.flatMap (Entry.rlsRules P rt op role)
  ols : ∀ rt op, olsLookup doc.ols rt op = sortedSet (es.flatMap (Entry.olsRoles rt op))
  global : ∀ role g, (globalLookup doc.globalAccessRoles role).Has g ↔ ∃ e ∈ es, e.Grants role g

section

variable {P : Platform} {ps : List Policy} {doc : PolicyDoc} {es : List Entry}

theorem Document.entry_of_policy (h : Document P ps doc es) {p : Policy} (hp : p ∈ ps) :
    ∃ e ∈ es, policyEntry P p = .ok e :=
  Checked.exists_mem_right_of_forall₂ h.entries hp

theorem Document.policy_of_entry (h : Document P ps doc es) {e : Entry} (he : e ∈ es) :
    ∃ p ∈ ps, policyEntry P p = .ok e :=
  Checked.exists_mem_right_of_forall₂ h.entries.flip he

/-- The rules under the keys come from the policies with these keys. -/
theorem Document.mem_rls (h : Document P ps doc es) {rt op role : String} {rule : Rule} :
    rule ∈ rlsLookup doc.rls rt op role ↔
      ∃ p ∈ ps, ¬ p.isGlobal P ∧ normalizeKey P p.resourceType = rt ∧
        normalizeKey P p.operation = op ∧ role ∈ roleKeys (p.roleNames P) ∧
        ∃ r, normalizeRule P p = .ok r ∧ rule = cloneRule P r := by
  rw [h.rls, List.mem_flatMap]
  constructor
  · rintro ⟨e, he, hrule⟩
    obtain ⟨p, hp, hentry⟩ := h.policy_of_entry he
    rcases policyEntry_cases hentry with ⟨-, rfl⟩ | ⟨hnot, r, hr, rfl⟩
    · simp [Entry.rlsRules] at hrule
    · rw [Entry.rlsRules] at hrule
      split_ifs at hrule with hkeys
      · obtain ⟨rfl, rfl, hrole⟩ := hkeys
        exact ⟨p, hp, hnot, rfl, rfl, mem_roleKeys_sortedSet.mp hrole, r, hr,
          List.mem_singleton.mp hrule⟩
      · simp at hrule
  · rintro ⟨p, hp, hnot, rfl, rfl, hrole, r, hr, rfl⟩
    obtain ⟨e, he, hentry⟩ := h.entry_of_policy hp
    rcases policyEntry_cases hentry with ⟨hglobal, -⟩ | ⟨-, r', hr', rfl⟩
    · exact absurd hglobal hnot
    · obtain rfl := Except.ok.inj (hr.symm.trans hr')
      exact ⟨_, he, by simp [Entry.rlsRules, mem_roleKeys_sortedSet.mpr hrole]⟩

/-- The roles under the keys are those that the policies with these keys name. -/
theorem Document.mem_ols (h : Document P ps doc es) {rt op role : String} :
    role ∈ olsLookup doc.ols rt op ↔
      ∃ p ∈ ps, ¬ p.isGlobal P ∧ normalizeKey P p.resourceType = rt ∧
        normalizeKey P p.operation = op ∧ role ∈ p.roleNames P := by
  rw [h.ols, mem_sortedSet, List.mem_flatMap]
  constructor
  · rintro ⟨e, he, hrole⟩
    obtain ⟨p, hp, hentry⟩ := h.policy_of_entry he
    rcases policyEntry_cases hentry with ⟨-, rfl⟩ | ⟨hnot, r, -, rfl⟩
    · simp [Entry.olsRoles] at hrole
    · rw [Entry.olsRoles] at hrole
      split_ifs at hrole with hkeys
      · obtain ⟨rfl, rfl⟩ := hkeys
        exact ⟨p, hp, hnot, rfl, rfl, mem_sortedSet.mp hrole⟩
      · simp at hrole
  · rintro ⟨p, hp, hnot, rfl, rfl, hrole⟩
    obtain ⟨e, he, hentry⟩ := h.entry_of_policy hp
    rcases policyEntry_cases hentry with ⟨hglobal, -⟩ | ⟨-, r', -, rfl⟩
    · exact absurd hglobal hnot
    · exact ⟨_, he, by simpa [Entry.olsRoles, mem_sortedSet] using hrole⟩

/-- The grants a role has come from the global policies that name it. -/
theorem Document.has_iff (h : Document P ps doc es) (role : String) (g : Grant) :
    (globalLookup doc.globalAccessRoles role).Has g ↔
      ∃ p ∈ ps, p.isWildcard P ∧ role ∈ p.roleNames P ∧
        g = grantOf (normalizeKey P p.resourceType) (normalizeKey P p.operation) := by
  rw [h.global]
  constructor
  · rintro ⟨e, he, hgrant⟩
    obtain ⟨p, hp, hentry⟩ := h.policy_of_entry he
    rcases policyEntry_cases hentry with ⟨hglobal, rfl⟩ | ⟨-, rule, -, rfl⟩
    · exact ⟨p, hp, hglobal.1, mem_sortedSet.mp hgrant.1, hgrant.2⟩
    · exact hgrant.elim
  · rintro ⟨p, hp, hwild, hrole, hg⟩
    obtain ⟨e, he, hentry⟩ := h.entry_of_policy hp
    rcases policyEntry_cases hentry with ⟨-, rfl⟩ | ⟨hnot, -⟩
    · exact ⟨_, he, mem_sortedSet.mpr hrole, hg⟩
    · exact absurd ⟨hwild, List.ne_nil_of_mem hrole⟩ hnot

/-- A name that a policy gives to a role is found in the document: among the
    roles of a resource type and operation, or with a grant of its own. -/
theorem Document.name_found (h : Document P ps doc es) {p : Policy} (hp : p ∈ ps) {name : String}
    (hname : name ∈ p.roleNames P) :
    (∃ rt op, name ∈ olsLookup doc.ols rt op) ∨
      ∃ g, (globalLookup doc.globalAccessRoles name).Has g := by
  by_cases hwild : p.isWildcard P
  · right
    refine ⟨grantOf (normalizeKey P p.resourceType) (normalizeKey P p.operation), ?_⟩
    rw [h.has_iff]
    exact ⟨p, hp, hwild, hname, rfl⟩
  · left
    refine ⟨normalizeKey P p.resourceType, normalizeKey P p.operation, ?_⟩
    rw [h.mem_ols]
    exact ⟨p, hp, fun hglobal => hwild hglobal.1, rfl, rfl, hname⟩

end

theorem document_of_entries {P : Platform} {ps : List Policy} {es : List Entry}
    (hes : List.Forall₂ (fun p e => policyEntry P p = .ok e) ps es) :
    Document P ps (es.foldl (Indexes.add P) .empty).document es := by
  have hsorted : ∀ e ∈ es, e.Sorted := by
    intro e he
    obtain ⟨p, -, hp⟩ := Checked.exists_mem_right_of_forall₂ hes.flip he
    exact policyEntry_sorted hp
  refine ⟨hes, fun rt op role => ?_, fun rt op => ?_, fun role g => ?_⟩
  · have hrls := Indexes.rlsLookup_foldl P es hsorted (Indexes.cloned_empty P) rt op role
    simpa [Indexes.document, Indexes.empty, rlsLookup] using hrls
  · have hempty : olsLookup Indexes.empty.ols rt op = sortedSet [] := by
      simp [Indexes.empty, olsLookup, sortedSet]
    simpa [Indexes.document] using Indexes.olsLookup_foldl P es hsorted hempty
  · have hglobal := Indexes.globalLookup_foldl P es .empty role g
    simpa [Indexes.document, Indexes.empty, globalLookup, GlobalAccess.not_has_none]
      using hglobal

theorem normalizePolicies_document {P : Platform} {ps : List Policy} {doc : PolicyDoc}
    (h : normalizePolicies P ps = .ok doc) : ∃ es, Document P ps doc es := by
  obtain ⟨es, hes, rfl⟩ := Checked.map_eq_ok.mp h
  exact ⟨es, document_of_entries (policyEntries_forall₂ hes)⟩

theorem normalizePolicies_of_entries {P : Platform} {ps : List Policy} {es : List Entry}
    (hes : List.Forall₂ (fun p e => policyEntry P p = .ok e) ps es) :
    ∃ doc, normalizePolicies P ps = .ok doc ∧ Document P ps doc es := by
  refine ⟨_, ?_, document_of_entries hes⟩
  rw [normalizePolicies, policyEntries_of_forall₂ hes, Except.map]

/-! ## Order -/

/-- Two documents in which the evaluator finds the same, up to the order of
    the rules under a role. -/
structure SameAccess (doc doc' : PolicyDoc) : Prop where
  ols : ∀ rt op, olsLookup doc'.ols rt op = olsLookup doc.ols rt op
  global : ∀ role,
    globalLookup doc'.globalAccessRoles role = globalLookup doc.globalAccessRoles role
  rls : ∀ rt op role, (rlsLookup doc'.rls rt op role).Perm (rlsLookup doc.rls rt op role)

/-- The order of the entries changes the order of the rules only. -/
theorem Document.sameAccess {P : Platform} {ps ps' : List Policy} {doc doc' : PolicyDoc}
    {es es' : List Entry} (h : Document P ps doc es) (h' : Document P ps' doc' es')
    (hperm : es'.Perm es) : SameAccess doc doc' where
  ols := by
    intro rt op
    rw [h.ols, h'.ols]
    exact sortedSet_eq_iff.mpr fun role => (hperm.flatMap_right _).mem_iff
  global := by
    intro role
    refine GlobalAccess.eq_of_has fun g => ?_
    rw [h.global, h'.global]
    exact exists_congr fun e => and_congr_left' hperm.mem_iff
  rls := by
    intro rt op role
    rw [h.rls, h'.rls]
    exact hperm.flatMap_right _

end Simplified

end AuthzAgent
