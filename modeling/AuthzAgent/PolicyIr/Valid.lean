/-
  AuthzAgent.PolicyIr.Valid

  The invariants that `NewTree` documents, as predicates on the nodes of a tree
  under the variables bound around them, and that it accepts exactly the trees
  that keep them (`newTree_eq_ok`).

  The checker finds a variable that is bound twice by the list of those it met;
  here it is said of the whole tree: no variable occurs twice in `iterVars`.
-/

import AuthzAgent.PolicyIr.Tree

namespace AuthzAgent

open Checked

namespace PolicyIr

/-! ## Invariants -/

/-- A text that holds one JSON value, written compactly. -/
def Compact (value : String) : Prop := JsonText.compactText value = some value

/-- What may be read under the variables `bound`. -/
def OperandOk (bound : List String) : Operand → Prop
  | .passValue var _ => var ∈ bound
  | .subject .permissionScope _ => bound = []
  | _ => True

def PredicatesOk (p : Predicates) : Prop :=
  ∀ custom ∈ p.custom, ∀ param ∈ custom.params.entries, Compact param.2

/-- The fields that hold JSON hold it compactly; an isolated declaration has no
    other field. -/
def PIPOk (p : PIP) : Prop :=
  if p.isolated ≠ "" then p = { name := p.name, isolated := p.isolated }
  else p.type ≠ none ∧ (∀ f ∈ p.jsonFields, f.2 ≠ "" → Compact f.2) ∧
    ∀ a ∈ p.requestAttributes.entries, Compact a.2

section

variable (compiles : String → Bool)

structure ConditionOk (bound : List String) (place : Place) (c : Condition) : Prop where
  valid : validateCondition compiles c = .ok ()
  place : c.place = place
  operands : ∀ o ∈ c.operands, OperandOk bound o

structure SimplifiedOk (p : SimplifiedPolicy) : Prop where
  condition : ∀ c ∈ p.condition, ConditionOk compiles [] .simplified c
  predicates : PredicatesOk p.predicates

structure RuleOk (bound : List String) (r : Rule) : Prop where
  target : ∀ c ∈ r.target, ConditionOk compiles bound .ruleTarget c
  condition : ∀ c ∈ r.condition, ConditionOk compiles bound .ruleCondition c
  predicates : PredicatesOk r.predicates

structure PolicyOk (bound : List String) (p : Policy) : Prop where
  target : ∀ c ∈ p.target, ConditionOk compiles bound .policyTarget c
  rules : ∀ r ∈ p.rules, RuleOk compiles bound r

/-- The variables bound inside a set. -/
def PolicySet.boundIn (s : PolicySet) (bound : List String) : List String :=
  match s.iterate with
  | some it => it.var :: bound
  | none => bound

/-- A set without policies, sets or an iterate. -/
def PolicySet.Bare (s : PolicySet) : Prop := s.iterate = none ∧ s.policies = [] ∧ s.sets = []

/-- The invariants of a set under the variables `bound`. -/
inductive SetOk : List String → PolicySet → Prop where
  | mk {bound : List String} {s : PolicySet}
      (hfails : s.alwaysFails ≠ "" → s.Bare)
      (hisolated : s.isolated ≠ "" → s.alwaysFails = "" ∧ s.Bare)
      (htarget : ∀ c ∈ s.target, ConditionOk compiles bound .setTarget c)
      (hiterate : ∀ it ∈ s.iterate, it.var ≠ "" ∧ it.algorithm ≠ .absent)
      (hpolicies : ∀ p ∈ s.policies, PolicyOk compiles (s.boundIn bound) p)
      (hsets : ∀ k ∈ s.sets, SetOk (s.boundIn bound) k) : SetOk bound s

end

mutual

/-- The variables of the iterates in a set, in the order of the tree. -/
def PolicySet.iterVars : PolicySet → List String
  | ⟨_, _, _, _, _, _, iterate, _, _, _, sets⟩ =>
    (iterate.map Iterate.var).toList ++ iterVarsOf sets

/-- The variables of the iterates in sets, in the order of the tree. -/
def iterVarsOf : List PolicySet → List String
  | [] => []
  | s :: sets => s.iterVars ++ iterVarsOf sets

end

/-- The invariants of a tree. -/
structure Tree.Valid (compiles : String → Bool) (t : Tree) : Prop where
  prefixed : ∀ p ∈ t.pips, ∃ rest, p.name = "subject." ++ rest
  names : (t.pips.map PIP.name).Nodup
  pips : ∀ p ∈ t.pips, PIPOk p
  simplified : ∀ g ∈ t.simplified, ∀ p ∈ g.policies, SimplifiedOk compiles p
  sets : ∀ s ∈ t.sets, SetOk compiles [] s
  vars : (iterVarsOf t.sets).Nodup

/-! ## Conditions, predicates and declarations -/

theorem checkJSON_eq_ok {value : String} {e : TreeError} :
    checkJSON value e = .ok () ↔ Compact value := by
  rw [checkJSON, refuse_eq_ok, not_not, Compact]

theorem checkOperand_eq_ok {bound : List String} {node : List TreeStep} {o : Operand} :
    checkOperand bound node o = .ok () ↔ OperandOk bound o := by
  fun_cases checkOperand bound node o with
  | case1 var key => rw [refuse_eq_ok, not_not, OperandOk]
  | case2 key => rw [refuse_eq_ok, OperandOk, ← List.length_eq_zero_iff]; omega
  | case3 o hpass hscope =>
    refine ⟨fun _ => ?_, fun _ => rfl⟩
    rw [OperandOk.eq_def]
    split
    · exact absurd rfl (hpass _ _)
    · exact absurd rfl (hscope _)
    · exact trivial

theorem checkPredicates_eq_ok {node : List TreeStep} {p : Predicates} :
    checkPredicates node p = .ok () ↔ PredicatesOk p := by
  rw [checkPredicates, PredicatesOk]
  cases p.custom with
  | none => exact ⟨fun _ c hc => absurd hc (Option.not_mem_none c), fun _ => rfl⟩
  | some custom =>
    simp only [forM_eq_ok, checkJSON_eq_ok, Option.mem_some_iff, forall_eq']

theorem checkPIP_eq_ok {node : List TreeStep} {p : PIP} :
    checkPIP node p = .ok () ↔ PIPOk p := by
  rw [checkPIP, PIPOk]
  split
  · rw [refuse_eq_ok, not_not]
  · have hfield (f : String × String) :
        (if f.2 ≠ "" then checkJSON f.2 ⟨node, .pipJSON p.name f.1⟩ else .ok ()) = .ok () ↔
          (f.2 ≠ "" → Compact f.2) := by
      split
      · rename_i h
        rw [checkJSON_eq_ok]
        exact ⟨fun hf _ => hf, fun hf => hf h⟩
      · rename_i h
        exact ⟨fun _ hf => absurd hf h, fun _ => rfl⟩
    rw [refuse_bind_eq_ok, seq_eq_ok, forM_eq_ok, forM_eq_ok]
    simp only [hfield, checkJSON_eq_ok, ne_eq]

theorem not_isNone_cutFront {front s : String} :
    ¬ (GoText.cutFront front s).isNone = true ↔ ∃ rest, s = front ++ rest := by
  rw [← Option.not_isSome, Bool.not_eq_true', Bool.not_eq_false, Option.isSome_iff_exists]
  exact exists_congr fun rest => GoText.cutFront_eq_some

theorem checkPIPs_eq_ok {names : List String} {i : Nat} {pips : List PIP} :
    checkPIPs names i pips = .ok () ↔
      (∀ p ∈ pips, ∃ rest, p.name = "subject." ++ rest) ∧ (∀ p ∈ pips, PIPOk p) ∧
        (pips.map PIP.name).Nodup ∧ ∀ p ∈ pips, p.name ∉ names := by
  induction pips generalizing names i with
  | nil => simp [checkPIPs]
  | cons p pips ih =>
    rw [checkPIPs, refuse_bind_eq_ok, refuse_bind_eq_ok, seq_eq_ok, checkPIP_eq_ok, ih,
      not_isNone_cutFront]
    constructor
    · rintro ⟨hfront, hnew, hp, hprefixes, hpips, hnodup, hnames⟩
      obtain ⟨hnodup', hnames'⟩ := nodup_cons_of_unseen hnew hnodup hnames
      exact ⟨List.forall_mem_cons.mpr ⟨hfront, hprefixes⟩,
        List.forall_mem_cons.mpr ⟨hp, hpips⟩, hnodup', hnames'⟩
    · rintro ⟨hprefixes, hpips, hnodup, hnames⟩
      rw [List.forall_mem_cons] at hprefixes hpips hnames
      rw [List.map_cons, List.nodup_cons] at hnodup
      refine ⟨hprefixes.1, hnames.1, hpips.1, hprefixes.2, hpips.2, hnodup.2, fun q hq => ?_⟩
      rw [List.mem_cons, not_or]
      exact ⟨fun h => hnodup.1 (h ▸ List.mem_map_of_mem hq), hnames.2 q hq⟩

section

variable {compiles : String → Bool} {bound : List String} {node : List TreeStep}

theorem checkCondition_eq_ok {place : Place} {o : Option Condition} :
    checkCondition compiles bound node place o = .ok () ↔
      ∀ c ∈ o, ConditionOk compiles bound place c := by
  cases o with
  | none => exact ⟨fun _ c hc => absurd hc (Option.not_mem_none c), fun _ => rfl⟩
  | some c =>
    rw [checkCondition, seq_eq_ok, mapError_ok_iff, refuse_bind_eq_ok, forM_eq_ok, not_not]
    simp only [checkOperand_eq_ok, Option.mem_some_iff, forall_eq']
    exact ⟨fun ⟨hvalid, hplace, ho⟩ => ⟨hvalid, hplace, ho⟩, fun h => ⟨h.1, h.2, h.3⟩⟩

/-- A loop over the items of a list with their positions. -/
theorem forM_zipIdx_eq_ok {α : Type} {f : α → Nat → Check Unit} {P : α → Prop}
    (h : ∀ a i, f a i = .ok () ↔ P a) {as : List α} :
    (as.zipIdx.forM fun a => f a.1 a.2) = .ok () ↔ ∀ a ∈ as, P a := by
  rw [forM_eq_ok]
  constructor
  · intro hall a ha
    obtain ⟨i, hi⟩ := List.mem_iff_getElem?.mp ha
    exact (h a i).mp (hall (a, i) (List.mem_zipIdx_iff_getElem?.mpr hi))
  · intro hall a ha
    exact (h a.1 a.2).mpr (hall a.1 (List.fst_mem_of_mem_zipIdx ha))

theorem checkSimplified_eq_ok {p : SimplifiedPolicy} :
    checkSimplified compiles node p = .ok () ↔ SimplifiedOk compiles p := by
  rw [checkSimplified, seq_eq_ok, checkCondition_eq_ok, checkPredicates_eq_ok]
  exact ⟨fun ⟨hc, hp⟩ => ⟨hc, hp⟩, fun h => ⟨h.1, h.2⟩⟩

theorem checkRule_eq_ok {r : Rule} :
    checkRule compiles bound node r = .ok () ↔ RuleOk compiles bound r := by
  rw [checkRule, seq_eq_ok, seq_eq_ok, checkCondition_eq_ok, checkCondition_eq_ok,
    checkPredicates_eq_ok]
  exact ⟨fun ⟨ht, hc, hp⟩ => ⟨ht, hc, hp⟩, fun h => ⟨h.1, h.2, h.3⟩⟩

theorem checkPolicy_eq_ok {p : Policy} :
    checkPolicy compiles bound node p = .ok () ↔ PolicyOk compiles bound p := by
  rw [checkPolicy, seq_eq_ok, checkCondition_eq_ok,
    forM_zipIdx_eq_ok (f := fun r i => checkRule compiles bound (node ++ [TreeStep.rule i]) r)
      fun r i => checkRule_eq_ok]
  exact ⟨fun ⟨ht, hr⟩ => ⟨ht, hr⟩, fun h => ⟨h.1, h.2⟩⟩

/-! ## Sets -/

theorem checkIterate_eq_ok {vars : List String} (hvars : vars.Nodup) {it : Option Iterate}
    {r : List String × List String} :
    checkIterate vars bound node it = .ok r ↔
      (∀ i ∈ it, i.var ≠ "" ∧ i.algorithm ≠ .absent) ∧ r.1.Nodup ∧
        r = ((it.map Iterate.var).toList ++ vars, (it.map Iterate.var).toList ++ bound) := by
  cases it with
  | none =>
    rw [checkIterate, Except.ok.injEq]
    constructor
    · rintro rfl
      exact ⟨fun i hi => absurd hi (Option.not_mem_none i), hvars, rfl⟩
    · exact fun h => h.2.2.symm
  | some i =>
    rw [checkIterate, refuse_bind_eq_ok, refuse_bind_eq_ok, refuse_bind_eq_ok, pure_eq_ok]
    simp only [Option.mem_some_iff, forall_eq', Option.map_some, Option.toList_some,
      List.singleton_append]
    constructor
    · rintro ⟨hvar, hnew, halg, rfl⟩
      exact ⟨⟨hvar, halg⟩, List.nodup_cons.mpr ⟨hnew, hvars⟩, rfl⟩
    · rintro ⟨⟨hvar, halg⟩, hnodup, rfl⟩
      exact ⟨hvar, (List.nodup_cons.mp hnodup).1, halg, rfl⟩

end

/-- The part of the invariants of a set that the set itself shows. -/
theorem bare_iff {s : PolicySet} :
    s.Bare ↔ ¬ (s.iterate ≠ none ∨ s.policies.length > 0 ∨ s.sets.length > 0) := by
  rw [PolicySet.Bare, not_or, not_or, not_not, ← List.length_eq_zero_iff,
    ← List.length_eq_zero_iff]
  constructor
  · rintro ⟨h, hp, hs⟩
    exact ⟨h, by omega, by omega⟩
  · rintro ⟨h, hp, hs⟩
    exact ⟨h, by omega, by omega⟩

section

variable {compiles : String → Bool}

/-- What the set itself shows of the invariants. -/
structure HeadOk (compiles : String → Bool) (bound : List String) (s : PolicySet) : Prop where
  fails : s.alwaysFails ≠ "" → s.Bare
  isolated : s.isolated ≠ "" → s.alwaysFails = "" ∧ s.Bare
  target : ∀ c ∈ s.target, ConditionOk compiles bound .setTarget c
  iterate : ∀ it ∈ s.iterate, it.var ≠ "" ∧ it.algorithm ≠ .absent
  policies : ∀ p ∈ s.policies, PolicyOk compiles (s.boundIn bound) p

theorem setOk_iff {bound : List String} {s : PolicySet} :
    SetOk compiles bound s ↔
      HeadOk compiles bound s ∧ ∀ k ∈ s.sets, SetOk compiles (s.boundIn bound) k := by
  constructor
  · rintro ⟨hfails, hisolated, htarget, hiterate, hpolicies, hsets⟩
    exact ⟨⟨hfails, hisolated, htarget, hiterate, hpolicies⟩, hsets⟩
  · rintro ⟨h, hsets⟩
    exact .mk h.fails h.isolated h.target h.iterate h.policies hsets

theorem boundIn_eq (s : PolicySet) (bound : List String) :
    s.boundIn bound = (s.iterate.map Iterate.var).toList ++ bound := by
  rw [PolicySet.boundIn]
  cases s.iterate <;> rfl

/-- A set's own checks pass when its head keeps the invariants and its variable
    is new. -/
theorem checkSet_eq_ok_of_sets {bound : List String} {node : List TreeStep} {vars vars' : List String}
    (hvars : vars.Nodup) {s : PolicySet} :
    checkSet compiles bound node vars s = .ok vars' ↔
      HeadOk compiles bound s ∧ ((s.iterate.map Iterate.var).toList ++ vars).Nodup ∧
        checkSets compiles (s.boundIn bound) node 0 ((s.iterate.map Iterate.var).toList ++ vars)
          s.sets = .ok vars' := by
  have hbare := bare_iff (s := s)
  have hpolicies (bound : List String) :
      (s.policies.zipIdx.forM fun p => checkPolicy compiles bound (node ++ [.policy p.2]) p.1) =
        .ok () ↔ ∀ p ∈ s.policies, PolicyOk compiles bound p :=
    forM_zipIdx_eq_ok (f := fun p i => checkPolicy compiles bound (node ++ [TreeStep.policy i]) p)
      fun p i => checkPolicy_eq_ok
  rw [boundIn_eq]
  obtain ⟨id, name, domain, externalID, algorithm, target, iterate, alwaysFails, isolated, policies,
    sets⟩ := s
  rw [checkSet, refuse_bind_eq_ok, refuse_bind_eq_ok, seq_eq_ok, checkCondition_eq_ok, bind_eq_ok]
  simp only at hbare hpolicies ⊢
  constructor
  · rintro ⟨hfails, hisolated, htarget, r, hr, hrest⟩
    obtain ⟨hiterate, hnodup, rfl⟩ := (checkIterate_eq_ok hvars).mp hr
    obtain ⟨hpol, hsets⟩ := seq_eq_ok.mp hrest
    refine ⟨⟨fun h => hbare.mpr fun hc => hfails ⟨h, hc⟩, fun h => ?_, htarget, hiterate, ?_⟩,
      hnodup, hsets⟩
    · exact ⟨by_contra fun hc => hisolated ⟨h, .inl hc⟩,
        hbare.mpr fun hc => hisolated ⟨h, .inr hc⟩⟩
    · rw [boundIn_eq]
      exact (hpolicies _).mp hpol
  · rintro ⟨⟨hfails, hisolated, htarget, hiterate, hpol⟩, hnodup, hsets⟩
    rw [boundIn_eq] at hpol
    refine ⟨fun h => hbare.mp (hfails h.1) h.2, fun h => ?_, htarget, _,
      (checkIterate_eq_ok hvars).mpr ⟨hiterate, hnodup, rfl⟩,
      seq_eq_ok.mpr ⟨(hpolicies _).mpr hpol, hsets⟩⟩
    obtain ⟨hfails', hbare'⟩ := hisolated h.1
    rcases h.2 with h' | h'
    · exact h' hfails'
    · exact hbare.mp hbare' h'

mutual

/-- The checker of a set accepts it when it keeps the invariants and binds no
    variable that was met before; it then has met the variables of the set. -/
theorem checkSet_eq_ok (bound : List String) (node : List TreeStep) {vars : List String}
    (hvars : vars.Nodup) (vars' : List String) : (s : PolicySet) →
      (checkSet compiles bound node vars s = .ok vars' ↔
        SetOk compiles bound s ∧ vars'.Nodup ∧ vars' = s.iterVars.reverse ++ vars)
  | ⟨id, name, domain, externalID, algorithm, target, iterate, alwaysFails, isolated, policies,
      sets⟩ => by
      rw [checkSet_eq_ok_of_sets hvars, setOk_iff, PolicySet.iterVars, List.reverse_append,
        List.append_assoc]
      have hreverse : ((iterate.map Iterate.var).toList).reverse =
          (iterate.map Iterate.var).toList := by cases iterate <;> rfl
      rw [hreverse]
      constructor
      · rintro ⟨hhead, hnodup, hsets⟩
        obtain ⟨hkids, hnodup', rfl⟩ := (checkSets_eq_ok _ node 0 hnodup vars' sets).mp hsets
        exact ⟨⟨hhead, hkids⟩, hnodup', rfl⟩
      · rintro ⟨⟨hhead, hkids⟩, hnodup, rfl⟩
        have hvars' := (List.nodup_append.mp hnodup).2.1
        exact ⟨hhead, hvars', (checkSets_eq_ok _ node 0 hvars' _ sets).mpr ⟨hkids, hnodup, rfl⟩⟩

theorem checkSets_eq_ok (bound : List String) (node : List TreeStep) (i : Nat)
    {vars : List String} (hvars : vars.Nodup) (vars' : List String) : (sets : List PolicySet) →
      (checkSets compiles bound node i vars sets = .ok vars' ↔
        (∀ s ∈ sets, SetOk compiles bound s) ∧ vars'.Nodup ∧
          vars' = (iterVarsOf sets).reverse ++ vars)
  | [] => by
    rw [checkSets, Except.ok.injEq, iterVarsOf, List.reverse_nil, List.nil_append]
    constructor
    · rintro rfl
      exact ⟨fun s hs => absurd hs List.not_mem_nil, hvars, rfl⟩
    · exact fun h => h.2.2.symm
  | s :: sets => by
    rw [checkSets, bind_eq_ok, iterVarsOf, List.reverse_append, List.append_assoc,
      List.forall_mem_cons]
    constructor
    · rintro ⟨mid, hs, hsets⟩
      obtain ⟨hok, hmid, rfl⟩ := (checkSet_eq_ok bound _ hvars mid s).mp hs
      obtain ⟨hoks, hnodup, rfl⟩ := (checkSets_eq_ok bound node (i + 1) hmid vars' sets).mp hsets
      exact ⟨⟨hok, hoks⟩, hnodup, rfl⟩
    · rintro ⟨⟨hok, hoks⟩, hnodup, rfl⟩
      have hmid := (List.nodup_append.mp hnodup).2.1
      exact ⟨_, (checkSet_eq_ok bound _ hvars _ s).mpr ⟨hok, hmid, rfl⟩,
        (checkSets_eq_ok bound node (i + 1) hmid _ sets).mpr ⟨hoks, hnodup, rfl⟩⟩

end

/-! ## Trees -/

theorem validate_eq_ok {t : Tree} : t.validate compiles = .ok () ↔ t.Valid compiles := by
  have hgroups : (t.simplified.zipIdx.forM fun g => g.1.policies.zipIdx.forM fun p =>
      checkSimplified compiles [.group g.2, .policy p.2] p.1) = .ok () ↔
        ∀ g ∈ t.simplified, ∀ p ∈ g.policies, SimplifiedOk compiles p :=
    forM_zipIdx_eq_ok (f := fun (g : SimplifiedGroup) i => g.policies.zipIdx.forM fun p =>
      checkSimplified compiles [TreeStep.group i, TreeStep.policy p.2] p.1)
      fun g i => forM_zipIdx_eq_ok
        (f := fun p j => checkSimplified compiles [TreeStep.group i, TreeStep.policy j] p)
        fun p j => checkSimplified_eq_ok
  rw [Tree.validate, seq_eq_ok, checkPIPs_eq_ok, seq_eq_ok, hgroups, bind_eq_ok]
  constructor
  · rintro ⟨⟨hprefixed, hpips, hnames, -⟩, hsimplified, vars, hvars, -⟩
    obtain ⟨hsets, hnodup, rfl⟩ := (checkSets_eq_ok [] [] 0 List.nodup_nil vars t.sets).mp hvars
    rw [List.append_nil, List.nodup_reverse] at hnodup
    exact ⟨hprefixed, hnames, hpips, hsimplified, hsets, hnodup⟩
  · intro h
    refine ⟨⟨h.prefixed, h.pips, h.names, fun p _ => List.not_mem_nil⟩, h.simplified,
      _, (checkSets_eq_ok [] [] 0 List.nodup_nil _ t.sets).mpr ⟨h.sets, ?_, rfl⟩, rfl⟩
    rw [List.append_nil, List.nodup_reverse]
    exact h.vars

/-- `NewTree` accepts exactly the trees that keep the invariants. -/
theorem newTree_eq_ok {simplified : List SimplifiedGroup} {sets : List PolicySet}
    {pips : List PIP} {t : Tree} :
    newTree compiles simplified sets pips = .ok t ↔
      t = ⟨simplified, sets, pips⟩ ∧ t.Valid compiles := by
  rw [newTree, seq_eq_ok, validate_eq_ok, pure_eq_ok]
  constructor
  · rintro ⟨h, rfl⟩
    exact ⟨rfl, h⟩
  · rintro ⟨rfl, h⟩
    exact ⟨h, rfl⟩

end

end PolicyIr

end AuthzAgent
