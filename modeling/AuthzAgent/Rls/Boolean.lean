/-
  AuthzAgent.Rls.Boolean

  Condition evaluation against the Boolean reading of a condition.

  `Node.holds` is the textbook evaluation of a condition, at any depth, from
  the truth of its leaves.  rls.rego unrolls two levels of connectives only
  and then asks for a leaf, which a connective never is.  So it computes the
  textbook value of another condition, `Node.prune`: the one in which every
  connective below two others reads as `false`
  (`conditionAllows_eq_holds_prune`).  Since the parser puts no connective
  under `not`, pruning can only take grants away (`holds_of_holds_prune`), and
  up to two levels of connectives it changes nothing
  (`prune_eq_self_of_depth`).
-/

import AuthzAgent.Condition.ParserSpec
import AuthzAgent.Rls.Condition

namespace AuthzAgent

open Rego (Value)

/-! ## The textbook evaluation -/

namespace Node

mutual

/-- The Boolean value of a condition, given the truth of its leaves. -/
def holds (leaf : Node → Bool) : Node → Bool
  | .node .and args => holdsAll leaf args
  | .node .or args => holdsAny leaf args
  | .node .not (a :: _) => !holds leaf a
  | .node .not [] => false
  | ast => leaf ast

def holdsAll (leaf : Node → Bool) : List Node → Bool
  | [] => true
  | a :: as => holds leaf a && holdsAll leaf as

def holdsAny (leaf : Node → Bool) : List Node → Bool
  | [] => false
  | a :: as => holds leaf a || holdsAny leaf as

end

variable {leaf : Node → Bool}

theorem holds_and (args : List Node) :
    holds leaf (.node .and args) = args.all (holds leaf) := by
  rw [holds]
  induction args with
  | nil => rfl
  | cons a as ih => rw [holdsAll, List.all_cons, ih]

theorem holds_or (args : List Node) :
    holds leaf (.node .or args) = args.any (holds leaf) := by
  rw [holds]
  induction args with
  | nil => rfl
  | cons a as ih => rw [holdsAny, List.any_cons, ih]

theorem holds_not (a : Node) (as : List Node) :
    holds leaf (.node .not (a :: as)) = !holds leaf a := by
  rw [holds]

theorem holds_leaf {ast : Node} (h : ast.isConnective = false) : holds leaf ast = leaf ast := by
  cases ast with
  | const v => rw [holds] <;> simp
  | ref r => rw [holds] <;> simp
  | node op args => cases op <;> simp_all [isConnective, Op.isConnective, holds]

/-! ## Pruning -/

/-- A leaf as it is, and `false` for a connective. -/
def cutLeaf (ast : Node) : Node :=
  if ast.isConnective then .const (.bool false) else ast

/-- Apply `cut` to the arguments of a connective. -/
def cutArgs (cut : Node → Node) : Node → Node
  | .node op args => if op.isConnective then .node op (args.map cut) else .node op args
  | ast => ast

theorem cutArgs_leaf {cut : Node → Node} {ast : Node} (h : ast.isConnective = false) :
    cutArgs cut ast = ast := by
  cases ast with
  | node op args => simp_all [cutArgs, isConnective]
  | _ => rfl

/-- The condition with every connective inside two others replaced by
    `false`. -/
def prune (ast : Node) : Node := cutArgs (cutArgs cutLeaf) ast

mutual

/-- The nesting of connectives. -/
def depth : Node → Nat
  | .node op args => if op.isConnective then depthArgs args + 1 else 0
  | _ => 0

def depthArgs : List Node → Nat
  | [] => 0
  | a :: as => max (depth a) (depthArgs as)

end

theorem depth_le_depthArgs {a : Node} {args : List Node} (h : a ∈ args) :
    depth a ≤ depthArgs args := by
  induction args with
  | nil => simp at h
  | cons b bs ih =>
    rw [depthArgs]
    rcases List.mem_cons.mp h with rfl | h
    · exact le_max_left _ _
    · exact (ih h).trans (le_max_right _ _)

theorem cutLeaf_eq_self_of_depth {ast : Node} (h : ast.depth ≤ 0) : cutLeaf ast = ast := by
  cases ast with
  | node op args =>
    cases hop : op.isConnective with
    | false => simp [cutLeaf, isConnective, hop]
    | true => simp [depth, hop] at h
  | _ => rfl

theorem cutArgs_eq_self_of_depth {cut : Node → Node} {n : Nat}
    (hcut : ∀ a : Node, a.depth ≤ n → cut a = a) {ast : Node} (h : ast.depth ≤ n + 1) :
    cutArgs cut ast = ast := by
  cases ast with
  | node op args =>
    cases hop : op.isConnective with
    | false => simp [cutArgs, hop]
    | true =>
      simp only [depth, hop, if_true, Nat.add_le_add_iff_right] at h
      have hmap : args.map cut = args := by
        conv_rhs => rw [← List.map_id args]
        exact List.map_congr_left fun a ha => hcut a ((depth_le_depthArgs ha).trans h)
      simp [cutArgs, hop, hmap]
  | _ => rfl

/-- Two levels of connectives are all the evaluator needs to see. -/
theorem prune_eq_self_of_depth {ast : Node} (h : ast.depth ≤ 2) : ast.prune = ast :=
  cutArgs_eq_self_of_depth
    (fun _ ha => cutArgs_eq_self_of_depth (fun _ => cutLeaf_eq_self_of_depth) ha) h

/-- If cutting the arguments of a condition grants nothing new, cutting under
    its connective does not either. -/
theorem holds_of_holds_cutArgs {cut : Node → Node}
    (hcut : ∀ a : Node, IsCondition a → holds leaf (cut a) = true → holds leaf a = true)
    (hleaf : ∀ a : Node, a.isConnective = false → cut a = a)
    {ast : Node} (h : IsCondition ast) (hholds : holds leaf (cutArgs cut ast) = true) :
    holds leaf ast = true := by
  cases h with
  | const b => exact hholds
  | leaf hl => simpa [cutArgs, hl.not_connective] using hholds
  | @negated op args hl =>
    -- the argument of a negation is a leaf, which no cut touches
    simpa [cutArgs, Op.isConnective, hleaf (.node op args) hl.not_connective] using hholds
  | connective hop hlen hargs =>
    rcases hop with rfl | rfl
    · simp only [cutArgs, Op.isConnective, if_true, holds_and, List.all_map, List.all_eq_true,
        Function.comp_apply] at hholds ⊢
      exact fun a ha => hcut a (hargs a ha) (hholds a ha)
    · simp only [cutArgs, Op.isConnective, if_true, holds_or, List.any_map, List.any_eq_true,
        Function.comp_apply] at hholds ⊢
      obtain ⟨a, ha, hcuta⟩ := hholds
      exact ⟨a, ha, hcut a (hargs a ha) hcuta⟩

theorem holds_of_holds_cutLeaf (hfalse : leaf (.const (.bool false)) = false) {ast : Node}
    (hholds : holds leaf ast.cutLeaf = true) : holds leaf ast = true := by
  cases hconn : ast.isConnective with
  | false => simpa [cutLeaf, hconn] using hholds
  | true =>
    rw [cutLeaf, hconn, if_pos rfl, holds_leaf rfl, hfalse] at hholds
    exact absurd hholds Bool.false_ne_true

/-- Pruning never makes a condition true. -/
theorem holds_of_holds_prune (hfalse : leaf (.const (.bool false)) = false) {ast : Node}
    (h : IsCondition ast) (hholds : holds leaf ast.prune = true) : holds leaf ast = true := by
  have hleaf : ∀ a : Node, a.isConnective = false → cutLeaf a = a := by
    intro a ha
    simp [cutLeaf, ha]
  refine holds_of_holds_cutArgs (fun a ha => ?_) (fun _ => cutArgs_leaf) h hholds
  exact holds_of_holds_cutArgs (fun _ _ => holds_of_holds_cutLeaf hfalse) hleaf ha

end Node

/-! ## The evaluator -/

namespace Rls

variable {P : Platform} {known : String → Bool} {resource subject : Value}

/-- The fast path reads its operands as the general path does. -/
theorem simpleArgValue_eq_argValue {a : Node} (h : simpleArgSupported a = true) :
    simpleArgValue known resource subject a = argValue known resource subject a := by
  cases a with
  | const v =>
    have hv : v ≠ missing := by simpa [simpleArgSupported] using h
    simp [simpleArgValue, argValue, hv]
  | node op args => simp [simpleArgSupported] at h
  | ref r =>
    cases r with
    | entitlements rt names => simp [simpleArgSupported] at h
    | path scope path =>
      obtain ⟨key, rfl⟩ := List.length_eq_one_iff.mp (by simpa [simpleArgSupported] using h)
      cases scope with
      | resource => simp [simpleArgValue, argValue, isFailedPipRef, refValue, refScopeBase,
          pathLookup, getPath]
      | subject => simp [simpleArgValue, argValue, refValue, refScopeBase, pathLookup, getPath]

/-- What the fast path grants, the general path grants as well. -/
theorem astConditionAllows_of_simple {ast : Node} (hsupp : simpleAstSupported ast = true)
    (hallow : simpleAstConditionAllows P known resource subject ast = true) :
    astConditionAllows P known resource subject ast = true := by
  have hbinary : ∀ (holds : Value → Value → Bool) (a b : Node) (more : List Node),
      simpleArgSupported a = true → simpleArgSupported b = true →
      simpleBinary known resource subject holds a b =
        binaryLeaf known resource subject holds (a :: b :: more) := by
    intro holds a b more ha hb
    rw [simpleBinary, simpleArgValue_eq_argValue ha, simpleArgValue_eq_argValue hb, binaryLeaf]
  have hleaf : astLeafAllows P known resource subject ast = true := by
    revert hsupp hallow
    fun_cases simpleAstSupported ast with
    | case1 a b more =>
      intro hsupp hallow
      rw [Bool.and_eq_true] at hsupp
      rw [simpleAstConditionAllows, hbinary _ a b more hsupp.1 hsupp.2] at hallow
      exact hallow
    | case2 a b more =>
      intro hsupp hallow
      rw [Bool.and_eq_true] at hsupp
      rw [simpleAstConditionAllows, hbinary _ a b more hsupp.1 hsupp.2] at hallow
      exact hallow
    | case3 => simp
  simp [astConditionAllows, allowsWith, hleaf]

theorem conditionAllows_ast (ast : Node) :
    conditionAllows P known resource subject none (some ast) =
      astConditionAllows P known resource subject ast := by
  rw [Bool.eq_iff_iff]
  constructor
  · intro h
    simp only [conditionAllows, Bool.or_eq_true, Bool.and_eq_true] at h
    rcases h with (h | h) | (⟨hsupp, hallow⟩ | h)
    · simp at h
    · simp at h
    · exact astConditionAllows_of_simple hsupp hallow
    · exact h
  · intro h
    simp [conditionAllows, h]

theorem astLeafAllows_connective {op : Op} (h : op.isConnective = true) (args : List Node) :
    astLeafAllows P known resource subject (.node op args) = false := by
  cases op <;> simp_all [Op.isConnective, astLeafAllows]

theorem allowsWith_leaf {arg : Node → Bool} {ast : Node} (h : ast.isConnective = false) :
    allowsWith P known resource subject arg ast =
      astLeafAllows P known resource subject ast := by
  cases ast with
  | node op args =>
    have hclause : connectiveAllows known subject arg op args = false := by
      cases op <;> simp_all [Node.isConnective, Op.isConnective, connectiveAllows]
    simp [allowsWith, hclause]
  | _ => simp [allowsWith]

theorem allowsWith_connective {arg : Node → Bool} {op : Op} (h : op.isConnective = true)
    (args : List Node) : allowsWith P known resource subject arg (.node op args) =
      connectiveAllows known subject arg op args := by
  rw [allowsWith, astLeafAllows_connective h, Bool.false_or]

/-- One unrolled level: where the predicate for the arguments computes the
    textbook value of the arguments after `cut`, the clauses of a connective
    compute that of the connective. -/
theorem connectiveAllows_eq_holds {leaf arg : Node → Bool} {cut : Node → Node} {op : Op}
    {args : List Node} (hop : op.isConnective = true) (hne : args ≠ [])
    (hpip : ∀ a ∈ args, argHasFailedPipRef known subject a = false)
    (harg : ∀ a ∈ args, arg a = (cut a).holds leaf) :
    connectiveAllows known subject arg op args =
      (Node.cutArgs cut (.node op args)).holds leaf := by
  simp only [Node.cutArgs, hop, if_true]
  cases op with
  | and =>
    have hall : args.all arg = args.all fun a => (cut a).holds leaf := by
      rw [Bool.eq_iff_iff, List.all_eq_true, List.all_eq_true]
      exact forall₂_congr fun a ha => by rw [harg a ha]
    have hnonempty : (!args.isEmpty) = true := by simp [hne]
    rw [connectiveAllows, hnonempty, Bool.true_and, hall, Node.holds_and, List.all_map]
    rfl
  | or =>
    have hany : args.any arg = args.any fun a => (cut a).holds leaf := by
      rw [Bool.eq_iff_iff, List.any_eq_true, List.any_eq_true]
      exact exists_congr fun a => and_congr_right fun ha => by rw [harg a ha]
    rw [connectiveAllows, hany, Node.holds_or, List.any_map]
    rfl
  | not =>
    obtain ⟨a, as, rfl⟩ := List.exists_cons_of_ne_nil hne
    rw [connectiveAllows, List.map_cons, Node.holds_not, hpip a List.mem_cons_self,
      harg a List.mem_cons_self, Bool.not_false, Bool.true_and]
  | _ => simp [Op.isConnective] at hop

theorem argHasFailedPipRef_args {op : Op} {args : List Node}
    (h : argHasFailedPipRef known subject (.node op args) = false) :
    ∀ a ∈ args, argHasFailedPipRef known subject a = false :=
  Node.anyRef_args h

/-- A connective of a parsed condition has an argument. -/
theorem IsCondition.args_ne_nil {op : Op} {args : List Node} (h : IsCondition (.node op args))
    (hop : op.isConnective = true) : args ≠ [] ∧ ∀ a ∈ args, IsCondition a := by
  cases h with
  | leaf hl =>
    rw [hl.not_connective] at hop
    exact absurd hop Bool.false_ne_true
  | negated hl => exact ⟨List.cons_ne_nil _ _, by simpa using .leaf hl⟩
  | connective _ hlen hargs =>
    refine ⟨?_, hargs⟩
    rintro rfl
    simp at hlen

theorem holds_cutLeaf (ast : Node) :
    ast.cutLeaf.holds (astLeafAllows P known resource subject) =
      astLeafAllows P known resource subject ast := by
  cases hconn : ast.isConnective with
  | false => rw [Node.cutLeaf, hconn, if_neg Bool.false_ne_true, Node.holds_leaf hconn]
  | true =>
    rw [Node.cutLeaf, hconn, if_pos rfl, Node.holds_leaf rfl]
    cases ast with
    | node op args => exact (astLeafAllows_connective hconn args).symm
    | _ => simp [Node.isConnective] at hconn

/-- One unrolled function of the evaluator computes the textbook value of the
    condition with its arguments cut, if the predicate for the arguments
    computes that of a cut argument. -/
theorem allowsWith_eq_holds {arg : Node → Bool} {cut : Node → Node}
    (harg : ∀ a : Node, IsCondition a → argHasFailedPipRef known subject a = false →
      arg a = (cut a).holds (astLeafAllows P known resource subject))
    {ast : Node} (h : IsCondition ast) (hpip : argHasFailedPipRef known subject ast = false) :
    allowsWith P known resource subject arg ast =
      (Node.cutArgs cut ast).holds (astLeafAllows P known resource subject) := by
  cases hconn : ast.isConnective with
  | false => rw [allowsWith_leaf hconn, Node.cutArgs_leaf hconn, Node.holds_leaf hconn]
  | true =>
    cases ast with
    | node op args =>
      obtain ⟨hne, hargs⟩ := IsCondition.args_ne_nil h hconn
      have hpips := argHasFailedPipRef_args hpip
      rw [allowsWith_connective hconn]
      exact connectiveAllows_eq_holds hconn hne hpips
        fun a ha => harg a (hargs a ha) (hpips a ha)
    | _ => simp [Node.isConnective] at hconn

theorem astArgAllows_eq_holds {ast : Node} (h : IsCondition ast)
    (hpip : argHasFailedPipRef known subject ast = false) :
    astArgAllows P known resource subject ast =
      (Node.cutArgs Node.cutLeaf ast).holds (astLeafAllows P known resource subject) :=
  allowsWith_eq_holds (fun a _ _ => (holds_cutLeaf a).symm) h hpip

/-- The evaluator computes the textbook value of the pruned condition. -/
theorem conditionAllows_eq_holds_prune {ast : Node} (h : IsCondition ast)
    (hpip : argHasFailedPipRef known subject ast = false) :
    conditionAllows P known resource subject none (some ast) =
      ast.prune.holds (astLeafAllows P known resource subject) := by
  rw [conditionAllows_ast]
  exact allowsWith_eq_holds (fun _ => astArgAllows_eq_holds) h hpip

/-- Up to two levels of connectives the evaluator is the textbook one. -/
theorem conditionAllows_eq_holds_of_depth {ast : Node} (h : IsCondition ast)
    (hpip : argHasFailedPipRef known subject ast = false) (hdepth : ast.depth ≤ 2) :
    conditionAllows P known resource subject none (some ast) =
      ast.holds (astLeafAllows P known resource subject) := by
  rw [conditionAllows_eq_holds_prune h hpip, Node.prune_eq_self_of_depth hdepth]

/-- The evaluator never grants what the textbook evaluation refuses. -/
theorem holds_of_conditionAllows {ast : Node} (h : IsCondition ast)
    (hpip : argHasFailedPipRef known subject ast = false)
    (hallow : conditionAllows P known resource subject none (some ast) = true) :
    ast.holds (astLeafAllows P known resource subject) = true := by
  rw [conditionAllows_eq_holds_prune h hpip] at hallow
  exact Node.holds_of_holds_prune rfl h hallow

/-- For every parsed condition the evaluator agrees with the textbook
    evaluation exactly when the condition does not owe its truth to a
    connective inside two others. -/
theorem conditionAllows_eq_holds_iff (P : Platform) (known : String → Bool)
    (resource subject : Value) (text : String) (ast : Node)
    (hparse : parseCondition P text = .ok ast)
    (hpip : argHasFailedPipRef known subject ast = false) :
    conditionAllows P known resource subject none (some ast) =
        ast.holds (astLeafAllows P known resource subject) ↔
      (ast.holds (astLeafAllows P known resource subject) = true →
        ast.prune.holds (astLeafAllows P known resource subject) = true) := by
  have hcond := parseCondition_isCondition hparse
  constructor
  · intro heq hholds
    rw [← conditionAllows_eq_holds_prune hcond hpip, heq, hholds]
  · intro himp
    rw [Bool.eq_iff_iff]
    refine ⟨holds_of_conditionAllows hcond hpip, fun hholds => ?_⟩
    rw [conditionAllows_eq_holds_prune hcond hpip]
    exact himp hholds

def negationBelowTwo : String :=
  "resource.a = 'x' OR (resource.b = 'y' AND resource.c NOT IN 'z')"

/-- What the parser makes of it. -/
def negationBelowTwoAst : Node :=
  .node .or
    [.node .eq [.ref (.path .resource ["a"]), .const (.string "x")],
     .node .and
      [.node .eq [.ref (.path .resource ["b"]), .const (.string "y")],
       .node .not [.node .isIn [.ref (.path .resource ["c"]), .const (.array [.string "z"])]]]]

theorem parseCondition_negationBelowTwo :
    parseCondition .ascii negationBelowTwo = .ok negationBelowTwoAst := by
  decide +kernel

/-- The evaluator takes the negation for false and refuses a resource that
    meets the second alternative. -/
theorem conditionAllows_negationBelowTwo :
    parseCondition .ascii negationBelowTwo = .ok negationBelowTwoAst ∧
    argHasFailedPipRef (fun _ => false) (.object []) negationBelowTwoAst = false ∧
    conditionAllows .ascii (fun _ => false)
      (.object [("b", .string "y"), ("c", .string "w")]) (.object []) none
      (some negationBelowTwoAst) = false ∧
    negationBelowTwoAst.holds (astLeafAllows .ascii (fun _ => false)
      (.object [("b", .string "y"), ("c", .string "w")]) (.object [])) = true :=
  ⟨parseCondition_negationBelowTwo, by decide, by decide +kernel, by decide +kernel⟩

/-- A resource that meets the first alternative gets the textbook answer. -/
theorem conditionAllows_first_alternative :
    conditionAllows .ascii (fun _ => false) (.object [("a", .string "x")]) (.object []) none
        (some negationBelowTwoAst) =
      negationBelowTwoAst.holds
        (astLeafAllows .ascii (fun _ => false) (.object [("a", .string "x")]) (.object [])) := by
  refine (conditionAllows_eq_holds_iff .ascii _ _ _ negationBelowTwo _
    parseCondition_negationBelowTwo ?_).mpr fun _ => ?_
  · decide
  · decide +kernel

end Rls

end AuthzAgent
