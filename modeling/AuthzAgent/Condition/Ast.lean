/-
  AuthzAgent.Condition.Ast

  The condition AST: what `simplifiedpolicies.ParseCondition` returns, what
  the normalizer stores under `conditionAst`, and what `rls.rego` evaluates.
  In Go and in Rego a node is an object with the key `const`, with the key
  `ref`, or with the keys `op` and `args`; the three constructors of `Node`
  are these three shapes.
-/

import AuthzAgent.Lib.RegoValue

namespace AuthzAgent

/-- The values of the key `op`. -/
inductive Op where
  | eq | neq | contains | containsAny | isIn | matches | isEmpty | isNull | isSubset
  | gt | gte | lt | lte | hasAccess | and | or | not
deriving DecidableEq, Repr

/-- The connectives among the operators. -/
def Op.isConnective : Op → Bool
  | .and | .or | .not => true
  | _ => false

/-- The number of arguments of a comparison or an access atom. -/
def Op.arity : Op → Nat
  | .isEmpty | .isNull => 1
  | .hasAccess => 4
  | _ => 2

/-- The scope of a reference that carries a path. -/
inductive Scope where
  | resource | subject
deriving DecidableEq, Repr

/-- The object under the key `ref`. -/
inductive Ref where
  /-- `{"scope": scope, "path": path}` -/
  | path (scope : Scope) (path : List String)
  /-- `{"scope": "entitlements", "resourceType": …, "names": […]}` -/
  | entitlements (resourceType : String) (names : List String)
deriving DecidableEq, Repr

/-- A node of the condition AST. -/
inductive Node where
  | const (value : Rego.Value)
  | ref (r : Ref)
  | node (op : Op) (args : List Node)
deriving Inhabited

namespace Node

mutual

def beq : Node → Node → Bool
  | .const v, .const w => decide (v = w)
  | .ref r, .ref s => decide (r = s)
  | .node op args, .node op' args' => decide (op = op') && beqArgs args args'
  | _, _ => false

def beqArgs : List Node → List Node → Bool
  | [], [] => true
  | a :: as, b :: bs => beq a b && beqArgs as bs
  | _, _ => false

end

mutual

theorem beq_iff_eq : ∀ a b : Node, beq a b = true ↔ a = b
  | .const v, b => by cases b <;> simp [beq]
  | .ref r, b => by cases b <;> simp [beq]
  | .node op args, b => by
    cases b with
    | node op' args' => simp [beq, beqArgs_iff_eq args args']
    | _ => simp [beq]

theorem beqArgs_iff_eq : ∀ as bs : List Node, beqArgs as bs = true ↔ as = bs
  | [], bs => by cases bs <;> simp [beqArgs]
  | a :: as, bs => by
    cases bs with
    | nil => simp [beqArgs]
    | cons b bs => simp [beqArgs, beq_iff_eq a b, beqArgs_iff_eq as bs]

end

instance : DecidableEq Node := fun a b => decidable_of_iff _ (beq_iff_eq a b)

def isConnective : Node → Bool
  | .node op _ => op.isConnective
  | _ => false

/-- A constant, or a reference that names something. -/
def isOperand : Node → Bool
  | .const _ => true
  | .ref (.path _ path) => !path.isEmpty
  | .ref (.entitlements _ names) => !names.isEmpty
  | .node _ _ => false

mutual

/-- Apply `f` to every constant of the node. -/
def mapConst (f : Rego.Value → Rego.Value) : Node → Node
  | .const v => .const (f v)
  | .ref r => .ref r
  | .node op args => .node op (mapConstArgs f args)

def mapConstArgs (f : Rego.Value → Rego.Value) : List Node → List Node
  | [] => []
  | a :: as => mapConst f a :: mapConstArgs f as

end

mutual

theorem mapConst_idem {f : Rego.Value → Rego.Value} (hf : ∀ v, f (f v) = f v) :
    ∀ ast : Node, mapConst f (mapConst f ast) = mapConst f ast
  | .const v => by simp [mapConst, hf]
  | .ref r => rfl
  | .node op args => by simp [mapConst, mapConstArgs_idem hf args]

theorem mapConstArgs_idem {f : Rego.Value → Rego.Value} (hf : ∀ v, f (f v) = f v) :
    ∀ args : List Node, mapConstArgs f (mapConstArgs f args) = mapConstArgs f args
  | [] => rfl
  | a :: as => by simp [mapConstArgs, mapConst_idem hf a, mapConstArgs_idem hf as]

end

mutual

/-- Whether a predicate holds of some reference of the node. -/
def anyRef (p : Ref → Bool) : Node → Bool
  | .const _ => false
  | .ref r => p r
  | .node _ args => anyRefArgs p args

def anyRefArgs (p : Ref → Bool) : List Node → Bool
  | [] => false
  | a :: as => anyRef p a || anyRefArgs p as

end

theorem anyRefArgs_eq_any (p : Ref → Bool) (args : List Node) :
    anyRefArgs p args = args.any (anyRef p) := by
  induction args with
  | nil => rfl
  | cons a as ih => rw [anyRefArgs, List.any_cons, ih]

mutual

theorem anyRef_mono {p q : Ref → Bool} (h : ∀ r, q r = true → p r = true) :
    ∀ ast : Node, anyRef q ast = true → anyRef p ast = true
  | .const _ => id
  | .ref r => h r
  | .node _ args => anyRefArgs_mono h args

theorem anyRefArgs_mono {p q : Ref → Bool} (h : ∀ r, q r = true → p r = true) :
    ∀ args : List Node, anyRefArgs q args = true → anyRefArgs p args = true
  | [] => id
  | a :: as => by
    simp only [anyRefArgs, Bool.or_eq_true]
    exact Or.imp (anyRef_mono h a) (anyRefArgs_mono h as)

end

theorem anyRef_node {p : Ref → Bool} {op : Op} {args : List Node} :
    (Node.node op args).anyRef p = true ↔ ∃ a ∈ args, a.anyRef p = true := by
  rw [anyRef, anyRefArgs_eq_any, List.any_eq_true]

theorem anyRef_args {p : Ref → Bool} {op : Op} {args : List Node}
    (h : (Node.node op args).anyRef p = false) : ∀ a ∈ args, a.anyRef p = false := by
  rw [anyRef, anyRefArgs_eq_any, List.any_eq_false] at h
  intro a ha
  simpa using h a ha

end Node

/-! ## Well-formed conditions -/

/-- A leaf `{"op": op, "args": args}`: no connective, and an operand for each
    place of the operator. -/
structure IsLeaf (op : Op) (args : List Node) : Prop where
  not_connective : op.isConnective = false
  arity : args.length = op.arity
  operands : ∀ a ∈ args, a.isOperand = true

/-- The conditions the parser builds: boolean constants, leaves, negated
    leaves, and `and` and `or` of two or more conditions. -/
inductive IsCondition : Node → Prop
  | const (b : Bool) : IsCondition (.const (.bool b))
  | leaf {op : Op} {args : List Node} (h : IsLeaf op args) : IsCondition (.node op args)
  | negated {op : Op} {args : List Node} (h : IsLeaf op args) :
      IsCondition (.node .not [.node op args])
  | connective {op : Op} {args : List Node} (hop : op = .and ∨ op = .or)
      (hlen : 2 ≤ args.length) (hargs : ∀ a ∈ args, IsCondition a) :
      IsCondition (.node op args)

/-- A condition refers to the request by operands only. -/
theorem IsCondition.exists_operand {p : Ref → Bool} {ast : Node} (h : IsCondition ast)
    (hp : ast.anyRef p = true) : ∃ r, (Node.ref r).isOperand = true ∧ p r = true ∧
      ∀ q : Ref → Bool, q r = true → ast.anyRef q = true := by
  have hleaf : ∀ {op : Op} {args : List Node}, IsLeaf op args →
      (Node.node op args).anyRef p = true → ∃ r, (Node.ref r).isOperand = true ∧ p r = true ∧
        ∀ q : Ref → Bool, q r = true → (Node.node op args).anyRef q = true := by
    intro op args hl hp
    obtain ⟨a, ha, hp⟩ := Node.anyRef_node.mp hp
    cases a with
    | const v => simp [Node.anyRef] at hp
    | node op args => exact absurd (hl.operands _ ha) (by simp [Node.isOperand])
    | ref r =>
      exact ⟨r, hl.operands _ ha, hp, fun q hq => Node.anyRef_node.mpr ⟨.ref r, ha, hq⟩⟩
  induction h with
  | const b => simp [Node.anyRef] at hp
  | leaf hl => exact hleaf hl hp
  | negated hl =>
    obtain ⟨a, ha, hp⟩ := Node.anyRef_node.mp hp
    obtain rfl := List.mem_singleton.mp ha
    obtain ⟨r, hr, hpr, hall⟩ := hleaf hl hp
    exact ⟨r, hr, hpr, fun q hq => Node.anyRef_node.mpr ⟨_, ha, hall q hq⟩⟩
  | connective _ _ _ ih =>
    obtain ⟨a, ha, hp⟩ := Node.anyRef_node.mp hp
    obtain ⟨r, hr, hpr, hall⟩ := ih a ha hp
    exact ⟨r, hr, hpr, fun q hq => Node.anyRef_node.mpr ⟨a, ha, hall q hq⟩⟩

end AuthzAgent
