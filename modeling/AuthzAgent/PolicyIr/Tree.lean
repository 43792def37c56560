/-
  AuthzAgent.PolicyIr.Tree

  The policy tree of a tenant and `NewTree`, which checks it (tree.go in
  policyir).

  An algorithm, an effect, a dialect and a PIP type are values of their own
  types, so the checks that one is known have nothing to refuse and are left
  out, like the checks for nil; `none` is the type of an isolated declaration.
  An error names its node by the positions on the way to it, where the source
  prints labels.  The checker keeps the variables it met in `vars` and those of
  the iterates around the node in `bound`.
-/

import AuthzAgent.Lib.Checked
import AuthzAgent.Lib.Dict
import AuthzAgent.Lib.JsonTree
import AuthzAgent.PolicyIr.Condition

namespace AuthzAgent

open Checked (refuse)

namespace PolicyIr

/-! ## Types -/

inductive Algorithm where
  | absent | denyOverrides | permitOverrides | denyUnlessPermit | permitUnlessDeny
deriving DecidableEq, Repr

def Algorithm.ofName : String → Option Algorithm
  | "" => some .absent
  | "DENY_OVERRIDES" => some .denyOverrides
  | "PERMIT_OVERRIDES" => some .permitOverrides
  | "DENY_UNLESS_PERMIT" => some .denyUnlessPermit
  | "PERMIT_UNLESS_DENY" => some .permitUnlessDeny
  | _ => none

inductive Effect where
  | absent | allow | deny | notApplicable | useFilterCondition
deriving DecidableEq, Repr

def Effect.ofName : String → Option Effect
  | "" => some .absent
  | "ALLOW" => some .allow
  | "DENY" => some .deny
  | "NOT_APPLICABLE" => some .notApplicable
  | "USE_FILTER_CONDITION" => some .useFilterCondition
  | _ => none

inductive Dialect where
  | rsql | sql | mongodb | querydsl
deriving DecidableEq, Repr

structure CustomPredicate where
  predicate : String
  params : Dict String
deriving DecidableEq

structure Predicates where
  text : List (Dialect × String)
  custom : Option CustomPredicate
deriving DecidableEq

structure SimplifiedPolicy where
  id : String
  frontend : Bool
  operation : String
  roles : List String
  condition : Option Condition
  predicates : Predicates
deriving DecidableEq

structure SimplifiedGroup where
  id : String
  name : String
  externalID : String
  domain : String
  component : String
  resourceType : String
  policies : List SimplifiedPolicy
deriving DecidableEq

structure Iterate where
  var : String
  algorithm : Algorithm
deriving DecidableEq, Repr

structure Rule where
  id : String
  name : String
  effect : Effect
  frontend : Bool
  target : Option Condition
  condition : Option Condition
  predicates : Predicates
deriving DecidableEq

structure Policy where
  id : String
  name : String
  algorithm : Algorithm
  target : Option Condition
  rules : List Rule
deriving DecidableEq

structure PolicySet where
  id : String
  name : String
  domain : String
  externalID : String
  algorithm : Algorithm
  target : Option Condition
  iterate : Option Iterate
  alwaysFails : String
  isolated : String
  policies : List Policy
  sets : List PolicySet

inductive PIPType where
  | general | filtered | header | token | mapping | permissionScope
deriving DecidableEq, Repr

/-- The PIP type with a name. -/
def PIPType.ofName : String → Option PIPType
  | "GENERAL" => some .general
  | "FILTERED" => some .filtered
  | "HEADER" => some .header
  | "TOKEN" => some .token
  | "MAPPING" => some .mapping
  | "PERMISSION_SCOPE" => some .permissionScope
  | _ => none

structure PIP where
  name : String
  type : Option PIPType := none
  claim : String := ""
  header : String := ""
  defaultValue : String := ""
  url : String := ""
  httpMethod : String := ""
  beanName : String := ""
  jsonPath : String := ""
  returnType : String := ""
  headers : String := ""
  resourceType : String := ""
  domain : String := ""
  requestAttributes : Dict String := ∅
  productMapping : String := ""
  customMapping : String := ""
  cacheable : String := ""
  cachePeriod : String := ""
  unsupported : String := ""
  isolated : String := ""
deriving DecidableEq

structure Tree where
  simplified : List SimplifiedGroup
  sets : List PolicySet
  pips : List PIP

/-! ## Errors -/

/-- A step from a node of the tree to one of its parts. -/
inductive TreeStep where
  | pip (i : Nat)
  | group (i : Nat)
  | set (i : Nat)
  | policy (i : Nat)
  | rule (i : Nat)
  | target
  | condition
deriving DecidableEq, Repr

/-- What `NewTree` refuses at a node. -/
inductive TreeReason where
  | pipName (name : String)
  | declaredTwice (name : String)
  | isolatedFields (name : String)
  | pipType (name : String)
  | pipJSON (name field : String)
  | failsWithChildren
  | isolatedWithChildren
  | noVar
  | boundTwice (var : String)
  | absentAlgorithm
  | condition (e : ConditionError)
  | place (found want : Place)
  | passValue (var : String)
  | permissionScope
  | param (key : String)
deriving DecidableEq, Repr

structure TreeError where
  node : List TreeStep
  reason : TreeReason
deriving DecidableEq, Repr

/-- The results of the checks. -/
abbrev Check := Except TreeError

/-! ## Checks -/

def checkJSON (value : String) (e : TreeError) : Check Unit :=
  refuse (JsonText.compactText value ≠ some value) e

/-- The operands that the checker looks at. -/
def Atom.operands : Atom → List Operand
  | .compare c => c.left :: c.right.toList
  | _ => []

/-- The operands of a condition that the checker looks at. -/
def Condition.operands (c : Condition) : List Operand := c.disjuncts.flatten.flatMap Atom.operands

/-- The check of an operand in `checker.condition`. -/
def checkOperand (bound : List String) (node : List TreeStep) : Operand → Check Unit
  | .passValue var _ => refuse (var ∉ bound) ⟨node, .passValue var⟩
  | .subject .permissionScope _ => refuse (bound.length > 0) ⟨node, .permissionScope⟩
  | _ => .ok ()

def checkPredicates (node : List TreeStep) (p : Predicates) : Check Unit :=
  match p.custom with
  | none => .ok ()
  | some custom =>
    custom.params.entries.forM fun param => checkJSON param.2 ⟨node, .param param.1⟩

/-- The fields of a declaration that hold JSON, with their names. -/
def PIP.jsonFields (p : PIP) : List (String × String) :=
  [("defaultValue", p.defaultValue), ("productMapping", p.productMapping),
    ("customMapping", p.customMapping), ("cacheable", p.cacheable), ("cachePeriod", p.cachePeriod)]

/-- The checks of a declaration that do not look at the others. -/
def checkPIP (node : List TreeStep) (p : PIP) : Check Unit :=
  if p.isolated ≠ "" then
    refuse (p ≠ { name := p.name, isolated := p.isolated }) ⟨node, .isolatedFields p.name⟩
  else do
    refuse (p.type = none) ⟨node, .pipType p.name⟩
    p.jsonFields.forM fun f =>
      if f.2 ≠ "" then checkJSON f.2 ⟨node, .pipJSON p.name f.1⟩ else .ok ()
    p.requestAttributes.entries.forM fun a => checkJSON a.2 ⟨node, .pipJSON p.name a.1⟩

/-- The loop of `validate` over the declarations. -/
def checkPIPs (names : List String) : Nat → List PIP → Check Unit
  | _, [] => .ok ()
  | i, p :: pips => do
    refuse ((GoText.cutFront "subject." p.name).isNone) ⟨[.pip i], .pipName p.name⟩
    refuse (p.name ∈ names) ⟨[.pip i], .declaredTwice p.name⟩
    checkPIP [.pip i] p
    checkPIPs (p.name :: names) (i + 1) pips

section

variable (compiles : String → Bool)

/-- `checker.condition` -/
def checkCondition (bound : List String) (node : List TreeStep) (place : Place) :
    Option Condition → Check Unit
  | none => .ok ()
  | some c => do
    (validateCondition compiles c).mapError fun e => ⟨node, .condition e⟩
    refuse (c.place ≠ place) ⟨node, .place c.place place⟩
    c.operands.forM (checkOperand bound node)

def checkSimplified (node : List TreeStep) (p : SimplifiedPolicy) : Check Unit := do
  checkCondition compiles [] (node ++ [.condition]) .simplified p.condition
  checkPredicates node p.predicates

/-- The checks of a rule in `checker.policy`. -/
def checkRule (bound : List String) (node : List TreeStep) (r : Rule) : Check Unit := do
  checkCondition compiles bound (node ++ [.target]) .ruleTarget r.target
  checkCondition compiles bound (node ++ [.condition]) .ruleCondition r.condition
  checkPredicates node r.predicates

/-- `checker.policy` -/
def checkPolicy (bound : List String) (node : List TreeStep) (p : Policy) : Check Unit := do
  checkCondition compiles bound (node ++ [.target]) .policyTarget p.target
  p.rules.zipIdx.forM fun r => checkRule compiles bound (node ++ [.rule r.2]) r.1

/-- The checks of an iterate, and the variables met and bound from there on. -/
def checkIterate (vars bound : List String) (node : List TreeStep) :
    Option Iterate → Check (List String × List String)
  | none => .ok (vars, bound)
  | some it => do
    refuse (it.var = "") ⟨node, .noVar⟩
    refuse (it.var ∈ vars) ⟨node, .boundTwice it.var⟩
    refuse (it.algorithm = .absent) ⟨node, .absentAlgorithm⟩
    return (it.var :: vars, it.var :: bound)

mutual

/-- `checker.set`: the variables met so far are passed on. -/
def checkSet (bound : List String) (node : List TreeStep) (vars : List String) :
    PolicySet → Check (List String)
  | ⟨_, _, _, _, _, target, iterate, alwaysFails, isolated, policies, sets⟩ => do
    refuse (alwaysFails ≠ "" ∧ (iterate ≠ none ∨ policies.length > 0 ∨ sets.length > 0))
      ⟨node, .failsWithChildren⟩
    refuse (isolated ≠ "" ∧
        (alwaysFails ≠ "" ∨ iterate ≠ none ∨ policies.length > 0 ∨ sets.length > 0))
      ⟨node, .isolatedWithChildren⟩
    checkCondition compiles bound (node ++ [.target]) .setTarget target
    let (vars, bound) ← checkIterate vars bound node iterate
    policies.zipIdx.forM fun p => checkPolicy compiles bound (node ++ [.policy p.2]) p.1
    checkSets bound node 0 vars sets

/-- `checker.sets` -/
def checkSets (bound : List String) (node : List TreeStep) (i : Nat) (vars : List String) :
    List PolicySet → Check (List String)
  | [] => .ok vars
  | s :: sets => do
    let vars ← checkSet bound (node ++ [.set i]) vars s
    checkSets bound node (i + 1) vars sets

end

def Tree.validate (t : Tree) : Check Unit := do
  checkPIPs [] 0 t.pips
  t.simplified.zipIdx.forM fun g =>
    g.1.policies.zipIdx.forM fun p => checkSimplified compiles [.group g.2, .policy p.2] p.1
  let _ ← checkSets compiles [] [] 0 [] t.sets

def newTree (simplified : List SimplifiedGroup) (sets : List PolicySet) (pips : List PIP) :
    Check Tree := do
  let t : Tree := ⟨simplified, sets, pips⟩
  t.validate compiles
  return t

end

end PolicyIr

end AuthzAgent
