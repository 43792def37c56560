/-
  AuthzAgent.Rls.Condition

  The evaluation of a rule's condition in rls.rego.  A Rego function that may
  be undefined returns an option; a predicate is `true` where Rego proves it
  and `false` where it is undefined, so `not` over it is Boolean negation and
  the clauses of one predicate are joined by `||`.

  Rego has no recursion, so rls.rego unrolls the connectives by hand:
  `astConditionAllows` handles a connective, `astArgAllows` one below it, and
  `astLeafAllows` no connective at all.

  The default `"__missing__"` of `object.get` is an ordinary string.  A
  constant operand with that text is therefore read as an absent one.
-/

import AuthzAgent.Condition.Ast
import AuthzAgent.Platform

namespace AuthzAgent

open Rego (Value)

namespace Rls

/-- The sentinel of `object.get(arg, "const", "__missing__")`. -/
def missing : Value := .string "__missing__"

/-! ## Comparisons of values -/

section Values

variable (P : Platform)

def valuesEqual : Value → Value → Bool
  | .string left, .string right => P.toLower left == P.toLower right
  | left, right => decide (left = right)

def asArray : Value → List Value
  | .array items => items
  | .null => []
  | value => [value]

def containsValue (left right : Value) : Bool :=
  (asArray left).any fun v => valuesEqual P v right

def containsAnyValue (left right : Value) : Bool :=
  (asArray left).any fun v => (asArray right).any fun w => valuesEqual P v w

def inValue (left right : Value) : Bool := containsValue P right left

def isEmptyValue : Value → Bool
  | .array items => items.isEmpty
  | .object fields => fields.isEmpty
  | .string s => s == ""
  | _ => false

def isSubsetValue (left right : Value) : Bool :=
  (asArray left).all fun v => containsValue P (.array (asArray right)) v

/-- `startswith(s, "^")` -/
def startsWithCaret (s : String) : Bool := ['^'].isPrefixOf s.toList

def patternMatch : Value → Value → Bool
  | .string left, .string right =>
    P.globMatch right left || (startsWithCaret right && P.regexMatch right left) ||
    P.globMatch left right || (startsWithCaret left && P.regexMatch left right)
  | _, _ => false

def asNumber : Value → Option Rat
  | .null => some 0
  | .bool b => some (if b then 1 else 0)
  | .number q => some q
  | .string s => P.toNumber s
  | _ => none

/-- `gt`, `gte`, `lt` and `lte` on two values. -/
def numbersCompare (rel : Rat → Rat → Bool) (left right : Value) : Bool :=
  match asNumber P left, asNumber P right with
  | some l, some r => rel l r
  | _, _ => false

end Values

/-! ## References -/

/-- `path_lookup` on a path of at most six segments: nested `object.get`, with
    `{}` for an absent inner object and `null` for an absent last segment. -/
def getPath (base : Value) : List String → Option Value
  | [] => some base
  | [key] => base.objectGet key .null
  | key :: more => (base.objectGet key (.object [])).bind fun inner => getPath inner more

def pathLookup (base : Value) (path : List String) : Option Value :=
  if path.length ≤ 6 then getPath base path else some .null

def entitlementRefValue (subject : Value) (resourceType : String) (names : List String) : Value :=
  let ids := do
    let tree ← subject.objectGet "entitledResources" (.object [])
    let bucket ← tree.objectGet resourceType (.object [])
    let lists := names.filterMap fun name => bucket.objectGet name (.array [])
    pure (lists.flatMap Value.elements)
  .array (Value.sortSet (ids.getD []))

def refScopeBase (resource subject : Value) : Scope → Value
  | .resource => resource
  | .subject => subject

def refValue (resource subject : Value) : Ref → Option Value
  | .path scope path => pathLookup (refScopeBase resource subject scope) path
  | .entitlements resourceType names => some (entitlementRefValue subject resourceType names)

/-- `_is_failed_pip_ref`: a known PIP alias that the subject does not bind.
    `known` is `data.pip.known_pip_aliases`. -/
def isFailedPipRef (known : String → Bool) (subject : Value) : Ref → Bool
  | .path .subject (key :: _) =>
    known key && match subject with
      | .object fields => (fields.lookup key).isNone
      | _ => false
  | _ => false

/-- `_arg_has_failed_pip_ref`: the walk enters no constant. -/
def argHasFailedPipRef (known : String → Bool) (subject : Value) (node : Node) : Bool :=
  node.anyRef (isFailedPipRef known subject)

def argValue (known : String → Bool) (resource subject : Value) : Node → Option Value
  | .ref r => if isFailedPipRef known subject r then none else refValue resource subject r
  | .const value => some (if value = missing then .null else value)
  | .node _ _ => some .null

/-! ## Leaves -/

section Evaluation

variable (P : Platform) (known : String → Bool) (resource subject : Value)

/-- A leaf with two operands: undefined operands fail it. -/
def binaryLeaf (holds : Value → Value → Bool) : List Node → Bool
  | a :: b :: _ =>
    match argValue known resource subject a, argValue known resource subject b with
    | some left, some right => holds left right
    | _, _ => false
  | _ => false

/-- A leaf with one operand. -/
def unaryLeaf (holds : Value → Bool) : List Node → Bool
  | a :: _ =>
    match argValue known resource subject a with
    | some value => holds value
    | none => false
  | _ => false

def hasAccessDepth (args : List Node) : Option Rat :=
  match args with
  | _ :: _ :: _ :: depth :: _ => (argValue known resource subject depth).bind (asNumber P)
  | _ => some 1

/-- The clause `has_access` of `ast_leaf_allows`. -/
def hasAccessLeaf (args : List Node) : Bool :=
  unaryLeaf known resource subject (fun value =>
    match hasAccessDepth P known resource subject args with
    | some depth => P.toLower (P.regoSprint value) == "allowed" && decide (depth ≤ 5)
    | none => false) args

def astLeafAllows : Node → Bool
  | .const (.bool b) => b
  | .const _ => false
  | .ref _ => false
  | .node op args =>
    match op with
    | .eq => binaryLeaf known resource subject (valuesEqual P) args
    | .neq => binaryLeaf known resource subject (fun l r => !valuesEqual P l r) args
    | .contains => binaryLeaf known resource subject (containsValue P) args
    | .containsAny => binaryLeaf known resource subject (containsAnyValue P) args
    | .isIn => binaryLeaf known resource subject (inValue P) args
    | .matches => binaryLeaf known resource subject (patternMatch P) args
    | .isEmpty => unaryLeaf known resource subject isEmptyValue args
    | .isNull => unaryLeaf known resource subject (fun v => decide (v = .null)) args
    | .isSubset => binaryLeaf known resource subject (isSubsetValue P) args
    | .gt => binaryLeaf known resource subject (numbersCompare P (· > ·)) args
    | .gte => binaryLeaf known resource subject (numbersCompare P (· ≥ ·)) args
    | .lt => binaryLeaf known resource subject (numbersCompare P (· < ·)) args
    | .lte => binaryLeaf known resource subject (numbersCompare P (· ≤ ·)) args
    | .hasAccess => hasAccessLeaf P known resource subject args
    | .and => false
    | .or => false
    | .not => false

/-! ## Connectives -/

/-- The clauses `and`, `or` and `not` of `ast_condition_allows` and
    `ast_arg_allows`, which differ in the predicate for the arguments. -/
def connectiveAllows (arg : Node → Bool) : Op → List Node → Bool
  | .and, args => !args.isEmpty && args.all arg
  | .or, args => args.any arg
  | .not, a :: _ => !argHasFailedPipRef known subject a && !arg a
  | _, _ => false

/-- A leaf, or a connective whose arguments are judged by `arg`. -/
def allowsWith (arg : Node → Bool) (ast : Node) : Bool :=
  astLeafAllows P known resource subject ast ||
  match ast with
  | .node op args => connectiveAllows known subject arg op args
  | _ => false

def astArgAllows : Node → Bool :=
  allowsWith P known resource subject (astLeafAllows P known resource subject)

def astConditionAllows : Node → Bool :=
  allowsWith P known resource subject (astArgAllows P known resource subject)

/-! ## The fast path -/

def simpleArgSupported : Node → Bool
  | .const value => decide (value ≠ missing)
  | .ref (.path _ path) => path.length == 1
  | _ => false

def simpleAstSupported : Node → Bool
  | .node .eq (a :: b :: _) => simpleArgSupported a && simpleArgSupported b
  | .node .neq (a :: b :: _) => simpleArgSupported a && simpleArgSupported b
  | _ => false

def simpleArgValue : Node → Option Value
  | .const value => if value = missing then none else some value
  | .ref (.path .resource (key :: _)) => resource.objectGet key .null
  | .ref (.path .subject (key :: more)) =>
    if isFailedPipRef known subject (.path .subject (key :: more)) then none
    else subject.objectGet key .null
  | _ => none

/-- Two operands of the fast path. -/
def simpleBinary (holds : Value → Value → Bool) (a b : Node) : Bool :=
  match simpleArgValue known resource subject a, simpleArgValue known resource subject b with
  | some left, some right => holds left right
  | _, _ => false

def simpleAstConditionAllows : Node → Bool
  | .node .eq (a :: b :: _) => simpleBinary known resource subject (valuesEqual P) a b
  | .node .neq (a :: b :: _) =>
    simpleBinary known resource subject (fun l r => !valuesEqual P l r) a b
  | _ => false

def conditionAllows (condition : Option Bool) (conditionAst : Option Node) : Bool :=
  (condition == some true) ||
  (condition.isNone && conditionAst.isNone) ||
  match conditionAst with
  | some ast =>
    (simpleAstSupported ast && simpleAstConditionAllows P known resource subject ast) ||
    astConditionAllows P known resource subject ast
  | none => false

end Evaluation

end Rls

end AuthzAgent
