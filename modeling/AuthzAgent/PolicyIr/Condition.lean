/-
  AuthzAgent.PolicyIr.Condition

  The conditions of the policy tree (cond.go, operand.go and unsupported.go in
  policyir) and what `NewCompare` and `NewCondition` ask of them.

  A place, an operator, a form and a subject attribute are values of their own
  types, so the checks that one is known have nothing to refuse and are left out,
  like the checks for nil.  A literal is an operand of its own kind, so a list
  holds literals only.
-/

import AuthzAgent.PolicyIr.Scan

namespace AuthzAgent.PolicyIr

/-! ## Types -/

inductive Place where
  | simplified | ruleCondition | ruleTarget | policyTarget | setTarget
deriving DecidableEq, Repr

inductive Operator where
  | eq | ne | lt | le | gt | ge
  | isNull | isNotNull | isEmpty | isNotEmpty
  | in | notIn | contains | notContains | containsAny | notContainsAny
  | isSubset | isNotSubset | match | notMatch
deriving DecidableEq, Repr

def Operator.unary : Operator → Bool
  | .isNull | .isNotNull | .isEmpty | .isNotEmpty => true
  | _ => false

def Operator.takesList : Operator → Bool
  | .in | .notIn | .containsAny | .notContainsAny | .isSubset | .isNotSubset => true
  | _ => false

/-- MATCH and NOT MATCH. -/
def Operator.takesPattern : Operator → Bool
  | .match | .notMatch => true
  | _ => false

inductive SubjectAttr where
  | id | name | type | serviceAccount | roles | scopes | permissions | isM2M | permissionScope
deriving DecidableEq, Repr

def SubjectAttr.ofName : String → Option SubjectAttr
  | "id" => some .id
  | "name" => some .name
  | "type" => some .type
  | "serviceAccount" => some .serviceAccount
  | "roles" => some .roles
  | "scopes" => some .scopes
  | "permissions" => some .permissions
  | "isM2M" => some .isM2M
  | "permissionScope" => some .permissionScope
  | _ => none

inductive Form where
  | jsonPath | syntaxForm | nestedIterate | pipExtension
deriving DecidableEq, Repr

inductive Literal where
  | string (value : String)
  | number (text : String)
  | bool (value : Bool)
deriving DecidableEq, Repr

inductive Operand where
  | operation
  | resourceType
  | resource (path : String)
  | subject (attr : SubjectAttr) (key : String)
  | pipRef (name : String) (filtered : Bool) (filteredOperation : String)
  | entitled (resourceType : String) (as : List String)
  | passValue (var key : String)
  | literal (value : Literal)
  | list (items : List Literal) (raw : String)
  | pattern (text : String)
  | unsupported (form : Form) (text : String)
deriving DecidableEq, Repr

structure Compare where
  op : Operator
  left : Operand
  right : Option Operand
deriving DecidableEq, Repr

inductive Atom where
  | const (value : Bool)
  | isM2M
  | access (denied : Bool) (operation : String)
  | compare (c : Compare)
  | unsupported (form : Form) (text : String)
deriving DecidableEq, Repr

structure Condition where
  place : Place
  disjuncts : List (List Atom)
deriving DecidableEq, Repr

/-! ## Operands -/

inductive ListError where
  | noItems
  | rawOnOne (raw : String)
  | noRaw
  | number (index : Nat) (text : String)
  | mixed (index : Nat)
deriving DecidableEq, Repr

inductive OperandError where
  | path (path : String)
  | takesNoKey (key : String)
  | noKey
  | noName
  | filteredName (name : String)
  | operationWithoutFiltered (name : String)
  | noNames
  | noVariable
  | noPassKey
  | number (text : String)
  | list (e : ListError)
  | emptyPattern
  | noSourceText
deriving DecidableEq, Repr

def numberSyntax (text : String) : Bool := numberText text.toList = some text.toList

def newNumber (text : String) : Except OperandError Literal :=
  if numberSyntax text then .ok (.number text) else .error (.number text)

/-- The kind of a literal in `validateList`. -/
def Literal.kind : Literal → Nat
  | .string _ => 0
  | .number _ => 1
  | .bool _ => 2

def validateItems (kind : Option Nat) : Nat → List Literal → Except ListError Unit
  | _, [] => .ok ()
  | i, item :: items => do
    match item with
    | .number text => if ¬ numberSyntax text then throw (.number i text)
    | _ => pure ()
    if kind.isSome ∧ kind ≠ some item.kind then throw (.mixed i)
    validateItems (some item.kind) (i + 1) items

def validateList (items : List Literal) (raw : String) : Except ListError Unit :=
  if items.length = 0 then .error .noItems
  else if items.length = 1 ∧ raw ≠ "" then .error (.rawOnOne raw)
  else if items.length > 1 ∧ raw = "" then .error .noRaw
  else validateItems none 0 items

def validatePath (path : String) : Except OperandError Unit :=
  if path = "" ∨ path.toList.head? = some '.' ∨ path.toList.head? = some '[' then .ok ()
  else .error (.path path)

def validateSubject (attr : SubjectAttr) (key : String) : Except OperandError Unit :=
  if key ≠ "" ∧ attr ≠ .permissionScope then .error (.takesNoKey key)
  else if key = "" ∧ attr = .permissionScope then .error .noKey
  else .ok ()

def validateUnsupported (text : String) : Except OperandError Unit :=
  if text = "" then .error .noSourceText else .ok ()

def validateOperand : Operand → Except OperandError Unit
  | .operation | .resourceType | .literal (.string _) | .literal (.bool _) => .ok ()
  | .resource path => validatePath path
  | .subject attr key => validateSubject attr key
  | .pipRef name filtered filteredOperation =>
    if name = "" then .error .noName
    else if filtered ∧ (GoText.cutBack ".filtered" name).isNone then .error (.filteredName name)
    else if ¬ filtered ∧ filteredOperation ≠ "" then .error (.operationWithoutFiltered name)
    else .ok ()
  | .entitled _ as => if as.length = 0 then .error .noNames else .ok ()
  | .passValue var key =>
    if var = "" then .error .noVariable else if key = "" then .error .noPassKey else .ok ()
  | .literal (.number text) => (newNumber text).map fun _ => ()
  | .list items raw => (validateList items raw).mapError .list
  | .pattern text => if text = "" then .error .emptyPattern else .ok ()
  | .unsupported _ text => validateUnsupported text

/-! ## Comparisons and conditions -/

inductive CompareError where
  | left (e : OperandError)
  | leftKind
  | leftFiltered
  | leftPath (path : String)
  | unaryRight
  | rightMissing
  | right (e : OperandError)
  | notPattern
  | pattern (text : String) (reason : Option PatternReason)
  | rightPath (path : String)
  | misplacedPattern
  | takesNoList
  | singleLiteral
deriving DecidableEq, Repr

inductive ConditionError where
  | noDisjuncts
  | emptyDisjunct (disjunct : Nat)
  | compare (disjunct atom : Nat) (op : Operator) (e : CompareError)
  | unsupported (disjunct atom : Nat) (e : OperandError)
deriving DecidableEq, Repr

/-- `patternText`: the text is one token that is a pattern.  A text of several
    tokens has no reason of `patternToken`. -/
def patternText (text : String) : Except CompareError Unit :=
  match patternToken text.toList with
  | .error reason => .error (.pattern text (some reason))
  | .ok tok => if tok.length ≠ text.toList.length then .error (.pattern text none) else .ok ()

section

variable (compiles : String → Bool)

/-- The resource path that `jsonpath.Compile` refuses. -/
def refusedPath : Operand → Option String
  | .resource path => if compiles path then none else some path
  | _ => none

def validateLeft (left : Operand) : Except CompareError Unit := do
  (validateOperand left).mapError .left
  match left with
  | .list _ _ | .pattern _ => throw .leftKind
  | .pipRef _ true _ => throw .leftFiltered
  | _ =>
    match refusedPath compiles left with
    | some path => throw (.leftPath path)
    | none => pure ()

def validateRight (op : Operator) (right : Operand) : Except CompareError Unit := do
  (validateOperand right).mapError .right
  match right with
  | .unsupported _ _ => pure ()
  | right =>
    if op.takesPattern then
      match right with
      | .pattern text => patternText text
      | _ => throw .notPattern
    else match refusedPath compiles right with
      | some path => throw (.rightPath path)
      | none =>
        match right with
        | .pattern _ => throw .misplacedPattern
        | .list _ _ => if op.takesList then pure () else throw .takesNoList
        | .literal _ => if op.takesList then throw .singleLiteral else pure ()
        | _ => pure ()

def validateCompare (c : Compare) : Except CompareError Unit := do
  validateLeft compiles c.left
  if c.op.unary then
    if c.right.isSome then throw .unaryRight
  else match c.right with
    | none => throw .rightMissing
    | some right => validateRight compiles c.op right

def newCompare (op : Operator) (left : Operand) (right : Option Operand) :
    Except CompareError Compare := do
  let c : Compare := ⟨op, left, right⟩
  validateCompare compiles c
  return c

def validateAtom (i j : Nat) : Atom → Except ConditionError Unit
  | .const _ | .isM2M | .access _ _ => .ok ()
  | .compare c => (validateCompare compiles c).mapError (.compare i j c.op)
  | .unsupported _ text => (validateUnsupported text).mapError (.unsupported i j)

def validateCondition (c : Condition) : Except ConditionError Unit := do
  if c.disjuncts.length = 0 then throw .noDisjuncts
  for (d, i) in c.disjuncts.zipIdx do
    if d.length = 0 then throw (.emptyDisjunct i)
    for (a, j) in d.zipIdx do
      validateAtom compiles i j a

def newCondition (place : Place) (disjuncts : List (List Atom)) :
    Except ConditionError Condition := do
  let c : Condition := ⟨place, disjuncts⟩
  validateCondition compiles c
  return c

end

end AuthzAgent.PolicyIr
