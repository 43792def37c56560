/-
  AuthzAgent.Acconfig.Convert

  The v3 export of access-control becomes simplified policies (convert.go of
  acconfig).  A target is classified by its content; a policy set gives the
  resource type, and a policy and a rule together the operation and the roles.

  A regular expression is the function that computes its only submatch, and
  the scanner of role expressions is a function from the rest of its input to
  the rest after the token.  The counts of `Stats` are those of the outcomes of
  the sets and rules.  Log lines, and the ids and names that only they use, are
  left out.
-/

import AuthzAgent.Simplified.Normalize

namespace AuthzAgent

open GoText
open Rego (Value)

namespace Acconfig

/-! ## Patterns -/

/-- `\s` -/
def isRegexSpace (c : Char) : Bool :=
  c == ' ' || c == '\t' || c == '\n' || c == '\r' || c == '\x0c'

/-- The text after a literal of a case-insensitive pattern. -/
def dropFold : List Char → List Char → Option (List Char)
  | [], cs => some cs
  | a :: as, c :: cs => if foldEq c a then dropFold as cs else none
  | _ :: _, [] => none

/-- The text after `\s+`. -/
def dropSpaces : List Char → Option (List Char)
  | c :: cs => if isRegexSpace c then some (cs.dropWhile isRegexSpace) else none
  | [] => none

/-- The text in `'([^']+)'$`. -/
def quotedValue : List Char → Option (List Char)
  | '\'' :: cs =>
    let value := cs.takeWhile (· ≠ '\'')
    if value ≠ [] ∧ cs.drop value.length = ['\''] then some value else none
  | _ => none

/-- `(?i)^keyword\s+(?:==|EQUALS)\s+'([^']+)'$` -/
def equalsPattern (keyword : String) (cs : List Char) : Option (List Char) := do
  let rest ← dropFold keyword.toList cs
  let rest ← dropSpaces rest
  let rest ← dropFold "==".toList rest <|> dropFold "EQUALS".toList rest
  let rest ← dropSpaces rest
  quotedValue rest

def resourceTypePattern : List Char → Option (List Char) := equalsPattern "resourceType"

def operationPattern : List Char → Option (List Char) := equalsPattern "operation"

/-! ## Role expressions -/

/-- The blanks of the scanner. -/
def isBlank (c : Char) : Bool := c == ' ' || c == '\t' || c == '\n' || c == '\r'

def skipSpace (cs : List Char) : List Char := cs.dropWhile isBlank

/-- `scanner.atEnd` -/
def atEnd (cs : List Char) : Bool := (skipSpace cs).isEmpty

/-- The text after a word.  The scanner compares as many bytes as the word has,
    so only ASCII letters match. -/
def dropWord : List Char → List Char → Option (List Char)
  | [], cs => some cs
  | a :: as, c :: cs => if c.toLower = a.toLower then dropWord as cs else none
  | _ :: _, [] => none

def acceptWord (word : String) (cs : List Char) : Option (List Char) :=
  match dropWord word.toList (skipSpace cs) with
  | some (c :: rest) => if isBlank c || c == '\'' || c == ',' then some (c :: rest) else none
  | r => r

def acceptByte (b : Char) (cs : List Char) : Option (List Char) :=
  match skipSpace cs with
  | c :: rest => if c = b then some rest else none
  | [] => none

def acceptQuoted (cs : List Char) : Option (List Char × List Char) :=
  match skipSpace cs with
  | '\'' :: rest =>
    let lit := rest.takeWhile (· ≠ '\'')
    if lit.length = rest.length ∨ trimChars lit = [] then none
    else some (lit, rest.drop (lit.length + 1))
  | _ => none

/-- The inner loop of `parseRoleExpression`: the operands of a clause. -/
def scanOperands : Nat → List Char → Option (List (List Char) × List Char)
  | 0, _ => none
  | fuel + 1, cs =>
    match acceptQuoted cs with
    | none => none
    | some (role, rest) =>
      match acceptByte ',' rest with
      | some rest => (scanOperands fuel rest).map fun r => (role :: r.1, r.2)
      | none => some ([role], rest)

/-- The outer loop of `parseRoleExpression`: the operands of all clauses. -/
def scanClauses : Nat → List Char → Option (List (List Char))
  | 0, _ => none
  | fuel + 1, cs => do
    let rest ← acceptWord "subject.roles" cs
    let rest ← acceptWord "CONTAINS" rest
    let rest := (acceptWord "ANY" rest).getD rest
    let (roles, rest) ← scanOperands rest.length rest
    if atEnd rest then some roles
    else do
      let rest ← acceptWord "OR" rest
      let more ← scanClauses fuel rest
      some (roles ++ more)

/-- `parseRoleExpression`: every clause has an operand, so a full match has a
    role. -/
def parseRoleExpression (expr : String) : Option (List String) :=
  (scanClauses expr.toList.length expr.toList).map fun roles =>
    (roles.map String.ofList).eraseDups

/-! ## Targets -/

inductive ParsedTarget where
  | unknown
  | any
  | resourceType (value : String)
  | operation (value : String)
  | roles (roles : List String)
deriving DecidableEq, Repr

def parseTarget (target : String) : ParsedTarget :=
  let t := trimSpace target
  if t = "" ∨ equalFold t "true" = true then .any
  else
    match resourceTypePattern t.toList with
    | some value => .resourceType (String.ofList value)
    | none =>
      match operationPattern t.toList with
      | some value => .operation (String.ofList value)
      | none =>
        match parseRoleExpression t with
        | some roles => .roles roles
        | none => .unknown

def resolveOperationAndRoles : ParsedTarget → ParsedTarget → Option (String × List String)
  | .operation op, .roles roles => some (op, roles)
  | .operation op, .any => some (op, [])
  | .roles roles, .operation op => some (op, roles)
  | .any, .operation op => some (op, [])
  | .roles roles, .any => some ("ALL", roles)
  | .any, .roles roles => some ("ALL", roles)
  | .any, .any => some ("ALL", [])
  | _, _ => none

/-! ## Policy sets -/

structure RuleV3 where
  target : String
  condition : Option String
  effect : String
  rsqlPredicate : String
  sqlPredicate : String
  mongodbPredicate : String
  predicate : String

structure PolicyV3 where
  target : String
  rules : List RuleV3

structure PolicySetV3 where
  type : String
  domain : String
  target : String
  tenantID : String
  policies : List PolicyV3

/-- What becomes of a rule. -/
inductive RuleOutcome where
  | deny
  | skipped
  | policy (p : Simplified.Policy)

def RuleOutcome.policy? : RuleOutcome → Option Simplified.Policy
  | .policy p => some p
  | _ => none

/-- A predicate that is not blank. -/
def unlessBlank (text : String) : String := if trimSpace text = "" then "" else text

/-- A condition that is not blank. -/
def ruleCondition : Option String → Value
  | some c => if trimSpace c = "" then .null else .string c
  | none => .null

/-- One round of the inner loop of `convertPolicySet`. -/
def convertRule (component resourceType : String) (policyTarget : ParsedTarget) (rule : RuleV3) :
    RuleOutcome :=
  if rule.effect = "DENY" then .deny
  else match resolveOperationAndRoles policyTarget (parseTarget rule.target) with
    | none => .skipped
    | some (operation, roles) => .policy
        { component := component
          resourceType := resourceType
          operation := operation
          condition := ruleCondition rule.condition
          rsqlPredicate := unlessBlank rule.rsqlPredicate
          sqlPredicate := unlessBlank rule.sqlPredicate
          mongodbPredicate := unlessBlank rule.mongodbPredicate
          queryDSLPredicate := unlessBlank rule.predicate
          roles := some (roles.map .string) }

def setResourceType (ps : PolicySetV3) : Option String :=
  match parseTarget ps.target with
  | .resourceType value => some value
  | .any => some "ALL"
  | _ => none

def setComponent (ps : PolicySetV3) : String :=
  if ps.domain ≠ "" then ps.domain else if ps.tenantID ≠ "" then ps.tenantID else "default"

def convertRules (ps : PolicySetV3) : Option (List RuleOutcome) :=
  (setResourceType ps).map fun resourceType => ps.policies.flatMap fun policy =>
    policy.rules.map (convertRule (setComponent ps) resourceType (parseTarget policy.target))

def convertPolicySet (ps : PolicySetV3) : List Simplified.Policy :=
  ((convertRules ps).getD []).filterMap RuleOutcome.policy?

def simplifiedSets (sets : List PolicySetV3) : List PolicySetV3 :=
  sets.filter fun ps => ps.type = "SIMPLIFIED"

def convertPolicySets (sets : List PolicySetV3) : List Simplified.Policy :=
  (simplifiedSets sets).flatMap convertPolicySet

structure Stats where
  policySets : Nat
  policySetsSkipped : Nat
  rules : Nat
  rulesSkipped : Nat
  rulesDenySkipped : Nat
  policies : Nat
deriving DecidableEq, Repr

/-- The statistics that `ConvertPolicySets` returns. -/
def conversionStats (sets : List PolicySetV3) : Stats :=
  let converted := (simplifiedSets sets).map convertRules
  let outcomes := converted.flatMap (·.getD [])
  { policySets := converted.length
    policySetsSkipped := converted.countP (·.isNone)
    rules := outcomes.length
    rulesSkipped := outcomes.countP fun o => o matches .skipped
    rulesDenySkipped := outcomes.countP fun o => o matches .deny
    policies := (convertPolicySets sets).length }

end Acconfig

end AuthzAgent
