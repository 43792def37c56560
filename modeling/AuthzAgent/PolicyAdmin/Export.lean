/-
  AuthzAgent.PolicyAdmin.Export

  Uploaded simplified policies become v3 policy sets (convert.go of
  authz-policy-admin).  One loop sorts the policies into groups: a policy set
  for each component and resource type, in the order of their first use, and
  in it a policy for each list of roles, which is compared as the text that
  joins the sorted roles with commas.  A second loop prints the groups.

  The sets have the fields that acconfig reads back; ids, names, status and
  combining algorithms are left out.
-/

import AuthzAgent.Acconfig.Convert

namespace AuthzAgent

open GoText
open Rego (Value)
open Acconfig

namespace PolicyAdmin

/-- `simplifiedPolicy`; `roles` is `none` for a nil slice. -/
structure SimplifiedPolicy where
  component : String
  resourceType : String
  operation : String
  condition : Value
  rsqlPredicate : String
  sqlPredicate : String
  mongodbPredicate : String
  predicate : String
  roles : Option (List Value)

structure RuleVal where
  operation : String
  condition : String
  rsqlPredicate : String
  sqlPredicate : String
  mongodbPredicate : String
  predicate : String

/-! ## Targets -/

def resourceTypeTarget (rt : String) : String :=
  if equalFold rt "ALL" = true ∨ rt = "*" then "true" else "resourceType == '" ++ rt ++ "'"

def operationTarget (op : String) : String :=
  if equalFold op "ALL" = true ∨ op = "*" then "true" else "operation == '" ++ op ++ "'"

def quoted (s : String) : String := "'" ++ s ++ "'"

def rolesTarget (rolesKey : String) : String :=
  if rolesKey = "" then "true"
  else match split ',' rolesKey with
    | [part] => "subject.roles CONTAINS " ++ quoted part
    | parts => "subject.roles CONTAINS ANY " ++ join ',' (parts.map quoted)

/-! ## Groups -/

section

variable (P : Platform)

def rolesKey (roles : List Value) : String :=
  join ',' ((roles.map P.sprint).insertionSort (· ≤ ·))

def conditionString : Value → String
  | .null => ""
  | .string s => s
  | .bool true => "true"
  | .bool false => "false"
  | v => P.sprint v

/-- The maps that the first loop of `toV3PolicySets` fills. -/
structure Groups where
  psOrder : List (String × String)
  psMap : AList fun _ : String × String => Dict (List RuleVal)

def Groups.empty : Groups := ⟨[], ∅⟩

/-- `psMap[pk]`, with an absent key read as empty. -/
def Groups.policyMap (g : Groups) (pk : String × String) : Dict (List RuleVal) :=
  (g.psMap.lookup pk).getD ∅

def SimplifiedPolicy.psKey (p : SimplifiedPolicy) : String × String :=
  (p.component, p.resourceType)

def SimplifiedPolicy.pKey (p : SimplifiedPolicy) : String := rolesKey P (p.roles.getD [])

def SimplifiedPolicy.ruleVal (p : SimplifiedPolicy) : RuleVal where
  operation := p.operation
  condition := conditionString P p.condition
  rsqlPredicate := p.rsqlPredicate
  sqlPredicate := p.sqlPredicate
  mongodbPredicate := p.mongodbPredicate
  predicate := p.predicate

/-- One round of the first loop. -/
def Groups.add (g : Groups) (p : SimplifiedPolicy) : Groups where
  psOrder := if p.psKey ∈ g.psMap then g.psOrder else g.psOrder ++ [p.psKey]
  psMap := g.psMap.insert p.psKey
    (Dict.modify (g.policyMap p.psKey) (p.pKey P) [] (· ++ [p.ruleVal P]))

/-! ## Policy sets -/

def toRule (rule : RuleVal) : RuleV3 where
  target := operationTarget rule.operation
  condition := if rule.condition ≠ "" then some rule.condition else none
  effect := "ALLOW"
  rsqlPredicate := rule.rsqlPredicate
  sqlPredicate := rule.sqlPredicate
  mongodbPredicate := rule.mongodbPredicate
  predicate := rule.predicate

def toPolicySet (pk : String × String) (policyMap : Dict (List RuleVal)) : PolicySetV3 where
  type := "SIMPLIFIED"
  domain := pk.1
  target := resourceTypeTarget pk.2
  tenantID := pk.1
  policies := (sortedSet policyMap.keys).map fun prk =>
    ⟨rolesTarget prk, (Dict.getD policyMap prk []).map toRule⟩

def toV3PolicySets (items : List SimplifiedPolicy) : List PolicySetV3 :=
  let g := items.foldl (Groups.add P) .empty
  g.psOrder.map fun pk => toPolicySet pk (g.policyMap pk)

end

end PolicyAdmin

end AuthzAgent
