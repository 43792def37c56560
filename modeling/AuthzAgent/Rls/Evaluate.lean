/-
  AuthzAgent.Rls.Evaluate

  `evaluate` of rls.rego: the rules that a request reaches, those whose
  condition holds, and the row filter they add up to.

  rls.rego reads `data.policies.rls` through `object.get` with a default at
  each level; `rlsLookup` is these lookups.  A map from predicate types to
  texts is a function here, with the empty text for an absent type: every
  reader of the map drops empty texts.
-/

import AuthzAgent.Rls.Condition
import AuthzAgent.Simplified.Lookup

namespace AuthzAgent

open GoText
open Rego (Value)
open Simplified (PolicyDoc Predicate PredicateType Rule rlsLookup)

namespace Rls

/-! ## Granted rules -/

def candidateRoles (olsRoles : List String) : List String :=
  if "ALL" ∈ olsRoles then olsRoles else olsRoles ++ ["ALL"]

def directRuleLists (doc : PolicyDoc) (rt op : String) (roles : List String) : List (List Rule) :=
  roles.flatMap fun role =>
    [rlsLookup doc.rls rt op role, rlsLookup doc.rls rt "ALL" role,
      rlsLookup doc.rls "ALL" op role, rlsLookup doc.rls "ALL" "ALL" role].filter (· ≠ [])

section Granted

variable (P : Platform) (known : String → Bool) (doc : PolicyDoc) (resource subject : Value)

/-- `condition_allows` -/
def ruleAllows (rule : Rule) : Bool :=
  conditionAllows P known resource subject rule.condition rule.conditionAst

def grantedRules (rt op : String) (olsRoles : List String) : List Rule :=
  (directRuleLists doc rt op (candidateRoles olsRoles)).flatten.filter
    (ruleAllows P known resource subject)

/-- A rule is a candidate when it is stored for one of the roles, or for `ALL`,
    under one of the four pairs of keys. -/
theorem mem_directRuleLists {rt op : String} {olsRoles : List String} {rule : Rule} :
    rule ∈ (directRuleLists doc rt op (candidateRoles olsRoles)).flatten ↔
      ∃ role, (role ∈ olsRoles ∨ role = "ALL") ∧ ∃ rt' op', (rt' = rt ∨ rt' = "ALL") ∧
        (op' = op ∨ op' = "ALL") ∧ rule ∈ rlsLookup doc.rls rt' op' role := by
  have hroles : ∀ role, role ∈ candidateRoles olsRoles ↔ role ∈ olsRoles ∨ role = "ALL" := by
    intro role
    rw [candidateRoles]
    split_ifs with hall
    · exact ⟨.inl, fun h => h.elim id fun h => h ▸ hall⟩
    · simp
  simp only [directRuleLists, List.mem_flatten, List.mem_flatMap, hroles, List.mem_filter,
    List.mem_cons, List.not_mem_nil, or_false]
  constructor
  · rintro ⟨list, ⟨role, hrole, hlist, -⟩, hrule⟩
    refine ⟨role, hrole, ?_⟩
    rcases hlist with rfl | rfl | rfl | rfl
    · exact ⟨rt, op, .inl rfl, .inl rfl, hrule⟩
    · exact ⟨rt, "ALL", .inl rfl, .inr rfl, hrule⟩
    · exact ⟨"ALL", op, .inr rfl, .inl rfl, hrule⟩
    · exact ⟨"ALL", "ALL", .inr rfl, .inr rfl, hrule⟩
  · rintro ⟨role, hrole, rt', op', hrt, hop, hrule⟩
    refine ⟨rlsLookup doc.rls rt' op' role, ⟨role, hrole, ?_, ?_⟩, hrule⟩
    · rcases hrt with rfl | rfl <;> rcases hop with rfl | rfl <;> simp
    · simpa using List.ne_nil_of_mem hrule

/-- A rule is granted when its condition holds and it is a candidate. -/
theorem mem_grantedRules {rt op : String} {olsRoles : List String} {rule : Rule} :
    rule ∈ grantedRules P known doc resource subject rt op olsRoles ↔
      ruleAllows P known resource subject rule = true ∧
      ∃ role, (role ∈ olsRoles ∨ role = "ALL") ∧ ∃ rt' op', (rt' = rt ∨ rt' = "ALL") ∧
        (op' = op ∨ op' = "ALL") ∧ rule ∈ rlsLookup doc.rls rt' op' role := by
  rw [grantedRules, List.mem_filter, and_comm, mem_directRuleLists]

end Granted

/-! ## Row filters -/

section Filters

variable (P : Platform)

/-- A predicate that restricts nothing. -/
def trivialPredicate (text : String) : Bool := text == "" || P.toLower text == "true"

def ruleConditionTrivial (rule : Rule) : Bool :=
  (rule.condition == some true) || (rule.condition.isNone && rule.conditionAst.isNone)

def rulePredicatesTrivial (rule : Rule) : Bool :=
  (rule.predicates.getD []).all fun p => trivialPredicate P p.predicate

def ruleIsUnrestricted (rule : Rule) : Bool :=
  ruleConditionTrivial rule && rulePredicatesTrivial P rule

def predicateValuesForType (rules : List Rule) (type : PredicateType) : List String :=
  sortedSet (rules.flatMap fun rule =>
    ((rule.predicates.getD []).filter fun p =>
      p.type = type ∧ trivialPredicate P p.predicate = false).map Predicate.predicate)

def aggregateByType (type : PredicateType) (values : List String) : String :=
  match values, type with
  | [], _ => ""
  | values, .sql => String.intercalate " OR " values
  | [value], _ => value
  | values, .rsql => String.intercalate "," values
  | values, .querydsl => ".or(" ++ String.intercalate "," values ++ ")"
  | values, .mongodb => "\x7b\"$or\": [" ++ String.intercalate "," values ++ "]\x7d"
  | values, .custom =>
    "\x7b\"op\": \"OR\", \"predicates\": [" ++ String.intercalate "," values ++ "]\x7d"

/-- The filter for one type; an unrestricted rule lifts all of them. -/
def aggregatedPredicate (rules : List Rule) (type : PredicateType) : String :=
  if rules.any (ruleIsUnrestricted P) then ""
  else aggregateByType type (predicateValuesForType P rules type)

/-- The result of `evaluate`. -/
structure Decision where
  allow : Bool
  predicate : String
  typedPredicates : PredicateType → String

def evaluate (known : String → Bool) (doc : PolicyDoc) (rt op : String)
    (resource subject : Value) (olsRoles : List String) : Decision :=
  let rules := grantedRules P known doc resource subject rt op olsRoles
  { allow := !rules.isEmpty
    predicate := aggregatedPredicate P rules .rsql
    typedPredicates := aggregatedPredicate P rules }

theorem evaluate_allow {known : String → Bool} {doc : PolicyDoc} {rt op : String}
    {resource subject : Value} {olsRoles : List String} :
    (evaluate P known doc rt op resource subject olsRoles).allow = true ↔
      ∃ rule, rule ∈ grantedRules P known doc resource subject rt op olsRoles := by
  simp [evaluate, List.eq_nil_iff_forall_not_mem]

end Filters

end Rls

end AuthzAgent
