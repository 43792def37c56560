/-
  AuthzAgent.Authorize.Substitute

  The placeholders of predicates (authorize_internals.rego).  `${resourceType}`
  renders as the resource type of the request, and `${subject.KEY}` as the
  value of the subject under `KEY`; a placeholder whose key the subject does
  not bind stays as it is.

  The Rego code collects the placeholders of a text and hands them to
  `strings.replace_n`.  A placeholder ends at its first closing brace, so at
  any place at most one of them matches, and replacing them is one scan from
  left to right.
-/

import AuthzAgent.Rls.Evaluate

namespace AuthzAgent

open Rego (Value)
open Simplified (PredicateType)

namespace Authorize

/-- The members of an object. -/
abbrev Fields := List (String × Value)

def canonicalSubjectKey (key : String) : Bool :=
  key ∈ ["id", "name", "type", "roles", "scopes"]

section Formats

variable (P : Platform)

/-- `%v` between two quotes. -/
def quoted (quote : String) (value : Value) : String := quote ++ P.regoSprint value ++ quote

def formatSubjectValue (key : String) : Value → String
  | .array items =>
    String.intercalate (if canonicalSubjectKey key then "," else ", ")
      (items.map (quoted P "\""))
  | value => if canonicalSubjectKey key then P.regoSprint value else quoted P "\"" value

def formatSqlValue (key : String) : Value → String
  | .array items =>
    if canonicalSubjectKey key then String.intercalate "," (items.map P.regoSprint)
    else String.intercalate ", " (items.map (quoted P "'"))
  | value => if canonicalSubjectKey key then P.regoSprint value else quoted P "'" value

end Formats

/-- The value a placeholder is replaced by: that of its key, unless the key is
    absent or bound to `null`. -/
def placeholderValue (subject : Fields) (key : String) : Option Value :=
  match subject.lookup key with
  | some .null => none
  | found => found

/-- Replace the placeholders of a text.  The first argument counts the
    characters of the last placeholder still to step over. -/
def substitute (format : String → Value → String) (subject : Fields) :
    Nat → List Char → List Char
  | _, [] => []
  | skip + 1, _ :: cs => substitute format subject skip cs
  | 0, c :: cs =>
    if "$\x7bsubject.".toList.isPrefixOf (c :: cs) then
      let after := (c :: cs).drop 10
      let key := after.takeWhile (· ≠ '}')
      match placeholderValue subject (String.ofList key) with
      | some value =>
        if key.length < after.length then
          (format (String.ofList key) value).toList ++
            substitute format subject (10 + key.length) cs
        else c :: substitute format subject 0 cs
      | none => c :: substitute format subject 0 cs
    else c :: substitute format subject 0 cs

def substitutePredicate (P : Platform) (text : String) (subject : Fields) : String :=
  String.ofList (substitute (formatSubjectValue P) subject 0 text.toList)

def substituteSqlPredicate (P : Platform) (text : String) (subject : Fields) : String :=
  String.ofList (substitute (formatSqlValue P) subject 0 text.toList)

def substitutePredicateForType (P : Platform) : PredicateType → String → Fields → String
  | .sql => substituteSqlPredicate P
  | _ => substitutePredicate P

def replaceResourceType (resourceType : List Char) : Nat → List Char → List Char
  | _, [] => []
  | skip + 1, _ :: cs => replaceResourceType resourceType skip cs
  | 0, c :: cs =>
    if "$\x7bresourceType\x7d".toList.isPrefixOf (c :: cs) then
      resourceType ++ replaceResourceType resourceType 14 cs
    else c :: replaceResourceType resourceType 0 cs

def substituteResourceType (type : PredicateType) (text resourceType : String) : String :=
  match type with
  | .custom => text
  | _ => String.ofList (replaceResourceType resourceType.toList 0 text.toList)

/-- The row filter of one type as the response carries it. -/
def renderPredicate (P : Platform) (type : PredicateType) (text resourceType : String)
    (subject : Fields) : String :=
  substitutePredicateForType P type (substituteResourceType type text resourceType) subject

end Authorize

end AuthzAgent
