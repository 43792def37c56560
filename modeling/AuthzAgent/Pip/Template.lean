/-
  AuthzAgent.Pip.Template

  The templates of PIP requests (pip.rego): `${subject.path}` and
  `${resource.path}` stand for a value that the jsonPath evaluator of the
  policy finds in the subject or the resource.

  A function whose bodies test one operand for different types or literals, or
  test a condition and its negation, is an ordinary function; it is undefined
  where it gives `none`.  A function that builds an object is an evaluation,
  since a key with two values would end the decision.
-/

import AuthzAgent.Platform
import AuthzAgent.Lib.Rules

namespace AuthzAgent

open Rego (Value Eval)

namespace Pip

/-- The builtins of OPA that PIP requests use beside those of the platform. -/
structure Builtins where
  platform : Platform
  /-- `urlquery.encode` -/
  urlqueryEncode : String → String
  /-- `json.unmarshal` of a text that `json.is_valid` accepts. -/
  jsonUnmarshal : String → Option Value
  /-- `json.patch` with operations that replace the value at a path. -/
  jsonPatch : Value → List (String × Value) → Option Value
  /-- `uuid.rfc4122` -/
  uuidRfc4122 : String → String

/-! ## The jsonPath evaluator -/

/-- A match of the segment pattern with its group that is not empty. -/
inductive SegMatch where
  | field (name : String)
  | index (digits : String)
  | wildcard
deriving DecidableEq, Repr

/-- The match of `\.([^.\[]+)|\[([0-9]+)\]|(\[\*\])` at the head of a text, with
    its length. -/
def segMatchAt : List Char → Option (SegMatch × Nat)
  | '.' :: cs =>
    let name := cs.takeWhile fun c => c ≠ '.' ∧ c ≠ '['
    if name = [] then none else some (.field (String.ofList name), name.length + 1)
  | '[' :: cs =>
    let digits := cs.takeWhile fun c => '0' ≤ c ∧ c ≤ '9'
    if digits ≠ [] ∧ (cs.drop digits.length).head? = some ']' then
      some (.index (String.ofList digits), digits.length + 2)
    else if "*]".toList.isPrefixOf cs then some (.wildcard, 3)
    else none
  | _ => none

/-- All matches of the segment pattern, from left to right.  The first argument
    counts the characters of the last match still to step over. -/
def segMatches : Nat → List Char → List SegMatch
  | _, [] => []
  | skip + 1, _ :: cs => segMatches skip cs
  | 0, c :: cs =>
    match segMatchAt (c :: cs) with
    | some (m, length) => m :: segMatches (length - 1) cs
    | none => segMatches 0 cs

/-- A segment of a parsed path. -/
inductive Seg where
  | field (name : String)
  | index (n : Rat)
  | wildcard

def containsText (part : List Char) : List Char → Bool
  | [] => part.isEmpty
  | c :: cs => part.isPrefixOf (c :: cs) || containsText part cs

def jpSegMatches : Seg → Value → Bool
  | .field name, key => key = .string name
  | .index n, key => key = .number n
  | .wildcard, .number _ => true
  | .wildcard, _ => false

def jpPathMatches : List Seg → List Value → Bool
  | [], [] => true
  | seg :: segs, key :: path => jpSegMatches seg key && jpPathMatches segs path
  | _, _ => false

section

variable (B : Builtins)

def jpSeg : SegMatch → Option Seg
  | .field name => some (.field name)
  | .index digits => (B.platform.toNumber digits).map .index
  | .wildcard => some .wildcard

/-- `trim_prefix(path, "$")` -/
def trimDollar : List Char → List Char
  | '$' :: cs => cs
  | cs => cs

def jpParse (path : String) : List Seg :=
  (segMatches 0 (trimDollar path.toList)).filterMap (jpSeg B)

/-- The `[path, value]` pairs in the order of `sort`. -/
def sortNodes (nodes : List (List Value × Value)) : List (List Value × Value) :=
  nodes.insertionSort fun a b =>
    Value.cmp (.array [.array a.1, a.2]) (.array [.array b.1, b.2]) ≠ .gt

def jsonExtract (doc : Value) (path : String) : Option Value :=
  let found := doc.walk.filter fun node => jpPathMatches (jpParse B path) node.1
  if containsText "[*]".toList path.toList then
    some (.array ((sortNodes found).map Prod.snd))
  else
    match found with
    | [node] => some node.2
    | _ => none

/-! ## Placeholders -/

/-- The text between the braces of the match of `\$\{([^}]+)\}` at the head of a
    text. -/
def placeholderAt : List Char → Option (List Char)
  | '$' :: '{' :: cs =>
    let inner := cs.takeWhile (· ≠ '}')
    if inner ≠ [] ∧ inner.length < cs.length then some inner else none
  | _ => none

/-- A match of the placeholder pattern: `m[0]` and `m[1]`. -/
def placeholderMatch (inner : List Char) : String × String :=
  (String.ofList ('$' :: '{' :: inner ++ ['}']), String.ofList inner)

/-- All matches of the placeholder pattern, from left to right.  The first
    argument counts the characters of the last match still to step over. -/
def placeholderMatches : Nat → List Char → List (String × String)
  | _, [] => []
  | skip + 1, _ :: cs => placeholderMatches skip cs
  | 0, c :: cs =>
    match placeholderAt (c :: cs) with
    | some inner => placeholderMatch inner :: placeholderMatches (inner.length + 2) cs
    | none => placeholderMatches 0 cs

def wholePlaceholder (s : String) : Bool :=
  match placeholderAt s.toList with
  | some inner => inner.length + 3 = s.toList.length
  | none => false

/-- `substring(s, 2, count(s) - 3)` -/
def placeholderInner (s : String) : String :=
  String.ofList ((s.toList.drop 2).take (s.toList.length - 3))

/-- `strings.replace_n` with patterns of which none is empty and none starts
    another.  The number counts the characters of the last match still to step
    over. -/
def replaceN (reps : List (String × String)) : Nat → List Char → List Char
  | _, [] => []
  | skip + 1, _ :: cs => replaceN reps skip cs
  | 0, c :: cs =>
    match reps.find? fun rep => rep.1.toList.isPrefixOf (c :: cs) with
    | some rep => rep.2.toList ++ replaceN reps (rep.1.toList.length - 1) cs
    | none => c :: replaceN reps 0 cs

def scopePath (scope inner : String) : Option String :=
  if scope.toList.isPrefixOf inner.toList then
    some (String.ofList (inner.toList.drop scope.toList.length))
  else none

def resolveScope (inner : String) (sub resource : Value) : Option Value :=
  match scopePath "subject." inner, scopePath "resource." inner with
  | some path, _ => jsonExtract B sub ("$." ++ path)
  | none, some path => jsonExtract B resource ("$." ++ path)
  | none, none => none

def resolveScopeOrNull (inner : String) (sub resource : Value) : Value :=
  (resolveScope B inner sub resource).getD .null

def scalarToString : Value → Option String
  | .string s => some s
  | .number q => some (B.platform.regoSprint (.number q))
  | .bool b => some (B.platform.regoSprint (.bool b))
  | _ => none

/-! ## Expansion -/

/-- `interpolate` and `interpolate_enc`, which encodes every replacement. -/
def interpolateWith (encode : String → String) (s : String) (sub resource : Value) :
    Eval String := do
  let found := placeholderMatches 0 s.toList
  let reps ← Eval.object "interpolate" do
    let m ← Eval.solutions found
    let replacement ← .ofOption ((resolveScope B m.2 sub resource).bind (scalarToString B))
    return (m.1, encode replacement)
  .require (reps.length = (found.map Prod.fst).dedup.length)
  return String.ofList (replaceN reps 0 s.toList)

def interpolate (s : String) (sub resource : Value) : Eval String :=
  interpolateWith B id s sub resource

def interpolateEnc (s : String) (sub resource : Value) : Eval String :=
  interpolateWith B B.urlqueryEncode s sub resource

def expandString (s : Value) (sub resource : Value) : Eval Value :=
  .rule "expand_string"
    [do
      .require s.text.isNone
      return s,
    do
      let text ← .ofOption s.text
      .require (wholePlaceholder text)
      return resolveScopeOrNull B (placeholderInner text) sub resource,
    do
      let text ← .ofOption s.text
      .require (!wholePlaceholder text)
      return .string (← interpolate B text sub resource)]

def expandUrl (s : String) (sub resource : Value) : Eval String :=
  .rule "expand_url"
    [do
      .require (wholePlaceholder s)
      let value ← .ofOption (resolveScope B (placeholderInner s) sub resource)
      .ofOption value.text,
    do
      .require (!wholePlaceholder s)
      interpolateEnc B s sub resource]

end

end Pip

end AuthzAgent
