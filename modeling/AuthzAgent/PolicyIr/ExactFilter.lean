/-
  AuthzAgent.PolicyIr.ExactFilter

  The filter behind `decodeReporting` (exactFilter in export.go of policyir),
  which walks a JSON text by offsets and writes it again without the object keys
  that no struct field names exactly.

  The text is a list of characters and an offset counts characters.  An index
  that runs past the text, which panics in the source, is `none`.  The loops take
  fuel, and `none` is also what a loop gives that runs out of it.  `last` maps
  the name of a field to the offset of its last member, where the source keeps
  the offsets in the order of the fields.
-/

import AuthzAgent.Lib.Dict
import AuthzAgent.Lib.GoText
import AuthzAgent.Lib.JsonTree

namespace AuthzAgent.PolicyIr

/-! ## Types -/

/-- What the filter looks at in a Go type; a pointer is the type it points to. -/
inductive Shape (τ : Type) where
  | struct (t : τ)
  | slice (elem : Shape τ)
  | other
deriving DecidableEq

/-- The struct types: the fields with their JSON names, as they are declared, and
    the keys of `ignoredKeysOf`. -/
structure Types (τ : Type) where
  fields : τ → List (String × Shape τ)
  ignoredKeysOf : τ → List String

variable {τ : Type}

def Types.fieldsOf (T : Types τ) (t : τ) : List (String × Shape τ) :=
  (T.fields t).insertionSort fun a b => a.1 ≤ b.1

inductive KeyStep where
  | key (name : String)
  | elem (index : Nat)

/-- One round of the loop of `keyPath.String`. -/
def KeyStep.write (b : String) : KeyStep → String
  | .elem index => b ++ "[" ++ toString index ++ "]"
  | .key name => if b ≠ "" then b ++ "." ++ name else b ++ name

def pathText (path : List KeyStep) : String := path.foldl KeyStep.write ""

namespace ExactFilter

/-! ## Offsets -/

/-- `containerEnds`: an offset, and the offset past the bracket that closes it. -/
abbrev Ends := List (Nat × Nat)

section

variable (data : List Char)

def slice (i e : Nat) : Option (List Char) :=
  if i ≤ e ∧ e ≤ data.length then some ((data.drop i).take (e - i)) else none

def skipSpace (i : Nat) : Nat := i + ((data.drop i).takeWhile JsonText.isBlank).length

/-- The loop of `stringEnd`, on the text from the offset on. -/
def stringEndFrom : Nat → List Char → Option Nat
  | _, [] => none
  | i, '"' :: _ => some (i + 1)
  | i, '\\' :: _ :: cs => stringEndFrom (i + 2) cs
  | i, _ :: cs => stringEndFrom (i + 1) cs

def stringEnd (start : Nat) : Option Nat := stringEndFrom (start + 1) (data.drop (start + 1))

def containerEndsFrom : Nat → Nat → List Nat → Ends → Option Ends
  | 0, _, _, _ => none
  | fuel + 1, i, opened, ends =>
    match data[i]? with
    | none => some ends
    | some '"' =>
      match stringEnd data i with
      | some e => containerEndsFrom fuel e opened ends
      | none => none
    | some c =>
      if c = '{' ∨ c = '[' then containerEndsFrom fuel (i + 1) (i :: opened) ends
      else if c = '}' ∨ c = ']' then
        match opened with
        | o :: opened => containerEndsFrom fuel (i + 1) opened ((o, i + 1) :: ends)
        | [] => none
      else containerEndsFrom fuel (i + 1) opened ends

def containerEnds : Option Ends := containerEndsFrom data (data.length + 1) 0 [] []

/-- The characters at which `valueEnd` stops. -/
def endsValue (c : Char) : Bool := [',', ']', '}', ' ', '\t', '\n', '\r'].contains c

/-- `valueEnd`; a map of Go gives zero for an absent key. -/
def valueEnd (ends : Ends) (i : Nat) : Option Nat :=
  match data[i]? with
  | none => none
  | some c =>
    if c = '{' ∨ c = '[' then some ((ends.lookup i).getD 0)
    else if c = '"' then stringEnd data i
    else some (i + ((data.drop i).takeWhile (!endsValue ·)).length)

def next (ends : Ends) (i : Nat) : Option Nat :=
  match valueEnd data ends i with
  | none => none
  | some e =>
    match data[skipSpace data e]? with
    | none => none
    | some c =>
      some (if c = ',' then skipSpace data (skipSpace data e + 1) else skipSpace data e)

def key (start stop : Nat) : Option String :=
  (slice data start stop).map fun raw =>
    if '\\' ∈ raw then (JsonText.string (String.ofList raw)).getD ""
    else String.ofList raw.tail.dropLast

/-! ## The filter -/

/-- What a value adds to `out` and to `unknown`. -/
abbrev Output := List Char × List (Nat × String)

variable (T : Types τ) (ends : Ends)

/-- The first loop of `object`, over the members: the offsets of the last members
    of the fields, and the unknown keys. -/
def readMembers (t : τ) (path : List KeyStep) : Nat → Nat → Dict Nat →
    Option (Dict Nat × List (Nat × String))
  | 0, _, _ => none
  | fuel + 1, j, last =>
    match data[j]? with
    | none => none
    | some c =>
      if c = '}' then some (last, [])
      else do
        let keyEnd ← stringEnd data j
        let name ← key data j keyEnd
        let j := skipSpace data (skipSpace data keyEnd + 1)
        let known := (T.fieldsOf t).any (·.1 = name)
        let unknown := if known ∨ name ∈ T.ignoredKeysOf t then []
          else [(j, pathText (path ++ [.key name]))]
        let next ← next data ends j
        let (last, more) ← readMembers t path fuel next
          (if known then last.insert name j else last)
        return (last, unknown ++ more)

/-- The second loop of `object`, over the fields; `value` writes a value. -/
def writeFields (value : Nat → Shape τ → List KeyStep → Option Output) (last : Dict Nat)
    (path : List KeyStep) : Bool → List (String × Shape τ) → Option Output
  | _, [] => some ([], [])
  | first, (name, shape) :: fields =>
    match last.lookup name with
    | none => writeFields value last path first fields
    | some j => do
      let (text, unknown) ← value j shape (path ++ [.key name])
      let (more, unknowns) ← writeFields value last path false fields
      return ((if first then [] else [',']) ++
        ('"' :: (name.toList ++ '"' :: ':' :: text)) ++ more, unknown ++ unknowns)

def object (value : Nat → Shape τ → List KeyStep → Option Output) (i : Nat) (t : τ)
    (path : List KeyStep) : Option Output := do
  let (last, unknown) ← readMembers data T ends t path (data.length + 1) (skipSpace data (i + 1)) ∅
  let (text, unknowns) ← writeFields value last path true (T.fieldsOf t)
  return ('{' :: (text ++ ['}']), unknown ++ unknowns)

/-- The loop of `array`. -/
def writeItems (value : Nat → Shape τ → List KeyStep → Option Output) (elem : Shape τ)
    (path : List KeyStep) : Nat → Nat → Nat → Option Output
  | 0, _, _ => none
  | fuel + 1, j, n =>
    match data[j]? with
    | none => none
    | some c =>
      if c = ']' then some ([], [])
      else do
        let (text, unknown) ← value j elem (path ++ [.elem n])
        let next ← next data ends j
        let (more, unknowns) ← writeItems value elem path fuel next (n + 1)
        return ((if n ≠ 0 then [','] else []) ++ text ++ more, unknown ++ unknowns)

def array (value : Nat → Shape τ → List KeyStep → Option Output) (i : Nat) (elem : Shape τ)
    (path : List KeyStep) : Option Output := do
  let (text, unknown) ←
    writeItems data ends value elem path (data.length + 1) (skipSpace data (i + 1)) 0
  return ('[' :: (text ++ [']']), unknown)

/-- The default case of `value`: `json.Compact` writes nothing where it fails. -/
def compactValue (i : Nat) : Option Output := do
  let e ← valueEnd data ends i
  let text ← slice data i e
  return (((JsonText.compactText (String.ofList text)).getD "").toList, [])

def value : Nat → Nat → Shape τ → List KeyStep → Option Output
  | 0, _, _, _ => none
  | fuel + 1, i, shape, path =>
    match data[i]? with
    | none => none
    | some c =>
      match shape with
      | .struct t =>
        if c = '{' then object data T ends (value fuel) i t path
        else compactValue data ends i
      | .slice elem =>
        if c = '[' then array data ends (value fuel) i elem path
        else compactValue data ends i
      | .other => compactValue data ends i

/-- The filter of `decodeReporting`: the filtered text, and the paths of the
    unknown keys in the order of their offsets. -/
def run (shape : Shape τ) : Option (List Char × List String) := do
  let ends ← containerEnds data
  let (out, unknown) ← value data T ends (data.length + 1) (skipSpace data 0) shape []
  return (out, (unknown.insertionSort fun a b => a.1 ≤ b.1).map Prod.snd)

end

end ExactFilter

end AuthzAgent.PolicyIr
