/-
  AuthzAgent.Lib.JsonText

  JSON text, as Go's encoding/json reads it: the elements of an array and the
  members of an object as the text they are written with, and the string or
  the value that a text denotes.

  Scanners work on lists of characters and return what follows.  A scanner of
  nested values takes the number of brackets that may still be opened, which
  is 10000 for a whole text; the loop over a list takes a bound of its rounds,
  for which the length of the text is enough.
-/

import AuthzAgent.Lib.RegoValue

namespace JsonText

/-- Every item of a list that a test of them all finds good. -/
theorem forall_mem_of_all {α : Type} {p : α → Prop} [DecidablePred p] {l : List α}
    (h : (l.all fun a => decide (p a)) = true) : ∀ a ∈ l, p a :=
  fun a ha => of_decide_eq_true (List.all_eq_true.mp h a ha)

open Rego (Value)

/-- White space between tokens. -/
def isBlank (c : Char) : Bool := c == ' ' || c == '\t' || c == '\n' || c == '\r'

def skipBlank (cs : List Char) : List Char := cs.dropWhile isBlank

/-! ## Strings -/

/-- The value of a hexadecimal digit. -/
def hexDigit (c : Char) : Option Nat :=
  if c.isDigit then some (c.toNat - '0'.toNat)
  else if 'a' ≤ c ∧ c ≤ 'f' then some (c.toNat - 'a'.toNat + 10)
  else if 'A' ≤ c ∧ c ≤ 'F' then some (c.toNat - 'A'.toNat + 10)
  else none

/-- The character that a backslash and a letter stand for. -/
def simpleEscape : Char → Option Char
  | '"' => some '"'
  | '\\' => some '\\'
  | '/' => some '/'
  | 'b' => some '\x08'
  | 'f' => some '\x0c'
  | 'n' => some '\n'
  | 'r' => some '\r'
  | 't' => some '\t'
  | _ => none

/-- A piece of a string: a character, or the code unit of a `\u` escape. -/
inductive Piece where
  | char (c : Char)
  | codeUnit (n : Nat)

/-- The pieces of a string after its opening quote, and what follows its
    closing quote. -/
def scanPieces : List Char → Option (List Piece × List Char)
  | [] => none
  | '"' :: rest => some ([], rest)
  | '\\' :: 'u' :: a :: b :: c :: d :: rest =>
    match hexDigit a, hexDigit b, hexDigit c, hexDigit d with
    | some a, some b, some c, some d =>
      (scanPieces rest).map fun r =>
        (.codeUnit (((a * 16 + b) * 16 + c) * 16 + d) :: r.1, r.2)
    | _, _, _, _ => none
  | '\\' :: c :: rest =>
    match simpleEscape c with
    | some e => (scanPieces rest).map fun r => (.char e :: r.1, r.2)
    | none => none
  | c :: rest =>
    if c.toNat < 0x20 then none else (scanPieces rest).map fun r => (.char c :: r.1, r.2)

/-- A code unit on its own; half of a surrogate pair is replaced. -/
def loneUnit (n : Nat) : Char :=
  if 0xd800 ≤ n ∧ n < 0xe000 then Char.ofNat 0xfffd else Char.ofNat n

/-- The text of the pieces: two code units that form a surrogate pair are one
    character. -/
def joinPieces : List Piece → List Char
  | [] => []
  | .char c :: rest => c :: joinPieces rest
  | .codeUnit hi :: .codeUnit lo :: rest =>
    if 0xd800 ≤ hi ∧ hi < 0xdc00 ∧ 0xdc00 ≤ lo ∧ lo < 0xe000 then
      Char.ofNat (0x10000 + (hi - 0xd800) * 0x400 + (lo - 0xdc00)) :: joinPieces rest
    else loneUnit hi :: joinPieces (.codeUnit lo :: rest)
  | .codeUnit n :: rest => loneUnit n :: joinPieces rest

/-- The string after an opening quote, and what follows it. -/
def scanString (cs : List Char) : Option (String × List Char) :=
  (scanPieces cs).map fun r => (String.ofList (joinPieces r.1), r.2)

/-! ## Numbers -/

/-- A non-empty run of digits, and what follows it. -/
def scanDigits (cs : List Char) : Option (List Char × List Char) :=
  let r := cs.span Char.isDigit
  if r.1 = [] then none else some r

def dropSign : List Char → List Char
  | '+' :: cs => cs
  | '-' :: cs => cs
  | cs => cs

/-- The parts of a number: its sign, the digits before and after the point,
    and the exponent. -/
structure Number where
  negative : Bool
  int : List Char
  frac : List Char
  exponent : List Char

/-- A number, and what follows it. -/
def scanNumber (cs : List Char) : Option (Number × List Char) := do
  let (negative, cs) := match cs with
    | '-' :: rest => (true, rest)
    | _ => (false, cs)
  let (int, cs) ← match cs with
    | '0' :: rest => some (['0'], rest)
    | _ => scanDigits cs
  let (frac, cs) ← match cs with
    | '.' :: rest => scanDigits rest
    | _ => some ([], cs)
  match cs with
  | e :: rest =>
    if e = 'e' ∨ e = 'E' then do
      let (digits, after) ← scanDigits (dropSign rest)
      let minus := if rest.head? = some '-' then ['-'] else []
      pure (⟨negative, int, frac, minus ++ digits⟩, after)
    else pure (⟨negative, int, frac, []⟩, cs)
  | [] => pure (⟨negative, int, frac, []⟩, cs)

/-- The natural number that digits denote. -/
def digitsValue (cs : List Char) : Nat :=
  cs.foldl (fun n c => 10 * n + (c.toNat - '0'.toNat)) 0

/-- The number that its parts denote. -/
def Number.value (n : Number) : Rat :=
  let mantissa : Rat := (digitsValue (n.int ++ n.frac) : Nat)
  let exponent : Int := match n.exponent with
    | '-' :: digits => -(digitsValue digits : Int)
    | digits => (digitsValue digits : Int)
  let scale : Int := exponent - n.frac.length
  let magnitude := if 0 ≤ scale then mantissa * (10 ^ scale.toNat : Nat)
    else mantissa / (10 ^ (-scale).toNat : Nat)
  if n.negative then -magnitude else magnitude

/-! ## Values -/

/-- The items of a list up to its closing bracket, and what follows it. -/
def scanItems {α : Type} (item : List Char → Option (α × List Char)) (close : Char) :
    Nat → List Char → Option (List α × List Char)
  | 0, _ => none
  | fuel + 1, cs =>
    match item (skipBlank cs) with
    | none => none
    | some (a, rest) =>
      match skipBlank rest with
      | ',' :: rest => (scanItems item close fuel rest).map fun r => (a :: r.1, r.2)
      | c :: rest => if c = close then some ([a], rest) else none
      | [] => none

/-- A list after its opening bracket. -/
def scanList {α : Type} (item : List Char → Option (α × List Char)) (close : Char)
    (cs : List Char) : Option (List α × List Char) :=
  match skipBlank cs with
  | c :: rest => if c = close then some ([], rest) else scanItems item close cs.length cs
  | [] => none

/-- A member of an object, with `scan` for its value. -/
def scanMember {α : Type} (scan : List Char → Option (α × List Char)) :
    List Char → Option ((String × α) × List Char)
  | '"' :: cs =>
    match scanString cs with
    | none => none
    | some (key, rest) =>
      match skipBlank rest with
      | ':' :: rest => (scan (skipBlank rest)).map fun r => ((key, r.1), r.2)
      | _ => none
  | _ => none

/-- A value, and what follows it; a later member of an object replaces an
    earlier one of the same name. -/
def scanValue : Nat → List Char → Option (Value × List Char)
  | _, '"' :: cs => (scanString cs).map fun r => (.string r.1, r.2)
  | depth + 1, '[' :: cs =>
    (scanList (scanValue depth) ']' cs).map fun r => (.array r.1, r.2)
  | depth + 1, '{' :: cs =>
    (scanList (scanMember (scanValue depth)) '}' cs).map fun r =>
      (.object (r.1.foldl (fun fields m => Value.setField m.1 m.2 fields) []), r.2)
  | _, 't' :: 'r' :: 'u' :: 'e' :: cs => some (.bool true, cs)
  | _, 'f' :: 'a' :: 'l' :: 's' :: 'e' :: cs => some (.bool false, cs)
  | _, 'n' :: 'u' :: 'l' :: 'l' :: cs => some (.null, cs)
  | _, cs => (scanNumber cs).map fun r => (.number r.1.value, r.2)

/-- A value as the text it is written with. -/
def scanRaw (depth : Nat) (cs : List Char) : Option (String × List Char) :=
  (scanValue depth cs).map fun r => (String.ofList (cs.take (cs.length - r.2.length)), r.2)

/-! ## Whole texts -/

/-- How deep values may be nested. -/
def maxDepth : Nat := 10000

/-- What a scanner finds in a text with nothing but white space around it. -/
def whole {α : Type} (scan : List Char → Option (α × List Char)) (text : String) : Option α :=
  match scan (skipBlank text.toList) with
  | some (a, rest) => if skipBlank rest = [] then some a else none
  | none => none

def value (text : String) : Option Value := whole (scanValue maxDepth) text

/-- The elements of an array, as they are written. -/
def elements : String → Option (List String) :=
  whole fun cs => match cs with
    | '[' :: rest => scanList (scanRaw (maxDepth - 1)) ']' rest
    | _ => none

/-- The members of an object, with their values as they are written. -/
def members : String → Option (List (String × String)) :=
  whole fun cs => match cs with
    | '{' :: rest => scanList (scanMember (scanRaw (maxDepth - 1))) '}' rest
    | _ => none

/-- The string that a text denotes. -/
def string : String → Option String :=
  whole fun cs => match cs with
    | '"' :: rest => scanString rest
    | _ => none

end JsonText
