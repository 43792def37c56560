/-
  AuthzAgent.Legacyvalue.Record

  The record of an operand (record.go of legacyvalue): what generated Rego
  reads of a value instead of its JSON.
-/

import AuthzAgent.Legacyvalue.JavaText
import AuthzAgent.Lib.GoQuote
import AuthzAgent.Lib.Members

namespace AuthzAgent.Legacyvalue

open Jsonvalue

inductive State where
  | value | nullElement | absent | null | pipEmpty | emptyColl | emptySel | indexOob | pipNull
  | error
deriving DecidableEq

inductive Class where
  | string | scalar | list | other
deriving DecidableEq

inductive JsonType where
  | string | number | boolean | array | object
deriving DecidableEq

/-- `Record`; a field that is not set is `none` or empty. -/
structure Record where
  state : State
  cls : Option Class := none
  type : Option JsonType := none
  key : Option String := none
  caseKey : Option String := none
  keys : List String := []
  /-- `Structure` -/
  structureText : Option String := none
  number : Option Decimal := none
  elements : List Record := []

def withState (s : State) : Record := { state := s }

variable (E : Externals)

/-! ## Structure keys -/

/-- `jsonvalue.ParseBigDecimal(NumberText(x))` -/
def numberOf (n : String) : Option Decimal :=
  parseBigDecimal E.digits E.arith (numberText E n)

/-- The text of a number inside a structure key. -/
def numberKey (n : String) : List Char :=
  ((numberOf E n).elim (numberText E n) (Decimal.string E.arith)).toList

mutual

def writeStructureKey : Value → List Char
  | .null => ['n', 'u', 'l', 'l']
  | .bool b => (formatBool b).toList
  | .number n => numberKey E n
  | .string s => GoQuote.quote E.isPrint s
  | .list items => '[' :: (List.intercalate [','] (writeItems items) ++ [']'])
  | .object members =>
    let keys := Members.sortedKeys members
    -- `Get` of a key that is not there is nil, which prints as null.
    let entries := keys.map fun k => GoQuote.quote E.isPrint k ++
      ':' :: ((writeMembers members).lookup k).getD ['n', 'u', 'l', 'l']
    '\x7b' :: (List.intercalate [','] entries ++ ['\x7d'])

def writeItems : List Value → List (List Char)
  | [] => []
  | v :: vs => writeStructureKey v :: writeItems vs

def writeMembers : List (String × Value) → List (String × List Char)
  | [] => []
  | (k, v) :: ms => (k, writeStructureKey v) :: writeMembers ms

end

def structureKey (v : Value) : String := String.ofList (writeStructureKey E v)

/-! ## Records -/

def scalar (t : JsonType) (c : Class) (txt : String) : Record :=
  let k := fold E txt
  { state := .value, cls := some c, type := some t, key := some k, caseKey := some txt, keys := [k]
    number := parseBigDecimal E.digits E.arith txt }

/-- `classify`: the list record after an element, and whether the element is
    null. -/
def classify (r : Record) : Value → Record × Bool
  | .null => ({ r with state := .nullElement, cls := some .other }, true)
  | .string _ | .number _ | .bool _ => (r, false)
  | .list _ | .object _ => ({ r with cls := some .other }, false)

/-- The step of the loops over the elements of a list: classify one, and append
    its key unless it is null. -/
def addElement (keyOf : Value → String) (r : Record) (e : Value) : Record :=
  let (r, isNull) := classify r e
  if isNull then r else { r with keys := r.keys ++ [keyOf e] }

def listWithoutElements (list : List Value) : Record :=
  let ck := text E (.list list)
  list.foldl (addElement fun e => fold E (text E e))
    { state := .value, cls := some .list, type := some .array, key := some (fold E ck)
      caseKey := some ck, structureText := some (structureKey E (.list list)) }

/-- The switch of `of`, with what it does of a non-empty list. -/
def ofWith (onList : List Value → Record) : Value → Record
  | .null => withState .null
  | .string s => scalar E .string .string s
  | .number n => scalar E .number .scalar (numberText E n)
  | .bool b => scalar E .boolean .scalar (formatBool b)
  | .list [] => withState .emptyColl
  | .list (e :: es) => onList (e :: es)
  | .object members =>
    let ck := text E (.object members)
    let k := fold E ck
    { state := .value, cls := some .other, type := some .object, key := some k
      caseKey := some ck, keys := [k], structureText := some (structureKey E (.object members)) }

/-- `of(v, false)` -/
def ofElement (v : Value) : Record := ofWith E (listWithoutElements E) v

/-- The texts `listWithElements` takes of an element: its case key and its key
    where its record has them, else its own texts. -/
def elementTexts (e : Value) : String × String :=
  match (ofElement E e).key, (ofElement E e).caseKey with
  | some k, some ck => (ck, k)
  | _, _ => (text E e, fold E (text E e))

/-- The structure key `listWithElements` takes of an element. -/
def elementKey (e : Value) : String :=
  ((ofElement E e).structureText).getD (structureKey E e)

def listWithElements (list : List Value) : Record :=
  let texts := list.map (elementTexts E)
  let elementKeys := GoText.compact ((list.map (elementKey E)).insertionSort (· ≤ ·))
  let r := list.foldl (addElement fun e => (elementTexts E e).2)
    { state := .value, cls := some .list, type := some .array, elements := list.map (ofElement E) }
  { r with
    caseKey := some ("[" ++ String.intercalate ", " (texts.map Prod.fst) ++ "]")
    key := some ("[" ++ String.intercalate ", " (texts.map Prod.snd) ++ "]")
    structureText := some (String.ofList
      ('[' :: (List.intercalate [','] (elementKeys.map String.toList) ++ [']']))) }

/-- `Of` -/
def of (v : Value) : Record := ofWith E (listWithElements E) v

end AuthzAgent.Legacyvalue
