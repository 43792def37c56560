/-
  AuthzAgent.PolicyIr.Scan

  The tokens of the legacy condition language (token.go and the patterns of
  parse.go in policyir).  A regular expression anchored at the current position
  is a function from the rest of the text to its submatches and what follows the
  match.

  A Go string is read as its characters: the scanners look for ASCII bytes only,
  which occur in no other character's encoding.
-/

import AuthzAgent.Lib.GoText

namespace AuthzAgent.PolicyIr

/-! ## Attribute tokens -/

def isNameStart (c : Char) : Bool := c.isAlpha || c == '_'

def isAttrChar (c : Char) : Bool :=
  isNameStart c || c.isDigit ||
    ['$', '@', ',', ':', '?', '*', '(', '=', ')', '-', '.', '~', '>', '<', '/', '&', '|', '!',
      '\''].contains c

def isWildcardChar (c : Char) : Bool :=
  isNameStart c || c.isDigit || ['.', '/', '%', '?', '(', ')', '=', '#', '*', ':', '-'].contains c

/-- The characters that `runEnd` passes over. -/
def isRunChar (c : Char) : Bool := isAttrChar c || c == ' '

/-- `openEnd`: the number of characters up to and with the bracket that closes a
    bracketed part.  `seen` tells whether a character stands behind the last
    opening bracket. -/
def openLength (seen : Bool) : List Char → Option Nat
  | [] => none
  | c :: cs =>
    if isRunChar c then (openLength true cs).map (· + 1)
    else if c = '[' then (openLength false cs).map (· + 1)
    else if c = ']' ∧ seen = true then some 1
    else none

/-- The number of characters to take behind `c`, which is no attribute character,
    for the token to go on; `moved` tells whether a character stands between the
    last part that was taken and `c`. -/
def jump (moved : Bool) (c : Char) (cs : List Char) : Option Nat :=
  if c = ' ' then
    -- a space opens a run that only a bracket ends
    let run := cs.takeWhile isRunChar
    if (cs.drop run.length).head? = some ']' then some (run.length + 1) else none
  else if c = '[' then openLength false cs
  else if c = ']' ∧ moved = true then some 0
  else none

/-- The loop of `attrScanner.tokenLen`.  The number counts the characters of the
    part that is taken still to step over. -/
def attrFrom : Nat → Bool → List Char → List Char
  | _, _, [] => []
  | skip + 1, _, c :: cs => c :: attrFrom skip false cs
  | 0, moved, c :: cs =>
    if isAttrChar c then c :: attrFrom 0 true cs
    else match jump moved c cs with
      | some n => c :: attrFrom n false cs
      | none => []

/-- `attrScanner.tokenLen`: the attribute token at the start of a text. -/
def attrToken : List Char → List Char
  | c :: cs => if isNameStart c then c :: attrFrom 0 false cs else []
  | [] => []

/-- `wildcardLen`: the wildcard token at the start of a text. -/
def wildcardToken (cs : List Char) : List Char := cs.takeWhile isWildcardChar

/-! ## Literals -/

/-- `[0-9]+(?:\.[0-9]+)?` -/
def decimalText (cs : List Char) : Option (List Char) :=
  let int := cs.takeWhile Char.isDigit
  if int = [] then none
  else match cs.drop int.length with
    | '.' :: rest =>
      let frac := rest.takeWhile Char.isDigit
      if frac = [] then some int else some (int ++ '.' :: frac)
    | _ => some int

/-- `[0-9]*[1-9]` -/
def fractionText (cs : List Char) : Option (List Char) :=
  let digits := (cs.takeWhile Char.isDigit).rdropWhile (· == '0')
  if digits = [] then none else some digits

/-- `numberLitRE` -/
def numberText : List Char → Option (List Char)
  | '-' :: '0' :: '.' :: cs => (fractionText cs).map fun digits => '-' :: '0' :: '.' :: digits
  | '-' :: c :: cs =>
    if c.isDigit ∧ c ≠ '0' then (decimalText (c :: cs)).map ('-' :: ·) else none
  | cs => decimalText cs

def startsNumber : List Char → Bool
  | '-' :: c :: _ => c.isDigit || c == '.'
  | c :: _ => c.isDigit || c == '.'
  | [] => false

/-- `'([^']*)'` at the start of a text: what the quotes hold, and what follows. -/
def quotedAt : List Char → Option (List Char × List Char)
  | '\'' :: cs =>
    let value := cs.takeWhile (· ≠ '\'')
    if value.length < cs.length then some (value, cs.drop (value.length + 1)) else none
  | _ => none

/-- What follows a literal of a pattern. -/
def literalAt (word : String) (cs : List Char) : Option (List Char) :=
  if word.toList.isPrefixOf cs then some (cs.drop word.toList.length) else none

/-- `(?: *, *'[^']*')*`: the values, and what follows them. -/
def moreQuoted : Nat → List Char → List (List Char) × List Char
  | 0, cs => ([], cs)
  | fuel + 1, cs =>
    match cs.dropWhile (· == ' ') with
    | ',' :: rest =>
      match quotedAt (rest.dropWhile (· == ' ')) with
      | some (value, rest) =>
        let (values, rest) := moreQuoted fuel rest
        (value :: values, rest)
      | none => ([], cs)
    | _ => ([], cs)

/-- `entitledRE`: the resource type, the names of `as`, and what follows. -/
def entitledAt (cs : List Char) : Option (List Char × List (List Char) × List Char) := do
  let cs ← literalAt "subject.entitledResources.of(" cs
  let (resourceType, cs) ← quotedAt cs
  let cs ← literalAt ").as(" cs
  let (name, cs) ← quotedAt cs
  let (names, cs) := moreQuoted cs.length cs
  let cs ← literalAt ")" cs
  return (resourceType, name :: names, cs)

/-- `accessRE`: whether access is denied, the operation, and what follows. -/
def accessAt (cs : List Char) : Option (Bool × List Char × List Char) := do
  let cs ← literalAt "subject " cs
  let (denied, cs) ← (literalAt "allowed" cs).map (false, ·) <|> (literalAt "denied" cs).map (true, ·)
  let cs ← literalAt " " cs
  let (operation, cs) ← quotedAt cs
  let cs ← literalAt " on resource" cs
  return (denied, operation, cs)

/-- `filteredRE` -/
def filteredAt (cs : List Char) : Option (List Char × List Char) :=
  (literalAt " FILTERED " cs).bind quotedAt

/-- `constAtomRE`: the value, and what follows. -/
def constAt (cs : List Char) : Option (Bool × List Char) :=
  (literalAt "TRUE" cs).map (true, ·) <|> (literalAt "FALSE" cs).map (false, ·) <|>
    (literalAt "true" cs).map (true, ·) <|> (literalAt "false" cs).map (false, ·)

/-! ## Patterns of MATCH -/

/-- `scopeTokenRE` and the length test of `isScopeToken`: the key of a token
    `subject.permissionScope.<key>`. -/
def scopeKey (tok : List Char) : Option (List Char) := do
  let key ← literalAt "subject.permissionScope." tok
  if key ≠ [] ∧ attrToken key = key then some key else none

/-- A part of the token that `pipTokenRE` matches: `[A-Za-z_][A-Za-z0-9_]*`. -/
def isPipPart : List Char → Bool
  | c :: cs => isNameStart c && cs.all fun c => isNameStart c || c.isDigit
  | [] => false

/-- `pipTokenRE`: the text behind `subject.`. -/
def pipName (tok : List Char) : Option (List Char) := do
  let name ← literalAt "subject." tok
  if (name.splitOn '.').all isPipPart then some name else none

def isSubjectToken (tok : List Char) : Bool := (scopeKey tok).isSome || (pipName tok).isSome

def patternReserved : List String :=
  ["OR", "AND", "IS", "NOT", "NULL", "IN", "CONTAINS", "SUBSET", "EMPTY", "MATCH", "EQUALS",
    "FILTERED", "on", "allowed", "denied", "resource", "subject", "resourceType", "operation",
    "true", "TRUE", "false", "FALSE"]

/-- Why a token is no pattern. -/
inductive PatternReason where
  | quoted
  | missing
  | placeholder
  | number
  | reserved (token : String)
deriving DecidableEq, Repr

/-- `entitledRE.FindString` -/
def entitledText (cs : List Char) : List Char :=
  match entitledAt cs with
  | some (_, _, rest) => cs.take (cs.length - rest.length)
  | none => []

/-- `patternToken`: the token where a pattern stands, or why it is none. -/
def patternToken (cs : List Char) : Except PatternReason (List Char) :=
  let attr := attrToken cs
  let tok := if attr.length < (wildcardToken cs).length then wildcardToken cs else attr
  if cs.head? = some '\'' ∨ cs.head? = some '"' then .error .quoted
  else if tok = [] then .error .missing
  else if (cs.drop tok.length).head? = some '{' then .error .placeholder
  else if tok.length ≤ ((numberText cs).getD []).length then .error .number
  else if tok.length ≤ (entitledText cs).length then
    .error (.reserved (String.ofList (entitledText cs)))
  else if patternReserved.contains (String.ofList tok) ∨
      (tok.length = attr.length ∧ isSubjectToken tok) then
    .error (.reserved (String.ofList tok))
  else .ok tok

end AuthzAgent.PolicyIr
