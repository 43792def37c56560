/-
  AuthzAgent.Condition.Parser

  The parser of the condition language (`ParseCondition` in parser.go).  A
  parser reads the tokens from `p.pos` on; `peek` and `next` read the end
  token past the last one.  `parseOr` and `parseAnd` are one loop with
  another keyword and another operand, and the only recursion is through
  parentheses: `parsePrimary` takes a bound of their nesting.

  The rules of `Lib.Parsing` give, in one pass over the functions, that the
  bounds are never reached (`parseCondition_ne_outOfFuel`) and the shape of
  every accepted condition (`parseCondition_isCondition`): leaves are
  comparisons of operands, a negation wraps one leaf, and `and` and `or` have
  two or more arguments, to any depth.
-/

import AuthzAgent.Condition.Ast
import AuthzAgent.Condition.Tokenize
import AuthzAgent.Lib.Parsing

namespace AuthzAgent

open GoText Parsing

abbrev TokenParser := Parser Token ParseError

/-- `p.peek` -/
def peek (ts : List Token) : Token := ts.headD ⟨.eof, ""⟩

/-- `p.next` -/
def next : TokenParser Token := fun ts => .ok (peek ts, ts.tail)

/-- `p.matchWord`: the tokens after the word, if it stands there. -/
def matchWord (expected : String) : List Token → Option (List Token)
  | t :: ts => if t.typ = .word ∧ equalFold t.value expected then some ts else none
  | [] => none

def matchWords : List String → List Token → Option (List Token)
  | [], ts => some ts
  | w :: ws, ts => (matchWord w ts).bind (matchWords ws)

def matchSymbol (symbol : String) : List Token → Option (List Token)
  | t :: ts => if t.typ = .word ∧ t.value = symbol then some ts else none
  | [] => none

/-- The guard `p.peek().typ == tokenComma`, with the `p.next()` after it. -/
def matchComma : List Token → Option (List Token)
  | t :: ts => if t.typ = .comma then some ts else none
  | [] => none

/-! ## Operands -/

def splitPath (path : String) : List String :=
  if path = "" then [""]
  else if path.toList.any (fun c => c == '[' || c == ']' || c == '?' || c == '-') then [path]
  else
    let parts := ((path.toList.splitOn '.').map trimChars).filter (· ≠ [])
    if parts = [] then [path] else parts.map String.ofList

def toNumber (P : Platform) (text : String) : Option Rat :=
  if '.' ∈ text.toList then P.parseFloat text
  else (parseInt64 text.toList).map fun n => (n : Rat)

/-- `strings.TrimLeft(rest, " \t\r\n")` -/
def trimLeft : Parser Char ParseError Unit :=
  fun cs => .ok ((), cs.dropWhile isWhitespace)

def readSingleQuotedLiteral : Parser Char ParseError String
  | [] => .error (.expectedLiteral "")
  | c :: rest =>
    if c = '\'' then
      match scanQuoted rest with
      | some (value, after) => .ok (String.ofList value, after)
      | none => .error (.unterminatedLiteral (String.ofList (c :: rest)))
    else .error (.expectedLiteral (String.ofList (c :: rest)))

/-- Consume a closing parenthesis; `err` is the error with the text found. -/
def closeParen (err : String → ParseError) : Parser Char ParseError Unit
  | [] => .error (err "")
  | c :: rest => if c = ')' then .ok ((), rest) else .error (err (String.ofList (c :: rest)))

/-- One name of an `.as(...)` clause and the blanks around it. -/
def readName : Parser Char ParseError String := do
  trimLeft
  let name ← readSingleQuotedLiteral
  trimLeft
  pure name

/-- The guard `strings.HasPrefix(rest, ",")`, with the step over the comma. -/
def nameComma : List Char → Option (List Char)
  | c :: rest => if c = ',' then some rest else none
  | [] => none

/-- `.as(` -/
def openAs (P : Platform) : Parser Char ParseError Unit :=
  fun cs =>
    if ".as(".toList.isPrefixOf (cs.map P.lower) then .ok ((), dropBytes 4 cs)
    else .error (.expectedAs (String.ofList cs))

/-- One `.as('name', ...)` clause. -/
def readAsClause (P : Platform) : Parser Char ParseError (List String) := do
  openAs P
  let name ← readName
  let names ← many nameComma readName .outOfFuel
  closeParen .expectedParenAfterNames
  pure (name :: names)

/-- The guard of the loop over the clauses: the text after the blanks, unless
    nothing is left. -/
def moreClauses (cs : List Char) : Option (List Char) :=
  match cs.dropWhile isWhitespace with
  | [] => none
  | c :: rest => some (c :: rest)

/-- The operand after `subject.entitledResources.of(`. -/
def readEntitlement (P : Platform) : Parser Char ParseError Node := do
  let resourceType ← readSingleQuotedLiteral
  trimLeft
  closeParen .expectedParenAfterType
  let clauses ← many moreClauses (readAsClause P) .outOfFuel
  match clauses.flatten with
  | [] => throw .noAsClause
  | name :: names => pure (.ref (.entitlements resourceType (name :: names)))

/-- `parseEntitlementOperand`; `none` is the result `nil, nil`. -/
def parseEntitlementOperand (P : Platform) (raw : List Char) :
    Except ParseError (Option Node) :=
  if "subject.entitledresources.of(".toList.isPrefixOf (raw.map P.lower) then
    (readEntitlement P (dropBytes 29 raw)).map fun r => some r.1
  else .ok none

def wordOperand (P : Platform) (value : String) : Except ParseError Node :=
  let lower := value.toList.map P.lower
  if lower = "true".toList then .ok (.const (.bool true))
  else if lower = "false".toList then .ok (.const (.bool false))
  else
    match parseEntitlementOperand P value.toList with
    | .error e => .error e
    | .ok (some operand) => .ok operand
    | .ok none =>
      if "resource.".toList.isPrefixOf lower then
        .ok (.ref (.path .resource (splitPath (String.ofList (dropBytes 9 value.toList)))))
      else if "subject.".toList.isPrefixOf lower then
        .ok (.ref (.path .subject (splitPath (String.ofList (dropBytes 8 value.toList)))))
      else .ok (.const (.string value))

def parseOperand (P : Platform) : TokenParser Node := do
  let current ← next
  match current.typ with
  | .string => pure (.const (.string current.value))
  | .regex => pure (.const (.string current.value))
  | .number =>
    match toNumber P current.value with
    | some q => pure (.const (.number q))
    | none => throw (.invalidNumber current.value)
  | .word =>
    match wordOperand P current.value with
    | .ok operand => pure operand
    | .error e => throw e
  | _ => throw (.unexpectedToken current.value)

/-- An operand that must be a literal, as its value. -/
def parseLiteral (P : Platform) : TokenParser Rego.Value := do
  match ← parseOperand P with
  | .const value => pure value
  | _ => throw .notLiteralList

def parseMultiRightOperand (P : Platform) (op : Op) : TokenParser Node := do
  let first ← parseOperand P
  let ts ← get
  if (peek ts).typ ≠ .comma then
    match first with
    | .const value =>
      if op = .containsAny ∨ op = .isSubset ∨ op = .isIn then
        pure (.const (.array [value]))
      else pure first
    | _ => pure first
  else
    match first with
    | .const value => do
      let values ← many matchComma (parseLiteral P) .outOfFuel
      pure (.const (.array (value :: values)))
    | _ => throw .notLiteralList

/-! ## Comparisons -/

/-- What a case of the switch in `parseComparison` looks for. -/
inductive Pattern where
  | words (expected : List String)
  | symbol (expected : String)

def Pattern.run : Pattern → List Token → Option (List Token)
  | .words ws => matchWords ws
  | .symbol s => matchSymbol s

/-- How a case of the switch reads its right operand. -/
inductive Right where
  | none | operand | multi

/-- A case of the switch in `parseComparison`: any of its patterns selects it,
    and its node is `negate op` or `node op` of the operands. -/
structure Comparison where
  patterns : List Pattern
  op : Op
  negated : Bool
  right : Right

/-- The cases of the switch in `parseComparison`, in order. -/
def comparisons : List Comparison :=
  [⟨[.words ["NOT", "CONTAINS", "ANY"]], .containsAny, true, .multi⟩,
   ⟨[.words ["NOT", "CONTAINS"]], .contains, true, .operand⟩,
   ⟨[.words ["NOT", "EQUALS"]], .neq, false, .operand⟩,
   ⟨[.words ["NOT", "IN"]], .isIn, true, .multi⟩,
   ⟨[.words ["NOT", "MATCH"]], .matches, true, .operand⟩,
   ⟨[.words ["IS", "NOT", "EMPTY"]], .isEmpty, true, .none⟩,
   ⟨[.words ["IS", "NOT", "NULL"]], .isNull, true, .none⟩,
   ⟨[.words ["IS", "NOT", "SUBSET"]], .isSubset, true, .multi⟩,
   ⟨[.words ["CONTAINS", "ANY"]], .containsAny, false, .multi⟩,
   ⟨[.words ["CONTAINS"]], .contains, false, .operand⟩,
   ⟨[.words ["EQUALS"], .symbol "==", .symbol "="], .eq, false, .operand⟩,
   ⟨[.symbol "!="], .neq, false, .operand⟩,
   ⟨[.words ["IN"]], .isIn, false, .multi⟩,
   ⟨[.words ["MATCH"]], .matches, false, .operand⟩,
   ⟨[.words ["IS", "EMPTY"]], .isEmpty, false, .none⟩,
   ⟨[.words ["IS", "NULL"]], .isNull, false, .none⟩,
   ⟨[.words ["IS", "SUBSET"]], .isSubset, false, .multi⟩,
   ⟨[.words ["GREATER", "THAN", "OR", "EQUALS", "TO"],
     .words ["GREATER", "THAN", "OR", "EQUAL", "TO"], .symbol ">="], .gte, false, .operand⟩,
   ⟨[.words ["GREATER", "THAN"], .symbol ">"], .gt, false, .operand⟩,
   ⟨[.words ["LESS", "THAN", "OR", "EQUALS", "TO"],
     .words ["LESS", "THAN", "OR", "EQUAL", "TO"], .symbol "<="], .lte, false, .operand⟩,
   ⟨[.words ["LESS", "THAN"], .symbol "<"], .lt, false, .operand⟩]

/-- The case of the switch that the tokens select, and the tokens after it. -/
def selectComparison (ts : List Token) : Option (Comparison × List Token) :=
  comparisons.findSome? fun c =>
    (c.patterns.findSome? fun p => p.run ts).map fun rest => (c, rest)

/-- `node` and `negate` -/
def Comparison.build (c : Comparison) (args : List Node) : Node :=
  if c.negated then .node .not [.node c.op args] else .node c.op args

/-- The body of a case: read the right operand and build the node. -/
def Comparison.body (P : Platform) (c : Comparison) (left : Node) : TokenParser Node :=
  match c.right with
  | .none => pure (c.build [left])
  | .operand => do
    let right ← parseOperand P
    pure (c.build [left, right])
  | .multi => do
    let right ← parseMultiRightOperand P c.op
    pure (c.build [left, right])

def parseComparison (P : Platform) : TokenParser Node := do
  let left ← parseOperand P
  let ts ← get
  match selectComparison ts with
  | none => throw (.unsupportedOperator (peek ts).value)
  | some (c, rest) => do
    set rest
    c.body P left

def lookaheadHasAccess : List Token → Bool
  | subject :: mode :: _ :: on :: _ =>
    subject.typ == .word && equalFold subject.value "subject" &&
    mode.typ == .word && (equalFold mode.value "allowed" || equalFold mode.value "denied") &&
    on.typ == .word && equalFold on.value "on"
  | _ => false

/-- The node that `parseHasAccess` returns. -/
def hasAccessNode (mode operation : String) : Node :=
  .node .hasAccess
    [.const (.string mode), .const (.string operation), .const (.string "resource"),
      .const (.number 1)]

def parseHasAccess (P : Platform) : TokenParser Node := do
  let subject ← next
  if equalFold subject.value "subject" = false then throw .expectedSubject
  let modeToken ← next
  let mode := P.toLower modeToken.value
  if mode ≠ "allowed" ∧ mode ≠ "denied" then throw .expectedMode
  let operation ← next
  if operation.typ ≠ .string ∧ operation.typ ≠ .word then throw .expectedOperation
  let ts ← get
  match matchWord "ON" ts with
  | none => throw .expectedOn
  | some rest => do
    set rest
    let resource ← next
    if equalFold resource.value "resource" = false then throw .expectedResource
    pure (hasAccessNode mode operation.value)

/-! ## Connectives -/

def parseConnective (keyword : String) (op : Op) (operand : TokenParser Node) :
    TokenParser Node := do
  let left ← operand
  match ← many (matchWord keyword) operand .outOfFuel with
  | [] => pure left
  | right :: more => pure (.node op (left :: right :: more))

def parseAnd (primary : TokenParser Node) : TokenParser Node :=
  parseConnective "AND" .and primary

def parseOr (primary : TokenParser Node) : TokenParser Node :=
  parseConnective "OR" .or (parseAnd primary)

/-- The part of `parsePrimary` after the case of a parenthesis. -/
def parseAtom (P : Platform) : TokenParser Node := do
  let ts ← get
  if lookaheadHasAccess ts then parseHasAccess P
  else if (peek ts).typ = .word ∧ P.toLower (peek ts).value = "true" then do
    let _ ← next
    pure (.const (.bool true))
  else if (peek ts).typ = .word ∧ P.toLower (peek ts).value = "false" then do
    let _ ← next
    pure (.const (.bool false))
  else parseComparison P

/-- Consume a closing parenthesis. -/
def expectRParen : TokenParser Unit := do
  let t ← next
  if t.typ ≠ .rparen then throw .expectedParen

/-- `parsePrimary`, with a bound of the nesting of parentheses. -/
def parsePrimary (P : Platform) : Nat → TokenParser Node
  | 0 => do
    let ts ← get
    if (peek ts).typ = .lparen then throw .outOfFuel else parseAtom P
  | depth + 1 => do
    let ts ← get
    if (peek ts).typ = .lparen then do
      let _ ← next
      let expr ← parseOr (parsePrimary P depth)
      expectRParen
      pure expr
    else parseAtom P

def parseCondition (P : Platform) (input : String) : Except ParseError Node := do
  let tokens ← tokenize P input
  let (ast, rest) ← parseOr (parsePrimary P tokens.length) tokens
  if (peek rest).typ ≠ .eof then .error (.unexpectedToken (peek rest).value) else .ok ast

end AuthzAgent
