/-
  AuthzAgent.PolicyIr.Parse

  The parser of conditions (parse.go in policyir).  A parser reads the text from
  `p.i` on; what it has read is the difference to the text it began with.

  The letters and digits of Unicode and the acceptance of a resource path by
  `jsonpath.Compile` are parameters.  A `SyntaxError` is its reason, with the rest
  of the text that the message cuts off; `outOfFuel` is no error of the source.
-/

import AuthzAgent.Lib.Parsing
import AuthzAgent.PolicyIr.Condition

namespace AuthzAgent

open Parsing

namespace PolicyIr

/-- What the parser reads beside its text. -/
structure Words where
  /-- `unicode.IsLetter` -/
  isLetter : Char → Bool
  /-- `unicode.IsDigit` -/
  isDigit : Char → Bool
  /-- `jsonpath.Compile` gives no error. -/
  compiles : String → Bool

/-- `SyntaxError.Reason` -/
inductive Reason where
  | blank
  | lineBreak
  | doubleSpace
  | tightCompare
  | tightConnective
  | lowerCaseKeyword
  | trailing (rest : String)
  | misspelledOperator
  | operatorAt (rest : String)
  | pattern (reason : PatternReason)
  | listElement
  | mixedList
  | doubleQuoted
  | number (rest : String)
  | standaloneNot
  | operandAt (rest : String)
  | bareSubject
  | compare (e : CompareError)
  | condition (e : ConditionError)
  | outOfFuel
deriving DecidableEq, Repr

/-- A parser of characters. -/
abbrev CondParser := Parser Char Reason

/-! ## The text as a whole -/

def wholeBool (text : String) : Option Bool :=
  let trimmed := (text.toList.dropWhile (· ≤ ' ')).rdropWhile (· ≤ ' ')
  if trimmed.map Char.toLower = "true".toList then some true
  else if trimmed.map Char.toLower = "false".toList then some false
  else none

/-- The loop of `dropLineBreaks`: `prev` is the last character written. -/
def dropLineBreaksFrom (quoted : Bool) (prev : Option Char) : List Char → Option (List Char)
  | [] => some []
  | c :: cs =>
    let quoted := if c = '\'' then !quoted else quoted
    if (c = '\t' ∨ c = '\n' ∨ c = '\r') ∧ quoted = false then
      if prev = none ∨ prev = some ' ' ∨ cs.head? = some ' ' ∨ cs.all GoText.isSpace then
        dropLineBreaksFrom quoted prev cs
      else none
    else (dropLineBreaksFrom quoted (some c) cs).map (c :: ·)

def dropLineBreaks (cs : List Char) : Option (List Char) := dropLineBreaksFrom false none cs

/-- `strings.Trim(s, " ")` -/
def trimBlanks (cs : List Char) : List Char := (cs.dropWhile (· == ' ')).rdropWhile (· == ' ')

/-- The length of the match of `open[^close]*close` at the head of a text, for a
    pair of characters. -/
def spanLength (open_ close : Char) (inside : Char → Bool) : List Char → Option Nat
  | c :: cs =>
    let inner := cs.takeWhile inside
    if c = open_ ∧ (cs.drop inner.length).head? = some close then some (inner.length + 2) else none
  | [] => none

/-- `regexp.ReplaceAllString`, for a pattern whose matches have a length.  The
    number counts the characters of the last match still to step over. -/
def replaceAll (matchAt : List Char → Option Nat) (replacement : List Char) :
    Nat → List Char → List Char
  | _, [] => []
  | skip + 1, _ :: cs => replaceAll matchAt replacement skip cs
  | 0, c :: cs =>
    match matchAt (c :: cs) with
    | some n => replacement ++ replaceAll matchAt replacement (n - 1) cs
    | none => c :: replaceAll matchAt replacement 0 cs

/-- `quotedRE` -/
def quotedLength : List Char → Option Nat := spanLength '\'' '\'' (· ≠ '\'')

/-- `bracketsRE` -/
def bracketsLength : List Char → Option Nat := spanLength '[' ']' (· ≠ ']')

def bracketParenLength (cs : List Char) : Option Nat :=
  bracketsLength cs <|> spanLength '(' ')' (fun c => c ≠ '(' ∧ c ≠ ')') cs

def startsWithNumber : List Char → Bool
  | '-' :: c :: _ => c.isDigit
  | c :: _ => c.isDigit
  | [] => false

/-- `(''|[0-9]) *, *` at the head of a text: the group, and what follows the
    match. -/
def listCommaAt (cs : List Char) : Option (List Char × List Char) := do
  let (group, rest) ← match cs with
    | '\'' :: '\'' :: rest => some (['\'', '\''], rest)
    | c :: rest => if c.isDigit then some ([c], rest) else none
    | [] => none
  match rest.dropWhile (· == ' ') with
  | ',' :: rest => some (group, rest.dropWhile (· == ' '))
  | _ => none

/-- `joinListCommas`: the number counts the characters of the last match still to
    step over. -/
def joinListCommas : Nat → List Char → List Char
  | _, [] => []
  | skip + 1, _ :: cs => joinListCommas skip cs
  | 0, c :: cs =>
    match listCommaAt (c :: cs) with
    | some (group, rest) =>
      if "''".toList.isPrefixOf rest ∨ startsWithNumber rest then
        group ++ ',' :: joinListCommas (cs.length - rest.length) cs
      else c :: joinListCommas 0 cs
    | none => c :: joinListCommas 0 cs

/-- The double spaces that `newParser` refuses; `prev` is the character before. -/
def hasDoubleSpace (prev : Option Char) : List Char → Bool
  | c :: cs =>
    (c == ' ' && cs.head? == some ' ' && prev != some ',') || hasDoubleSpace (some c) cs
  | [] => false

/-- `==|!=|<=|>=` at the head of a text, and what follows. -/
def comparisonAt (cs : List Char) : Option (List Char) :=
  literalAt "==" cs <|> literalAt "!=" cs <|> literalAt "<=" cs <|> literalAt ">=" cs

def tightCompare : List Char → Bool
  | c :: cs =>
    (!([' ', '!', '=', '<', '>'].contains c) && (comparisonAt cs).isSome) ||
      (match comparisonAt (c :: cs) with
        | some (d :: _) => d != ' '
        | _ => false) ||
      tightCompare cs
  | [] => false

section

variable (W : Words)

def isWord (c : Char) : Bool := c == '_' || W.isLetter c || W.isDigit c

/-- A connective without a space or a word before it; `prev` is the character
    before. -/
def tightConnective (prev : Option Char) : List Char → Bool
  | c :: cs =>
    (((literalAt "OR " (c :: cs)).isSome || (literalAt "AND " (c :: cs)).isSome) &&
      !(prev.any fun p => p == ' ' || isWord W p)) || tightConnective (some c) cs
  | [] => false

def newParser (text : String) : Except Reason (List Char) := do
  if text ≠ "" ∧ GoText.trimSpace text = "" then throw .blank
  match dropLineBreaks text.toList with
  | none => throw .lineBreak
  | some cs =>
    let cs := trimBlanks cs
    let masked := joinListCommas 0 (replaceAll quotedLength "''".toList 0 cs)
    let outside := replaceAll bracketsLength "[]".toList 0 masked
    if hasDoubleSpace none outside then throw .doubleSpace
    let bare := replaceAll bracketParenLength "_".toList 0 masked
    if tightCompare bare then throw .tightCompare
    if tightConnective W none bare then throw .tightConnective
    return cs

/-! ## Tokens -/

/-- `p.ws` -/
def ws : List Char → List Char
  | ' ' :: cs => cs
  | cs => cs

def endsToken (rest : List Char) : Bool := rest.head?.all fun c => !isWord W c && c != '.'

/-- `p.at`: what follows the word, if it stands there. -/
def wordAt (word : String) (cs : List Char) : Option (List Char) := do
  let rest ← literalAt word cs
  if rest.head?.any (isWord W) ∧ word.toList.getLast?.any W.isLetter then none else some rest

/-- `p.eat` -/
def eat (word : String) (cs : List Char) : Option (List Char) := wordAt W word (ws cs)

def followedByConnective (rest : List Char) : Bool :=
  rest.isEmpty || (literalAt " OR " rest).isSome || (literalAt " AND " rest).isSome

/-- `\b` behind a word. -/
def atBoundary (rest : List Char) : Bool := rest.head?.all fun c => !(c.isAlphanum || c == '_')

/-- One of the words, as a whole, at the head of a text. -/
def lowerWord (words : List String) (cs : List Char) : Bool :=
  words.any fun w => (literalAt w cs).any atBoundary

/-- `misspelledOpRE` without the spellings that are operators. -/
def misspelledOperator (cs : List Char) : Bool :=
  ((literalAt "LESS THAN OR EQUAL" cs).isSome || (literalAt "GREATER THAN OR EQUAL" cs).isSome) &&
    (literalAt "LESS THAN OR EQUAL TO" cs).isNone && (literalAt "GREATER THAN OR EQUAL TO" cs).isNone

def keywords : List String :=
  ["OR", "AND", "IS", "NOT", "NULL", "IN", "CONTAINS", "ANY", "SUBSET", "EMPTY", "MATCH", "TRUE",
    "FALSE", "GREATER", "LESS", "THAN", "EQUAL", "EQUALS", "on"]

def opWords : List (String × Operator) :=
  [("GREATER THAN OR EQUAL TO", .ge), ("LESS THAN OR EQUAL TO", .le),
    ("GREATER THAN", .gt), ("LESS THAN", .lt),
    ("IS NOT NULL", .isNotNull), ("IS NULL", .isNull), ("IS NOT EMPTY", .isNotEmpty),
    ("IS EMPTY", .isEmpty), ("IS NOT SUBSET", .isNotSubset), ("IS SUBSET", .isSubset),
    ("NOT CONTAINS ANY", .notContainsAny), ("CONTAINS ANY", .containsAny),
    ("NOT CONTAINS", .notContains), ("CONTAINS", .contains),
    ("NOT IN", .notIn), ("IN", .in), ("NOT MATCH", .notMatch), ("MATCH", .match),
    ("NOT EQUALS", .ne), ("EQUALS", .eq), ("==", .eq), ("!=", .ne), ("<=", .le), (">=", .ge),
    ("<", .lt), (">", .gt), ("=", .eq)]

/-- The first operator at the head of a text, and what follows. -/
def operatorAt (cs : List Char) : Option (Operator × List Char) :=
  opWords.findSome? fun w => (wordAt W w.1 cs).map (w.2, ·)

/-! ## Operands -/

/-- The boolean literals that `literal` tries. -/
def boolWords : List (String × Bool) :=
  [("TRUE", true), ("true", true), ("FALSE", false), ("false", false)]

/-- A boolean literal at the head of a text, and what follows. -/
def boolAt (cs : List Char) : Option (Bool × List Char) :=
  boolWords.findSome? fun w =>
    if (attrToken cs).length = w.1.toList.length then (literalAt w.1 cs).map (w.2, ·) else none

/-- `p.literal` -/
def readLiteral : CondParser (Option Literal) := fun rest =>
  match quotedAt rest with
  | some (value, after) => .ok (some (.string (String.ofList value)), after)
  | none =>
    if rest.head? = some '"' then .error .doubleQuoted
    else match numberText rest with
      | some text =>
        if endsToken W (rest.drop text.length) then
          .ok (some (.number (String.ofList text)), rest.drop text.length)
        else .error (.number (String.ofList rest))
      | none =>
        if startsNumber rest then .error (.number (String.ofList rest))
        else match boolAt rest with
          | some (b, after) => .ok (some (.bool b), after)
          | none => .ok (none, rest)

/-- `indexStepRE` at the head of a text: the index, and the length of the match. -/
def indexStepAt : List Char → Option (List Char × Nat)
  | '[' :: cs =>
    let body := cs.dropWhile (· == ' ')
    let (sign, digitsOn) := match body with
      | '-' :: rest => (['-'], rest)
      | rest => ([], rest)
    let digits := digitsOn.takeWhile Char.isDigit
    match (digitsOn.drop digits.length).dropWhile (· == ' ') with
    | ']' :: after => if digits = [] then none else some (sign ++ digits, cs.length + 1 - after.length)
    | _ => none
  | _ => none

/-- The last two characters outside a literal, and whether a literal is open. -/
structure PathState where
  quoted : Bool
  regex : Bool
  prev : Char
  last : Char

/-- One round of the loop of `normalizeIndexes` that writes its character. -/
def PathState.step (st : PathState) (c : Char) : PathState :=
  let (quoted, regex) :=
    if st.regex then (st.quoted, c != '/')
    else if c = '\'' then (!st.quoted, false)
    else if st.quoted then (true, false)
    else (false, c == '/' && st.prev == '=' && st.last == '~')
  if !quoted && !regex && c != ' ' && c != '\'' then ⟨quoted, regex, st.last, c⟩
  else ⟨quoted, regex, st.prev, st.last⟩

/-- `normalizeIndexes`: the number counts the characters of the last index still to
    step over. -/
def normalizeFrom : Nat → PathState → List Char → List Char
  | _, _, [] => []
  | skip + 1, st, _ :: cs => normalizeFrom skip st cs
  | 0, st, c :: cs =>
    match (if !st.regex && !st.quoted then indexStepAt (c :: cs) else none) with
    | some (index, length) =>
      '[' :: (index ++ ']' :: normalizeFrom (length - 1) { st with prev := st.last, last := ']' } cs)
    | none => c :: normalizeFrom 0 (st.step c) cs

def normalizeIndexes (path : List Char) : List Char :=
  normalizeFrom 0 ⟨false, false, '\x00', '\x00'⟩ path

/-- `p.resource` -/
def resourceOperand (path written : List Char) : Operand :=
  if W.compiles (String.ofList path) then .resource (String.ofList path)
  else .unsupported .jsonPath (String.ofList written)

def subjectToken (iterVar : String) (tok : List Char) : Option Operand :=
  match scopeKey tok, pipName tok with
  | some key, _ =>
    if iterVar ≠ "" then some (.passValue iterVar (String.ofList key))
    else some (.subject .permissionScope (String.ofList key))
  | none, some name =>
    match SubjectAttr.ofName (String.ofList name) with
    | some .permissionScope | none => some (.pipRef (String.ofList tok) false "")
    | some attr => some (.subject attr "")
  | none, none => none

/-- A path without the dot at its end, unless it ends with two. -/
def trimDot (path : List Char) : List Char :=
  if path.getLast? = some '.' ∧ path.dropLast.getLast? ≠ some '.' then path.dropLast else path

/-- The operand for an attribute token. -/
def pathOperand (iterVar : String) (written : List Char) : Except Reason Operand :=
  match subjectToken iterVar written with
  | some o => .ok o
  | none =>
    let path := normalizeIndexes (trimDot written)
    if path = "operation".toList then .ok .operation
    else if path = "resourceType".toList then .ok .resourceType
    else if path = "resource".toList ∨ (literalAt "resource." path).isSome ∨
        (literalAt "resource[" path).isSome then
      .ok (resourceOperand W (path.drop "resource".toList.length) written)
    else if path = "subject".toList then .error .bareSubject
    else .ok (resourceOperand W ('.' :: path) written)

/-- `p.operand` -/
def readOperand (iterVar : String) : CondParser Operand := do
  modify ws
  match ← readLiteral W with
  | some l => return .literal l
  | none =>
    let rest ← get
    match entitledAt rest with
    | some (resourceType, as, after) =>
      set after
      return .entitled (String.ofList resourceType) (as.map String.ofList)
    | none =>
      if (literalAt "NOT " rest).isSome then throw .standaloneNot
      let path := attrToken rest
      if path = [] ∨ keywords.contains (String.ofList path) then
        throw (.operandAt (String.ofList rest))
      set (rest.drop path.length)
      match pathOperand W iterVar path with
      | .ok o => return o
      | .error e => throw e

/-! ## Atoms -/

/-- An atom without an operand, and what follows. -/
def simpleAtom (rest : List Char) : Option (Atom × List Char) :=
  ((accessAt rest).bind fun m =>
      if endsToken W m.2.2 then some (.access m.1 (String.ofList m.2.1), m.2.2) else none) <|>
    ((literalAt "subject.isM2M" rest).bind fun after =>
      if followedByConnective after then some (.isM2M, after) else none) <|>
    (constAt rest).bind fun m =>
      if followedByConnective m.2 then some (.const m.1, m.2) else none

/-- `p.compare` -/
def compareAtom (op : Operator) (left : Operand) (right : Option Operand) : CondParser Atom :=
  match newCompare W.compiles op left right with
  | .ok c => pure (.compare c)
  | .error e => throw (.compare e)

/-- `p.pattern` -/
def readPattern : CondParser Operand := do
  let rest ← get
  match patternToken rest with
  | .error reason => throw (.pattern reason)
  | .ok tok =>
    set (rest.drop tok.length)
    return .pattern (String.ofList tok)

/-- The guard of the loop of `p.list`, with the comma and the spaces behind it. -/
def listMore (cs : List Char) : Option (List Char) :=
  match cs.dropWhile (· == ' ') with
  | ',' :: rest => some (rest.dropWhile (· == ' '))
  | _ => none

/-- An element of a list behind a comma. -/
def listItem : CondParser Literal := do
  match ← readLiteral W with
  | some l => return l
  | none => throw .listElement

/-- `p.list`: `start` is the text from the first element on. -/
def readList (first : Literal) (start : List Char) : CondParser Operand := do
  let more ← many listMore (listItem W) .outOfFuel
  let rest ← get
  let raw := if more = [] then "" else String.ofList (start.take (start.length - rest.length))
  match validateList (first :: more) raw with
  | .ok _ => return .list (first :: more) raw
  | .error _ => throw .mixedList

def readFiltered (right : Operand) : CondParser Operand := do
  match right, filteredAt (← get) with
  | .pipRef name _ _, some (operation, after) =>
    set after
    return .pipRef (name ++ ".filtered") true (String.ofList operation)
  | right, _ => return right

def readRight (iterVar : String) (op : Operator) : CondParser Operand := do
  let start ← get
  let right ← readOperand W iterVar
  let right ← readFiltered right
  match op.takesList, right with
  | true, .literal l => readList W l start
  | _, right => return right

/-- The comparison of `p.atom`. -/
def readCompare (iterVar : String) : CondParser Atom := do
  let left ← readOperand W iterVar
  modify ws
  let rest ← get
  if misspelledOperator rest then throw .misspelledOperator
  match operatorAt W rest with
  | none =>
    if lowerWord ["is", "and", "or", "in", "contains", "match"] rest then throw .lowerCaseKeyword
    else throw (.operatorAt (String.ofList rest))
  | some (op, after) =>
    set after
    if op.unary then compareAtom W op left none
    else do
      modify ws
      let right ← if op.takesPattern then readPattern else readRight W iterVar op
      compareAtom W op left (some right)

/-- `p.atom` -/
def readAtom (iterVar : String) : CondParser Atom := do
  modify ws
  match simpleAtom W (← get) with
  | some (a, after) =>
    set after
    return a
  | none => readCompare W iterVar

/-! ## Conditions -/

/-- `p.conj` -/
def readConj (iterVar : String) : CondParser (List Atom) := do
  let a ← readAtom W iterVar
  let as ← many (eat W "AND") (readAtom W iterVar) .outOfFuel
  return a :: as

/-- The text behind the last conjunction. -/
def readEnd : CondParser Unit := do
  modify ws
  let rest ← get
  if rest ≠ [] then
    if lowerWord ["or", "and"] rest then throw .lowerCaseKeyword
    else throw (.trailing (String.ofList rest))

/-- `p.expr` -/
def readExpr (iterVar : String) : CondParser (List (List Atom)) := do
  if (← get) = [] then return [[.const true]]
  else do
    let c ← readConj W iterVar
    let cs ← many (eat W "OR") (readConj W iterVar) .outOfFuel
    readEnd
    return c :: cs

def parseCondition (text : String) (place : Place) (iterVar : String) : Except Reason Condition :=
  match wholeBool text with
  | some b => (newCondition W.compiles place [[.const b]]).mapError .condition
  | none => do
    let cs ← newParser W text
    let (disjuncts, _) ← readExpr W iterVar cs
    (newCondition W.compiles place disjuncts).mapError .condition

end

end PolicyIr

end AuthzAgent
