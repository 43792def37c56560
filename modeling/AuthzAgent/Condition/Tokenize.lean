/-
  AuthzAgent.Condition.Tokenize

  The tokenizer of the condition language (`tokenize` in parser.go and the
  scanners it calls).  A word runs to the next blank, comma or bracket, except
  inside quotes, square brackets and the argument lists of an entitlements
  operand, which stay part of the word.

  `tokenizeLoop` is the loop of `tokenize`; its first argument bounds the
  number of rounds.  Every round consumes a character
  (`scanWord_length_lt` and its companions), so the length of the input is
  enough (`tokenize_ne_outOfFuel`).
-/

import AuthzAgent.Platform

namespace AuthzAgent

open GoText

inductive TokenType where
  | eof | word | string | number | regex | lparen | rparen | comma
deriving DecidableEq, Repr

structure Token where
  typ : TokenType
  value : String
deriving DecidableEq, Repr

inductive ParseError where
  | unterminatedString
  | unexpectedToken (value : String)
  | expectedParen
  | unsupportedOperator (value : String)
  | expectedSubject
  | expectedMode
  | expectedOperation
  | expectedOn
  | expectedResource
  | invalidNumber (value : String)
  | expectedLiteral (rest : String)
  | unterminatedLiteral (rest : String)
  | expectedParenAfterType (rest : String)
  | expectedAs (rest : String)
  | expectedParenAfterNames (rest : String)
  | noAsClause
  | notLiteralList
  /-- The bound of a loop of the model was too small; see
      `parseCondition_ne_outOfFuel`. -/
  | outOfFuel
deriving DecidableEq, Repr

/-- The text of an error, with `quote` for the `%q` format. -/
def ParseError.message (quote : String → String) : ParseError → String
  | .unterminatedString => "unterminated quoted string"
  | .unexpectedToken v => "unexpected token " ++ quote v
  | .expectedParen => "expected ')'"
  | .unsupportedOperator v => "unsupported operator near " ++ quote v
  | .expectedSubject => "expected subject"
  | .expectedMode => "expected allowed or denied"
  | .expectedOperation => "expected operation literal"
  | .expectedOn => "expected ON"
  | .expectedResource => "expected resource"
  | .invalidNumber v => "invalid number " ++ quote v
  | .expectedLiteral r =>
    "entitlements operand: expected single-quoted string literal, got " ++ quote r
  | .unterminatedLiteral r =>
    "entitlements operand: unterminated single-quoted string in " ++ quote r
  | .expectedParenAfterType r =>
    "entitlements operand: expected ')' after resource type, got " ++ quote r
  | .expectedAs r => "entitlements operand: expected .as(...) clause, got " ++ quote r
  | .expectedParenAfterNames r =>
    "entitlements operand: expected ')' after .as(...) names, got " ++ quote r
  | .noAsClause => "entitlements operand: at least one .as('<name>') clause is required"
  | .notLiteralList => "multi-value right operand must be literal list"
  | .outOfFuel => ""

/-! ## Scanners -/

def isWhitespace (c : Char) : Bool :=
  c == ' ' || c == '\n' || c == '\r' || c == '\t'

/-- The rest of a quoted literal, after its opening quote: the text, in which a
    backslash takes the next character as it is, and what follows the closing
    quote.  `scanQuoted` and `readSingleQuotedLiteral` both read it. -/
def scanQuoted : List Char → Option (List Char × List Char)
  | [] => none
  | '\\' :: c :: rest => (scanQuoted rest).map fun r => (c :: r.1, r.2)
  | '\'' :: rest => some ([], rest)
  | c :: rest => (scanQuoted rest).map fun r => (c :: r.1, r.2)

def scanUntilDelimiter (cs : List Char) : List Char × List Char :=
  cs.span fun c => !(isWhitespace c || c == ')' || c == ',')

def scanNumber : List Char → List Char × List Char
  | '-' :: rest =>
    let r := rest.span fun c => c.isDigit || c == '.'
    ('-' :: r.1, r.2)
  | cs => cs.span fun c => c.isDigit || c == '.'

def isNumericStart : List Char → Bool
  | '-' :: c :: _ => c.isDigit
  | c :: _ => c.isDigit
  | [] => false

def isEntitlementMethodCallContinuation (P : Platform) (word : List Char) : Bool :=
  let lower := word.map P.lower
  "subject.entitledresources".toList.isPrefixOf lower &&
    (".of".toList.isSuffixOf lower || ".as".toList.isSuffixOf lower)

/-- The loop of `scanWord`: `acc` is the word so far, in reverse, with the
    nesting of square brackets and parentheses and the open quote. -/
def scanWord (P : Platform) (acc : List Char) (bracketDepth parenDepth : Nat) :
    Option Char → List Char → List Char × List Char
  | _, [] => (acc.reverse, [])
  | some q, '\\' :: c :: rest =>
    scanWord P (c :: '\\' :: acc) bracketDepth parenDepth (some q) rest
  | some q, c :: rest =>
    scanWord P (c :: acc) bracketDepth parenDepth (if c = q then none else some q) rest
  | none, c :: rest =>
    if c = '\'' ∨ c = '"' then
      scanWord P (c :: acc) bracketDepth parenDepth (some c) rest
    else if c = '[' then
      scanWord P (c :: acc) (bracketDepth + 1) parenDepth none rest
    else if c = ']' then
      scanWord P (c :: acc) (bracketDepth - 1) parenDepth none rest
    else if c = '(' then
      if bracketDepth = 0 ∧ parenDepth = 0 ∧
          isEntitlementMethodCallContinuation P acc.reverse = false then
        (acc.reverse, c :: rest)
      else
        scanWord P (c :: acc) bracketDepth (parenDepth + 1) none rest
    else if c = ')' ∧ 0 < parenDepth then
      scanWord P (c :: acc) bracketDepth (parenDepth - 1) none rest
    else if c = ')' ∧ bracketDepth = 0 then
      (acc.reverse, c :: rest)
    else if c = ',' ∧ bracketDepth = 0 ∧ parenDepth = 0 then
      (acc.reverse, c :: rest)
    else if bracketDepth = 0 ∧ parenDepth = 0 ∧ isWhitespace c then
      (acc.reverse, c :: rest)
    else
      scanWord P (c :: acc) bracketDepth parenDepth none rest

/-! ## The loop -/

/-- The loop of `tokenize`, at most `fuel` rounds of it. -/
def tokenizeLoop (P : Platform) : Nat → List Char → Except ParseError (List Token)
  | _, [] => .ok [⟨.eof, ""⟩]
  | 0, _ :: _ => .error .outOfFuel
  | fuel + 1, c :: rest =>
    if isWhitespace c then tokenizeLoop P fuel rest
    else if c = '(' then (tokenizeLoop P fuel rest).map (⟨.lparen, "("⟩ :: ·)
    else if c = ')' then (tokenizeLoop P fuel rest).map (⟨.rparen, ")"⟩ :: ·)
    else if c = ',' then (tokenizeLoop P fuel rest).map (⟨.comma, ","⟩ :: ·)
    else if c = '\'' then
      match scanQuoted rest with
      | none => .error .unterminatedString
      | some (value, next) =>
        (tokenizeLoop P fuel next).map (⟨.string, String.ofList value⟩ :: ·)
    else if c = '/' then
      let r := scanUntilDelimiter (c :: rest)
      (tokenizeLoop P fuel r.2).map (⟨.regex, String.ofList r.1⟩ :: ·)
    else if isNumericStart (c :: rest) then
      let r := scanNumber (c :: rest)
      (tokenizeLoop P fuel r.2).map (⟨.number, String.ofList r.1⟩ :: ·)
    else
      let r := scanWord P [] 0 0 none (c :: rest)
      (tokenizeLoop P fuel r.2).map (⟨.word, String.ofList r.1⟩ :: ·)

def tokenize (P : Platform) (input : String) : Except ParseError (List Token) :=
  tokenizeLoop P input.toList.length input.toList

/-! ## Progress -/

theorem scanQuoted_length_le {cs value next : List Char}
    (h : scanQuoted cs = some (value, next)) : next.length ≤ cs.length := by
  fun_induction scanQuoted cs generalizing value with
  | case1 => simp at h
  | case2 c rest ih =>
    simp only [Option.map_eq_some_iff, Prod.mk.injEq] at h
    obtain ⟨r, hr, -, rfl⟩ := h
    have hle := ih hr
    simp only [List.length_cons]
    omega
  | case3 rest =>
    simp only [Option.some.injEq, Prod.mk.injEq] at h
    obtain ⟨-, rfl⟩ := h
    simp
  | case4 c rest _ _ ih =>
    simp only [Option.map_eq_some_iff, Prod.mk.injEq] at h
    obtain ⟨r, hr, -, rfl⟩ := h
    have hle := ih hr
    simp only [List.length_cons]
    omega

theorem span_length_le (p : Char → Bool) (cs : List Char) :
    (cs.span p).2.length ≤ cs.length := by
  rw [List.span_eq_takeWhile_dropWhile]
  exact List.length_dropWhile_le p cs

/-- `scanWord` leaves at most what it was given. -/
theorem scanWord_length_le (P : Platform) (acc : List Char) (b p : Nat) (q : Option Char)
    (cs : List Char) : (scanWord P acc b p q cs).2.length ≤ cs.length := by
  fun_induction scanWord P acc b p q cs with
  | case1 => simp
  | _ => simp only [List.length_cons]; omega

/-- A word that starts outside the delimiters has at least one character. -/
theorem scanWord_length_lt (P : Platform) {c : Char} (rest : List Char)
    (hspace : isWhitespace c = false) (hopen : c ≠ '(') (hclose : c ≠ ')') (hcomma : c ≠ ',') :
    (scanWord P [] 0 0 none (c :: rest)).2.length ≤ rest.length := by
  simp only [scanWord, hspace, hopen, hclose, hcomma, false_and, if_false, and_false,
    Bool.false_eq_true]
  split_ifs <;> apply scanWord_length_le

theorem scanNumber_length_lt {c : Char} (rest : List Char)
    (hnum : isNumericStart (c :: rest) = true) :
    (scanNumber (c :: rest)).2.length ≤ rest.length := by
  by_cases hc : c = '-'
  · subst hc
    exact span_length_le _ rest
  · have hdigit : c.isDigit = true := by
      rw [isNumericStart] at hnum
      · exact hnum
      · intro d tail h
        simp_all
    have hscan : scanNumber (c :: rest) = (c :: rest).span fun c => c.isDigit || c == '.' := by
      rw [scanNumber]
      intro tail h
      simp_all
    rw [hscan, List.span_eq_takeWhile_dropWhile]
    simp only [List.dropWhile_cons, hdigit, Bool.true_or, if_true]
    exact List.length_dropWhile_le _ rest

theorem scanUntilDelimiter_length_lt (rest : List Char) :
    (scanUntilDelimiter ('/' :: rest)).2.length ≤ rest.length := by
  rw [scanUntilDelimiter, List.span_eq_takeWhile_dropWhile]
  exact List.length_dropWhile_le _ rest

/-- With as many rounds as there are characters left the loop reaches the end
    of the text or a tokenizer error. -/
theorem tokenizeLoop_ne_outOfFuel (P : Platform) (fuel : Nat) (cs : List Char)
    (hlen : cs.length ≤ fuel) : tokenizeLoop P fuel cs ≠ .error .outOfFuel := by
  have hmap : ∀ (r : Except ParseError (List Token)) (t : Token),
      r ≠ .error .outOfFuel → r.map (t :: ·) ≠ .error .outOfFuel := by
    intro r t h
    cases r with
    | error e => simpa [Except.map] using h
    | ok ts => simp [Except.map]
  induction fuel generalizing cs with
  | zero =>
    have hnil : cs = [] := List.eq_nil_of_length_eq_zero (by omega)
    simp [hnil, tokenizeLoop]
  | succ fuel ih =>
    cases cs with
    | nil => simp [tokenizeLoop]
    | cons c rest =>
      simp only [List.length_cons, Nat.add_le_add_iff_right] at hlen
      rw [tokenizeLoop]
      -- one case per branch of the switch, each with what its scanner leaves
      split_ifs with hspace hopen hclose hcomma hquote hslash hnum
      · exact ih rest hlen
      · exact hmap _ _ (ih rest hlen)
      · exact hmap _ _ (ih rest hlen)
      · exact hmap _ _ (ih rest hlen)
      · cases hscan : scanQuoted rest with
        | none => simp
        | some r => exact hmap _ _ (ih r.2 ((scanQuoted_length_le hscan).trans hlen))
      · subst hslash
        exact hmap _ _ (ih _ ((scanUntilDelimiter_length_lt rest).trans hlen))
      · exact hmap _ _ (ih _ ((scanNumber_length_lt rest hnum).trans hlen))
      · have hword := scanWord_length_lt P rest (by simpa using hspace) hopen hclose hcomma
        exact hmap _ _ (ih _ (hword.trans hlen))

theorem tokenize_ne_outOfFuel (P : Platform) (input : String) :
    tokenize P input ≠ .error .outOfFuel :=
  tokenizeLoop_ne_outOfFuel P _ _ le_rfl

end AuthzAgent
