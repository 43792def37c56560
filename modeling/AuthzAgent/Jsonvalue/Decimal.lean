/-
  AuthzAgent.Jsonvalue.Decimal

  Exact decimal numbers (decimal.go of jsonvalue): the parser of texts that
  Java's `BigDecimal` reads, and the comparison of two numbers.

  A text is its characters.  Which characters are digits is a table of Go's
  `unicode` package (`DecimalDigits`).  Arithmetic on `int64` is a parameter
  (`Arith`): a computation whose exact result fits 64 bits has this result, and
  of any other nothing is known.  So what holds for every `Arith` does not
  depend on an overflow; `Arith.go` is what Go does.
-/

import AuthzAgent.Lib.Digits

namespace AuthzAgent.Jsonvalue

/-! ## Tables and arithmetic -/

/-- The decimal digits of Unicode, by code point, and the value of each.  They
    stand in runs that start with a zero and count to nine over and over. -/
structure DecimalDigits where
  /-- `unicode.IsDigit` -/
  isDigit : Nat → Bool
  value : Nat → Nat
  ascii : ∀ r, r < 128 → isDigit r = (decide (48 ≤ r) && decide (r ≤ 57))
  first : ∀ r, isDigit (r + 1) = true → isDigit r = false → value (r + 1) = 0
  next : ∀ r, isDigit (r + 1) = true → isDigit r = true → value (r + 1) = (value r + 1) % 10

/-- The result of an `int64` computation, by its exact result. -/
structure Arith where
  int64 : Int → Int
  exact : ∀ n, -2 ^ 63 ≤ n → n < 2 ^ 63 → int64 n = n

/-- Go keeps the low 64 bits. -/
def Arith.go : Arith where
  int64 := fun n => n.bmod (2 ^ 64)
  exact := by
    intro n h1 h2
    apply Int.bmod_eq_of_le
    · have hdiv : ((2 ^ 64 : Nat) : Int) / 2 = 2 ^ 63 := by decide
      omega
    · have hdiv : (((2 ^ 64 : Nat) : Int) + 1) / 2 = 2 ^ 63 := by decide
      omega

def DecimalDigits.asciiOnly : DecimalDigits where
  isDigit := fun r => decide (48 ≤ r) && decide (r ≤ 57)
  value := fun r => r - 48
  ascii := fun _ _ => rfl
  first := by
    intro r h h'
    simp only [Bool.and_eq_true, Bool.and_eq_false_iff, decide_eq_true_eq,
      decide_eq_false_iff_not] at h h'
    omega
  next := by
    intro r h h'
    simp only [Bool.and_eq_true, decide_eq_true_eq] at h h'
    omega

section Digit

variable (U : DecimalDigits)

def isDigit (c : Char) : Bool := decide (c.toNat ≤ 0xFFFF) && U.isDigit c.toNat

/-- The number of digits that stand right before a code point: the loop of
    `digitValue`. -/
def digitsBefore : Nat → Nat
  | 0 => 0
  | r + 1 => if U.isDigit r then digitsBefore r + 1 else 0

def digitValue (c : Char) : Fin 10 :=
  if '0' ≤ c ∧ c ≤ '9' then Fin.ofNat 10 (c.toNat - 48)
  else Fin.ofNat 10 (digitsBefore U c.toNat)

end Digit

/-! ## Numbers -/

/-- `Decimal`, in the normal form that `newDecimal` builds. -/
structure Decimal where
  neg : Bool
  coef : List (Fin 10)
  exp : Int
  no_leading : coef.head? ≠ some 0
  no_trailing : Digits.NoTrailing coef
  zero_plain : coef = [] → neg = false ∧ exp = 0
deriving DecidableEq

namespace Decimal

theorem head?_nil : ([] : List (Fin 10)).head? ≠ some 0 := by simp

theorem noTrailing_nil : Digits.NoTrailing [] := by simp [Digits.NoTrailing]

theorem plain_nil : ([] : List (Fin 10)) = [] → false = false ∧ (0 : Int) = 0 :=
  fun _ => ⟨rfl, rfl⟩

/-- The zero value. -/
def zero : Decimal := ⟨false, [], 0, head?_nil, noTrailing_nil, plain_nil⟩

def isZero (d : Decimal) : Bool := d.coef.isEmpty

def sign (d : Decimal) : Int := if d.isZero then 0 else if d.neg then -1 else 1

end Decimal

section Parse

variable (U : DecimalDigits) (A : Arith)

def maxExponent : Int := 2 ^ 60

def newDecimal (neg : Bool) (coef : List (Fin 10)) (exp : Int) : Decimal :=
  let stripped := Digits.trimLeft coef
  if h : stripped = [] then .zero
  else
    { neg := neg
      coef := Digits.trimRight stripped
      exp := A.int64 (exp + (stripped.length - (Digits.trimRight stripped).length : Nat))
      no_leading := Digits.head?_trimRight (Digits.head?_trimLeft coef)
      no_trailing := Digits.noTrailing_trimRight stripped
      zero_plain := fun hnil =>
        absurd hnil (Digits.trimRight_ne_nil (Digits.head?_trimLeft coef) h) }

/-- An ASCII character that no number starts with. -/
def refusedChar (c : Char) : Bool :=
  decide (c.toNat < 128) && c != '+' && c != '-' && c != '.' &&
    (decide (c < '0') || decide ('9' < c))

/-- The refusal of a text by its first byte. -/
def refusedStart : List Char → Bool
  | [] => true
  | c :: _ => refusedChar c

/-- An optional sign. -/
def scanSign : List Char → Bool × List Char
  | '+' :: rs => (false, rs)
  | '-' :: rs => (true, rs)
  | rs => (false, rs)

/-- The digits at the start of a text. -/
def scanDigits (rs : List Char) : List (Fin 10) × List Char :=
  ((rs.takeWhile (isDigit U)).map (digitValue U), rs.dropWhile (isDigit U))

/-- The digits after an optional point. -/
def scanFraction : List Char → List (Fin 10) × List Char
  | '.' :: rs => scanDigits U rs
  | rs => ([], rs)

/-- The loop over the digits of an exponent, which refuses one above
    `maxExponent`. -/
def accumulate (exp : Int) (d : Fin 10) : Option Int :=
  if exp > (A.int64 (maxExponent - d.val)).tdiv 10 then none
  else some (A.int64 (A.int64 (exp * 10) + d.val))

/-- The exponent of a number, 0 where it has none. -/
def scanExponent : List Char → Option (Int × List Char)
  | c :: rs =>
    if c = 'e' ∨ c = 'E' then do
      let (expNeg, rs) := scanSign rs
      let (digits, rs) := scanDigits U rs
      let exp ← digits.foldlM (accumulate A) 0
      if digits = [] then none
      else some (if expNeg then A.int64 (-exp) else exp, rs)
    else some (0, c :: rs)
  | [] => some (0, [])

/-- `parseDecimal`: the number a text holds and its scale. -/
def parseDecimal (s : String) : Option (Decimal × Int) :=
  let rs := s.toList
  if refusedStart rs then none
  else
    let (neg, rs) := scanSign rs
    let (int, rs) := scanDigits U rs
    let (frac, rs) := scanFraction U rs
    if int.length + frac.length = 0 then none
    else do
      let (exp, rs) ← scanExponent U A rs
      if rs ≠ [] then none
      else some (newDecimal A neg (int ++ frac) (A.int64 (exp - frac.length)),
        A.int64 (frac.length - exp))

def parseDecimalText (s : String) : Option Decimal := (parseDecimal U A s).map Prod.fst

def parseBigDecimal (s : String) : Option Decimal :=
  (parseDecimal U A s).bind fun p =>
    if -2 ^ 31 ≤ p.2 ∧ p.2 ≤ 2 ^ 31 - 1 then some p.1 else none

end Parse

/-! ## Comparison -/

namespace Decimal

variable (A : Arith)

def adjusted (d : Decimal) : Int := A.int64 (A.int64 (d.exp + d.coef.length) - 1)

def compareMagnitude (d e : Decimal) : Int :=
  if d.adjusted A ≠ e.adjusted A then
    if d.adjusted A < e.adjusted A then -1 else 1
  else Digits.compareText d.coef e.coef

def compare (d e : Decimal) : Int :=
  if d.sign ≠ e.sign then
    if d.sign < e.sign then -1 else 1
  else if d.sign = 0 then 0
  else if d.neg then -(compareMagnitude A d e)
  else compareMagnitude A d e

end Decimal

end AuthzAgent.Jsonvalue
