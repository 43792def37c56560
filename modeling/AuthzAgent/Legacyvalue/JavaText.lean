/-
  AuthzAgent.Legacyvalue.JavaText

  The Java texts of values (javatext.go of legacyvalue): the case fold, the text
  of a number and `String.valueOf`.

  `ParseFloat` and `DoubleText` are parameters (`Doubles`); of the text of a
  double only its form is known, one of the three words or digits with a point
  and at most one exponent.
-/

import AuthzAgent.Jsonvalue.DecimalText
import AuthzAgent.Jsonvalue.Value
import AuthzAgent.Lib.GoText

namespace AuthzAgent.Legacyvalue

open Jsonvalue

/-! ## Parameters -/

/-- The text of a sign. -/
def minus (neg : Bool) : List Char := if neg then ['-'] else []

/-- The texts that Java's `Double.toString` prints. -/
inductive IsDoubleText : String → Prop where
  | nan : IsDoubleText "NaN"
  | infinity : IsDoubleText "Infinity"
  | negInfinity : IsDoubleText "-Infinity"
  | plain (neg : Bool) (int frac : List (Fin 10)) (hint : int ≠ []) :
      IsDoubleText (String.ofList (minus neg ++ (int.map digitChar ++ '.' :: frac.map digitChar)))
  | scientific (neg : Bool) (int frac : List (Fin 10)) (exp : Int) (hint : int ≠ []) :
      IsDoubleText (String.ofList (minus neg ++
        (int.map digitChar ++ '.' :: (frac.map digitChar ++ 'E' :: formatInt exp))))

/-- The doubles of the platform. -/
structure Doubles where
  Double : Type
  /-- The value of `strconv.ParseFloat(s, 64)`, also where it returns an error. -/
  parseFloat : String → Double
  /-- `DoubleText` -/
  doubleText : Double → String
  isDoubleText : ∀ x, IsDoubleText (doubleText x)
  /-- A sign, 17 digits, a point and an exponent, with room to spare. -/
  short : ∀ x, (doubleText x).toList.length ≤ 32

/-- What the package takes from its platform. -/
structure Externals where
  unicode : GoText.Unicode
  digits : DecimalDigits
  arith : Arith
  doubles : Doubles
  /-- `strconv.IsPrint` -/
  isPrint : Char → Bool

variable (E : Externals)

/-! ## Texts -/

def fold (s : String) : String :=
  if s.toList.any fun c => 128 ≤ c.toNat then
    String.ofList (s.toList.map fun c => E.unicode.lower (E.unicode.upper c))
  else if s.toList.any fun c => 'A' ≤ c && c ≤ 'Z' then E.unicode.toLower s
  else s

/-- `strings.TrimPrefix` of a minus. -/
def trimMinus : List Char → List Char
  | '-' :: cs => cs
  | cs => cs

def isIntegerText (s : List Char) : Bool :=
  let s := trimMinus s
  if s.isEmpty then false
  else s.all fun c => !(c < '0' || c > '9')

def numberText (n : String) : String :=
  let s := n.toList
  if isIntegerText s then
    let neg := s.head? == some '-'
    let digits := (trimMinus s).dropWhile (· == '0')
    if digits.isEmpty then "0"
    else if neg then String.ofList ('-' :: digits)
    else String.ofList digits
  else E.doubles.doubleText (E.doubles.parseFloat n)

def formatBool (b : Bool) : String := if b then "true" else "false"

mutual

def text : Value → String
  | .null => "null"
  | .bool b => formatBool b
  | .number n => numberText E n
  | .string s => s
  | .list items => "[" ++ String.intercalate ", " (textItems items) ++ "]"
  | .object members => "\x7b" ++ String.intercalate ", " (textMembers members) ++ "\x7d"

def textItems : List Value → List String
  | [] => []
  | v :: vs => text v :: textItems vs

def textMembers : List (String × Value) → List String
  | [] => []
  | (k, v) :: ms => (k ++ "=" ++ text v) :: textMembers ms

end

/-! ## The text of a number -/

/-- A numeral without an exponent is a `BigDecimal`: its scale is the count of
    its fraction digits. -/
theorem parseBigDecimal_plain {U : DecimalDigits} (A : Arith) {n : Numeral U} {s : String}
    (hs : n.text = s.toList) (hexp : n.exponent = none) (hfrac : n.fracDigits.length < 2 ^ 31) :
    ∃ d, parseBigDecimal U A s = some d := by
  have hscan : n.scannedExponent A = some 0 := by rw [Numeral.scannedExponent, hexp]
  have hscale : A.int64 ((n.fracDigits.length : Int) - 0) = n.fracDigits.length := by
    rw [A.exact _ (by omega) (by omega)]
    omega
  rw [parseBigDecimal, parseDecimal_text A hs, hscan, Option.map_some, Option.bind_some, hscale,
    if_pos ⟨by omega, by omega⟩]
  exact ⟨_, rfl⟩

def integerNumeral (U : DecimalDigits) (neg : Bool) (digits : List Char)
    (h : ∀ c ∈ digits, isDigit U c = true) (hne : digits ≠ []) : Numeral U where
  sign := if neg then some true else none
  int := digits
  frac := none
  exponent := none
  int_digits := h
  frac_digits := nofun
  some_digit := by simpa using hne
  exponent_letter := nofun
  exponent_digit := nofun
  exponent_digits := nofun

theorem text_integerNumeral {U : DecimalDigits} {neg : Bool} {digits : List Char}
    {h : ∀ c ∈ digits, isDigit U c = true} {hne : digits ≠ []} :
    (integerNumeral U neg digits h hne).text = minus neg ++ digits := by
  rw [Numeral.text]
  show signText (if neg then some true else none) ++ (digits ++ ([] ++ [])) = _
  rw [List.append_nil, List.append_nil, minus]
  cases neg <;> rfl

theorem minus_append_trimMinus (cs : List Char) :
    minus (cs.head? == some '-') ++ trimMinus cs = cs := by
  fun_cases trimMinus cs with
  | case1 cs => rfl
  | case2 _ hne =>
    have hhead : (cs.head? == some '-') = false := by
      cases cs with
      | nil => rfl
      | cons c cs =>
        have hc : c ≠ '-' := fun h => hne cs (by rw [h])
        simpa using hc
    rw [hhead]
    rfl

/-- What a number prints as: digits after an optional minus, no longer than the
    number, or the text of a double. -/
theorem numberText_cases (n : String) :
    (∃ (neg : Bool) (digits : List Char), digits ≠ [] ∧ (∀ c ∈ digits, '0' ≤ c ∧ c ≤ '9') ∧
      (numberText E n).toList = minus neg ++ digits ∧
      (numberText E n).toList.length ≤ n.toList.length) ∨
    (IsDoubleText (numberText E n) ∧ (numberText E n).toList.length ≤ 32) := by
  rw [numberText]
  dsimp only
  by_cases hint : isIntegerText n.toList = true
  · rw [if_pos hint]
    left
    have hdigits : ∀ c ∈ trimMinus n.toList, '0' ≤ c ∧ c ≤ '9' := by
      rw [isIntegerText] at hint
      intro c hc
      split_ifs at hint
      have h := List.all_eq_true.mp hint c hc
      simp only [Bool.not_eq_true', Bool.or_eq_false_iff, decide_eq_false_iff_not] at h
      exact ⟨not_lt.mp h.1, not_lt.mp h.2⟩
    have hne : trimMinus n.toList ≠ [] := by
      intro h
      rw [isIntegerText, h] at hint
      cases hint
    have hlength : (minus (n.toList.head? == some '-')).length + (trimMinus n.toList).length =
        n.toList.length := by
      rw [← List.length_append, minus_append_trimMinus]
    have hdrop : ∀ c ∈ (trimMinus n.toList).dropWhile (· == '0'), '0' ≤ c ∧ c ≤ '9' :=
      fun c hc => hdigits c ((List.dropWhile_sublist _).subset hc)
    cases hempty : ((trimMinus n.toList).dropWhile (· == '0')).isEmpty with
    | true =>
      have hpos := List.length_pos_iff.mpr hne
      have hzero : "0".toList = minus false ++ ['0'] := by decide
      rw [if_pos rfl, hzero]
      refine ⟨false, ['0'], by simp, by simp, rfl, ?_⟩
      show 1 ≤ n.toList.length
      omega
    | false =>
      have hdigits : (trimMinus n.toList).dropWhile (· == '0') ≠ [] := by
        intro h
        rw [h] at hempty
        cases hempty
      have htext : (if (n.toList.head? == some '-') = true then
          String.ofList ('-' :: (trimMinus n.toList).dropWhile (· == '0'))
          else String.ofList ((trimMinus n.toList).dropWhile (· == '0'))).toList =
          minus (n.toList.head? == some '-') ++ (trimMinus n.toList).dropWhile (· == '0') := by
        rw [minus]
        split_ifs <;> exact String.toList_ofList
      have hle := (List.dropWhile_sublist (l := trimMinus n.toList) (· == '0')).length_le
      rw [if_neg Bool.false_ne_true, htext]
      refine ⟨_, _, hdigits, hdrop, rfl, ?_⟩
      rw [List.length_append]
      omega
  · rw [if_neg hint]
    exact Or.inr ⟨E.doubles.isDoubleText _, E.doubles.short _⟩

end AuthzAgent.Legacyvalue
