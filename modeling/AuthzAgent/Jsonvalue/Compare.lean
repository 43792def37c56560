/-
  AuthzAgent.Jsonvalue.Compare

  `Compare` of decimal.go is exact.  A `Numeral` is a text that writes a number,
  cut into its parts, and its `value` is the number.  The parser finds the parts
  of a text, and the number it returns has the value the text writes; the
  comparison of two such numbers goes by their first digits' place and then by
  the digits as a text.
-/

import AuthzAgent.Jsonvalue.Decimal

namespace AuthzAgent.Jsonvalue

open Digits (Orders)

/-! ## The value of a number -/

namespace Decimal

def magnitude (d : Decimal) : Rat := Digits.frac d.coef * 10 ^ (d.exp + d.coef.length)

def toRat (d : Decimal) : Rat := if d.neg then -d.magnitude else d.magnitude

/-- The place of the first digit is an `int64`, and so is the one above it. -/
structure Fits (d : Decimal) : Prop where
  lower : -2 ^ 63 < d.exp + d.coef.length
  upper : d.exp + d.coef.length < 2 ^ 63

theorem Fits.adjusted_eq {d : Decimal} (h : d.Fits) (A : Arith) :
    d.adjusted A = d.exp + d.coef.length - 1 := by
  have hlower := h.lower
  have hupper := h.upper
  rw [adjusted, A.exact (d.exp + d.coef.length) (by omega) hupper]
  exact A.exact _ (by omega) (by omega)

theorem pow_pos (n : Int) : (0 : Rat) < 10 ^ n := zpow_pos (by norm_num) n

theorem magnitude_lt (d : Decimal) : d.magnitude < 10 ^ (d.exp + d.coef.length) := by
  have h := mul_lt_mul_of_pos_right (Digits.frac_lt_one d.coef) (pow_pos (d.exp + d.coef.length))
  rwa [one_mul] at h

theorem le_magnitude {d : Decimal} (hne : d.coef ≠ []) :
    10 ^ (d.exp + d.coef.length - 1) ≤ d.magnitude := by
  have h := mul_le_mul_of_nonneg_right (Digits.tenth_le_frac d.no_leading hne)
    (pow_pos (d.exp + d.coef.length)).le
  have hten : (10 : Rat) ^ (d.exp + d.coef.length - 1) = 1 / 10 * 10 ^ (d.exp + d.coef.length) := by
    rw [zpow_sub_one₀ (by norm_num)]
    ring
  rw [hten]
  exact h

theorem magnitude_pos {d : Decimal} (hne : d.coef ≠ []) : 0 < d.magnitude :=
  (pow_pos _).trans_le (le_magnitude hne)

/-- The magnitudes compare by the place of the first digit, and then as texts. -/
theorem compareMagnitude_orders (A : Arith) {d e : Decimal} (hd : d.Fits) (he : e.Fits)
    (hdne : d.coef ≠ []) (hene : e.coef ≠ []) :
    Orders (d.compareMagnitude A e) d.magnitude e.magnitude := by
  have hless : ∀ {d e : Decimal}, e.coef ≠ [] →
      d.exp + d.coef.length - 1 < e.exp + e.coef.length - 1 → d.magnitude < e.magnitude := by
    intro d e hene hlt
    calc d.magnitude < 10 ^ (d.exp + d.coef.length) := magnitude_lt d
      _ ≤ 10 ^ (e.exp + e.coef.length - 1) := zpow_le_zpow_right₀ (by norm_num) (by omega)
      _ ≤ e.magnitude := le_magnitude hene
  rw [compareMagnitude, hd.adjusted_eq, he.adjusted_eq]
  split_ifs with hne hlt
  · exact Or.inl ⟨rfl, hless hene hlt⟩
  · exact Or.inr (Or.inr ⟨rfl, hless hdne (by omega)⟩)
  · have hplace : d.exp + d.coef.length = e.exp + e.coef.length := by omega
    rw [magnitude, magnitude, hplace]
    exact (Digits.compareText_orders d.no_trailing e.no_trailing).mul_pos (pow_pos _)

theorem sign_spec (d : Decimal) :
    (d.sign = 0 ∧ d.coef = [] ∧ d.toRat = 0) ∨
    (d.sign = -1 ∧ d.coef ≠ [] ∧ d.neg = true ∧ d.toRat < 0) ∨
    (d.sign = 1 ∧ d.coef ≠ [] ∧ d.neg = false ∧ 0 < d.toRat) := by
  by_cases hcoef : d.coef = []
  · left
    have hmag : d.magnitude = 0 := by rw [magnitude, hcoef, Digits.frac_nil, zero_mul]
    refine ⟨by simp [sign, isZero, hcoef], hcoef, ?_⟩
    rw [toRat, hmag, neg_zero, ite_self]
  · right
    have hpos := magnitude_pos hcoef
    have hzero : d.isZero = false := by simpa [isZero] using hcoef
    cases hneg : d.neg with
    | true => exact Or.inl ⟨by simp [sign, hzero, hneg], hcoef, rfl, by simp [toRat, hneg, hpos]⟩
    | false => exact Or.inr ⟨by simp [sign, hzero, hneg], hcoef, rfl, by simpa [toRat, hneg] using hpos⟩

/-- `Compare` orders numbers by their values. -/
theorem compare_orders (A : Arith) {d e : Decimal} (hd : d.Fits) (he : e.Fits) :
    Orders (d.compare A e) d.toRat e.toRat := by
  rcases sign_spec d with ⟨hds, hdc, hd0⟩ | ⟨hds, hdc, hdn, hd0⟩ | ⟨hds, hdc, hdn, hd0⟩ <;>
    rcases sign_spec e with ⟨hes, hec, he0⟩ | ⟨hes, hec, hen, he0⟩ | ⟨hes, hec, hen, he0⟩ <;>
      rw [compare, hds, hes]
  · exact Or.inr (Or.inl ⟨by simp, by rw [hd0, he0]⟩)
  · exact Or.inr (Or.inr ⟨by simp, by rw [hd0]; exact he0⟩)
  · exact Or.inl ⟨by simp, by rw [hd0]; exact he0⟩
  · exact Or.inl ⟨by simp, by rw [he0]; exact hd0⟩
  · have horders := (compareMagnitude_orders A hd he hdc hec).neg
    simpa [toRat, hdn, hen] using horders
  · exact Or.inl ⟨by simp, hd0.trans he0⟩
  · exact Or.inr (Or.inr ⟨by simp, by rw [he0]; exact hd0⟩)
  · exact Or.inr (Or.inr ⟨by simp, he0.trans hd0⟩)
  · have horders := compareMagnitude_orders A hd he hdc hec
    simpa [toRat, hdn, hen] using horders

end Decimal

/-! ## The normal form -/

def signFactor (neg : Bool) : Rat := if neg then -1 else 1

/-- `newDecimal` keeps the value of its arguments, and puts the first digit no
    higher than it stood. -/
theorem newDecimal_spec (A : Arith) (neg : Bool) (coef : List (Fin 10)) (exp : Int)
    (hlower : -2 ^ 63 < exp) (hupper : exp + coef.length < 2 ^ 63) :
    (newDecimal A neg coef exp).toRat = signFactor neg * (Digits.toNat coef * 10 ^ exp) ∧
      (newDecimal A neg coef exp).Fits := by
  rw [newDecimal]
  split_ifs with hnil
  · rw [Digits.toNat_eq_zero_of_trimLeft hnil]
    exact ⟨by simp [Decimal.zero, Decimal.toRat, Decimal.magnitude],
      by simp [Decimal.zero], by simp [Decimal.zero]⟩
  · have hleft := Digits.length_trimLeft_le coef
    have hright := Digits.length_trimRight_le (Digits.trimLeft coef)
    have hexp : A.int64 (exp + ((Digits.trimLeft coef).length -
        (Digits.trimRight (Digits.trimLeft coef)).length : Nat)) = exp +
          ((Digits.trimLeft coef).length - (Digits.trimRight (Digits.trimLeft coef)).length : Nat) :=
      A.exact _ (by omega) (by omega)
    have hplace : exp + ((Digits.trimLeft coef).length -
        (Digits.trimRight (Digits.trimLeft coef)).length : Nat) +
          (Digits.trimRight (Digits.trimLeft coef)).length =
            (Digits.trimLeft coef).length + exp := by
      omega
    refine ⟨?_, ⟨?_, ?_⟩⟩
    · rw [Digits.cast_toNat_trim, mul_assoc, ← zpow_natCast, ← zpow_add₀ (by norm_num)]
      simp only [Decimal.toRat, Decimal.magnitude, hexp, hplace, signFactor]
      cases neg <;> simp
    · simp only [hexp, hplace]
      omega
    · simp only [hexp, hplace]
      omega

theorem length_newDecimal_le (A : Arith) (neg : Bool) (coef : List (Fin 10)) (exp : Int) :
    (newDecimal A neg coef exp).coef.length ≤ coef.length := by
  rw [newDecimal]
  split_ifs
  · exact Nat.zero_le _
  · exact (Digits.length_trimRight_le _).trans (Digits.length_trimLeft_le coef)

/-! ## Numerals -/

/-- The text of an optional sign, where `true` is a minus. -/
def signText : Option Bool → List Char
  | none => []
  | some false => ['+']
  | some true => ['-']

/-- The exponent of a numeral: its letter, its sign and its digits. -/
structure ExponentPart where
  letter : Char
  sign : Option Bool
  digits : List Char

def ExponentPart.text (e : ExponentPart) : List Char := e.letter :: (signText e.sign ++ e.digits)

/-- A text that writes a number, in its parts. -/
structure Numeral (U : DecimalDigits) where
  sign : Option Bool
  int : List Char
  /-- The digits after the point, `none` for a numeral without a point. -/
  frac : Option (List Char)
  exponent : Option ExponentPart
  int_digits : ∀ c ∈ int, isDigit U c = true
  frac_digits : ∀ c ∈ frac.getD [], isDigit U c = true
  some_digit : int ++ frac.getD [] ≠ []
  exponent_letter : ∀ e ∈ exponent, e.letter = 'e' ∨ e.letter = 'E'
  exponent_digit : ∀ e ∈ exponent, e.digits ≠ []
  exponent_digits : ∀ e ∈ exponent, ∀ c ∈ e.digits, isDigit U c = true

section Number

variable (U : DecimalDigits)

/-- The integer that digits write, each with its Unicode value. -/
def number (cs : List Char) : Nat := cs.foldl (fun n c => 10 * n + U.value c.toNat) 0

/-- What an exponent raises ten to. -/
def ExponentPart.value (e : ExponentPart) : Int :=
  if e.sign = some true then -(number U e.digits) else number U e.digits

namespace Numeral

variable {U} (n : Numeral U)

def fracDigits : List Char := n.frac.getD []

def exponentText : List Char := (n.exponent.map ExponentPart.text).getD []

def fracText : List Char := (n.frac.map ('.' :: ·)).getD []

def text : List Char := signText n.sign ++ (n.int ++ (n.fracText ++ n.exponentText))

def exponentValue : Int := (n.exponent.map (ExponentPart.value U)).getD 0

/-- The number a numeral writes. -/
def value : Rat :=
  signFactor (n.sign = some true) *
    (number U (n.int ++ n.fracDigits) * 10 ^ (n.exponentValue - n.fracDigits.length))

end Numeral

/-- A text writes a number. -/
def Writes (s : String) (q : Rat) : Prop := ∃ n : Numeral U, n.text = s.toList ∧ n.value = q

end Number

/-! ## Digits -/

section Digit

variable (U : DecimalDigits)

theorem isDigit_ascii {c : Char} (h : c.toNat < 128) :
    isDigit U c = (decide (48 ≤ c.toNat) && decide (c.toNat ≤ 57)) := by
  have hbmp : c.toNat ≤ 0xFFFF := by omega
  rw [isDigit, U.ascii _ h, decide_eq_true hbmp, Bool.true_and]

theorem digitsBefore_mod {r : Nat} (h : U.isDigit r = true) : digitsBefore U r % 10 = U.value r := by
  induction r with
  | zero =>
    rw [U.ascii 0 (by decide)] at h
    cases h
  | succ r ih =>
    rw [digitsBefore]
    cases hr : U.isDigit r with
    | false => rw [if_neg Bool.false_ne_true, U.first r h hr]
    | true => rw [if_pos rfl, U.next r h hr, ← ih hr, Nat.mod_add_mod]

theorem digitsBefore_ascii {k : Nat} (hk : k ≤ 9) : digitsBefore U (48 + k) = k := by
  induction k with
  | zero =>
    show (if U.isDigit 47 then digitsBefore U 47 + 1 else 0) = 0
    rw [U.ascii 47 (by decide)]
    rfl
  | succ k ih =>
    have hdigit : U.isDigit (48 + k) = true := by
      rw [U.ascii _ (by omega), Bool.and_eq_true, decide_eq_true_eq, decide_eq_true_eq]
      omega
    show (if U.isDigit (48 + k) then digitsBefore U (48 + k) + 1 else 0) = k + 1
    rw [hdigit, if_pos rfl, ih (by omega)]

theorem digitValue_eq {c : Char} (h : isDigit U c = true) :
    (digitValue U c).val = U.value c.toNat := by
  rw [isDigit, Bool.and_eq_true] at h
  rw [digitValue]
  split_ifs with hascii
  · have hlow : 48 ≤ c.toNat := hascii.1
    have hhigh : c.toNat ≤ 57 := hascii.2
    obtain ⟨k, hk⟩ := Nat.exists_eq_add_of_le hlow
    rw [hk] at h hhigh ⊢
    rw [← digitsBefore_mod U h.2, digitsBefore_ascii U (by omega), Nat.add_sub_cancel_left]
    rfl
  · exact digitsBefore_mod U h.2

theorem toNat_map_digitValue {cs : List Char} (h : ∀ c ∈ cs, isDigit U c = true) :
    Digits.toNat (cs.map (digitValue U)) = number U cs := by
  rw [Digits.toNat, number, List.foldl_map]
  refine List.foldl_ext _ _ _ fun n c hc => ?_
  rw [digitValue_eq U (h c hc)]

end Digit

/-! ## Scanning a numeral -/

section Scan

variable {U : DecimalDigits} (A : Arith)

/-- The text does not start with a character of the kind. -/
def StartsNot (p : Char → Bool) (cs : List Char) : Prop := ∀ c ∈ cs.head?, p c = false

theorem scanSign_append (sign : Option Bool) {rest : List Char}
    (h : StartsNot (fun c => c == '+' || c == '-') rest) :
    scanSign (signText sign ++ rest) = (decide (sign = some true), rest) := by
  cases sign with
  | none =>
    cases rest with
    | nil => rfl
    | cons c rest =>
      have hc := h c rfl
      rw [Bool.or_eq_false_iff, beq_eq_false_iff_ne, beq_eq_false_iff_ne] at hc
      show scanSign (c :: rest) = _
      unfold scanSign
      split
      · rename_i heq
        exact absurd (List.cons.inj heq).1 hc.1
      · rename_i heq
        exact absurd (List.cons.inj heq).1 hc.2
      · rfl
  | some neg => cases neg <;> rfl

theorem scanDigits_append {ds rest : List Char} (hds : ∀ c ∈ ds, isDigit U c = true)
    (h : StartsNot (isDigit U) rest) :
    scanDigits U (ds ++ rest) = (ds.map (digitValue U), rest) := by
  have htake : rest.takeWhile (isDigit U) = [] := by
    cases rest with
    | nil => rfl
    | cons c rest => rw [List.takeWhile_cons, h c rfl]; rfl
  have hdrop : rest.dropWhile (isDigit U) = rest := by
    cases rest with
    | nil => rfl
    | cons c rest => rw [List.dropWhile_cons, h c rfl]; rfl
  rw [scanDigits, List.takeWhile_append_of_pos hds, List.dropWhile_append_of_pos hds, htake, hdrop,
    List.append_nil]

theorem startsNot_digit_nil : StartsNot (isDigit U) [] := fun _ h => by cases h

theorem startsNot_of_digits {p : Char → Bool} (hp : ∀ c, isDigit U c = true → p c = false)
    {ds rest : List Char} (hds : ∀ c ∈ ds, isDigit U c = true) (hne : ds ≠ []) :
    StartsNot p (ds ++ rest) := by
  cases ds with
  | nil => exact absurd rfl hne
  | cons d ds =>
    intro c hc
    obtain rfl : d = c := Option.some.inj hc
    exact hp d (hds d List.mem_cons_self)

/-- The punctuation of a numeral is no digit. -/
theorem not_isDigit {c : Char} (h : c ∈ ['+', '-', '.', 'e', 'E']) : isDigit U c = false := by
  have hascii : c.toNat < 128 ∧ ¬ (48 ≤ c.toNat ∧ c.toNat ≤ 57) := by
    simp only [List.mem_cons, List.not_mem_nil, or_false] at h
    rcases h with rfl | rfl | rfl | rfl | rfl <;> decide
  rw [isDigit_ascii U hascii.1, Bool.and_eq_false_iff, decide_eq_false_iff_not,
    decide_eq_false_iff_not]
  omega

theorem sign_of_digit (c : Char) (h : isDigit U c = true) : (c == '+' || c == '-') = false := by
  rw [Bool.or_eq_false_iff, beq_eq_false_iff_ne, beq_eq_false_iff_ne]
  constructor
  · rintro rfl
    rw [not_isDigit (by simp)] at h
    cases h
  · rintro rfl
    rw [not_isDigit (by simp)] at h
    cases h

namespace Numeral

variable (n : Numeral U)

theorem exponentText_startsNot {p : Char → Bool} (he : p 'e' = false) (hE : p 'E' = false) :
    StartsNot p n.exponentText := by
  intro c hc
  cases hexp : n.exponent with
  | none => simp [exponentText, hexp] at hc
  | some e =>
    have hletter : c = e.letter := by
      simp only [exponentText, hexp, Option.map_some, Option.getD_some, ExponentPart.text,
        List.head?_cons, Option.mem_def, Option.some.injEq] at hc
      exact hc.symm
    rcases n.exponent_letter e hexp with h | h
    · rw [hletter, h, he]
    · rw [hletter, h, hE]

theorem fracText_startsNot {p : Char → Bool} (hdot : p '.' = false) (he : p 'e' = false)
    (hE : p 'E' = false) : StartsNot p (n.fracText ++ n.exponentText) := by
  cases hfrac : n.frac with
  | none =>
    rw [fracText, hfrac]
    exact n.exponentText_startsNot he hE
  | some ds =>
    rw [fracText, hfrac]
    intro c hc
    obtain rfl : '.' = c := Option.some.inj hc
    exact hdot

theorem body_startsNot {p : Char → Bool} (hp : ∀ c, isDigit U c = true → p c = false)
    (hdot : p '.' = false) : StartsNot p (n.int ++ (n.fracText ++ n.exponentText)) := by
  by_cases hint : n.int = []
  · cases hfrac : n.frac with
    | none => exact absurd (by rw [hint, hfrac]; rfl) n.some_digit
    | some ds =>
      rw [hint, fracText, hfrac]
      intro c hc
      obtain rfl : '.' = c := Option.some.inj hc
      exact hdot
  · exact startsNot_of_digits hp n.int_digits hint

theorem refusedStart_text : refusedStart n.text = false := by
  have hdigit : ∀ c, isDigit U c = true → refusedChar c = false := by
    intro c hc
    by_cases hascii : c.toNat < 128
    · rw [isDigit_ascii U hascii, Bool.and_eq_true, decide_eq_true_eq, decide_eq_true_eq] at hc
      have hlow : ¬ c < '0' := fun h => absurd hc.1 (not_le.mpr h)
      have hhigh : ¬ '9' < c := fun h => absurd hc.2 (not_le.mpr h)
      simp [refusedChar, hlow, hhigh]
    · simp [refusedChar, hascii]
  have hbody := n.body_startsNot hdigit (by decide)
  have hne : n.int ++ (n.fracText ++ n.exponentText) ≠ [] := by
    intro hnil
    have hint : n.int = [] := (List.append_eq_nil_iff.mp hnil).1
    have hfrac : n.fracText = [] := (List.append_eq_nil_iff.mp (List.append_eq_nil_iff.mp hnil).2).1
    cases h : n.frac with
    | none => exact n.some_digit (by rw [hint, h]; rfl)
    | some ds => simp [fracText, h] at hfrac
  rw [text]
  cases n.sign with
  | some neg => cases neg <;> rfl
  | none =>
    rw [signText, List.nil_append]
    cases hcs : n.int ++ (n.fracText ++ n.exponentText) with
    | nil => exact absurd hcs hne
    | cons c cs =>
      rw [hcs] at hbody
      exact hbody c rfl

theorem scanSign_text :
    scanSign n.text = (decide (n.sign = some true), n.int ++ (n.fracText ++ n.exponentText)) :=
  scanSign_append n.sign (n.body_startsNot sign_of_digit (by decide))

theorem scanDigits_text : scanDigits U (n.int ++ (n.fracText ++ n.exponentText)) =
    (n.int.map (digitValue U), n.fracText ++ n.exponentText) :=
  scanDigits_append n.int_digits (n.fracText_startsNot (not_isDigit (by simp))
    (not_isDigit (by simp)) (not_isDigit (by simp)))

theorem scanFraction_text : scanFraction U (n.fracText ++ n.exponentText) =
    (n.fracDigits.map (digitValue U), n.exponentText) := by
  cases hfrac : n.frac with
  | none =>
    have hdot := n.exponentText_startsNot (p := (· == '.')) (by decide) (by decide)
    rw [fracText, fracDigits, hfrac]
    show scanFraction U n.exponentText = ([], n.exponentText)
    unfold scanFraction
    split
    · rename_i heq
      have h := hdot '.' (by rw [heq]; rfl)
      cases h
    · rfl
  | some ds =>
    have hds : ∀ c ∈ ds, isDigit U c = true := by
      have h := n.frac_digits
      rwa [hfrac] at h
    rw [fracText, fracDigits, hfrac]
    exact scanDigits_append hds
      (n.exponentText_startsNot (not_isDigit (by simp)) (not_isDigit (by simp)))

/-- The exponent the loop of the parser computes. -/
def scannedExponent : Option Int :=
  match n.exponent with
  | none => some 0
  | some e => ((e.digits.map (digitValue U)).foldlM (accumulate A) 0).map fun exp =>
    if e.sign = some true then A.int64 (-exp) else exp

theorem scanExponent_text :
    scanExponent U A n.exponentText = (n.scannedExponent A).map (·, []) := by
  rw [scannedExponent, exponentText]
  cases hexp : n.exponent with
  | none => rfl
  | some e =>
    have hdigits := n.exponent_digits e hexp
    have hne := n.exponent_digit e hexp
    have hsign : scanSign (signText e.sign ++ e.digits) =
        (decide (e.sign = some true), e.digits) := by
      have h : StartsNot _ (e.digits ++ []) := startsNot_of_digits sign_of_digit hdigits hne
      rw [List.append_nil] at h
      exact scanSign_append e.sign h
    have hscan : scanDigits U e.digits = (e.digits.map (digitValue U), []) := by
      have h := scanDigits_append hdigits startsNot_digit_nil
      rwa [List.append_nil] at h
    have hmap : e.digits.map (digitValue U) ≠ [] := by
      rwa [Ne, List.map_eq_nil_iff]
    show scanExponent U A (e.letter :: (signText e.sign ++ e.digits)) = _
    rw [scanExponent, if_pos (n.exponent_letter e hexp), hsign]
    dsimp only
    rw [hscan]
    cases (e.digits.map (digitValue U)).foldlM (accumulate A) 0 with
    | none => simp
    | some exp => simp [hmap]

end Numeral

end Scan

/-! ## The exponent -/

theorem accumulate_eq (A : Arith) {exp : Nat} (hexp : (exp : Int) ≤ maxExponent) (d : Fin 10) :
    accumulate A exp d =
      if ((10 * exp + d.val : Nat) : Int) ≤ maxExponent then some ((10 * exp + d.val : Nat) : Int)
      else none := by
  have hd : d.val ≤ 9 := Nat.le_of_lt_succ d.isLt
  have hmax : maxExponent = 1152921504606846976 := by decide
  rw [hmax] at hexp
  have hbound : A.int64 (maxExponent - d.val) = maxExponent - d.val := by
    rw [hmax]
    exact A.exact _ (by omega) (by omega)
  rw [accumulate, hbound, Int.tdiv_eq_ediv_of_nonneg (by rw [hmax]; omega), hmax]
  split_ifs with hover hfits hfits
  · omega
  · rfl
  · -- the check keeps the product in range
    have hmul : A.int64 ((exp : Int) * 10) = exp * 10 := A.exact _ (by omega) (by omega)
    have hadd : A.int64 ((exp : Int) * 10 + d.val) = exp * 10 + d.val :=
      A.exact _ (by omega) (by omega)
    rw [hmul, hadd]
    congr 1
    push_cast
    omega
  · omega

theorem foldl_digits_ge (ds : List (Fin 10)) (n : Nat) :
    n ≤ ds.foldl (fun n d => 10 * n + d.val) n := by
  induction ds generalizing n with
  | nil => exact le_refl n
  | cons d ds ih =>
    have h := ih (10 * n + d.val)
    rw [List.foldl_cons]
    omega

/-- The loop computes the exponent unless it exceeds the bound. -/
theorem foldlM_accumulate (A : Arith) (ds : List (Fin 10)) (exp : Nat)
    (hexp : (exp : Int) ≤ maxExponent) :
    ds.foldlM (accumulate A) (exp : Int) =
      if ((ds.foldl (fun n d => 10 * n + d.val) exp : Nat) : Int) ≤ maxExponent
      then some ((ds.foldl (fun n d => 10 * n + d.val) exp : Nat) : Int) else none := by
  induction ds generalizing exp with
  | nil => simp [hexp]
  | cons d ds ih =>
    rw [List.foldlM_cons, accumulate_eq A hexp, List.foldl_cons]
    split_ifs with hstep hrest hrest
    · rw [Option.bind_eq_bind, Option.bind_some, ih _ hstep, if_pos hrest]
    · rw [Option.bind_eq_bind, Option.bind_some, ih _ hstep, if_neg hrest]
    · -- past the bound, more digits only add
      have h := foldl_digits_ge ds (10 * exp + d.val)
      omega
    · rfl

/-! ## Parsing -/

section Parsing

variable {U : DecimalDigits} (A : Arith)

/-- The loop computes the exponent of a numeral unless it exceeds the bound. -/
theorem Numeral.scannedExponent_eq_ite (n : Numeral U) :
    n.scannedExponent A =
      if |n.exponentValue| ≤ maxExponent then some n.exponentValue else none := by
  have hmax : maxExponent = 1152921504606846976 := by decide
  rw [scannedExponent, exponentValue]
  cases hexp : n.exponent with
  | none => rw [Option.map_none, Option.getD_none, if_pos (by rw [hmax]; decide)]
  | some e =>
    have hfold := foldlM_accumulate A (e.digits.map (digitValue U)) 0 (by decide)
    have hnumber := toNat_map_digitValue U (n.exponent_digits e hexp)
    rw [Digits.toNat] at hnumber
    rw [hnumber, Nat.cast_zero] at hfold
    have habs : |e.value U| = number U e.digits := by
      rw [ExponentPart.value]
      split_ifs
      · rw [abs_neg, Nat.abs_cast]
      · rw [Nat.abs_cast]
    show Option.map _ ((e.digits.map (digitValue U)).foldlM (accumulate A) 0) = _
    rw [hfold, Option.map_some, Option.getD_some, habs]
    by_cases hle : (number U e.digits : Int) ≤ maxExponent
    · rw [if_pos hle, if_pos hle, Option.map_some, ExponentPart.value]
      congr 1
      split_ifs
      · exact A.exact _ (by omega) (by omega)
      · rfl
    · rw [if_neg hle, if_neg hle]
      rfl

/-- The parser computes with the parts of a numeral. -/
theorem parseDecimal_text {n : Numeral U} {s : String} (hs : n.text = s.toList) :
    parseDecimal U A s = (n.scannedExponent A).map fun exp =>
      (newDecimal A (n.sign = some true) ((n.int ++ n.fracDigits).map (digitValue U))
        (A.int64 (exp - n.fracDigits.length)), A.int64 (n.fracDigits.length - exp)) := by
  have hstart : refusedStart n.text = false := n.refusedStart_text
  have hdigits : (n.int.map (digitValue U)).length + (n.fracDigits.map (digitValue U)).length ≠ 0 := by
    have h := n.some_digit
    intro hzero
    apply h
    rw [List.length_map, List.length_map] at hzero
    exact List.eq_nil_of_length_eq_zero (by rw [List.length_append]; exact hzero)
  rw [parseDecimal, ← hs]
  dsimp only
  rw [hstart, if_neg Bool.false_ne_true, n.scanSign_text]
  dsimp only
  rw [n.scanDigits_text]
  dsimp only
  rw [n.scanFraction_text]
  dsimp only
  rw [if_neg hdigits, n.scanExponent_text A, List.length_map]
  cases n.scannedExponent A with
  | none => rfl
  | some exp => simp [List.map_append]

theorem scanSign_split (cs : List Char) : ∃ sign, cs = signText sign ++ (scanSign cs).2 := by
  unfold scanSign
  split
  · exact ⟨some false, rfl⟩
  · exact ⟨some true, rfl⟩
  · exact ⟨none, rfl⟩

theorem scanDigits_split (cs : List Char) : ∃ ds, cs = ds ++ (scanDigits U cs).2 ∧
    (scanDigits U cs).1 = ds.map (digitValue U) ∧ ∀ c ∈ ds, isDigit U c = true :=
  ⟨cs.takeWhile (isDigit U), (List.takeWhile_append_dropWhile).symm, rfl,
    fun _ hc => List.mem_takeWhile_imp hc⟩

theorem scanFraction_split (cs : List Char) : ∃ frac : Option (List Char),
    cs = (frac.map ('.' :: ·)).getD [] ++ (scanFraction U cs).2 ∧
    (scanFraction U cs).1 = (frac.getD []).map (digitValue U) ∧
    ∀ c ∈ frac.getD [], isDigit U c = true := by
  unfold scanFraction
  split
  · rename_i rs
    obtain ⟨ds, hsplit, hvalue, hds⟩ := scanDigits_split (U := U) rs
    exact ⟨some ds, congrArg ('.' :: ·) hsplit, hvalue, hds⟩
  · exact ⟨none, rfl, rfl, nofun⟩

theorem scanExponent_split {cs rest : List Char} {exp : Int}
    (h : scanExponent U A cs = some (exp, rest)) : ∃ e : Option ExponentPart,
      cs = (e.map ExponentPart.text).getD [] ++ rest ∧
      ∀ p ∈ e, (p.letter = 'e' ∨ p.letter = 'E') ∧ p.digits ≠ [] ∧
        ∀ c ∈ p.digits, isDigit U c = true := by
  cases cs with
  | nil =>
    obtain ⟨-, rfl⟩ := Prod.mk.inj (Option.some.inj h)
    exact ⟨none, rfl, nofun⟩
  | cons c cs =>
    rw [scanExponent] at h
    split_ifs at h with hletter
    · obtain ⟨sign, hsign⟩ := scanSign_split cs
      obtain ⟨ds, hsplit, hvalue, hds⟩ := scanDigits_split (U := U) (scanSign cs).2
      dsimp only at h
      obtain ⟨exp', -, h⟩ := Option.bind_eq_some_iff.mp h
      have hnil : (scanDigits U (scanSign cs).2).1 ≠ [] := fun hnil => by simp [hnil] at h
      rw [if_neg hnil] at h
      obtain ⟨-, rfl⟩ := Prod.mk.inj (Option.some.inj h)
      refine ⟨some ⟨c, sign, ds⟩, ?_, ?_⟩
      · show c :: cs = c :: (signText sign ++ ds) ++ (scanDigits U (scanSign cs).2).2
        rw [List.cons_append, List.append_assoc, ← hsplit, ← hsign]
      · intro p hp
        obtain rfl := Option.some.inj hp
        refine ⟨hletter, ?_, hds⟩
        rintro rfl
        exact hnil hvalue
    · obtain ⟨-, rfl⟩ := Prod.mk.inj (Option.some.inj h)
      exact ⟨none, rfl, nofun⟩

/-- Every text the parser accepts is a numeral. -/
theorem exists_numeral {s : String} {p : Decimal × Int} (h : parseDecimal U A s = some p) :
    ∃ n : Numeral U, n.text = s.toList := by
  rw [parseDecimal] at h
  dsimp only at h
  split_ifs at h with hstart hdigits
  · obtain ⟨⟨exp, rest⟩, hexp, h⟩ := Option.bind_eq_some_iff.mp h
    have hrest : rest = [] := by
      by_contra hne
      simp [hne] at h
    subst hrest
    obtain ⟨sign, hsign⟩ := scanSign_split s.toList
    obtain ⟨int, hint, hintValue, hintDigits⟩ := scanDigits_split (U := U) (scanSign s.toList).2
    obtain ⟨frac, hfrac, hfracValue, hfracDigits⟩ :=
      scanFraction_split (U := U) (scanDigits U (scanSign s.toList).2).2
    obtain ⟨e, he, heparts⟩ := scanExponent_split A hexp
    have hsome : int ++ frac.getD [] ≠ [] := by
      intro hnil
      apply hdigits
      rw [hintValue, hfracValue, List.length_map, List.length_map, ← List.length_append, hnil]
      rfl
    refine ⟨⟨sign, int, frac, e, hintDigits, hfracDigits, hsome, fun p hp => (heparts p hp).1,
      fun p hp => (heparts p hp).2.1, fun p hp => (heparts p hp).2.2⟩, ?_⟩
    rw [hsign, hint, hfrac, he, List.append_nil]
    rfl

end Parsing

/-! ## Exact comparison -/

/-- A Go string.  Its length is an `int`, and no process has 2^62 bytes. -/
structure GoString where
  text : String
  fits : text.toList.length < 2 ^ 62

/-- The parser returns the number a numeral writes and its scale, unless the
    exponent exceeds the bound. -/
theorem parseDecimal_numeral {U : DecimalDigits} (A : Arith) {n : Numeral U} {s : String}
    (hs : n.text = s.toList) (hlen : n.int.length + n.fracDigits.length < 2 ^ 62 + 2 ^ 61)
    (hexp : |n.exponentValue| ≤ maxExponent) :
    ∃ d, parseDecimal U A s = some (d, n.fracDigits.length - n.exponentValue) ∧
      d.toRat = n.value ∧ d.Fits ∧ d.coef.length ≤ n.int.length + n.fracDigits.length := by
  have hmax : maxExponent = 1152921504606846976 := by decide
  obtain ⟨hlower, hupper⟩ := abs_le.mp hexp
  have hexact : A.int64 (n.exponentValue - n.fracDigits.length) =
      n.exponentValue - n.fracDigits.length :=
    A.exact _ (by omega) (by omega)
  have hscale : A.int64 (n.fracDigits.length - n.exponentValue) =
      n.fracDigits.length - n.exponentValue :=
    A.exact _ (by omega) (by omega)
  have hdigits : ∀ c ∈ n.int ++ n.fracDigits, isDigit U c = true := by
    intro c hc
    rcases List.mem_append.mp hc with hc | hc
    · exact n.int_digits c hc
    · exact n.frac_digits c hc
  have hcount : ((n.int ++ n.fracDigits).map (digitValue U)).length =
      n.int.length + n.fracDigits.length := by
    rw [List.length_map, List.length_append]
  obtain ⟨hvalue, hd⟩ := newDecimal_spec A (n.sign = some true)
    ((n.int ++ n.fracDigits).map (digitValue U))
    (n.exponentValue - n.fracDigits.length) (by omega) (by rw [hcount]; push_cast; omega)
  refine ⟨_, ?_, ?_, hd, hcount ▸ length_newDecimal_le A _ _ _⟩
  · rw [parseDecimal_text A hs, n.scannedExponent_eq_ite A, if_pos hexp, Option.map_some, hexact,
      hscale]
  · rw [hvalue, toNat_map_digitValue U hdigits, Numeral.value]

theorem Numeral.length_le {U : DecimalDigits} (n : Numeral U) :
    n.int.length + n.fracDigits.length ≤ n.text.length := by
  have hfrac : n.fracDigits.length ≤ n.fracText.length := by
    rw [Numeral.fracDigits, Numeral.fracText]
    cases n.frac <;> simp
  rw [Numeral.text]
  simp only [List.length_append]
  omega

/-- A numeral that is accepted, and what the parser returns for it. -/
theorem exists_numeral_of_parseDecimal {U : DecimalDigits} (A : Arith) {s : GoString} {d : Decimal}
    {scale : Int} (h : parseDecimal U A s.text = some (d, scale)) :
    ∃ n : Numeral U, n.text = s.text.toList ∧ |n.exponentValue| ≤ maxExponent ∧
      scale = n.fracDigits.length - n.exponentValue ∧ d.toRat = n.value ∧ d.Fits ∧
      d.coef.length ≤ n.int.length + n.fracDigits.length := by
  obtain ⟨n, hn⟩ := exists_numeral A h
  have hexp : |n.exponentValue| ≤ maxExponent := by
    by_contra hover
    rw [parseDecimal_text A hn, n.scannedExponent_eq_ite A, if_neg hover] at h
    cases h
  have hlen := n.length_le
  rw [hn] at hlen
  have hfits := s.fits
  obtain ⟨d', hparse, hvalue, hd, hcoef⟩ := parseDecimal_numeral A hn (by omega) hexp
  rw [h] at hparse
  obtain ⟨rfl, rfl⟩ := Prod.mk.inj (Option.some.inj hparse)
  exact ⟨n, hn, hexp, rfl, hvalue, hd, hcoef⟩

theorem ExponentPart.value_eq_of_text {U : DecimalDigits} {e f : ExponentPart}
    (he : ∀ c ∈ e.digits, isDigit U c = true) (hf : ∀ c ∈ f.digits, isDigit U c = true)
    (hene : e.digits ≠ []) (hfne : f.digits ≠ []) (h : e.text = f.text) :
    e.value U = f.value U := by
  have hscan : ∀ {e : ExponentPart}, (∀ c ∈ e.digits, isDigit U c = true) → e.digits ≠ [] →
      scanSign (signText e.sign ++ e.digits) = (decide (e.sign = some true), e.digits) := by
    intro e he hne
    have hstart : StartsNot _ (e.digits ++ []) := startsNot_of_digits sign_of_digit he hne
    rw [List.append_nil] at hstart
    exact scanSign_append e.sign hstart
  have htail := (List.cons.inj h).2
  have heq := hscan he hene
  rw [htail, hscan hf hfne] at heq
  obtain ⟨hsign, hdigits⟩ := Prod.mk.inj heq
  rw [ExponentPart.value, ExponentPart.value, hdigits]
  have hiff : e.sign = some true ↔ f.sign = some true := by
    rw [← decide_eq_decide, hsign]
  simp only [hiff]

/-- A text writes one number. -/
theorem Numeral.value_eq_of_text {U : DecimalDigits} {m n : Numeral U} (h : m.text = n.text) :
    m.value = n.value := by
  have hsign := m.scanSign_text
  rw [h, n.scanSign_text] at hsign
  obtain ⟨hneg, hbody⟩ := Prod.mk.inj hsign
  have hint := m.scanDigits_text
  rw [← hbody, n.scanDigits_text] at hint
  obtain ⟨hint, hrest⟩ := Prod.mk.inj hint
  have hfrac := m.scanFraction_text
  rw [← hrest, n.scanFraction_text] at hfrac
  obtain ⟨hfrac, hexp⟩ := Prod.mk.inj hfrac
  have hnumber : ∀ k : Numeral U, number U (k.int ++ k.fracDigits) =
      Digits.toNat (k.int.map (digitValue U) ++ k.fracDigits.map (digitValue U)) := by
    intro k
    rw [← List.map_append, toNat_map_digitValue]
    intro c hc
    rcases List.mem_append.mp hc with hc | hc
    · exact k.int_digits c hc
    · exact k.frac_digits c hc
  have hlen : m.fracDigits.length = n.fracDigits.length := by
    have hlength := congrArg List.length hfrac
    rwa [List.length_map, List.length_map, eq_comm] at hlength
  have hexpValue : m.exponentValue = n.exponentValue := by
    rw [exponentText, exponentText] at hexp
    rw [exponentValue, exponentValue]
    cases hm : m.exponent with
    | none =>
      cases hn : n.exponent with
      | none => rfl
      | some f => simp [hm, hn, ExponentPart.text] at hexp
    | some e =>
      cases hn : n.exponent with
      | none => simp [hm, hn, ExponentPart.text] at hexp
      | some f =>
        rw [hm, hn] at hexp
        exact ExponentPart.value_eq_of_text (m.exponent_digits e hm) (n.exponent_digits f hn)
          (m.exponent_digit e hm) (n.exponent_digit f hn) hexp.symm
  rw [value, value, hnumber, hnumber, hint, hfrac, hneg, hlen, hexpValue]

/-- An accepted text writes exactly the number the parser returns. -/
theorem writes_iff {U : DecimalDigits} (A : Arith) {s : GoString} {d : Decimal}
    (h : parseDecimalText U A s.text = some d) :
    (∀ q, Writes U s.text q ↔ q = d.toRat) ∧ d.Fits := by
  obtain ⟨⟨d', scale⟩, hparse, hd⟩ := Option.map_eq_some_iff.mp h
  obtain rfl : d' = d := hd
  obtain ⟨n, hn, -, -, hvalue, hfits, -⟩ := exists_numeral_of_parseDecimal A hparse
  refine ⟨fun q => ⟨?_, ?_⟩, hfits⟩
  · rintro ⟨m, hm, rfl⟩
    rw [hvalue]
    exact Numeral.value_eq_of_text (hm.trans hn.symm)
  · rintro rfl
    exact ⟨n, hn, hvalue.symm⟩

/-- `Compare` of two parsed texts is exact: each text writes one number, and the
    result is the order of the two. -/
theorem compare_parsed_exact (U : DecimalDigits) (A : Arith) (a b : GoString) (d e : Decimal)
    (ha : parseDecimalText U A a.text = some d) (hb : parseDecimalText U A b.text = some e) :
    ∃ p q : Rat, (∀ r, Writes U a.text r ↔ r = p) ∧ (∀ r, Writes U b.text r ↔ r = q) ∧
      (d.compare A e = -1 ↔ p < q) ∧ (d.compare A e = 0 ↔ p = q) ∧
      (d.compare A e = 1 ↔ q < p) := by
  obtain ⟨hp, hd⟩ := writes_iff A ha
  obtain ⟨hq, he⟩ := writes_iff A hb
  exact ⟨d.toRat, e.toRat, hp, hq, (Decimal.compare_orders A hd he).iff⟩

/-- A fraction of 17 digits against a number with the least exponent. -/
theorem compare_long_fraction :
    ∃ d e : Decimal, parseDecimalText .asciiOnly .go "0.30000000000000001" = some d ∧
      parseDecimalText .asciiOnly .go "3e-1152921504606846976" = some e ∧
      ∃ p q : Rat, Writes .asciiOnly "0.30000000000000001" p ∧
        Writes .asciiOnly "3e-1152921504606846976" q ∧ d.compare .go e = 1 ∧ q < p := by
  have ha : parseDecimalText .asciiOnly .go "0.30000000000000001" =
      some ((parseDecimalText .asciiOnly .go "0.30000000000000001").getD .zero) := by
    decide +kernel
  have hb : parseDecimalText .asciiOnly .go "3e-1152921504606846976" =
      some ((parseDecimalText .asciiOnly .go "3e-1152921504606846976").getD .zero) := by
    decide +kernel
  have hcompare : ((parseDecimalText .asciiOnly .go "0.30000000000000001").getD .zero).compare .go
      ((parseDecimalText .asciiOnly .go "3e-1152921504606846976").getD .zero) = 1 := by
    decide +kernel
  obtain ⟨p, q, hp, hq, -, -, hgt⟩ := compare_parsed_exact .asciiOnly .go
    ⟨"0.30000000000000001", by decide⟩ ⟨"3e-1152921504606846976", by decide⟩ _ _ ha hb
  exact ⟨_, _, ha, hb, p, q, (hp p).mpr rfl, (hq q).mpr rfl, hcompare, hgt.mp hcompare⟩

end AuthzAgent.Jsonvalue
