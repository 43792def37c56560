/-
  AuthzAgent.Jsonvalue.BigDecimalText

  `BigDecimalText` (bigdecimaltext.go of jsonvalue): the text that Java's
  `BigDecimal` prints for a text it reads.

  A numeral has a coefficient, the integer of all its digits, and a scale.  The
  second parser of `BigDecimalText` finds both (`bigDecimalText_eq`), and its
  text is a numeral with the same coefficient and the same scale
  (`exists_numeral_layout`), so reading it back gives the number and the scale.
-/

import AuthzAgent.Jsonvalue.DecimalText

namespace AuthzAgent.Jsonvalue

/-! ## The text -/

def asciiDigit (c : Char) : Fin 10 := Fin.ofNat 10 (c.toNat - 48)

/-- The value that `strconv.ParseInt(s, 10, 64)` returns, beside an error or not:
    0 for a text that is no integer, and the nearest `int64` for one out of
    range. -/
def parseInt64 (cs : List Char) : Int :=
  let (neg, digits) := scanSign cs
  if digits = [] ∨ ¬digits.all Char.isDigit then 0
  else
    let n : Int := Digits.toNat (digits.map asciiDigit)
    if neg then max (-n) (-2 ^ 63) else min n (2 ^ 63 - 1)

section

variable (U : DecimalDigits) (A : Arith)

/-- The loop over the digits and the point: the digits, the number of those
    after the point, and what follows. -/
def scanMantissa : Bool → List Char → List (Fin 10) × Nat × List Char
  | _, [] => ([], 0, [])
  | inFrac, c :: rs =>
    if c = 'e' ∨ c = 'E' then ([], 0, c :: rs)
    else if c = '.' then scanMantissa true rs
    else
      let (digits, fracDigits, rest) := scanMantissa inFrac rs
      (digitValue U c :: digits, if inFrac then fracDigits + 1 else fracDigits, rest)

/-- The exponent after its letter. -/
def scanBigExponent : List Char → Int
  | [] => 0
  | _ :: rs => parseInt64 (rs.map fun r => if isDigit U r then digitChar (digitValue U r) else r)

/-- The text of a number with a given coefficient and scale. -/
def layout (neg : Bool) (coef : List (Fin 10)) (scale : Int) : List Char :=
  let adjusted := A.int64 (A.int64 (A.int64 (-scale) + coef.length) - 1)
  let digits := coef.map digitChar
  (if neg then ['-'] else []) ++
    if scale = 0 then digits
    else if scale > 0 ∧ adjusted ≥ -6 then
      if coef.length > scale then
        let point := (A.int64 (coef.length - scale)).toNat
        digits.take point ++ '.' :: digits.drop point
      else '0' :: '.' :: (List.replicate (A.int64 (scale - coef.length)).toNat '0' ++ digits)
    else
      digits.take 1 ++ ((if digits.length > 1 then '.' :: digits.drop 1 else []) ++
        'E' :: ((if adjusted > 0 then ['+'] else []) ++ formatInt adjusted))

def bigDecimalText (s : String) : Option String :=
  (parseBigDecimal U A s).map fun _ =>
    let (neg, rs) := scanSign s.toList
    let (digits, fracDigits, rs) := scanMantissa U false rs
    let exp := scanBigExponent U rs
    let coef := Digits.trimLeft digits
    let scale := A.int64 (fracDigits - exp)
    String.ofList
      (if coef = [] then layout A false [0] scale else layout A neg coef scale)

end

/-! ## Coefficient and scale -/

namespace Numeral

variable {U : DecimalDigits} (n : Numeral U)

/-- The integer of all digits. -/
def coefficient : Nat := number U (n.int ++ n.fracDigits)

/-- The count of digits after the point less the exponent. -/
def scale : Int := n.fracDigits.length - n.exponentValue

theorem value_eq_scaled :
    n.value = signFactor (n.sign = some true) * (n.coefficient * 10 ^ (-n.scale)) := by
  rw [value, coefficient, scale, neg_sub]

theorem isDigit_digits : ∀ c ∈ n.int ++ n.fracDigits, isDigit U c = true := by
  intro c hc
  rcases List.mem_append.mp hc with hc | hc
  · exact n.int_digits c hc
  · exact n.frac_digits c hc

theorem coefficient_eq :
    n.coefficient = Digits.toNat ((n.int ++ n.fracDigits).map (digitValue U)) :=
  (toNat_map_digitValue U n.isDigit_digits).symm

end Numeral

/-! ## The second parser -/

section Scan

variable {U : DecimalDigits}

/-- Digits are taken one by one. -/
theorem scanMantissa_digits (inFrac : Bool) {ds : List Char} (hds : ∀ c ∈ ds, isDigit U c = true)
    (rest : List Char) :
    scanMantissa U inFrac (ds ++ rest) =
      (ds.map (digitValue U) ++ (scanMantissa U inFrac rest).1,
        (if inFrac then ds.length else 0) + (scanMantissa U inFrac rest).2.1,
        (scanMantissa U inFrac rest).2.2) := by
  induction ds with
  | nil => simp
  | cons c ds ih =>
    have hc := hds c List.mem_cons_self
    have hnot : ∀ d ∈ ['+', '-', '.', 'e', 'E'], c ≠ d := by
      rintro d hd rfl
      rw [not_isDigit hd] at hc
      cases hc
    have hexp : ¬(c = 'e' ∨ c = 'E') := by
      rintro (h | h)
      · exact hnot 'e' (by simp) h
      · exact hnot 'E' (by simp) h
    rw [List.cons_append, scanMantissa, if_neg hexp, if_neg (hnot '.' (by simp)),
      ih fun d hd => hds d (List.mem_cons_of_mem c hd)]
    cases inFrac with
    | false => rfl
    | true =>
      simp only [if_true, List.map_cons, List.cons_append, List.length_cons, Prod.mk.injEq,
        true_and, and_true]
      omega

theorem scanMantissa_text (n : Numeral U) :
    scanMantissa U false (n.int ++ (n.fracText ++ n.exponentText)) =
      ((n.int ++ n.fracDigits).map (digitValue U), n.fracDigits.length, n.exponentText) := by
  have hexp : ∀ inFrac, scanMantissa U inFrac n.exponentText = ([], 0, n.exponentText) := by
    intro inFrac
    rw [Numeral.exponentText]
    cases hn : n.exponent with
    | none => rfl
    | some e => exact if_pos (n.exponent_letter e hn)
  rw [scanMantissa_digits false n.int_digits, Numeral.fracText, Numeral.fracDigits]
  have hfrac := n.frac_digits
  cases hn : n.frac with
  | none =>
    simp only [Option.map_none, Option.getD_none, List.nil_append, hexp]
    simp
  | some ds =>
    rw [hn, Option.getD_some] at hfrac
    have hpoint : scanMantissa U false ('.' :: (ds ++ n.exponentText)) =
        scanMantissa U true (ds ++ n.exponentText) := rfl
    simp only [Option.map_some, Option.getD_some, List.cons_append, hpoint,
      scanMantissa_digits true hfrac, hexp]
    simp

theorem parseInt64_digits {neg : Bool} {cs : List Char} {ds : List (Fin 10)} (hne : ds ≠ [])
    (hscan : scanSign cs = (neg, ds.map digitChar)) (hbound : Digits.toNat ds < 2 ^ 63) :
    parseInt64 cs = if neg then -(Digits.toNat ds : Int) else Digits.toNat ds := by
  have hdigit : ∀ d, (digitChar d).isDigit = true ∧ asciiDigit (digitChar d) = d := by decide
  have hall : (ds.map digitChar).all Char.isDigit = true := by
    rw [List.all_map, List.all_eq_true]
    exact fun d _ => (hdigit d).1
  have hback : (ds.map digitChar).map asciiDigit = ds := by
    rw [List.map_map]
    conv_rhs => rw [← List.map_id ds]
    exact List.map_congr_left fun d _ => (hdigit d).2
  have hlegal : ¬(ds.map digitChar = [] ∨ ¬(ds.map digitChar).all Char.isDigit = true) := by
    rw [hall, List.map_eq_nil_iff]
    simp [hne]
  rw [parseInt64, hscan]
  simp only
  rw [if_neg hlegal, hback]
  split_ifs <;> omega

/-- The exponent that is read is the one the numeral writes. -/
theorem scanBigExponent_text (n : Numeral U) (h : |n.exponentValue| ≤ maxExponent) :
    scanBigExponent U n.exponentText = n.exponentValue := by
  have hmax : maxExponent = 1152921504606846976 := by decide
  rw [Numeral.exponentText] at *
  rw [Numeral.exponentValue] at *
  cases hn : n.exponent with
  | none => rfl
  | some e =>
    have hdigits := n.exponent_digits e hn
    have hne := n.exponent_digit e hn
    rw [hn, Option.map_some, Option.getD_some] at h
    have hnumber : Digits.toNat (e.digits.map (digitValue U)) = number U e.digits :=
      toNat_map_digitValue U hdigits
    have hvalue : e.value U = if decide (e.sign = some true) then
        -(number U e.digits : Int) else number U e.digits := by
      rw [ExponentPart.value]
      simp only [decide_eq_true_eq]
    have habs : |e.value U| = number U e.digits := by
      rw [hvalue]
      split_ifs
      · rw [abs_neg, Nat.abs_cast]
      · rw [Nat.abs_cast]
    have hascii : e.digits.map (fun r => if isDigit U r then digitChar (digitValue U r) else r) =
        (e.digits.map (digitValue U)).map digitChar := by
      rw [List.map_map]
      exact List.map_congr_left fun c hc => if_pos (hdigits c hc)
    have hsign : (signText e.sign).map
        (fun r => if isDigit U r then digitChar (digitValue U r) else r) = signText e.sign := by
      rcases hs : e.sign with _ | _ | _
      · rfl
      · simp [signText, not_isDigit (U := U) (c := '+') (by simp)]
      · simp [signText, not_isDigit (U := U) (c := '-') (by simp)]
    have hmap : (e.digits.map (digitValue U)) ≠ [] := by
      rwa [Ne, List.map_eq_nil_iff]
    have hscan : scanSign (signText e.sign ++ (e.digits.map (digitValue U)).map digitChar) =
        (decide (e.sign = some true), (e.digits.map (digitValue U)).map digitChar) := by
      refine scanSign_append e.sign ?_
      have hstart : StartsNot _ ((e.digits.map (digitValue U)).map digitChar ++ []) :=
        startsNot_of_digits (sign_of_digit (U := U)) (fun c hc => isDigit_map_digitChar U hc)
          (by rwa [Ne, List.map_eq_nil_iff])
      rwa [List.append_nil] at hstart
    show scanBigExponent U (e.letter :: (signText e.sign ++ e.digits)) = e.value U
    rw [scanBigExponent, List.map_append, hsign, hascii,
      parseInt64_digits hmap hscan (by rw [hnumber]; omega), hnumber, hvalue]

end Scan

/-! ## The text is a numeral -/

/-- The exponent part that Java writes: a capital letter and a sign. -/
def javaExponent (n : Int) : ExponentPart where
  letter := 'E'
  sign := if n < 0 then some true else if n > 0 then some false else none
  digits := (Digits.ofNat n.natAbs).map digitChar

theorem javaExponent_text (n : Int) :
    (javaExponent n).text = 'E' :: ((if n > 0 then ['+'] else []) ++ formatInt n) := by
  rw [ExponentPart.text, javaExponent, formatInt]
  split_ifs <;> first | omega | rfl

theorem javaExponent_value (U : DecimalDigits) (n : Int) : (javaExponent n).value U = n := by
  have hdigits : number U (javaExponent n).digits = n.natAbs := by
    rw [javaExponent, number_digitChar, Digits.toNat_ofNat]
  rw [ExponentPart.value, hdigits, javaExponent]
  by_cases hneg : n < 0
  · rw [if_pos hneg, if_pos rfl]
    omega
  · have hsign : (if n < 0 then some true else if n > 0 then some false else none) ≠ some true := by
      rw [if_neg hneg]
      split_ifs <;> simp
    rw [if_neg hsign]
    omega

section Layout

variable (U : DecimalDigits)

/-- The numeral with given digits and an exponent as Java writes it. -/
def Numeral.javaDigits (neg : Bool) (int : List (Fin 10)) (frac : Option (List (Fin 10))) (exp : Int)
    (hint : int ≠ []) : Numeral U where
  __ := Numeral.ofDigits U neg int frac none hint
  exponent := some (javaExponent exp)
  exponent_letter := by
    intro e he
    obtain rfl := Option.some.inj he
    exact Or.inr rfl
  exponent_digit := by
    intro e he
    obtain rfl := Option.some.inj he
    simpa [javaExponent] using Digits.ofNat_ne_nil exp.natAbs
  exponent_digits := by
    intro e he c hc
    obtain rfl := Option.some.inj he
    exact isDigit_map_digitChar U hc

/-- A numeral with a given sign, coefficient and scale whose text is a given one. -/
structure Prints (text : List Char) (neg : Bool) (coef : List (Fin 10)) (scale : Int)
    (n : Numeral U) : Prop where
  text_eq : n.text = text
  sign_eq : decide (n.sign = some true) = neg
  coefficient_eq : n.coefficient = Digits.toNat coef
  scale_eq : n.scale = scale
  length_le : n.int.length + n.fracDigits.length ≤ coef.length + 6
  exponent_le : |n.exponentValue| ≤ maxExponent

variable {U}

theorem prints_ofDigits {neg : Bool} {int frac coef : List (Fin 10)} {scale : Int} (hint : int ≠ [])
    {point : Option (List (Fin 10))} (hpoint : point.getD [] = frac)
    (hcoef : Digits.toNat (int ++ frac) = Digits.toNat coef) (hscale : (frac.length : Int) = scale)
    (hlen : int.length + frac.length ≤ coef.length + 6) {text : List Char}
    (htext : text = (if neg then ['-'] else []) ++ (int.map digitChar ++
      (point.map fun ds => '.' :: ds.map digitChar).getD [])) :
    Prints U text neg coef scale (Numeral.ofDigits U neg int point none hint) where
  text_eq := by
    rw [Numeral.text_ofDigits, htext]
    simp
  sign_eq := by cases neg <;> rfl
  coefficient_eq := by
    rw [Numeral.coefficient, Numeral.fracDigits_ofDigits, hpoint]
    show number U (int.map digitChar ++ _) = _
    rw [← List.map_append, number_digitChar, hcoef]
  scale_eq := by
    rw [Numeral.scale, Numeral.fracDigits_ofDigits, Numeral.exponentValue_ofDigits, hpoint,
      List.length_map, hscale]
    simp
  length_le := by
    rw [Numeral.fracDigits_ofDigits, hpoint, List.length_map]
    show (int.map digitChar).length + _ ≤ _
    rw [List.length_map]
    exact hlen
  exponent_le := by
    rw [Numeral.exponentValue_ofDigits]
    decide

/-- One digit before the point, the others after it, and an exponent. -/
theorem prints_javaDigits {neg : Bool} {coef : List (Fin 10)} (hne : coef ≠ []) {scale exp : Int}
    (hexp : exp = -scale + coef.length - 1) (hle : |exp| ≤ maxExponent)
    {point : Option (List (Fin 10))} (hpoint : point.getD [] = coef.drop 1) {text : List Char}
    (htext : text = (if neg then ['-'] else []) ++ ((coef.take 1).map digitChar ++
      ((point.map fun ds => '.' :: ds.map digitChar).getD [] ++ (javaExponent exp).text))) :
    ∃ n, Prints U text neg coef scale n := by
  have hint : coef.take 1 ≠ [] := by simp [hne]
  have hlen : 0 < coef.length := List.length_pos_of_ne_nil hne
  have hone : (coef.take 1).length = 1 := by
    rw [List.length_take]
    omega
  have hvalue : (Numeral.javaDigits U neg (coef.take 1) point exp hint).exponentValue = exp :=
    javaExponent_value U exp
  have hfrac : (Numeral.javaDigits U neg (coef.take 1) point exp hint).fracDigits =
      (coef.drop 1).map digitChar := by
    rw [← hpoint]
    cases point <;> rfl
  refine ⟨Numeral.javaDigits U neg (coef.take 1) point exp hint, ?_, ?_, ?_, ?_, ?_, ?_⟩
  · rw [htext]
    cases neg <;> cases point <;> rfl
  · cases neg <;> rfl
  · rw [Numeral.coefficient, hfrac]
    show number U ((coef.take 1).map digitChar ++ _) = _
    rw [← List.map_append, number_digitChar, List.take_append_drop]
  · rw [Numeral.scale, hfrac, hvalue, List.length_map, List.length_drop, hexp]
    omega
  · rw [hfrac, List.length_map, List.length_drop]
    show ((coef.take 1).map digitChar).length + _ ≤ _
    rw [List.length_map, hone]
    omega
  · rw [hvalue]
    exact hle

variable (U)

/-- The text is a numeral with the coefficient and the scale it is made from. -/
theorem exists_numeral_layout (A : Arith) (neg : Bool) {coef : List (Fin 10)} (hne : coef ≠ [])
    {scale : Int} (hlow : -2 ^ 31 ≤ scale) (hhigh : scale < 2 ^ 31) (hlen : coef.length < 2 ^ 59) :
    ∃ n, Prints U (layout A neg coef scale) neg coef scale n := by
  have hmax : maxExponent = 1152921504606846976 := by decide
  have hpos : 0 < coef.length := List.length_pos_of_ne_nil hne
  have hadj : A.int64 (A.int64 (A.int64 (-scale) + coef.length) - 1) = -scale + coef.length - 1 := by
    rw [A.exact (-scale) (by omega) (by omega), A.exact (-scale + coef.length) (by omega) (by omega)]
    exact A.exact _ (by omega) (by omega)
  rw [layout]
  simp only [hadj]
  by_cases hzero : scale = 0
  · rw [if_pos hzero]
    refine ⟨_, prints_ofDigits hne (Option.getD_none : none.getD [] = []) ?_ ?_ ?_ ?_⟩
    · rw [List.append_nil]
    · rw [hzero]
      rfl
    · rw [List.length_nil]
      omega
    · rw [Option.map_none, Option.getD_none, List.append_nil]
  · rw [if_neg hzero]
    by_cases hplain : scale > 0 ∧ -scale + coef.length - 1 ≥ -6
    · rw [if_pos hplain]
      by_cases hlong : (coef.length : Int) > scale
      · obtain ⟨point, hpoint⟩ : ∃ point : Nat, (coef.length : Int) - scale = point :=
          ⟨((coef.length : Int) - scale).toNat, by omega⟩
        have hexact : (A.int64 (coef.length - scale)).toNat = point := by
          rw [A.exact _ (by omega) (by omega), hpoint, Int.toNat_natCast]
        have hint : coef.take point ≠ [] := by
          rw [Ne, List.take_eq_nil_iff]
          rintro (h | h)
          · omega
          · exact hne h
        rw [if_pos hlong, hexact]
        refine ⟨_, prints_ofDigits hint (Option.getD_some : (some (coef.drop point)).getD [] = _)
          ?_ ?_ ?_ ?_⟩
        · rw [List.take_append_drop]
        · rw [List.length_drop]
          omega
        · rw [List.length_take, List.length_drop]
          omega
        · rw [Option.map_some, Option.getD_some, List.map_take, List.map_drop]
      · obtain ⟨zeros, hzeros⟩ : ∃ zeros : Nat, scale - coef.length = zeros :=
          ⟨(scale - coef.length).toNat, by omega⟩
        have hexact : (A.int64 (scale - coef.length)).toNat = zeros := by
          rw [A.exact _ (by omega) (by omega), hzeros, Int.toNat_natCast]
        have hchars : (List.replicate zeros (0 : Fin 10)).map digitChar = List.replicate zeros '0' := by
          rw [List.map_replicate]
          rfl
        rw [if_neg hlong, hexact]
        refine ⟨_, prints_ofDigits (List.cons_ne_nil 0 [])
          (Option.getD_some : (some (List.replicate zeros 0 ++ coef)).getD [] = _) ?_ ?_ ?_ ?_⟩
        · rw [← List.append_assoc]
          exact Digits.toNat_zeros_append (zeros + 1) coef
        · rw [List.length_append, List.length_replicate]
          omega
        · rw [List.length_append, List.length_replicate, List.length_singleton]
          omega
        · rw [Option.map_some, Option.getD_some, List.map_append, hchars]
          rfl
    · rw [if_neg hplain]
      have hexp : |-scale + coef.length - 1| ≤ maxExponent := by
        rw [hmax, abs_le]
        omega
      rw [← javaExponent_text, List.length_map]
      by_cases hmore : coef.length > 1
      · rw [if_pos hmore]
        refine prints_javaDigits hne rfl hexp
          (Option.getD_some : (some (coef.drop 1)).getD [] = coef.drop 1) ?_
        rw [Option.map_some, Option.getD_some, List.map_take, List.map_drop]
      · rw [if_neg hmore]
        have hdrop : coef.drop 1 = [] := List.drop_eq_nil_of_le (by omega)
        refine prints_javaDigits hne rfl hexp (Option.getD_none.trans hdrop.symm) ?_
        rw [Option.map_none, Option.getD_none, List.map_take]

end Layout

/-! ## Canonical form -/

/-- A string that a Go process holds: it allocates at most 2^48 bytes. -/
structure HeapString where
  text : String
  fits : text.toList.length < 2 ^ 48

section Canonical

variable {U : DecimalDigits} (A : Arith)

/-- The text of a numeral's coefficient and scale; zero has no sign. -/
def Numeral.bigText (n : Numeral U) : List Char :=
  layout A (decide (n.sign = some true) && decide (n.coefficient ≠ 0))
    (Digits.ofNat n.coefficient) n.scale

/-- A numeral whose scale is an `int` and that memory holds. -/
structure Numeral.InRange (n : Numeral U) : Prop where
  scale_low : -2 ^ 31 ≤ n.scale
  scale_high : n.scale < 2 ^ 31
  exponent_le : |n.exponentValue| ≤ maxExponent
  length_lt : n.int.length + n.fracDigits.length < 2 ^ 58

variable {A} {n m : Numeral U}

theorem Numeral.InRange.parse (h : n.InRange) {s : String} (hs : n.text = s.toList) :
    ∃ d, parseDecimal U A s = some (d, n.scale) ∧ d.toRat = n.value ∧
      parseBigDecimal U A s = some d := by
  have hlen := h.length_lt
  obtain ⟨d, hparse, hvalue, -⟩ := parseDecimal_numeral A hs (by omega) h.exponent_le
  have hlow := h.scale_low
  have hhigh := h.scale_high
  refine ⟨d, hparse, hvalue, ?_⟩
  rw [parseBigDecimal, hparse, Option.bind_some]
  exact if_pos ⟨hlow, Int.le_sub_one_of_lt hhigh⟩

/-- `BigDecimalText` prints the coefficient and the scale of the numeral it reads. -/
theorem Numeral.InRange.bigDecimalText_eq (h : n.InRange) {s : String} (hs : n.text = s.toList) :
    bigDecimalText U A s = some (String.ofList (n.bigText A)) := by
  obtain ⟨d, -, -, hparse⟩ := h.parse (A := A) hs
  have hlow := h.scale_low
  have hhigh := h.scale_high
  have hscale : A.int64 (n.fracDigits.length - n.exponentValue) = n.scale :=
    A.exact n.scale (by omega) (by omega)
  rw [bigDecimalText, hparse, Option.map_some, ← hs, n.scanSign_text]
  simp only [scanMantissa_text, scanBigExponent_text n h.exponent_le, hscale]
  rw [Numeral.bigText, n.coefficient_eq, Digits.ofNat_toNat_eq]
  simp only [ne_eq, Digits.toNat_eq_zero_iff]
  split_ifs with hnil
  · rw [decide_eq_false (not_not_intro hnil), Bool.and_false]
  · rw [decide_eq_true hnil, Bool.and_true]

theorem signFactor_and_ne_zero (neg : Bool) (c : Nat) :
    signFactor (neg && decide (c ≠ 0)) * (c : Rat) = signFactor neg * c := by
  by_cases hc : c = 0
  · rw [hc, Nat.cast_zero, mul_zero, mul_zero]
  · rw [decide_eq_true hc, Bool.and_true]

theorem Numeral.InRange.exists_printed (A : Arith) (h : n.InRange)
    (hlen : n.int.length + n.fracDigits.length < 2 ^ 57) :
    ∃ m : Numeral U, m.text = n.bigText A ∧ m.InRange ∧ m.scale = n.scale ∧ m.value = n.value ∧
      m.bigText A = n.bigText A := by
  have hdigits : (Digits.ofNat n.coefficient).length ≤ n.int.length + n.fracDigits.length := by
    have hne : (n.int ++ n.fracDigits).map (digitValue U) ≠ [] := by
      rw [Ne, List.map_eq_nil_iff]
      exact n.some_digit
    have hle := Digits.length_ofNat_toNat_le hne
    rwa [← n.coefficient_eq, List.length_map, List.length_append] at hle
  obtain ⟨m, hm⟩ := exists_numeral_layout U A
    (decide (n.sign = some true) && decide (n.coefficient ≠ 0)) (Digits.ofNat_ne_nil n.coefficient)
    h.scale_low h.scale_high (by omega)
  have hcoef : m.coefficient = n.coefficient := by
    rw [hm.coefficient_eq, Digits.toNat_ofNat]
  have hshort := hm.length_le
  refine ⟨m, hm.text_eq, ⟨?_, ?_, hm.exponent_le, by omega⟩, hm.scale_eq, ?_, ?_⟩
  · rw [hm.scale_eq]
    exact h.scale_low
  · rw [hm.scale_eq]
    exact h.scale_high
  · rw [m.value_eq_scaled, n.value_eq_scaled, hm.sign_eq, hcoef, hm.scale_eq, ← mul_assoc,
      signFactor_and_ne_zero, mul_assoc]
  · rw [Numeral.bigText, Numeral.bigText, hm.sign_eq, hcoef, hm.scale_eq, Bool.and_assoc,
      Bool.and_self]

/-- Numerals of one number and one scale print the same. -/
theorem Numeral.bigText_eq_of_value (A : Arith) (hvalue : n.value = m.value)
    (hscale : n.scale = m.scale) : n.bigText A = m.bigText A := by
  rw [n.value_eq_scaled, m.value_eq_scaled, hscale, ← mul_assoc, ← mul_assoc] at hvalue
  have hsigned := mul_right_cancel₀ (Decimal.pow_pos (-m.scale)).ne' hvalue
  have habs : ∀ (neg : Bool) (c : Nat), |signFactor neg * (c : Rat)| = c := by
    intro neg c
    cases neg <;> simp [signFactor]
  have hcoef : n.coefficient = m.coefficient := by
    have habs' := congrArg abs hsigned
    rw [habs, habs] at habs'
    exact_mod_cast habs'
  rw [Numeral.bigText, Numeral.bigText, hcoef, hscale]
  by_cases hzero : m.coefficient = 0
  · rw [decide_eq_false (not_not_intro hzero), Bool.and_false, Bool.and_false]
  · rw [hcoef] at hsigned
    have hfactor := mul_right_cancel₀ (Nat.cast_ne_zero.mpr hzero) hsigned
    have hsign : decide (n.sign = some true) = decide (m.sign = some true) := by
      revert hfactor
      cases decide (n.sign = some true) <;> cases decide (m.sign = some true) <;>
        norm_num [signFactor]
    rw [hsign]

theorem exists_inRange {s : HeapString} {d : Decimal} (h : parseBigDecimal U A s.text = some d) :
    ∃ n : Numeral U, n.text = s.text.toList ∧ n.InRange ∧ d.toRat = n.value ∧
      parseDecimal U A s.text = some (d, n.scale) ∧
      n.int.length + n.fracDigits.length < 2 ^ 57 := by
  obtain ⟨⟨d', scale⟩, hparse, hrange⟩ := Option.bind_eq_some_iff.mp h
  split_ifs at hrange with hscale
  obtain rfl : d' = d := Option.some.inj hrange
  have hfits := s.fits
  have hgo : s.text.toList.length < 2 ^ 62 := by omega
  obtain ⟨n, hn, hexp, rfl, hvalue, -⟩ :=
    exists_numeral_of_parseDecimal A (s := ⟨s.text, hgo⟩) hparse
  have hlen := n.length_le
  rw [show n.text = s.text.toList from hn] at hlen
  exact ⟨n, hn, ⟨hscale.1, Int.lt_of_le_sub_one hscale.2, hexp, by omega⟩, hvalue, hparse, by omega⟩

end Canonical

/-- The scale `parseDecimal` counts: the digits after the point less the
    exponent. -/
def scaleOf (U : DecimalDigits) (A : Arith) (s : String) : Option Int :=
  (parseDecimal U A s).map Prod.snd

/-- `BigDecimalText` is a canonical form: its text is read back as the same
    number with the same scale and printed as itself, and two texts print the
    same exactly when they have one value and one scale. -/
theorem bigDecimalText_canonical (U : DecimalDigits) (A : Arith) :
    (∀ (s : HeapString) (d : Decimal), parseBigDecimal U A s.text = some d →
      ∃ text, bigDecimalText U A s.text = some text ∧ parseBigDecimal U A text = some d ∧
        scaleOf U A text = scaleOf U A s.text ∧ bigDecimalText U A text = some text) ∧
    ∀ (s t : HeapString) (d e : Decimal), parseBigDecimal U A s.text = some d →
      parseBigDecimal U A t.text = some e →
      (bigDecimalText U A s.text = bigDecimalText U A t.text ↔
        d = e ∧ scaleOf U A s.text = scaleOf U A t.text) := by
  have hback : ∀ (s : HeapString) (d : Decimal), parseBigDecimal U A s.text = some d →
      ∃ text, bigDecimalText U A s.text = some text ∧ parseBigDecimal U A text = some d ∧
        scaleOf U A text = scaleOf U A s.text ∧ bigDecimalText U A text = some text := by
    intro s d hd
    obtain ⟨n, hn, hrange, hvalue, hparse, hlen⟩ := exists_inRange hd
    obtain ⟨m, hm, hmrange, hmscale, hmvalue, hmtext⟩ := hrange.exists_printed A hlen
    have htext : m.text = (String.ofList (n.bigText A)).toList := by
      rw [String.toList_ofList, hm]
    obtain ⟨d', hparse', hvalue', hbig⟩ := hmrange.parse (A := A) htext
    obtain rfl : d' = d := Decimal.toRat_injective (by rw [hvalue', hmvalue, hvalue])
    refine ⟨String.ofList (n.bigText A), hrange.bigDecimalText_eq hn, hbig, ?_, ?_⟩
    · rw [scaleOf, scaleOf, hparse', hparse, hmscale]
    · rw [hmrange.bigDecimalText_eq htext, hmtext]
  refine ⟨hback, fun s t d e hd he => ⟨fun heq => ?_, fun ⟨hde, hscale⟩ => ?_⟩⟩
  · obtain ⟨text, hs, hsback, hsscale, -⟩ := hback s d hd
    obtain ⟨text', ht, htback, htscale, -⟩ := hback t e he
    rw [hs, ht] at heq
    obtain rfl := Option.some.inj heq
    exact ⟨Option.some.inj (hsback.symm.trans htback), hsscale.symm.trans htscale⟩
  · obtain ⟨n, hn, hnrange, hnvalue, hnparse, -⟩ := exists_inRange hd
    obtain ⟨m, hm, hmrange, hmvalue, hmparse, -⟩ := exists_inRange he
    rw [scaleOf, scaleOf, hnparse, hmparse] at hscale
    have hscale' : n.scale = m.scale := Option.some.inj hscale
    have hvalue : n.value = m.value := by rw [← hnvalue, ← hmvalue, hde]
    rw [hnrange.bigDecimalText_eq hn, hmrange.bigDecimalText_eq hm,
      Numeral.bigText_eq_of_value A hvalue hscale']

/-- One and a half in two notations of one scale. -/
theorem one_and_half_canonical :
    bigDecimalText .asciiOnly .go "15e-1" = some "1.5" ∧
      parseBigDecimal .asciiOnly .go "1.5" = parseBigDecimal .asciiOnly .go "15e-1" ∧
      bigDecimalText .asciiOnly .go "+01.5" = bigDecimalText .asciiOnly .go "15e-1" := by
  have hs : parseBigDecimal .asciiOnly .go "15e-1" =
      some ((parseBigDecimal .asciiOnly .go "15e-1").getD .zero) := by
    decide +kernel
  have ht : parseBigDecimal .asciiOnly .go "+01.5" =
      some ((parseBigDecimal .asciiOnly .go "+01.5").getD .zero) := by
    decide +kernel
  have htext : bigDecimalText .asciiOnly .go "15e-1" = some "1.5" := by
    decide +kernel
  obtain ⟨hback, hiff⟩ := bigDecimalText_canonical .asciiOnly .go
  obtain ⟨text, hprint, hread, -⟩ := hback ⟨"15e-1", by decide⟩ _ hs
  obtain rfl : "1.5" = text := Option.some.inj (htext.symm.trans hprint)
  refine ⟨htext, hread.trans hs.symm, ?_⟩
  refine (hiff ⟨"+01.5", by decide⟩ ⟨"15e-1", by decide⟩ _ _ ht hs).mpr ⟨?_, ?_⟩ <;>
    decide +kernel

end AuthzAgent.Jsonvalue
