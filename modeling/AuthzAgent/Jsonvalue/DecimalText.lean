/-
  AuthzAgent.Jsonvalue.DecimalText

  `String` of decimal.go.  The text of a number is a numeral that writes it, in
  plain digits or with an exponent, so two numbers with one text are the same.
-/

import AuthzAgent.Jsonvalue.Compare

namespace AuthzAgent.Jsonvalue

/-! ## The text -/

/-- The character of a digit. -/
def digitChar (d : Fin 10) : Char := Char.ofNat (48 + d.val)

def formatInt (n : Int) : List Char :=
  (if n < 0 then ['-'] else []) ++ (Digits.ofNat n.natAbs).map digitChar

/-- The text of a number other than zero, after its sign. -/
def Decimal.digitText (A : Arith) (d : Decimal) : List Char :=
  let adj := d.adjusted A
  let coef := d.coef.map digitChar
  if adj ≥ 20 ∨ adj < -7 then
    coef.take 1 ++ (if coef.length > 1 then '.' :: coef.drop 1 else []) ++ 'e' :: formatInt adj
  else if d.exp ≥ 0 then coef ++ List.replicate d.exp.toNat '0'
  else if adj ≥ 0 then coef.take (adj + 1).toNat ++ '.' :: coef.drop (adj + 1).toNat
  else '0' :: '.' :: (List.replicate (-adj - 1).toNat '0' ++ coef)

def Decimal.string (A : Arith) (d : Decimal) : String :=
  if d.isZero then "0"
  else String.ofList ((if d.neg then ['-'] else []) ++ d.digitText A)

/-! ## Digits as characters -/

theorem toNat_digitChar (d : Fin 10) : (digitChar d).toNat = 48 + d.val := by
  revert d
  decide

theorem isDigit_digitChar (U : DecimalDigits) (d : Fin 10) : isDigit U (digitChar d) = true := by
  have hd : d.val ≤ 9 := Nat.le_of_lt_succ d.isLt
  rw [isDigit_ascii U (by rw [toNat_digitChar]; omega), toNat_digitChar, Bool.and_eq_true,
    decide_eq_true_eq, decide_eq_true_eq]
  omega

theorem value_digitChar (U : DecimalDigits) (d : Fin 10) : U.value (digitChar d).toNat = d.val := by
  have hd : d.val ≤ 9 := Nat.le_of_lt_succ d.isLt
  rw [← digitValue_eq U (isDigit_digitChar U d), digitValue]
  have hrange : '0' ≤ digitChar d ∧ digitChar d ≤ '9' := by
    revert d
    decide
  rw [if_pos hrange, toNat_digitChar]
  show (48 + d.val - 48) % 10 = d.val
  omega

theorem number_digitChar (U : DecimalDigits) (ds : List (Fin 10)) :
    number U (ds.map digitChar) = Digits.toNat ds := by
  rw [number, Digits.toNat, List.foldl_map]
  refine List.foldl_ext _ _ _ fun n d _ => ?_
  rw [value_digitChar]

/-! ## Numerals of digit lists -/

def formattedExponent (n : Int) : ExponentPart where
  letter := 'e'
  sign := if n < 0 then some true else none
  digits := (Digits.ofNat n.natAbs).map digitChar

theorem formattedExponent_text (n : Int) : (formattedExponent n).text = 'e' :: formatInt n := by
  rw [ExponentPart.text, formattedExponent, formatInt]
  split_ifs <;> rfl

theorem formattedExponent_value (U : DecimalDigits) (n : Int) :
    (formattedExponent n).value U = n := by
  have hdigits : number U (formattedExponent n).digits = n.natAbs := by
    rw [formattedExponent, number_digitChar, Digits.toNat_ofNat]
  rw [ExponentPart.value, hdigits, formattedExponent]
  by_cases h : n < 0
  · rw [if_pos h, if_pos rfl]
    omega
  · rw [if_neg h, if_neg (by simp)]
    omega

section OfDigits

variable (U : DecimalDigits)

theorem isDigit_map_digitChar {ds : List (Fin 10)} {c : Char} (hc : c ∈ ds.map digitChar) :
    isDigit U c = true := by
  obtain ⟨d, -, rfl⟩ := List.mem_map.mp hc
  exact isDigit_digitChar U d

def Numeral.ofDigits (neg : Bool) (int : List (Fin 10)) (frac : Option (List (Fin 10)))
    (exp : Option Int) (hint : int ≠ []) : Numeral U where
  sign := if neg then some true else none
  int := int.map digitChar
  frac := frac.map (List.map digitChar)
  exponent := exp.map formattedExponent
  int_digits := fun _ hc => isDigit_map_digitChar U hc
  frac_digits := by
    intro c hc
    cases frac with
    | none => cases hc
    | some ds => exact isDigit_map_digitChar U hc
  some_digit := by simp [hint]
  exponent_letter := by
    intro e he
    obtain ⟨n, -, rfl⟩ := Option.map_eq_some_iff.mp he
    exact Or.inl rfl
  exponent_digit := by
    intro e he
    obtain ⟨n, -, rfl⟩ := Option.map_eq_some_iff.mp he
    simpa [formattedExponent] using Digits.ofNat_ne_nil n.natAbs
  exponent_digits := by
    intro e he c hc
    obtain ⟨n, -, rfl⟩ := Option.map_eq_some_iff.mp he
    exact isDigit_map_digitChar U hc

variable {U} {neg : Bool} {int : List (Fin 10)} {frac : Option (List (Fin 10))} {exp : Option Int}
  {hint : int ≠ []}

theorem Numeral.exponentValue_ofDigits :
    (Numeral.ofDigits U neg int frac exp hint).exponentValue = exp.getD 0 := by
  cases exp with
  | none => rfl
  | some n => exact formattedExponent_value U n

theorem Numeral.fracDigits_ofDigits :
    (Numeral.ofDigits U neg int frac exp hint).fracDigits = (frac.getD []).map digitChar := by
  cases frac <;> rfl

/-- The value of the digits, with the point right after the integer digits. -/
theorem Numeral.value_ofDigits : (Numeral.ofDigits U neg int frac exp hint).value =
    signFactor neg * (Digits.frac (int ++ frac.getD []) * 10 ^ (int.length + exp.getD 0)) := by
  have hsign : decide ((Numeral.ofDigits U neg int frac exp hint).sign = some true) = neg := by
    cases neg <;> rfl
  rw [Numeral.value, hsign, exponentValue_ofDigits, fracDigits_ofDigits, List.length_map]
  show signFactor neg * ((number U (int.map digitChar ++ (frac.getD []).map digitChar) : Rat) * _) = _
  rw [← List.map_append, number_digitChar, Digits.cast_toNat, List.length_append, mul_assoc,
    ← zpow_natCast, ← zpow_add₀ (by norm_num)]
  congr 3
  push_cast
  ring

theorem Numeral.text_ofDigits : (Numeral.ofDigits U neg int frac exp hint).text =
    (if neg then ['-'] else []) ++ (int.map digitChar ++
      ((frac.map fun ds => '.' :: ds.map digitChar).getD [] ++
        (exp.map fun n => 'e' :: formatInt n).getD [])) := by
  have hsign : signText (if neg then some true else none) = if neg then ['-'] else [] := by
    cases neg <;> rfl
  have hexp : (Numeral.ofDigits U neg int frac exp hint).exponentText =
      (exp.map fun n => 'e' :: formatInt n).getD [] := by
    cases exp with
    | none => rfl
    | some n => exact formattedExponent_text n
  have hfrac : (Numeral.ofDigits U neg int frac exp hint).fracText =
      (frac.map fun ds => '.' :: ds.map digitChar).getD [] := by
    cases frac <;> rfl
  rw [Numeral.text, hexp, hfrac]
  exact congrArg (· ++ _) hsign

end OfDigits

/-! ## The text writes the number -/

/-- The characters of a number's text. -/
def isNumberChar (c : Char) : Bool :=
  (decide ('0' ≤ c) && decide (c ≤ '9')) || c == '-' || c == '.' || c == 'e'

theorem isNumberChar_digitChar (d : Fin 10) : isNumberChar (digitChar d) = true := by
  revert d
  decide

theorem isNumberChar_map {ds : List (Fin 10)} : ∀ c ∈ ds.map digitChar, isNumberChar c = true := by
  intro c hc
  obtain ⟨d, -, rfl⟩ := List.mem_map.mp hc
  exact isNumberChar_digitChar d

theorem isNumberChar_formatInt (n : Int) : ∀ c ∈ formatInt n, isNumberChar c = true := by
  rw [formatInt, List.forall_mem_append]
  refine ⟨?_, isNumberChar_map⟩
  split_ifs <;> simp [isNumberChar]

theorem isNumberChar_ofDigits {U : DecimalDigits} {neg : Bool} {int : List (Fin 10)}
    {frac : Option (List (Fin 10))} {exp : Option Int} {hint : int ≠ []} :
    ∀ c ∈ (Numeral.ofDigits U neg int frac exp hint).text, isNumberChar c = true := by
  rw [Numeral.text_ofDigits]
  simp only [List.forall_mem_append]
  refine ⟨?_, isNumberChar_map, ?_, ?_⟩
  · cases neg <;> simp [isNumberChar]
  · cases frac with
    | none => exact nofun
    | some ds => exact List.forall_mem_cons.mpr ⟨by decide, isNumberChar_map⟩
  · cases exp with
    | none => exact nofun
    | some n => exact List.forall_mem_cons.mpr ⟨by decide, isNumberChar_formatInt n⟩

section Text

variable (U : DecimalDigits) (A : Arith) {d : Decimal}

theorem Decimal.toRat_eq (d : Decimal) :
    d.toRat = signFactor d.neg * (Digits.frac d.coef * 10 ^ (d.exp + d.coef.length)) := by
  rw [toRat, magnitude, signFactor]
  cases d.neg <;> simp

/-- Digits before and after a point and an exponent that make the text of a
    number. -/
structure Decimal.Form (A : Arith) (d : Decimal) (int : List (Fin 10))
    (frac : Option (List (Fin 10))) (exp : Option Int) : Prop where
  int_ne_nil : int ≠ []
  /-- No digit stands before a leading zero. -/
  leading : int = [0] ∨ int.head? ≠ some 0
  /-- A digit follows a point. -/
  point : frac ≠ some []
  text : (d.string A).toList = (if d.neg then ['-'] else []) ++ (int.map digitChar ++
    ((frac.map fun ds => '.' :: ds.map digitChar).getD [] ++
      (exp.map fun n => 'e' :: formatInt n).getD []))
  value : Digits.frac (int ++ frac.getD []) * 10 ^ (int.length + exp.getD 0) =
    Digits.frac d.coef * 10 ^ (d.exp + d.coef.length)
  exponent : exp = if d.adjusted A ≥ 20 ∨ d.adjusted A < -7 then some (d.adjusted A) else none
  length : int.length + (frac.getD []).length ≤ d.coef.length + 20

theorem Decimal.string_toList (hzero : d.coef ≠ []) :
    (d.string A).toList = (if d.neg then ['-'] else []) ++ d.digitText A := by
  rw [string, isZero, List.isEmpty_eq_false_iff.mpr hzero, if_neg Bool.false_ne_true,
    String.toList_ofList]

theorem Decimal.form_zero (hzero : d.coef = []) : d.Form A [0] none none := by
  obtain ⟨hneg, hexp⟩ := d.zero_plain hzero
  have hadj : d.adjusted A = -1 := by
    rw [adjusted, hexp, hzero, A.exact (0 + ([] : List (Fin 10)).length) (by decide) (by decide)]
    exact A.exact (0 + ([] : List (Fin 10)).length - 1) (by decide) (by decide)
  refine ⟨by simp, .inl rfl, by simp, ?_, ?_, ?_, by simp⟩
  · have htext : "0".toList = [digitChar 0] := by decide
    rw [string, isZero, hzero, hneg, List.isEmpty_nil, if_pos rfl, htext]
    rfl
  · rw [hzero]
    simp [Digits.frac_cons]
  · rw [hadj]
    rfl

/-- Each layout of the text has the digits of the number, and the point at the
    same place. -/
theorem Decimal.exists_form (h : d.Fits) : ∃ int frac exp, d.Form A int frac exp := by
  by_cases hzero : d.coef = []
  · exact ⟨[0], none, none, form_zero A hzero⟩
  · have hadj := h.adjusted_eq A
    have hlen : 0 < d.coef.length := List.length_pos_of_ne_nil hzero
    obtain ⟨body, hbody⟩ : ∃ body, d.digitText A = body := ⟨_, rfl⟩
    have hstring := string_toList A hzero
    rw [hbody] at hstring
    have hhead : ∀ n, 0 < n → (d.coef.take n).head? ≠ some 0 := by
      intro n hn
      rw [List.head?_take, if_neg (by omega)]
      exact d.no_leading
    rw [digitText] at hbody
    split_ifs at hbody with hsci hlong hint hpoint
    · refine ⟨d.coef.take 1, some (d.coef.drop 1), some (d.adjusted A), by simp [hzero],
        .inr (hhead 1 Nat.one_pos), ?_, ?_, ?_, (if_pos hsci).symm, ?_⟩
      · rw [List.length_map] at hlong
        intro hnil
        have hdrop := congrArg List.length (Option.some.inj hnil)
        rw [List.length_drop, List.length_nil] at hdrop
        omega
      · rw [hstring, ← hbody]
        simp [List.map_take]
      · rw [Option.getD_some, Option.getD_some, List.take_append_drop, List.length_take,
          Nat.min_eq_left hlen, Nat.cast_one]
        congr 2
        omega
      · rw [Option.getD_some, List.length_take, List.length_drop]
        omega
    · have hone : d.coef.length = 1 := by
        rw [List.length_map] at hlong
        omega
      have htake : d.coef.take 1 = d.coef := List.take_of_length_le (by omega)
      refine ⟨d.coef, none, some (d.adjusted A), hzero, .inr d.no_leading, by simp, ?_, ?_,
        (if_pos hsci).symm, by simp⟩
      · rw [hstring, ← hbody]
        simp [← List.map_take, htake]
      · rw [Option.getD_none, List.append_nil, Option.getD_some]
        congr 2
        omega
    · refine ⟨d.coef ++ List.replicate d.exp.toNat 0, none, none, by simp [hzero], .inr ?_, by simp,
        ?_, ?_, (if_neg hsci).symm, ?_⟩
      · rw [List.head?_append_of_ne_nil _ hzero]
        exact d.no_leading
      · rw [hstring, ← hbody]
        simp [digitChar]
      · rw [Option.getD_none, List.append_nil, Digits.frac_append_zeros, Option.getD_none]
        congr 2
        rw [List.length_append, List.length_replicate]
        push_cast
        omega
      · rw [Option.getD_none, List.length_append, List.length_replicate, List.length_nil]
        omega
    · refine ⟨d.coef.take (d.adjusted A + 1).toNat, some (d.coef.drop (d.adjusted A + 1).toNat),
        none, ?_, .inr (hhead _ (by omega)), ?_, ?_, ?_, (if_neg hsci).symm, ?_⟩
      · rw [Ne, List.take_eq_nil_iff]
        rintro (h0 | h0)
        · omega
        · exact hzero h0
      · intro hnil
        have hdrop := congrArg List.length (Option.some.inj hnil)
        rw [List.length_drop, List.length_nil] at hdrop
        omega
      · rw [hstring, ← hbody]
        simp [List.map_take, List.map_drop]
      · rw [Option.getD_some, List.take_append_drop, Option.getD_none, List.length_take,
          Nat.min_eq_left (by omega)]
        congr 2
        omega
      · rw [Option.getD_some, List.length_take, List.length_drop]
        omega
    · refine ⟨[0], some (List.replicate (-d.adjusted A - 1).toNat 0 ++ d.coef), none, by simp,
        .inl rfl, by simp [hzero], ?_, ?_, (if_neg hsci).symm, ?_⟩
      · rw [hstring, ← hbody]
        simp [digitChar]
      · have hcons : [0] ++ (List.replicate (-d.adjusted A - 1).toNat 0 ++ d.coef) =
            List.replicate ((-d.adjusted A - 1).toNat + 1) 0 ++ d.coef := by
          rw [List.replicate_succ]
          rfl
        rw [Option.getD_some, Option.getD_none, hcons, Digits.frac_zeros_append, div_eq_mul_inv,
          mul_assoc, ← zpow_natCast, ← zpow_neg, ← zpow_add₀ (by norm_num)]
        congr 2
        push_cast
        simp only [List.length_singleton]
        omega
      · rw [Option.getD_some, List.length_append, List.length_replicate, List.length_singleton]
        omega

theorem Decimal.Form.numeral {int : List (Fin 10)} {frac : Option (List (Fin 10))}
    {exp : Option Int} (h : d.Form A int frac exp) :
    (Numeral.ofDigits U d.neg int frac exp h.int_ne_nil).text = (d.string A).toList ∧
      (Numeral.ofDigits U d.neg int frac exp h.int_ne_nil).value = d.toRat := by
  rw [Numeral.text_ofDigits, h.text, Numeral.value_ofDigits, Decimal.toRat_eq, h.value]
  exact ⟨rfl, rfl⟩

theorem Decimal.exists_numeral_string (h : d.Fits) : ∃ n : Numeral U,
    n.text = (d.string A).toList ∧ n.value = d.toRat ∧ ∀ c ∈ n.text, isNumberChar c = true := by
  obtain ⟨int, frac, exp, hform⟩ := exists_form A h
  obtain ⟨htext, hvalue⟩ := Form.numeral U A hform
  exact ⟨_, htext, hvalue, isNumberChar_ofDigits⟩

end Text

/-! ## One text, one number -/

namespace Decimal

/-- The normal form of a number is unique. -/
theorem toRat_injective {d e : Decimal} (h : d.toRat = e.toRat) : d = e := by
  have hcoef : ∀ {d e : Decimal}, d.coef ≠ [] → e.coef ≠ [] → d.magnitude = e.magnitude →
      d.coef = e.coef ∧ d.exp = e.exp := by
    intro d e hd he hmag
    have hplace : d.exp + d.coef.length = e.exp + e.coef.length := by
      have hlt : ∀ {d e : Decimal}, e.coef ≠ [] → d.magnitude = e.magnitude →
          ¬ d.exp + d.coef.length < e.exp + e.coef.length := by
        intro d e he hmag hlt
        have hpow : (10 : Rat) ^ (d.exp + d.coef.length) ≤ 10 ^ (e.exp + e.coef.length - 1) :=
          zpow_le_zpow_right₀ (by norm_num) (by omega)
        have hd := magnitude_lt d
        have he := le_magnitude he
        linarith
      have h1 := hlt he hmag
      have h2 := hlt hd hmag.symm
      omega
    rw [magnitude, magnitude, hplace] at hmag
    have hfrac := mul_right_cancel₀ (pow_pos (e.exp + e.coef.length)).ne' hmag
    have hsame := Digits.frac_injective d.no_trailing e.no_trailing hfrac
    rw [hsame] at hplace
    exact ⟨hsame, by omega⟩
  have hmk : ∀ {d e : Decimal}, d.neg = e.neg → d.coef = e.coef → d.exp = e.exp → d = e := by
    rintro ⟨⟩ ⟨⟩ rfl rfl rfl
    rfl
  rcases sign_spec d with ⟨-, hd, hd0⟩ | ⟨-, hd, hdn, hd0⟩ | ⟨-, hd, hdn, hd0⟩ <;>
    rcases sign_spec e with ⟨-, he, he0⟩ | ⟨-, he, hen, he0⟩ | ⟨-, he, hen, he0⟩ <;>
      first | (exfalso; linarith) | skip
  · obtain ⟨hdn, hdx⟩ := d.zero_plain hd
    obtain ⟨hen, hex⟩ := e.zero_plain he
    exact hmk (hdn.trans hen.symm) (hd.trans he.symm) (hdx.trans hex.symm)
  · rw [toRat, toRat, hdn, hen, if_pos rfl, if_pos rfl, neg_inj] at h
    obtain ⟨hc, hx⟩ := hcoef hd he h
    exact hmk (hdn.trans hen.symm) hc hx
  · rw [toRat, toRat, hdn, hen, if_neg Bool.false_ne_true, if_neg Bool.false_ne_true] at h
    obtain ⟨hc, hx⟩ := hcoef hd he h
    exact hmk (hdn.trans hen.symm) hc hx

/-- `String` tells numbers apart. -/
theorem string_injective (A : Arith) {d e : Decimal} (hd : d.Fits) (he : e.Fits)
    (h : d.string A = e.string A) : d = e := by
  obtain ⟨m, hm, hmv, -⟩ := d.exists_numeral_string .asciiOnly A hd
  obtain ⟨n, hn, hnv, -⟩ := e.exists_numeral_string .asciiOnly A he
  have htext : m.text = n.text := by rw [hm, hn, h]
  exact toRat_injective (by rw [← hmv, ← hnv, Numeral.value_eq_of_text htext])

theorem isNumberChar_string (A : Arith) {d : Decimal} (hd : d.Fits) :
    ∀ c ∈ (d.string A).toList, isNumberChar c = true := by
  obtain ⟨n, hn, -, hchars⟩ := d.exists_numeral_string .asciiOnly A hd
  rwa [hn] at hchars

end Decimal

end AuthzAgent.Jsonvalue
