/-
  AuthzAgent.Jsonvalue.RoundTrip

  Reading back the text of a number.  `String` writes a JSON number
  (`isNumber_string`), and `ParseDecimal` returns the number itself unless the
  exponent that is written exceeds what the parser accepts
  (`parseDecimalText_string`): the place of the first digit of a number can be
  above the exponent of the text the number came from.
-/

import AuthzAgent.Lib.JsonNumber
import AuthzAgent.Jsonvalue.DecimalText

namespace AuthzAgent.Jsonvalue

/-! ## A JSON number -/

theorem isDigits_map_digitChar {ds : List (Fin 10)} (h : ds ≠ []) :
    JsonText.IsDigits (ds.map digitChar) := by
  have hdigit : ∀ d, (digitChar d).isDigit = true := by decide
  refine ⟨fun hnil => h (List.map_eq_nil_iff.mp hnil), fun c hc => ?_⟩
  obtain ⟨d, -, rfl⟩ := List.mem_map.mp hc
  exact hdigit d

theorem isExponent_formatInt (n : Int) : JsonText.IsExponent ('e' :: formatInt n) := by
  refine .inr ⟨'e', if n < 0 then ['-'] else [], (Digits.ofNat n.natAbs).map digitChar, .inl rfl, ?_,
    isDigits_map_digitChar (Digits.ofNat_ne_nil _), rfl⟩
  split_ifs
  · exact .inr (.inr rfl)
  · exact .inl rfl

namespace Decimal

variable (U : DecimalDigits) (A : Arith) {d : Decimal}

theorem isNumber_string (hd : d.Fits) : JsonText.isNumber (d.string A).toList = true := by
  obtain ⟨int, frac, exp, hform⟩ := exists_form A hd
  have hzero : ∀ d : Fin 10, digitChar d = '0' → d = 0 := by decide
  rw [hform.text]
  apply JsonText.isNumber_append
  · cases d.neg
    · exact .inl rfl
    · exact .inr rfl
  · exact isDigits_map_digitChar hform.int_ne_nil
  · rcases hform.leading with hint | hint
    · rw [hint]
      exact .inl (by decide)
    · refine .inr fun hhead => hint ?_
      rw [List.head?_map] at hhead
      obtain ⟨digit, hdigit, hchar⟩ := Option.map_eq_some_iff.mp hhead
      rw [hdigit, hzero digit hchar]
  · cases frac with
    | none => exact .inl rfl
    | some ds =>
      have hds : ds ≠ [] := fun hnil => hform.point (congrArg some hnil)
      exact .inr ⟨_, isDigits_map_digitChar hds, rfl⟩
  · cases exp with
    | none => exact .inl rfl
    | some n => exact isExponent_formatInt n

/-! ## Reading back -/

/-- The parser returns the number whose text it reads, unless the exponent of the
    text exceeds the bound. -/
theorem parseDecimalText_string (hd : d.Fits) (hcoef : d.coef.length < 2 ^ 62) :
    parseDecimalText U A (d.string A) =
      if |d.adjusted A| ≤ maxExponent then some d else none := by
  have hmax : maxExponent = 1152921504606846976 := by decide
  obtain ⟨int, frac, exp, hform⟩ := exists_form A hd
  obtain ⟨htext, hvalue⟩ := Form.numeral U A hform
  have hexp : |(Numeral.ofDigits U d.neg int frac exp hform.int_ne_nil).exponentValue| ≤ maxExponent ↔
      |d.adjusted A| ≤ maxExponent := by
    rw [Numeral.exponentValue_ofDigits, hform.exponent]
    split_ifs with hsci
    · rfl
    · rw [Option.getD_none, abs_zero, hmax, abs_le]
      omega
  rw [parseDecimalText]
  by_cases hle : |d.adjusted A| ≤ maxExponent
  · have hlen := hform.length
    obtain ⟨d', hparse, hd', -⟩ := parseDecimal_numeral A htext (by
      rw [Numeral.fracDigits_ofDigits, List.length_map]
      show (int.map digitChar).length + _ < _
      rw [List.length_map]
      omega) (hexp.mpr hle)
    rw [hparse, Option.map_some, if_pos hle, toRat_injective (hd'.trans hvalue)]
  · rw [parseDecimal_text A htext, Numeral.scannedExponent_eq_ite, if_neg (fun h => hle (hexp.mp h)),
      if_neg hle]
    rfl

end Decimal

/-- The text of a number that was parsed is a JSON number, it is read back as the
    number exactly when the place of its first digit is an exponent the parser
    accepts, and no other number has this text. -/
theorem parsed_string_round_trip (U : DecimalDigits) (A : Arith) (s : GoString) (d : Decimal)
    (h : parseDecimalText U A s.text = some d) :
    JsonText.isNumber (d.string A).toList = true ∧
      (parseDecimalText U A (d.string A) = some d ↔
        -2 ^ 60 ≤ d.adjusted A ∧ d.adjusted A ≤ 2 ^ 60) ∧
      ∀ (t : GoString) (e : Decimal), parseDecimalText U A t.text = some e →
        d.string A = e.string A → d = e := by
  obtain ⟨⟨d', scale⟩, hparse, hd⟩ := Option.map_eq_some_iff.mp h
  obtain rfl : d' = d := hd
  obtain ⟨n, hn, -, -, -, hfits, hcoef⟩ := exists_numeral_of_parseDecimal A hparse
  have hlen := n.length_le
  have hs := s.fits
  rw [hn] at hlen
  refine ⟨d'.isNumber_string A hfits, ?_, fun t e he hstring => ?_⟩
  · rw [Decimal.parseDecimalText_string U A hfits (by omega), Option.ite_none_right_eq_some, abs_le]
    exact and_iff_left rfl
  · exact Decimal.string_injective A hfits (writes_iff A he).2 hstring

/-- A zero at the end of the digits moves the first digit above the bound. -/
theorem ten_at_maxExponent :
    ∃ d : Decimal, parseDecimalText .asciiOnly .go "10e1152921504606846976" = some d ∧
      d.string .go = "1e1152921504606846977" ∧
      parseDecimalText .asciiOnly .go (d.string .go) = none := by
  refine ⟨(parseDecimalText .asciiOnly .go "10e1152921504606846976").getD .zero, ?_, ?_, ?_⟩ <;>
    decide +kernel

theorem negative_round_trip :
    ∃ d : Decimal, parseDecimalText .asciiOnly .go "-12.50e7" = some d ∧
      JsonText.isNumber (d.string .go).toList = true ∧
      parseDecimalText .asciiOnly .go (d.string .go) = some d := by
  have hparse : parseDecimalText .asciiOnly .go "-12.50e7" =
      some ((parseDecimalText .asciiOnly .go "-12.50e7").getD .zero) := by
    decide +kernel
  have hplace : -2 ^ 60 ≤ ((parseDecimalText .asciiOnly .go "-12.50e7").getD .zero).adjusted .go ∧
      ((parseDecimalText .asciiOnly .go "-12.50e7").getD .zero).adjusted .go ≤ 2 ^ 60 := by
    decide +kernel
  obtain ⟨hjson, hback, -⟩ := parsed_string_round_trip .asciiOnly .go
    ⟨"-12.50e7", by decide⟩ _ hparse
  exact ⟨_, hparse, hjson, hback.mpr hplace⟩

end AuthzAgent.Jsonvalue
