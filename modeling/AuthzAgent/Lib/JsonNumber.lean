/-
  AuthzAgent.Lib.JsonNumber

  The texts of JSON numbers.  `scanNumber` reads a number part by part
  (`scanNumber_eq`), so a text that is made of a sign, digits without a leading
  zero, digits after a point and an exponent is a number (`isNumber_append`).
-/

import AuthzAgent.Lib.JsonTree

namespace JsonText

/-! ## Part by part -/

/-- No digit follows. -/
def StopsDigits (rest : List Char) : Prop := ∀ c ∈ rest.head?, c.isDigit = false

theorem scanDigits_append {ds rest : List Char} (hne : ds ≠ []) (hds : ∀ c ∈ ds, c.isDigit = true)
    (hrest : StopsDigits rest) : scanDigits (ds ++ rest) = some (ds, rest) := by
  have htake : rest.takeWhile Char.isDigit = [] ∧ rest.dropWhile Char.isDigit = rest := by
    cases rest with
    | nil => exact ⟨rfl, rfl⟩
    | cons c rest =>
      have hc : c.isDigit = false := hrest c rfl
      rw [List.takeWhile_cons, List.dropWhile_cons, hc]
      exact ⟨rfl, rfl⟩
  rw [scanDigits, List.span_eq_takeWhile_dropWhile, List.takeWhile_append_of_pos hds,
    List.dropWhile_append_of_pos hds, htake.1, htake.2, List.append_nil]
  exact if_neg hne

/-- The sign of a number, and what follows it. -/
def scanMinus : List Char → Bool × List Char
  | '-' :: rest => (true, rest)
  | cs => (false, cs)

/-- The integer digits of a number, and what follows them. -/
def scanInt : List Char → Option (List Char × List Char)
  | '0' :: rest => some (['0'], rest)
  | cs => scanDigits cs

/-- The digits after the point of a number, and what follows them. -/
def scanFrac : List Char → Option (List Char × List Char)
  | '.' :: rest => scanDigits rest
  | cs => some ([], cs)

/-- What `scanNumber` does behind the digits after the point. -/
def scanTail (neg : Bool) (int : List Char) (r : List Char × List Char) :
    Option (Number × List Char) :=
  match r.2 with
  | e :: rest =>
    if e = 'e' ∨ e = 'E' then do
      let (digits, after) ← scanDigits (dropSign rest)
      let minus := if rest.head? = some '-' then ['-'] else []
      pure (⟨neg, int, r.1, minus ++ digits⟩, after)
    else pure (⟨neg, int, r.1, []⟩, r.2)
  | [] => pure (⟨neg, int, r.1, []⟩, r.2)

theorem scanInt_bind {β : Type} (cs : List Char) (k : List Char × List Char → Option β) :
    (match cs with
      | '0' :: rest => some (['0'], rest) >>= k
      | _ => scanDigits cs >>= k) = (scanInt cs).bind k := by
  unfold scanInt
  split <;> rfl

theorem scanFrac_bind {β : Type} (cs : List Char) (k : List Char × List Char → Option β) :
    (match cs with
      | '.' :: rest => scanDigits rest >>= k
      | _ => some ([], cs) >>= k) = (scanFrac cs).bind k := by
  unfold scanFrac
  split <;> rfl

/-- A number is read part by part. -/
theorem scanNumber_eq (cs : List Char) :
    scanNumber cs = (scanInt (scanMinus cs).2).bind fun i =>
      (scanFrac i.2).bind (scanTail (scanMinus cs).1 i.1) := by
  unfold scanNumber
  split
  rename_i neg rest hmatch
  have hminus : scanMinus cs = (neg, rest) := by
    split at hmatch
    · exact hmatch
    · rename_i hne
      rw [scanMinus.eq_2 cs hne]
      exact hmatch
  rw [hminus]
  refine (scanInt_bind rest _).trans (congrArg (Option.bind (scanInt rest)) (funext fun i => ?_))
  exact scanFrac_bind i.2 (scanTail neg i.1)

theorem isNumber_of_parts {cs cs₁ cs₂ cs₃ int frac : List Char} {neg : Bool}
    (hminus : scanMinus cs = (neg, cs₁)) (hint : scanInt cs₁ = some (int, cs₂))
    (hfrac : scanFrac cs₂ = some (frac, cs₃))
    (hexp : cs₃ = [] ∨ ∃ e rest ds, cs₃ = e :: rest ∧ (e = 'e' ∨ e = 'E') ∧
      scanDigits (dropSign rest) = some (ds, [])) :
    isNumber cs = true := by
  rw [isNumber, scanNumber_eq, hminus]
  simp only [hint, Option.bind_some, hfrac]
  rcases hexp with rfl | ⟨e, rest, ds, rfl, he, hds⟩
  · rfl
  · simp only [scanTail, if_pos he, hds]
    rfl

/-! ## The text of a number -/

/-- An optional minus. -/
def IsMinus (text : List Char) : Prop := text = [] ∨ text = ['-']

/-- A non-empty run of digits. -/
def IsDigits (ds : List Char) : Prop := ds ≠ [] ∧ ∀ c ∈ ds, c.isDigit = true

/-- The digits after a point, if any. -/
def IsFraction (text : List Char) : Prop := text = [] ∨ ∃ ds, IsDigits ds ∧ text = '.' :: ds

/-- An optional exponent. -/
def IsExponent (text : List Char) : Prop :=
  text = [] ∨ ∃ e sign ds, (e = 'e' ∨ e = 'E') ∧ (sign = [] ∨ sign = ['+'] ∨ sign = ['-']) ∧
    IsDigits ds ∧ text = e :: (sign ++ ds)

theorem IsDigits.head {ds : List Char} (h : IsDigits ds) :
    ∃ d rest, ds = d :: rest ∧ d.isDigit = true := by
  obtain ⟨hne, hds⟩ := h
  cases ds with
  | nil => exact absurd rfl hne
  | cons d rest => exact ⟨d, rest, rfl, hds d List.mem_cons_self⟩

theorem IsExponent.stops {text : List Char} (h : IsExponent text) : StopsDigits text := by
  rcases h with rfl | ⟨e, sign, ds, he, -, -, rfl⟩
  · exact nofun
  · rintro c hc
    obtain rfl : e = c := Option.some.inj hc
    rcases he with rfl | rfl <;> decide

theorem IsExponent.ends {text : List Char} (h : IsExponent text) :
    text = [] ∨ ∃ e rest ds, text = e :: rest ∧ (e = 'e' ∨ e = 'E') ∧
      scanDigits (dropSign rest) = some (ds, []) := by
  rcases h with rfl | ⟨e, sign, ds, he, hsign, hds, rfl⟩
  · exact .inl rfl
  · have hscan := scanDigits_append hds.1 hds.2 (show StopsDigits [] from nofun)
    rw [List.append_nil] at hscan
    refine .inr ⟨e, sign ++ ds, ds, rfl, he, ?_⟩
    obtain ⟨d, rest, rfl, hd⟩ := hds.head
    rcases hsign with rfl | rfl | rfl
    · have hdrop : dropSign (d :: rest) = d :: rest := by
        refine dropSign.eq_3 _ (fun cs hcs => ?_) fun cs hcs => ?_
        · obtain ⟨rfl, -⟩ := List.cons.inj hcs
          cases hd
        · obtain ⟨rfl, -⟩ := List.cons.inj hcs
          cases hd
      rw [List.nil_append, hdrop, hscan]
    · exact hscan
    · exact hscan

/-- A text made of the parts of a number is one. -/
theorem isNumber_append {minus int frac exponent : List Char} (hminus : IsMinus minus)
    (hint : IsDigits int) (hlead : int = ['0'] ∨ int.head? ≠ some '0') (hfrac : IsFraction frac)
    (hexp : IsExponent exponent) : isNumber (minus ++ (int ++ (frac ++ exponent))) = true := by
  have hstops : StopsDigits (frac ++ exponent) := by
    rcases hfrac with rfl | ⟨ds, -, rfl⟩
    · exact hexp.stops
    · rintro c hc
      obtain rfl : '.' = c := Option.some.inj hc
      decide
  obtain ⟨d, rest, hd, hdigit⟩ := hint.head
  have hscanMinus : ∃ neg, scanMinus (minus ++ (int ++ (frac ++ exponent))) =
      (neg, int ++ (frac ++ exponent)) := by
    rcases hminus with rfl | rfl
    · refine ⟨false, scanMinus.eq_2 _ fun cs hcs => ?_⟩
      rw [hd] at hcs
      obtain ⟨rfl, -⟩ := List.cons.inj hcs
      cases hdigit
    · exact ⟨true, rfl⟩
  have hscanInt : scanInt (int ++ (frac ++ exponent)) = some (int, frac ++ exponent) := by
    rcases hlead with rfl | hlead
    · rfl
    · rw [scanInt.eq_2 _ fun cs hcs => ?_, scanDigits_append hint.1 hint.2 hstops]
      rw [hd] at hcs hlead
      exact hlead (congrArg some (List.cons.inj hcs).1)
  have hscanFrac : ∃ ds, scanFrac (frac ++ exponent) = some (ds, exponent) := by
    rcases hfrac with rfl | ⟨ds, hds, rfl⟩
    · refine ⟨[], scanFrac.eq_2 _ fun cs hcs => ?_⟩
      rcases hexp with rfl | ⟨e, sign, ds, he, -, -, rfl⟩
      · cases hcs
      · obtain ⟨rfl, -⟩ := List.cons.inj hcs
        rcases he with he | he <;> cases he
    · exact ⟨ds, scanDigits_append hds.1 hds.2 hexp.stops⟩
  obtain ⟨neg, hscanMinus⟩ := hscanMinus
  obtain ⟨ds, hscanFrac⟩ := hscanFrac
  exact isNumber_of_parts hscanMinus hscanInt hscanFrac hexp.ends

end JsonText
