/-
  AuthzAgent.Lib.Digits

  Lists of decimal digits, most significant digit first.  `toNat` reads a list
  as an integer and `frac` as the digits after a point.  Two lists that end in
  no zero compare as texts exactly as they compare as fractions.
-/

import Mathlib

namespace Digits

/-- The instance by its name, so that definitions hold no proof of it. -/
instance neZeroTen : NeZero 10 := ⟨by decide⟩

/-- The integer a list of digits writes. -/
def toNat (ds : List (Fin 10)) : Nat := ds.foldl (fun n d => 10 * n + d.val) 0

/-- The number a list of digits writes after a point. -/
def frac : List (Fin 10) → Rat
  | [] => 0
  | d :: ds => (d.val + frac ds) / 10

@[simp] theorem frac_nil : frac [] = 0 := rfl

theorem frac_cons (d : Fin 10) (ds : List (Fin 10)) : frac (d :: ds) = (d.val + frac ds) / 10 := rfl

/-! ## Integers -/

theorem foldl_eq (ds : List (Fin 10)) (n : Nat) :
    ((ds.foldl (fun n d => 10 * n + d.val) n : Nat) : Rat) = (n + frac ds) * 10 ^ ds.length := by
  induction ds generalizing n with
  | nil => simp
  | cons d ds ih =>
    rw [List.foldl_cons, ih, frac_cons, List.length_cons, pow_succ]
    push_cast
    ring

/-- An integer is its digits after a point, moved to the left. -/
theorem cast_toNat (ds : List (Fin 10)) : (toNat ds : Rat) = frac ds * 10 ^ ds.length := by
  have h := foldl_eq ds 0
  rw [Nat.cast_zero, zero_add] at h
  exact h

theorem toNat_append_singleton (ds : List (Fin 10)) (d : Fin 10) :
    toNat (ds ++ [d]) = 10 * toNat ds + d.val := by
  rw [toNat, List.foldl_append]
  rfl

theorem toNat_reverse (ds : List (Fin 10)) :
    toNat ds.reverse = Nat.ofDigits 10 (ds.map Fin.val) := by
  induction ds with
  | nil => rfl
  | cons d ds ih =>
    rw [List.reverse_cons, toNat_append_singleton, ih, List.map_cons, Nat.ofDigits_cons]
    ring

/-- The digits of an integer; zero has one. -/
def ofNat (n : Nat) : List (Fin 10) :=
  if n = 0 then [0] else ((Nat.digits 10 n).map (Fin.ofNat 10)).reverse

theorem toNat_ofNat (n : Nat) : toNat (ofNat n) = n := by
  rw [ofNat]
  split_ifs with h
  · rw [h]
    rfl
  · have hval : ((Nat.digits 10 n).map (Fin.ofNat 10)).map Fin.val = Nat.digits 10 n := by
      rw [List.map_map]
      conv_rhs => rw [← List.map_id (Nat.digits 10 n)]
      refine List.map_congr_left fun d hd => ?_
      exact Nat.mod_eq_of_lt (Nat.digits_lt_base (by decide) hd)
    rw [toNat_reverse, hval, Nat.ofDigits_digits]

theorem toNat_zeros_append (n : Nat) (ds : List (Fin 10)) :
    toNat (List.replicate n 0 ++ ds) = toNat ds := by
  induction n with
  | zero => rfl
  | succ n ih =>
    rw [← ih, List.replicate_succ, List.cons_append]
    rfl

/-- A list of digits without a leading zero is the one of its integer. -/
theorem ofNat_toNat {ds : List (Fin 10)} (hlead : ds.head? ≠ some 0) (hne : ds ≠ []) :
    ofNat (toNat ds) = ds := by
  have hdigits : Nat.digits 10 (toNat ds) = ds.reverse.map Fin.val := by
    rw [← List.reverse_reverse ds, toNat_reverse, List.reverse_reverse]
    refine Nat.digits_ofDigits 10 (by decide) _ (fun d hd => ?_) fun h => ?_
    · obtain ⟨e, -, rfl⟩ := List.mem_map.mp hd
      exact e.isLt
    · rw [List.getLast_map, List.getLast_reverse]
      intro hzero
      have hhead : ds.head hne = 0 := Fin.ext hzero
      exact hlead (by rw [List.head?_eq_some_head hne, hhead])
  have hpos : toNat ds ≠ 0 := by
    intro hzero
    rw [hzero, Nat.digits_zero] at hdigits
    exact hne (List.reverse_eq_nil_iff.mp (List.map_eq_nil_iff.mp hdigits.symm))
  have hcast : ∀ d : Fin 10, Fin.ofNat 10 d.val = d := by decide
  rw [ofNat, if_neg hpos, hdigits, List.map_map]
  have hid : ds.reverse.map (Fin.ofNat 10 ∘ Fin.val) = ds.reverse := by
    conv_rhs => rw [← List.map_id ds.reverse]
    exact List.map_congr_left fun d _ => hcast d
  rw [hid, List.reverse_reverse]

theorem ofNat_ne_nil (n : Nat) : ofNat n ≠ [] := by
  rw [ofNat]
  split_ifs with h
  · exact List.cons_ne_nil 0 []
  · rw [Ne, List.reverse_eq_nil_iff, List.map_eq_nil_iff]
    exact Nat.digits_ne_nil_iff_ne_zero.mpr h

/-! ## Fractions -/

theorem frac_nonneg (ds : List (Fin 10)) : 0 ≤ frac ds := by
  induction ds with
  | nil => exact le_refl 0
  | cons d ds ih =>
    rw [frac_cons]
    have hd : (0 : Rat) ≤ d.val := Nat.cast_nonneg _
    linarith

theorem frac_lt_one (ds : List (Fin 10)) : frac ds < 1 := by
  induction ds with
  | nil => exact zero_lt_one
  | cons d ds ih =>
    rw [frac_cons]
    have hd : (d.val : Rat) ≤ 9 := by exact_mod_cast Nat.le_of_lt_succ d.isLt
    linarith

/-- The list does not end in a zero. -/
def NoTrailing (ds : List (Fin 10)) : Prop := ds.getLast? ≠ some 0

theorem NoTrailing.tail {d : Fin 10} {ds : List (Fin 10)} (h : NoTrailing (d :: ds)) :
    NoTrailing ds := by
  intro hlast
  apply h
  cases ds with
  | nil => cases hlast
  | cons e es => rwa [List.getLast?_cons_cons]

/-- A list that ends in a digit other than zero is a positive fraction. -/
theorem frac_pos {ds : List (Fin 10)} (h : NoTrailing ds) (hne : ds ≠ []) : 0 < frac ds := by
  induction ds with
  | nil => exact absurd rfl hne
  | cons d ds ih =>
    rw [frac_cons]
    have hd : (0 : Rat) ≤ d.val := Nat.cast_nonneg _
    by_cases hds : ds = []
    · subst hds
      have hdne : d ≠ 0 := fun h0 => h (by rw [h0]; rfl)
      have hpos : 0 < d.val := Nat.pos_of_ne_zero fun h0 => hdne (Fin.ext h0)
      have hcast : (0 : Rat) < d.val := by exact_mod_cast hpos
      rw [frac_nil]
      linarith
    · have htail := ih h.tail hds
      linarith

/-- A list that starts with a digit other than zero is a tenth at least. -/
theorem tenth_le_frac {ds : List (Fin 10)} (h : ds.head? ≠ some 0) (hne : ds ≠ []) :
    1 / 10 ≤ frac ds := by
  cases ds with
  | nil => exact absurd rfl hne
  | cons d ds =>
    have hdne : d ≠ 0 := fun h0 => h (by rw [h0]; rfl)
    have hpos : 1 ≤ d.val := Nat.pos_of_ne_zero fun h0 => hdne (Fin.ext h0)
    have hcast : (1 : Rat) ≤ d.val := by exact_mod_cast hpos
    have htail := frac_nonneg ds
    rw [frac_cons]
    linarith

theorem frac_append_zeros (ds : List (Fin 10)) (n : Nat) :
    frac (ds ++ List.replicate n 0) = frac ds := by
  induction ds with
  | nil =>
    induction n with
    | zero => rfl
    | succ n ih =>
      rw [List.nil_append] at ih ⊢
      rw [List.replicate_succ, frac_cons, ih]
      simp
  | cons d ds ih => rw [List.cons_append, frac_cons, ih, frac_cons]

theorem frac_zeros_append (n : Nat) (ds : List (Fin 10)) :
    frac (List.replicate n 0 ++ ds) = frac ds / 10 ^ n := by
  induction n with
  | zero => simp
  | succ n ih =>
    rw [List.replicate_succ, List.cons_append, frac_cons, ih, pow_succ]
    field_simp
    simp

/-! ## Zeros at either end -/

/-- `strings.TrimLeft(s, "0")` -/
def trimLeft (ds : List (Fin 10)) : List (Fin 10) := ds.dropWhile (· = 0)

/-- `strings.TrimRight(s, "0")` -/
def trimRight (ds : List (Fin 10)) : List (Fin 10) := ds.rdropWhile (· = 0)

theorem head?_trimLeft (ds : List (Fin 10)) : (trimLeft ds).head? ≠ some 0 := by
  intro h
  have hnot := List.head?_dropWhile_not (fun d : Fin 10 => decide (d = 0)) ds
  rw [trimLeft] at h
  rw [h] at hnot
  simp at hnot

theorem noTrailing_trimRight (ds : List (Fin 10)) : NoTrailing (trimRight ds) := by
  intro h
  have hne : trimRight ds ≠ [] := fun hnil => by rw [hnil] at h; cases h
  apply List.rdropWhile_last_not (fun d : Fin 10 => decide (d = 0)) ds hne
  rw [List.getLast?_eq_some_getLast hne, Option.some.injEq] at h
  exact decide_eq_true h

/-- A list that starts with a digit other than zero is not all zeros. -/
theorem trimRight_ne_nil {ds : List (Fin 10)} (h : ds.head? ≠ some 0) (hne : ds ≠ []) :
    trimRight ds ≠ [] := by
  rw [trimRight, Ne, List.rdropWhile_eq_nil_iff]
  intro hall
  cases ds with
  | nil => exact hne rfl
  | cons d ds => exact h (congrArg some (of_decide_eq_true (hall d List.mem_cons_self)))

theorem head?_trimRight {ds : List (Fin 10)} (h : ds.head? ≠ some 0) :
    (trimRight ds).head? ≠ some 0 := by
  obtain ⟨rest, hrest⟩ := List.rdropWhile_prefix (fun d : Fin 10 => decide (d = 0)) (l := ds)
  intro hhead
  apply h
  rw [← hrest, List.head?_append]
  exact (congrArg (·.or rest.head?) hhead).trans rfl

/-- Leading zeros are part of no number. -/
theorem exists_zeros_trimLeft (ds : List (Fin 10)) :
    ∃ n, ds = List.replicate n 0 ++ trimLeft ds := by
  refine ⟨(ds.takeWhile (· = 0)).length, ?_⟩
  have hzeros : ds.takeWhile (· = 0) = List.replicate (ds.takeWhile (· = 0)).length 0 :=
    List.eq_replicate_of_mem fun d hd => by simpa using List.mem_takeWhile_imp hd
  rw [← hzeros, trimLeft, List.takeWhile_append_dropWhile]

theorem exists_trimRight_zeros (ds : List (Fin 10)) :
    ∃ n, ds = trimRight ds ++ List.replicate n 0 := by
  refine ⟨(ds.rtakeWhile (· = 0)).length, ?_⟩
  have hzeros : ds.rtakeWhile (· = 0) = List.replicate (ds.rtakeWhile (· = 0)).length 0 :=
    List.eq_replicate_of_mem fun d hd => by simpa using List.mem_rtakeWhile_imp hd
  rw [← hzeros, trimRight, List.rdropWhile_append_rtakeWhile]

theorem toNat_eq_zero_of_trimLeft {ds : List (Fin 10)} (h : trimLeft ds = []) : toNat ds = 0 := by
  obtain ⟨n, hn⟩ := exists_zeros_trimLeft ds
  have hfrac : frac ds = 0 := by
    rw [hn, h, frac_zeros_append, frac_nil, zero_div]
  have hcast := cast_toNat ds
  rw [hfrac, zero_mul] at hcast
  exact_mod_cast hcast

theorem toNat_trimLeft (ds : List (Fin 10)) : toNat (trimLeft ds) = toNat ds := by
  obtain ⟨n, hn⟩ := exists_zeros_trimLeft ds
  conv_rhs => rw [hn, toNat_zeros_append]

theorem toNat_eq_zero_iff (ds : List (Fin 10)) : toNat ds = 0 ↔ trimLeft ds = [] := by
  refine ⟨fun hzero => ?_, toNat_eq_zero_of_trimLeft⟩
  by_contra hne
  have hdigits := ofNat_toNat (head?_trimLeft ds) hne
  rw [toNat_trimLeft, hzero] at hdigits
  exact head?_trimLeft ds (by rw [← hdigits]; rfl)

/-- The digits of the integer a list writes are the list without its leading
    zeros. -/
theorem ofNat_toNat_eq (ds : List (Fin 10)) :
    ofNat (toNat ds) = if trimLeft ds = [] then [0] else trimLeft ds := by
  split_ifs with hnil
  · rw [toNat_eq_zero_of_trimLeft hnil]
    rfl
  · rw [← toNat_trimLeft, ofNat_toNat (head?_trimLeft ds) hnil]

theorem length_ofNat_toNat_le {ds : List (Fin 10)} (hne : ds ≠ []) :
    (ofNat (toNat ds)).length ≤ ds.length := by
  rw [ofNat_toNat_eq]
  split_ifs
  · exact List.length_pos_of_ne_nil hne
  · exact (List.dropWhile_suffix (fun d : Fin 10 => decide (d = 0)) (l := ds)).length_le

/-- An integer by its digits without the zeros at either end. -/
theorem cast_toNat_trim (ds : List (Fin 10)) :
    (toNat ds : Rat) = frac (trimRight (trimLeft ds)) * 10 ^ (trimLeft ds).length := by
  obtain ⟨n, hn⟩ := exists_zeros_trimLeft ds
  obtain ⟨m, hm⟩ := exists_trimRight_zeros (trimLeft ds)
  have hright : frac (trimLeft ds) = frac (trimRight (trimLeft ds)) := by
    conv_lhs => rw [hm]
    exact frac_append_zeros _ m
  have hleft : frac ds = frac (trimLeft ds) / 10 ^ n := by
    conv_lhs => rw [hn]
    exact frac_zeros_append n _
  have hlen : ds.length = n + (trimLeft ds).length := by
    conv_lhs => rw [hn]
    rw [List.length_append, List.length_replicate]
  rw [cast_toNat, hleft, hright, hlen, pow_add]
  field_simp

theorem length_trimRight_le (ds : List (Fin 10)) : (trimRight ds).length ≤ ds.length :=
  (List.rdropWhile_prefix (fun d : Fin 10 => decide (d = 0)) (l := ds)).length_le

theorem length_trimLeft_le (ds : List (Fin 10)) : (trimLeft ds).length ≤ ds.length :=
  (List.dropWhile_suffix (fun d : Fin 10 => decide (d = 0)) (l := ds)).length_le

/-! ## Comparison -/

/-- The result of a three-way comparison of two numbers. -/
def Orders (c : Int) (p q : Rat) : Prop :=
  (c = -1 ∧ p < q) ∨ (c = 0 ∧ p = q) ∨ (c = 1 ∧ q < p)

theorem Orders.neg {c : Int} {p q : Rat} (h : Orders c p q) : Orders (-c) (-p) (-q) := by
  rcases h with ⟨rfl, h⟩ | ⟨rfl, h⟩ | ⟨rfl, h⟩
  · exact Or.inr (Or.inr ⟨rfl, neg_lt_neg h⟩)
  · exact Or.inr (Or.inl ⟨rfl, congrArg Neg.neg h⟩)
  · exact Or.inl ⟨rfl, neg_lt_neg h⟩

theorem Orders.mul_pos {c : Int} {p q r : Rat} (h : Orders c p q) (hr : 0 < r) :
    Orders c (p * r) (q * r) := by
  rcases h with ⟨hc, h⟩ | ⟨hc, h⟩ | ⟨hc, h⟩
  · exact Or.inl ⟨hc, mul_lt_mul_of_pos_right h hr⟩
  · exact Or.inr (Or.inl ⟨hc, by rw [h]⟩)
  · exact Or.inr (Or.inr ⟨hc, mul_lt_mul_of_pos_right h hr⟩)

/-- The order of the numbers determines the result. -/
theorem Orders.iff {c : Int} {p q : Rat} (h : Orders c p q) :
    (c = -1 ↔ p < q) ∧ (c = 0 ↔ p = q) ∧ (c = 1 ↔ q < p) := by
  rcases h with ⟨rfl, h⟩ | ⟨rfl, h⟩ | ⟨rfl, h⟩
  · exact ⟨by simp [h], by simp [h.ne], by simp [h.le]⟩
  · subst h
    simp
  · exact ⟨by simp [h.le], by simp [h.ne'], by simp [h]⟩

/-- `strings.Compare` of two texts of digits. -/
def compareText : List (Fin 10) → List (Fin 10) → Int
  | [], [] => 0
  | [], _ :: _ => -1
  | _ :: _, [] => 1
  | d :: ds, e :: es => if d < e then -1 else if e < d then 1 else compareText ds es

/-- Texts that end in no zero compare as the fractions they write: the longer of
    two that share a start is the larger one. -/
theorem compareText_orders {ds es : List (Fin 10)} (hd : NoTrailing ds) (he : NoTrailing es) :
    Orders (compareText ds es) (frac ds) (frac es) := by
  induction ds generalizing es with
  | nil =>
    cases es with
    | nil => exact Or.inr (Or.inl ⟨rfl, rfl⟩)
    | cons e es => exact Or.inl ⟨rfl, frac_pos he (List.cons_ne_nil e es)⟩
  | cons d ds ih =>
    cases es with
    | nil => exact Or.inr (Or.inr ⟨rfl, frac_pos hd (List.cons_ne_nil d ds)⟩)
    | cons e es =>
      have hds := frac_nonneg ds
      have hes := frac_nonneg es
      have hds1 := frac_lt_one ds
      have hes1 := frac_lt_one es
      rw [compareText, frac_cons, frac_cons]
      split_ifs with hlt hgt
      · have hcast : (d.val : Rat) + 1 ≤ e.val := by exact_mod_cast hlt
        exact Or.inl ⟨rfl, by linarith⟩
      · have hcast : (e.val : Rat) + 1 ≤ d.val := by exact_mod_cast hgt
        exact Or.inr (Or.inr ⟨rfl, by linarith⟩)
      · have heq : d = e := le_antisymm (not_lt.mp hgt) (not_lt.mp hlt)
        subst heq
        rcases ih hd.tail he.tail with ⟨hc, h⟩ | ⟨hc, h⟩ | ⟨hc, h⟩
        · exact Or.inl ⟨hc, by linarith⟩
        · exact Or.inr (Or.inl ⟨hc, by rw [h]⟩)
        · exact Or.inr (Or.inr ⟨hc, by linarith⟩)

/-- Two lists that end in no zero and write one fraction are the same. -/
theorem frac_injective {ds es : List (Fin 10)} (hd : NoTrailing ds) (he : NoTrailing es)
    (h : frac ds = frac es) : ds = es := by
  have hzero : compareText ds es = 0 := (compareText_orders hd he).iff.2.1.mpr h
  clear h hd he
  induction ds generalizing es with
  | nil =>
    cases es with
    | nil => rfl
    | cons e es => cases hzero
  | cons d ds ih =>
    cases es with
    | nil => cases hzero
    | cons e es =>
      rw [compareText] at hzero
      have hlt : ¬ d < e := fun h => by simp [h] at hzero
      have hgt : ¬ e < d := fun h => by simp [h, hlt] at hzero
      rw [if_neg hlt, if_neg hgt] at hzero
      rw [le_antisymm (not_lt.mp hgt) (not_lt.mp hlt), ih hzero]

end Digits
