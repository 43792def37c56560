/-
  AuthzAgent.Jsonpath.BudgetInt

  The work budget with the `int` of 64 bits that it counts with (budget.go of
  jsonpath).  Every sum, difference and product is one of `Arith`, so it has its
  exact value where this fits 64 bits.  The loops may run forever once a counter
  has wrapped around, so they make a bounded number of passes, and `Returns` says
  that some number is enough.

  As long as the work and the allowance of the document fit, no counter wraps
  around and the calls are those of the exact budget (`after_returns`,
  `call_returns`).  Beyond, a verdict can be wrong and `chargeWeight` need not
  return (`charge_wraps_around`).
-/

import AuthzAgent.Jsonpath.Budget

namespace AuthzAgent.Jsonpath

open Jsonvalue

namespace Wrapping

/-! ## The code -/

section Code

variable (A : Arith)

mutual

def weight (limit : Int) : Value → Int
  | .null => 1
  | .bool _ => 1
  | .string s => A.int64 (1 + s.utf8ByteSize)
  | .number text => A.int64 (1 + text.utf8ByteSize)
  | .list items => weightItems limit 1 items
  | .object members => weightMembers limit 1 members

def weightItems (limit w : Int) : List Value → Int
  | [] => w
  | v :: vs =>
    if w > limit then w
    else weightItems limit (A.int64 (w + weight (A.int64 (limit - w)) v)) vs

def weightMembers (limit w : Int) : List (String × Value) → Int
  | [] => w
  | (k, v) :: ms =>
    if w > limit then w
    else weightMembers limit
      (A.int64 (w + A.int64 (k.utf8ByteSize + weight (A.int64 (limit - w)) v))) ms

end

def allowed (w : Int) : Int := A.int64 (A.int64 (budgetFactor * w) + budgetFloor)

/-- The bound up to which `admits` weighs the document for some work. -/
def boundFor (b : Budget) (work : Int) : Int :=
  let need := (A.int64 (A.int64 (A.int64 (work - budgetFloor) + budgetFactor) - 1)).tdiv budgetFactor
  max need (A.int64 (2 * b.docWeight))

def admits : Nat → Budget → Int → Option (Bool × Budget)
  | 0, _, _ => none
  | passes + 1, b, work =>
    if work > allowed A b.docWeight then
      if b.weighed then some (false, b)
      else
        let bound := boundFor A b work
        let docWeight := weight A bound b.doc
        admits passes { b with docWeight := docWeight, weighed := docWeight ≤ bound } work
    else some (true, b)

def charge (passes : Nat) (b : Budget) (n : Nat) : Option (Bool × Budget) :=
  let b := { b with spent := A.int64 (b.spent + n) }
  admits A passes b b.spent

def chargeWeight : Nat → Budget → Value → Option (Bool × Budget)
  | 0, _, _ => none
  | passes + 1, b, v =>
    let left := A.int64 (allowed A b.docWeight - b.spent)
    let w := weight A left v
    if w ≤ left then some (true, { b with spent := A.int64 (b.spent + w) })
    else
      match admits A passes b (A.int64 (b.spent + w)) with
      | none => none
      | some (false, b) => some (false, { b with spent := A.int64 (b.spent + w) })
      | some (true, b) => chargeWeight passes b v

def call (passes : Nat) (b : Budget) : Charge → Option (Bool × Budget)
  | .units n => charge A passes b n
  | .value v => chargeWeight A passes b v

/-- The state after calls, whatever they returned. -/
def after (passes : Nat) (b : Budget) (cs : List Charge) : Option Budget :=
  cs.foldlM (fun b c => (call A passes b c).map Prod.snd) b

end Code

/-- With enough passes a loop returns a value. -/
def Returns {α : Type} (f : Nat → Option α) (a : α) : Prop :=
  ∃ enough, ∀ passes ≥ enough, f passes = some a

variable {A : Arith}

/-! ## No counter wraps around -/

/-- A partial weighing computes with numbers up to its limit and the full weight. -/
theorem weight_eq (v : Value) {limit : Int} (hlimit : limit < 2 ^ 63)
    (hv : (fullWeight v : Int) < 2 ^ 63) : weight A limit v = Jsonpath.weight limit v := by
  induction v using Value.ind generalizing limit with
  | null | bool => rfl
  | string | number =>
    rw [fullWeight] at hv
    push_cast at hv
    rw [weight, Jsonpath.weight, A.exact _ (by omega) hv]
  | list items ih =>
    have hloop : ∀ w : Int, 0 < w → w + fullWeightItems items < 2 ^ 63 →
        weightItems A limit w items = Jsonpath.weightItems limit w items := by
      clear hv
      induction items with
      | nil => exact fun _ _ _ => rfl
      | cons v vs ihs =>
        intro w hw hsum
        rw [fullWeightItems] at hsum
        push_cast at hsum
        rw [weightItems, Jsonpath.weightItems]
        split_ifs with hgt
        · rfl
        · obtain ⟨hpart, hpos⟩ := weight_spec v (limit - w)
          have hle := hpart.le
          rw [A.exact (limit - w) (by omega) (by omega),
            ih v List.mem_cons_self (by omega) (by omega), A.exact _ (by omega) (by omega)]
          exact ihs (fun u hu => ih u (List.mem_cons_of_mem v hu)) _ (by omega) (by omega)
    rw [fullWeight] at hv
    push_cast at hv
    exact hloop 1 Int.one_pos hv
  | object members ih =>
    have hloop : ∀ w : Int, 0 < w → w + fullWeightMembers members < 2 ^ 63 →
        weightMembers A limit w members = Jsonpath.weightMembers limit w members := by
      clear hv
      induction members with
      | nil => exact fun _ _ _ => rfl
      | cons m ms ihs =>
        obtain ⟨k, v⟩ := m
        intro w hw hsum
        rw [fullWeightMembers] at hsum
        push_cast at hsum
        rw [weightMembers, Jsonpath.weightMembers]
        split_ifs with hgt
        · rfl
        · obtain ⟨hpart, hpos⟩ := weight_spec v (limit - w)
          have hle := hpart.le
          have hmember : weight A (limit - w) v = Jsonpath.weight (limit - w) v :=
            ih (k, v) List.mem_cons_self (by omega) (by show (fullWeight v : Int) < _; omega)
          rw [A.exact (limit - w) (by omega) (by omega), hmember,
            A.exact (k.utf8ByteSize + _) (by omega) (by omega), A.exact _ (by omega) (by omega)]
          exact ihs (fun n hn => ih n (List.mem_cons_of_mem (k, v) hn)) _ (by omega) (by omega)
    rw [fullWeight] at hv
    push_cast at hv
    exact hloop 1 Int.one_pos hv

/-- What a budget knows of its document, whose allowance fits. -/
structure Fits (b : Budget) : Prop where
  knows : b.Knows
  limit : limitOf b.doc < 2 ^ 63

section Fits

variable {b : Budget}

theorem Fits.allowed_eq (h : Fits b) : allowed A b.docWeight = Jsonpath.allowed b.docWeight := by
  have hle := h.knows.le
  have hnonneg := h.knows.nonneg
  have hlimit := h.limit
  simp only [limitOf, Jsonpath.allowed, allowed, budgetFactor, budgetFloor] at *
  rw [A.exact (4 * b.docWeight) (by omega) (by omega), A.exact _ (by omega) (by omega)]

theorem Fits.weighTo_boundFor (h : Fits b) {work : Int} (hwork : 0 ≤ work) (hwork' : work < 2 ^ 63) :
    { b with docWeight := weight A (boundFor A b work) b.doc,
             weighed := weight A (boundFor A b work) b.doc ≤ boundFor A b work } =
      b.weighTo (b.boundFor work) := by
  have hle := h.knows.le
  have hnonneg := h.knows.nonneg
  have hlimit := h.limit
  simp only [limitOf, Jsonpath.allowed, budgetFactor, budgetFloor] at hlimit
  have hbound : boundFor A b work = b.boundFor work := by
    simp only [boundFor, Budget.boundFor, budgetFactor, budgetFloor]
    rw [A.exact (work - 4096) (by omega) (by omega), A.exact (work - 4096 + 4) (by omega) (by omega),
      A.exact (_ - 1) (by omega) (by omega), A.exact (2 * b.docWeight) (by omega) (by omega)]
  have hmax : b.boundFor work < 2 ^ 63 := by
    refine max_lt ?_ (by omega)
    simp only [budgetFactor, budgetFloor]
    have hdiv := Int.mul_tdiv_add_tmod (work - 4096 + 4 - 1) 4
    have hmod := Int.lt_tmod_of_pos (work - 4096 + 4 - 1) (show (0 : Int) < 4 by decide)
    omega
  rw [hbound, weight_eq b.doc hmax (by omega)]
  rfl

theorem Fits.weighTo (h : Fits b) (bound : Int) : Fits (b.weighTo bound) :=
  ⟨Budget.knows_weighTo b bound, h.limit⟩

/-- Pass by pass, `admits` is that of the exact budget. -/
theorem Fits.admits_eq_run (h : Fits b) {work : Int} (hwork : 0 ≤ work) (hwork' : work < 2 ^ 63)
    (passes : Nat) : admits A passes b work = Loop.run (Budget.admitsBody work) passes b := by
  induction passes generalizing b with
  | zero => rfl
  | succ passes ih =>
    rw [admits, Loop.run, Budget.admitsBody, h.allowed_eq]
    simp only [h.weighTo_boundFor hwork hwork']
    split_ifs
    · rfl
    · exact ih (h.weighTo _)
    · rfl

theorem Fits.admits_eq (h : Fits b) {work : Int} (hwork : 0 ≤ work) (hwork' : work < 2 ^ 63)
    {passes : Nat} (hpasses : 2 ≤ passes) : admits A passes b work = some (b.admits work) := by
  rw [h.admits_eq_run hwork hwork']
  apply Loop.run_eq_eval_of_lt
  have hone : Budget.settled work b ≤ 1 := by
    rw [Budget.settled]
    split_ifs <;> omega
  omega

end Fits

/-! ## The calls -/

/-- The work of a budget, up to some total that fits. -/
structure Within (b : Budget) (total : Int) : Prop extends Fits b where
  nonneg : 0 ≤ b.spent
  le : b.spent ≤ total

section Within

variable {b : Budget} {total : Int}

theorem within_fresh {doc : Value} (hdoc : limitOf doc < 2 ^ 63) : Within (Budget.fresh doc) 0 :=
  ⟨⟨Budget.knows_fresh doc, hdoc⟩, le_refl 0, le_refl 0⟩

theorem Within.charge_eq (h : Within b total) {n : Nat} (htotal : total + n < 2 ^ 63)
    {passes : Nat} (hpasses : 2 ≤ passes) : charge A passes b n = some (b.charge n) := by
  have hnonneg := h.nonneg
  have hle := h.le
  have hspent : A.int64 (b.spent + n) = b.spent + n := A.exact _ (by omega) (by omega)
  have hfits : Fits { b with spent := b.spent + n } :=
    ⟨⟨h.knows.le, h.knows.weighed, h.knows.nonneg⟩, h.limit⟩
  rw [charge, hspent]
  exact hfits.admits_eq (by show 0 ≤ b.spent + n; omega) (by show b.spent + n < _; omega) hpasses

/-- A pass of `chargeWeight` is one of the exact budget. -/
theorem Within.chargeWeight_of_run {v : Value} (passes : Nat) (h : Within b total)
    (htotal : total + fullWeight v < 2 ^ 63) {r : Bool × Budget}
    (hrun : Loop.run (Budget.chargeWeightBody v) passes b = some r) {more : Nat}
    (hmore : passes + 2 ≤ more) : chargeWeight A more b v = some r := by
  induction passes generalizing b more with
  | zero => cases hrun
  | succ passes ih =>
    obtain ⟨more, rfl⟩ := Nat.exists_eq_add_of_le' (show 1 ≤ more by omega)
    have hnonneg := h.nonneg
    have hle := h.le
    have hknown := h.knows.le
    have hknown' := h.knows.nonneg
    have hlimit := h.limit
    have hleft : A.int64 (allowed A b.docWeight - b.spent) = b.left := by
      rw [h.allowed_eq]
      apply A.exact
      all_goals
        simp only [limitOf, Jsonpath.allowed, budgetFactor, budgetFloor] at *
        omega
    have hmax : b.left < 2 ^ 63 := by
      simp only [Budget.left, limitOf, Jsonpath.allowed, budgetFactor, budgetFloor] at *
      omega
    obtain ⟨hpart, hpos⟩ := weight_spec v b.left
    have hpartle := hpart.le
    have hsum : A.int64 (b.spent + Jsonpath.weight b.left v) = b.spent + Jsonpath.weight b.left v :=
      A.exact _ (by omega) (by omega)
    have hframe := Budget.admits_frame (b.spent + Jsonpath.weight b.left v) b
    simp only [chargeWeight, hleft, weight_eq v hmax (by omega), hsum,
      h.toFits.admits_eq (show 0 ≤ b.spent + Jsonpath.weight b.left v by omega) (by omega)
        (show 2 ≤ more by omega)]
    rcases Budget.chargeWeightBody_cases v b with ⟨hfit, heq⟩ | ⟨hgt, hno, heq⟩ | ⟨hgt, hok, heq⟩
    · rw [Loop.run_inr heq] at hrun
      rw [if_pos hfit]
      exact hrun
    · rw [Loop.run_inr heq] at hrun
      rw [if_neg (not_le.mpr hgt), ← hrun]
      rcases hadmits : b.admits (b.spent + Jsonpath.weight b.left v) with ⟨ok, b'⟩
      rw [hadmits] at hno hframe
      obtain rfl : ok = false := hno
      have hspent : b'.spent = b.spent := hframe.spent
      simp only [hspent, hsum]
    · rw [Loop.run_inl heq] at hrun
      rw [if_neg (not_le.mpr hgt)]
      have hknows := (Budget.admits_spec (b.spent + Jsonpath.weight b.left v) h.knows).1
      rcases hadmits : b.admits (b.spent + Jsonpath.weight b.left v) with ⟨ok, b'⟩
      rw [hadmits] at hok hframe hrun hknows
      obtain rfl : ok = true := hok
      have hspent : b'.spent = b.spent := hframe.spent
      have hdoc : b'.doc = b.doc := hframe.doc
      have hfits : Fits b' := ⟨hknows, by rw [hdoc]; exact hlimit⟩
      exact ih ⟨hfits, by rw [hspent]; exact hnonneg, by rw [hspent]; exact hle⟩ hrun (by omega)

/-- A call within the range returns what the exact budget returns. -/
theorem Within.call_returns (h : Within b total) (c : Charge) (htotal : total + c.work < 2 ^ 63) :
    Returns (fun passes => call A passes b c) (b.call c) := by
  cases c with
  | units n => exact ⟨2, fun passes hpasses => h.charge_eq htotal hpasses⟩
  | value v =>
    refine ⟨Budget.unread v b + 1 + 2, fun passes hpasses => ?_⟩
    exact h.chargeWeight_of_run _ htotal
      (Loop.run_eq_some_eval (Budget.chargeWeightBody_decreases v) b) hpasses

theorem Within.step (h : Within b total) (c : Charge) : Within (b.call c).2 (total + c.work) := by
  obtain ⟨hdoc, hknows⟩ := Budget.call_keeps h.knows c
  have hnonneg := h.nonneg
  have hle := h.le
  have hlimit : limitOf (b.call c).2.doc < 2 ^ 63 := by
    rw [hdoc]
    exact h.limit
  cases c with
  | units n =>
    obtain ⟨-, -, hspent, -⟩ := Budget.charge_spec n h.knows
    have hwork : (Charge.units n).work = n := rfl
    have hcall : (b.call (.units n)).2.spent = b.spent + n := hspent
    exact ⟨⟨hknows, hlimit⟩, by omega, by omega⟩
  | value v =>
    have hcharged := Budget.chargeWeight_spec v h.knows
    have hwork : (Charge.value v).work = fullWeight v := rfl
    have hpos : 0 ≤ (b.call (.value v)).2.spent := by
      cases hok : (b.chargeWeight v).1 with
      | true =>
        have hspent : (b.call (.value v)).2.spent = _ := hcharged.spent hok
        omega
      | false =>
        have hrefused : limitOf b.doc < (b.call (.value v)).2.spent := hcharged.refused hok
        simp only [limitOf, Jsonpath.allowed, budgetFactor, budgetFloor] at hrefused
        omega
    have hupper : (b.call (.value v)).2.spent ≤ _ := hcharged.le
    exact ⟨⟨hknows, hlimit⟩, hpos, by omega⟩

/-- A run of calls within the range is one of the exact budget. -/
theorem Within.after_returns (cs : List Charge) (h : Within b total)
    (htotal : total + (cs.map Charge.work).sum < 2 ^ 63) :
    Returns (fun passes => after A passes b cs) (b.after cs) ∧
      Within (b.after cs) (total + (cs.map Charge.work).sum) := by
  induction cs generalizing b total with
  | nil => exact ⟨⟨0, fun _ _ => rfl⟩, by simpa [Budget.after] using h⟩
  | cons c cs ih =>
    rw [List.map_cons, List.sum_cons] at htotal ⊢
    rw [Nat.cast_add] at htotal ⊢
    obtain ⟨enough, hcall⟩ := h.call_returns (A := A) c (by omega)
    obtain ⟨⟨enough', hrest⟩, hwithin⟩ := ih (h.step c) (by omega)
    rw [← add_assoc]
    refine ⟨⟨max enough enough', fun passes hpasses => ?_⟩, hwithin⟩
    have hfirst : call A passes b c = some (b.call c) := hcall passes (le_trans (le_max_left _ _) hpasses)
    have hthen := hrest passes (le_trans (le_max_right _ _) hpasses)
    simp only [after] at hthen ⊢
    rw [List.foldlM_cons, hfirst]
    exact hthen

end Within

/-! ## The lazy budget -/

/-- The lazy budget is the eager one.  After any calls whose work fits an `int`,
    a call returns, with the verdict whether all work so far, its own included,
    is at most `4 * W + 4096` for the full weight `W` of the document. -/
theorem lazy_budget_exact (A : Arith) (doc : Value) (cs : List Charge)
    (hdoc : 4 * (fullWeight doc : Int) + 4096 < 2 ^ 63)
    (hcs : ((cs.map Charge.work).sum : Int) < 2 ^ 63) :
    ∃ b, Returns (fun passes => after A passes (Budget.fresh doc) cs) b ∧
      b.docWeight ≤ fullWeight doc ∧ (b.weighed = true → b.docWeight = fullWeight doc) ∧
      ∀ c, (((cs ++ [c]).map Charge.work).sum : Int) < 2 ^ 63 →
        ∃ ok b', Returns (fun passes => call A passes b c) (ok, b') ∧
          (ok = true ↔ (((cs ++ [c]).map Charge.work).sum : Int) ≤ 4 * fullWeight doc + 4096) ∧
          (ok = true ↔ b.spent + c.work ≤ 4 * fullWeight doc + 4096) ∧
          (ok = true → b'.spent = b.spent + c.work) := by
  have hlimit : limitOf doc = 4 * fullWeight doc + 4096 := rfl
  have hfresh : Within (Budget.fresh doc) 0 := within_fresh (by rw [hlimit]; exact hdoc)
  obtain ⟨hreturns, hwithin⟩ := hfresh.after_returns (A := A) cs (by omega)
  obtain ⟨hafter, hknows⟩ := Budget.after_keeps cs (Budget.knows_fresh doc)
  have htracks := Budget.tracks_after cs (Budget.knows_fresh doc)
    (Or.inl rfl : (Budget.fresh doc).Tracks 0)
  have hfdoc : ((Budget.fresh doc).after cs).doc = doc := hafter
  refine ⟨(Budget.fresh doc).after cs, hreturns, ?_, ?_, fun c hc => ?_⟩
  · have hle := hknows.le
    rwa [hfdoc] at hle
  · have hweighed := hknows.weighed
    rwa [hfdoc] at hweighed
  · rw [List.map_append, List.sum_append, List.map_singleton, List.sum_singleton] at hc ⊢
    have hcall := hwithin.call_returns (A := A) c (by rw [Nat.cast_add] at hc; omega)
    have hverdict := (Budget.call_spec hknows htracks c).1
    rw [hfdoc, hlimit, Nat.zero_add] at hverdict
    refine ⟨_, _, hcall, hverdict, ?_, ?_⟩
    all_goals cases c with
      | units n =>
        obtain ⟨-, -, hspent, hfits⟩ := Budget.charge_spec n hknows
        rw [hfdoc, hlimit] at hfits
        first
          | exact hfits
          | exact fun _ => hspent
      | value v =>
        have hcharged := Budget.chargeWeight_spec v hknows
        have hfits := hcharged.fits
        rw [hfdoc, hlimit] at hfits
        first
          | exact hfits
          | exact hcharged.spent

theorem lazy_budget_exact_null :
    ∃ b, Returns (fun passes => after Arith.go passes (Budget.fresh .null) [.units 4000]) b ∧
      b.docWeight ≤ fullWeight .null ∧ (b.weighed = true → b.docWeight = fullWeight .null) ∧
      ∀ c, ((([Charge.units 4000] ++ [c]).map Charge.work).sum : Int) < 2 ^ 63 →
        ∃ ok b', Returns (fun passes => call Arith.go passes b c) (ok, b') ∧
          (ok = true ↔
            ((([Charge.units 4000] ++ [c]).map Charge.work).sum : Int) ≤ 4 * fullWeight .null + 4096) ∧
          (ok = true ↔ b.spent + c.work ≤ 4 * fullWeight .null + 4096) ∧
          (ok = true → b'.spent = b.spent + c.work) :=
  lazy_budget_exact Arith.go .null [.units 4000] (by decide) (by decide)

/-- Beyond the range a counter wraps around.  After `charge(MaxInt64)` is refused,
    the same call again passes, and `chargeWeight(nil)` makes one pass after the
    other: what is spent and the one unit of the value make a negative number,
    which `admits` lets pass, and nothing has changed. -/
theorem charge_wraps_around :
    let spent : Budget := ⟨.null, 1, true, 2 ^ 63 - 1⟩
    charge Arith.go 2 (Budget.fresh .null) (2 ^ 63 - 1) = some (false, spent) ∧
      charge Arith.go 2 spent (2 ^ 63 - 1) = some (true, { spent with spent := -2 }) ∧
      4 * (fullWeight .null : Int) + 4096 < (2 ^ 63 - 1) + (2 ^ 63 - 1) ∧
      ∀ passes, chargeWeight Arith.go passes spent .null = none := by
  refine ⟨by rfl, by rfl, by decide, fun passes => ?_⟩
  induction passes with
  | zero => rfl
  | succ passes ih =>
    rw [chargeWeight]
    cases passes with
    | zero => rfl
    | succ passes => exact ih

end Wrapping

end AuthzAgent.Jsonpath
