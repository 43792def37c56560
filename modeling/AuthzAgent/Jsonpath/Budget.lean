/-
  AuthzAgent.Jsonpath.Budget

  The work budget of one selection (budget.go of jsonpath).  The budget weighs
  its document, and a value that is charged, only as far as a verdict needs.

  `fullWeight` is what the weight of a value means.  A partial weighing stays
  below it, reaches it where it does not exceed its limit, and exceeds its limit
  otherwise (`weight_spec`); from this alone the verdicts of the lazy budget are
  those of one that weighs everything at once.

  Counters are integers without a bound here; `BudgetInt` has them as the `int`
  of 64 bits that the code counts with, and where the two agree.
-/

import AuthzAgent.Jsonvalue.Value
import AuthzAgent.Lib.Loop

namespace AuthzAgent.Jsonpath

open Jsonvalue

/-! ## Weights -/

mutual

/-- The size of a value: one for each value in it, and the bytes of each string,
    member key and number text. -/
def fullWeight : Value → Nat
  | .null => 1
  | .bool _ => 1
  | .string s => 1 + s.utf8ByteSize
  | .number text => 1 + text.utf8ByteSize
  | .list items => 1 + fullWeightItems items
  | .object members => 1 + fullWeightMembers members

def fullWeightItems : List Value → Nat
  | [] => 0
  | v :: vs => fullWeight v + fullWeightItems vs

def fullWeightMembers : List (String × Value) → Nat
  | [] => 0
  | (k, v) :: ms => (k.utf8ByteSize + fullWeight v) + fullWeightMembers ms

end

mutual

def weight (limit : Int) : Value → Int
  | .null => 1
  | .bool _ => 1
  | .string s => 1 + s.utf8ByteSize
  | .number text => 1 + text.utf8ByteSize
  | .list items => weightItems limit 1 items
  | .object members => weightMembers limit 1 members

/-- The loop of `weight` over the elements of a list, which stops once the size
    exceeds the limit. -/
def weightItems (limit w : Int) : List Value → Int
  | [] => w
  | v :: vs => if w > limit then w else weightItems limit (w + weight (limit - w) v) vs

/-- The loop of `weight` over the members of an object. -/
def weightMembers (limit w : Int) : List (String × Value) → Int
  | [] => w
  | (k, v) :: ms =>
    if w > limit then w
    else weightMembers limit (w + (k.utf8ByteSize + weight (limit - w) v)) ms

end

/-- A partial size of something of a full size: it stays below the full size,
    and falls short of it only above the limit. -/
structure Weighs (limit part : Int) (full : Nat) : Prop where
  le : part ≤ full
  reaches : part ≤ limit → part = full

namespace Weighs

variable {limit part : Int} {full : Nat}

/-- A loop that stops above its limit. -/
theorem stop (h : Weighs limit part full) (hgt : part > limit) (rest : Nat) :
    Weighs limit part (full + rest) := by
  have hle := h.le
  exact ⟨by push_cast; omega, fun hlimit => absurd hlimit (not_le.mpr hgt)⟩

/-- A pass of a loop, which weighs one more value with what is left. -/
theorem add (h : Weighs limit part full) {more : Int} {size : Nat}
    (hmore : Weighs (limit - part) more size) (hpos : 0 ≤ more) (extra : Nat) :
    Weighs limit (part + (extra + more)) (full + (extra + size)) := by
  have hle := h.le
  have hle' := hmore.le
  refine ⟨by push_cast; omega, fun hlimit => ?_⟩
  have hpart := h.reaches (by omega)
  have hsize := hmore.reaches (by omega)
  push_cast
  omega

end Weighs

/-- What a partial weighing says about the size. -/
theorem weight_spec (v : Value) (limit : Int) :
    Weighs limit (weight limit v) (fullWeight v) ∧ 0 < weight limit v := by
  induction v using Value.ind generalizing limit with
  | null | bool => exact ⟨⟨le_refl _, fun _ => rfl⟩, Int.one_pos⟩
  | string | number =>
    simp only [weight, fullWeight]
    exact ⟨⟨by push_cast; exact le_refl _, fun _ => by push_cast; rfl⟩, by omega⟩
  | list items ih =>
    have hloop : ∀ (w : Int) (done : Nat), Weighs limit w done → 0 < w →
        Weighs limit (weightItems limit w items) (done + fullWeightItems items) ∧
          0 < weightItems limit w items := by
      induction items with
      | nil => exact fun w done h hw => ⟨h, hw⟩
      | cons v vs ihs =>
        intro w done h hw
        rw [weightItems, fullWeightItems]
        split_ifs with hgt
        · exact ⟨h.stop hgt _, hw⟩
        · obtain ⟨hv, hpos⟩ := ih v List.mem_cons_self (limit - w)
          have hadd := h.add hv (le_of_lt hpos) 0
          simp only [Nat.cast_zero, zero_add] at hadd
          rw [← Nat.add_assoc]
          exact ihs (fun u hu => ih u (List.mem_cons_of_mem v hu)) _ _ hadd (by omega)
    rw [weight, fullWeight]
    exact hloop 1 1 ⟨le_refl _, fun _ => rfl⟩ (by decide)
  | object members ih =>
    have hloop : ∀ (w : Int) (done : Nat), Weighs limit w done → 0 < w →
        Weighs limit (weightMembers limit w members) (done + fullWeightMembers members) ∧
          0 < weightMembers limit w members := by
      induction members with
      | nil => exact fun w done h hw => ⟨h, hw⟩
      | cons m ms ihs =>
        obtain ⟨k, v⟩ := m
        intro w done h hw
        rw [weightMembers, fullWeightMembers]
        split_ifs with hgt
        · exact ⟨h.stop hgt _, hw⟩
        · have hmember : Weighs (limit - w) (weight (limit - w) v) (fullWeight v) ∧
              0 < weight (limit - w) v := ih (k, v) List.mem_cons_self (limit - w)
          obtain ⟨hv, hpos⟩ := hmember
          rw [← Nat.add_assoc]
          exact ihs (fun n hn => ih n (List.mem_cons_of_mem (k, v) hn)) _ _
            (h.add hv (le_of_lt hpos) k.utf8ByteSize) (by omega)
    rw [weight, fullWeight]
    exact hloop 1 1 ⟨le_refl _, fun _ => rfl⟩ (by decide)

/-! ## The budget -/

def budgetFactor : Int := 4

def budgetFloor : Int := 4096

structure Budget where
  doc : Value
  docWeight : Int
  weighed : Bool
  spent : Int

def allowed (w : Int) : Int := budgetFactor * w + budgetFloor

/-- The work the whole document allows. -/
def limitOf (doc : Value) : Int := allowed (fullWeight doc)

theorem allowed_mono {v w : Int} (h : v ≤ w) : allowed v ≤ allowed w := by
  simp only [allowed, budgetFactor]
  omega

namespace Budget

/-- `budget\x7bdoc: doc\x7d` -/
def fresh (doc : Value) : Budget := ⟨doc, 0, false, 0⟩

/-- How far `admits` weighs the document for some work. -/
def boundFor (b : Budget) (work : Int) : Int :=
  max ((work - budgetFloor + budgetFactor - 1).tdiv budgetFactor) (2 * b.docWeight)

/-- The document weighed further. -/
def weighTo (b : Budget) (bound : Int) : Budget :=
  { b with docWeight := weight bound b.doc, weighed := weight bound b.doc ≤ bound }

/-- A pass of the loop of `admits`. -/
def admitsBody (work : Int) (b : Budget) : Budget ⊕ (Bool × Budget) :=
  if work > allowed b.docWeight then
    if b.weighed then .inr (false, b)
    else .inl (b.weighTo (b.boundFor work))
  else .inr (true, b)

/-- Whether the next pass of `admits` returns. -/
def settled (work : Int) (b : Budget) : Nat :=
  if b.weighed ∨ work ≤ allowed b.docWeight then 0 else 1

/-- Weighing as far as some work needs settles whether it fits. -/
theorem settled_weighTo (work : Int) (b : Budget) :
    settled work (b.weighTo (b.boundFor work)) = 0 := by
  rw [settled, if_pos]
  by_cases hle : weight (b.boundFor work) b.doc ≤ b.boundFor work
  · exact Or.inl (decide_eq_true hle)
  · right
    have hneed : (work - budgetFloor + budgetFactor - 1).tdiv budgetFactor ≤ b.boundFor work :=
      le_max_left _ _
    have hdiv := Int.mul_tdiv_add_tmod (work - budgetFloor + budgetFactor - 1) budgetFactor
    have hmod := Int.tmod_lt_of_pos (work - budgetFloor + budgetFactor - 1)
      (show 0 < budgetFactor by decide)
    show work ≤ allowed (weight (b.boundFor work) b.doc)
    generalize weight (b.boundFor work) b.doc = w at hle
    simp only [allowed, budgetFactor, budgetFloor] at *
    omega

theorem admitsBody_decreases (work : Int) : Loop.Decreases (admitsBody work) (settled work) := by
  intro b b' h
  rw [admitsBody] at h
  split_ifs at h with hwork hweighed
  obtain rfl := Sum.inl.inj h
  have hone : settled work b = 1 := by
    rw [settled, if_neg]
    rintro (h | h)
    · exact hweighed h
    · exact absurd h (not_le.mpr hwork)
  rw [settled_weighTo, hone]
  exact Nat.one_pos

def admits (b : Budget) (work : Int) : Bool × Budget :=
  Loop.eval (admitsBody_decreases work) b

def charge (b : Budget) (n : Nat) : Bool × Budget :=
  let b := { b with spent := b.spent + n }
  b.admits b.spent

/-! ## Verdicts of `admits` -/

/-- The budget knows a part of its document's weight, all of it once weighed. -/
structure Knows (b : Budget) : Prop where
  le : b.docWeight ≤ fullWeight b.doc
  weighed : b.weighed = true → b.docWeight = fullWeight b.doc
  nonneg : 0 ≤ b.docWeight

theorem knows_fresh (doc : Value) : (fresh doc).Knows :=
  ⟨Int.natCast_nonneg _, fun h => absurd h Bool.false_ne_true, le_refl 0⟩

theorem knows_weighTo (b : Budget) (bound : Int) : (b.weighTo bound).Knows where
  le := (weight_spec b.doc bound).1.le
  weighed := fun h => (weight_spec b.doc bound).1.reaches (of_decide_eq_true h)
  nonneg := le_of_lt (weight_spec b.doc bound).2

/-- `admits` weighs its document and changes nothing else; work it lets pass is
    covered by the weight known then. -/
structure Frame (work : Int) (b : Budget) (r : Bool × Budget) : Prop where
  doc : r.2.doc = b.doc
  spent : r.2.spent = b.spent
  covers : r.1 = true → work ≤ allowed r.2.docWeight

theorem admits_frame (work : Int) (b : Budget) : Frame work b (b.admits work) := by
  refine Loop.eval_induction (admitsBody_decreases work) ?_ ?_ b
  · intro b r h
    rw [admitsBody] at h
    split_ifs at h with hwork hweighed
    · obtain rfl := Sum.inr.inj h
      exact ⟨rfl, rfl, fun h => absurd h Bool.false_ne_true⟩
    · obtain rfl := Sum.inr.inj h
      exact ⟨rfl, rfl, fun _ => not_lt.mp hwork⟩
  · intro b b' r h hr
    rw [admitsBody] at h
    split_ifs at h
    obtain rfl := Sum.inl.inj h
    exact ⟨hr.doc, hr.spent, hr.covers⟩

/-- `admits` keeps what the budget knows, and tells whether the work fits the
    whole document. -/
theorem admits_spec (work : Int) {b : Budget} (hb : b.Knows) :
    (b.admits work).2.Knows ∧ ((b.admits work).1 = true ↔ work ≤ limitOf b.doc) := by
  revert hb
  refine Loop.eval_induction (admitsBody_decreases work)
    (P := fun b r => b.Knows → r.2.Knows ∧ (r.1 = true ↔ work ≤ limitOf b.doc)) ?_ ?_ b
  · intro b r h hb
    rw [admitsBody] at h
    split_ifs at h with hwork hweighed
    · obtain rfl := Sum.inr.inj h
      refine ⟨hb, ?_⟩
      rw [limitOf, ← hb.weighed hweighed]
      exact iff_of_false Bool.false_ne_true (not_le.mpr hwork)
    · obtain rfl := Sum.inr.inj h
      exact ⟨hb, iff_of_true rfl (le_trans (not_lt.mp hwork) (allowed_mono hb.le))⟩
  · intro b b' r h hr _
    rw [admitsBody] at h
    split_ifs at h
    obtain rfl := Sum.inl.inj h
    exact hr (knows_weighTo b _)

/-! ## Charging the weight of a value -/

/-- The work the weight known so far leaves. -/
def left (b : Budget) : Int := allowed b.docWeight - b.spent

/-- A pass of the loop of `chargeWeight`. -/
def chargeWeightBody (v : Value) (b : Budget) : Budget ⊕ (Bool × Budget) :=
  let w := weight b.left v
  if w ≤ b.left then .inr (true, { b with spent := b.spent + w })
  else
    let (ok, b) := b.admits (b.spent + w)
    if !ok then .inr (false, { b with spent := b.spent + w })
    else .inl b

/-- What can happen in a pass: the value is charged, refused, or read further
    with more of the document weighed. -/
theorem chargeWeightBody_cases (v : Value) (b : Budget) :
    (weight b.left v ≤ b.left ∧
      chargeWeightBody v b = .inr (true, { b with spent := b.spent + weight b.left v })) ∨
    (b.left < weight b.left v ∧ (b.admits (b.spent + weight b.left v)).1 = false ∧
      chargeWeightBody v b = .inr (false, { (b.admits (b.spent + weight b.left v)).2 with
        spent := (b.admits (b.spent + weight b.left v)).2.spent + weight b.left v })) ∨
    (b.left < weight b.left v ∧ (b.admits (b.spent + weight b.left v)).1 = true ∧
      chargeWeightBody v b = .inl (b.admits (b.spent + weight b.left v)).2) := by
  simp only [chargeWeightBody]
  by_cases hle : weight b.left v ≤ b.left
  · exact Or.inl ⟨hle, if_pos hle⟩
  · rw [if_neg hle]
    cases hok : (b.admits (b.spent + weight b.left v)).1 with
    | false => exact Or.inr (Or.inl ⟨not_le.mp hle, rfl, rfl⟩)
    | true => exact Or.inr (Or.inr ⟨not_le.mp hle, rfl, rfl⟩)

/-- How much of a value the next pass may have to read again. -/
def unread (v : Value) (b : Budget) : Nat := (fullWeight v - b.left).toNat

theorem chargeWeightBody_decreases (v : Value) :
    Loop.Decreases (chargeWeightBody v) (unread v) := by
  intro b b' h
  rcases chargeWeightBody_cases v b with ⟨-, heq⟩ | ⟨-, -, heq⟩ | ⟨hgt, hok, heq⟩
  · rw [heq] at h
    cases h
  · rw [heq] at h
    cases h
  · rw [heq] at h
    obtain rfl := Sum.inl.inj h
    have hframe := admits_frame (b.spent + weight b.left v) b
    have hcovers := hframe.covers hok
    have hspent := hframe.spent
    have hle := (weight_spec v b.left).1.le
    simp only [unread, left] at *
    omega

def chargeWeight (b : Budget) (v : Value) : Bool × Budget :=
  Loop.eval (chargeWeightBody_decreases v) b

/-- `chargeWeight` tells whether the full weight of a value still fits, and then
    charges it; a refused charge leaves the budget spent. -/
structure Charged (v : Value) (b : Budget) (r : Bool × Budget) : Prop where
  doc : r.2.doc = b.doc
  knows : r.2.Knows
  fits : r.1 = true ↔ b.spent + fullWeight v ≤ limitOf b.doc
  spent : r.1 = true → r.2.spent = b.spent + fullWeight v
  refused : r.1 = false → limitOf b.doc < r.2.spent
  le : r.2.spent ≤ b.spent + fullWeight v

theorem chargeWeight_spec (v : Value) {b : Budget} (hb : b.Knows) :
    Charged v b (b.chargeWeight v) := by
  revert hb
  refine Loop.eval_induction (chargeWeightBody_decreases v)
    (P := fun b r => b.Knows → Charged v b r) ?_ ?_ b
  · intro b r h hb
    have hweight := (weight_spec v b.left).1
    rcases chargeWeightBody_cases v b with ⟨hle, heq⟩ | ⟨hgt, hno, heq⟩ | ⟨-, -, heq⟩
    · rw [heq] at h
      obtain rfl := Sum.inr.inj h
      have hfull := hweight.reaches hle
      have hlimit := allowed_mono hb.le
      refine ⟨rfl, ⟨hb.le, hb.weighed, hb.nonneg⟩, iff_of_true rfl ?_, fun _ => by rw [hfull],
        fun h => absurd h.symm Bool.false_ne_true, by rw [hfull]⟩
      simp only [left, limitOf] at *
      omega
    · rw [heq] at h
      obtain rfl := Sum.inr.inj h
      have hframe := admits_frame (b.spent + weight b.left v) b
      obtain ⟨hknows, hfits⟩ := admits_spec (b.spent + weight b.left v) hb
      have hover : limitOf b.doc < b.spent + weight b.left v := by
        rw [← not_le, ← hfits, hno]
        exact Bool.false_ne_true
      have hle := hweight.le
      have hspent := hframe.spent
      refine ⟨hframe.doc, ⟨hknows.le, hknows.weighed, hknows.nonneg⟩,
        iff_of_false Bool.false_ne_true (by omega), fun h => absurd h Bool.false_ne_true,
        fun _ => ?_, ?_⟩
      · show limitOf b.doc < (b.admits (b.spent + weight b.left v)).2.spent + weight b.left v
        omega
      · show (b.admits (b.spent + weight b.left v)).2.spent + weight b.left v ≤ _
        omega
    · rw [heq] at h
      cases h
  · intro b b' r h hr hb
    rcases chargeWeightBody_cases v b with ⟨-, heq⟩ | ⟨-, -, heq⟩ | ⟨-, -, heq⟩
    · rw [heq] at h
      cases h
    · rw [heq] at h
      cases h
    · rw [heq] at h
      obtain rfl := Sum.inl.inj h
      have hframe := admits_frame (b.spent + weight b.left v) b
      have hcharged := hr (admits_spec _ hb).1
      refine ⟨hcharged.doc.trans hframe.doc, hcharged.knows, ?_, ?_, ?_, ?_⟩
      · rw [hcharged.fits, hframe.doc, hframe.spent]
      · rw [← hframe.spent]
        exact hcharged.spent
      · rw [← hframe.doc]
        exact hcharged.refused
      · rw [← hframe.spent]
        exact hcharged.le

end Budget

/-! ## Runs -/

/-- A call on a budget. -/
inductive Charge where
  | units (n : Nat)
  | value (v : Value)

/-- What a call adds to the work. -/
def Charge.work : Charge → Nat
  | .units n => n
  | .value v => fullWeight v

namespace Budget

def call (b : Budget) : Charge → Bool × Budget
  | .units n => b.charge n
  | .value v => b.chargeWeight v

/-- The state after calls, whatever they returned. -/
def after (b : Budget) (cs : List Charge) : Budget := cs.foldl (fun b c => (b.call c).2) b

theorem charge_spec (n : Nat) {b : Budget} (hb : b.Knows) :
    (b.charge n).2.doc = b.doc ∧ (b.charge n).2.Knows ∧ (b.charge n).2.spent = b.spent + n ∧
      ((b.charge n).1 = true ↔ b.spent + n ≤ limitOf b.doc) := by
  have hframe := admits_frame (b.spent + n) { b with spent := b.spent + n }
  have hknows : Knows { b with spent := b.spent + n } := ⟨hb.le, hb.weighed, hb.nonneg⟩
  obtain ⟨hafter, hfits⟩ := admits_spec (b.spent + n) hknows
  exact ⟨hframe.doc, hafter, hframe.spent, hfits⟩

theorem call_keeps {b : Budget} (hb : b.Knows) (c : Charge) :
    (b.call c).2.doc = b.doc ∧ (b.call c).2.Knows := by
  cases c with
  | units n =>
    obtain ⟨hdoc, hknows, -⟩ := charge_spec n hb
    exact ⟨hdoc, hknows⟩
  | value v =>
    have hcharged := chargeWeight_spec v hb
    exact ⟨hcharged.doc, hcharged.knows⟩

theorem after_keeps (cs : List Charge) {b : Budget} (hb : b.Knows) :
    (b.after cs).doc = b.doc ∧ (b.after cs).Knows := by
  induction cs generalizing b with
  | nil => exact ⟨rfl, hb⟩
  | cons c cs ih =>
    obtain ⟨hdoc, hknows⟩ := call_keeps hb c
    obtain ⟨hdoc', hknows'⟩ := ih hknows
    exact ⟨hdoc'.trans hdoc, hknows'⟩

/-- Where all work was charged, what is spent is the work; beyond the limit, only
    that it is. -/
def Tracks (b : Budget) (total : Nat) : Prop :=
  b.spent = total ∨ limitOf b.doc < b.spent ∧ limitOf b.doc < total

/-- A call gives the verdict on the whole work, and keeps track of it. -/
theorem call_spec {b : Budget} (hb : b.Knows) {total : Nat} (ht : b.Tracks total) (c : Charge) :
    ((b.call c).1 = true ↔ (total + c.work : Nat) ≤ limitOf b.doc) ∧
      (b.call c).2.Tracks (total + c.work) := by
  cases c with
  | units n =>
    obtain ⟨hdoc, -, hspent, hfits⟩ := charge_spec n hb
    rw [call, hfits, Tracks, hdoc, hspent, Charge.work]
    push_cast
    rcases ht with ht | ⟨hover, hover'⟩
    · rw [ht]
      exact ⟨Iff.rfl, Or.inl rfl⟩
    · exact ⟨iff_of_false (by omega) (by omega), Or.inr ⟨by omega, by omega⟩⟩
  | value v =>
    have hcharged := chargeWeight_spec v hb
    rw [call, hcharged.fits, Tracks, hcharged.doc, Charge.work]
    push_cast
    rcases ht with ht | ⟨hover, hover'⟩
    · refine ⟨by rw [ht], ?_⟩
      cases hok : (b.chargeWeight v).1 with
      | true => exact Or.inl (by rw [hcharged.spent hok, ht])
      | false =>
        refine Or.inr ⟨hcharged.refused hok, ?_⟩
        rw [← ht, ← not_le, ← hcharged.fits, hok]
        exact Bool.false_ne_true
    · refine ⟨iff_of_false (by omega) (by omega), Or.inr ⟨hcharged.refused ?_, by omega⟩⟩
      rw [← Bool.not_eq_true, hcharged.fits]
      omega

theorem tracks_after (cs : List Charge) {b : Budget} (hb : b.Knows) {total : Nat}
    (ht : b.Tracks total) : (b.after cs).Tracks (total + (cs.map Charge.work).sum) := by
  induction cs generalizing b total with
  | nil => exact ht
  | cons c cs ih =>
    rw [List.map_cons, List.sum_cons, ← Nat.add_assoc]
    exact ih (call_keeps hb c).2 (call_spec hb ht c).2

end Budget

end AuthzAgent.Jsonpath
