/-
  AuthzAgent.Lib.Parsing

  Recursive-descent parsers that can fail and that loop, with a rule of
  reasoning for each way to build one.

  A parser reads a list of tokens of any type.  A loop carries a bound of its
  rounds, since Lean accepts total functions only, and reports the error
  `bad` when the bound is reached.  `Meets p n bad Q` says that on any input
  of at most `n` tokens `p` never reports `bad`, hands back no more tokens
  than it was given, and returns a value of `Q`.  The rules below follow the
  construction of a parser, so one derivation shows that its loops never run
  out of rounds and what the accepted inputs parse to.

  `ReadsFrom p R` relates a result to the tokens that were read for it:
  whatever `p` consumes is a part of the input in front of what it leaves.

  `Loops guard item ts as rest` are the runs of a loop, round by round, and
  each is what `many` returns; `manyFuel_ok` reads a result back one round.
-/

import Mathlib

namespace Parsing

/-- A parser over tokens `τ` with errors `ε`. -/
abbrev Parser (τ ε : Type) := StateT (List τ) (Except ε)

variable {τ ε α β : Type}

/-- A computation that never reports `bad` and returns values of `Q`. -/
def Avoids (bad : ε) (Q : α → Prop) : Except ε α → Prop
  | .ok a => Q a
  | .error e => e ≠ bad

/-- What a parser may do on one input: `bad` is no outcome, and a result leaves
    at most `bound` tokens and is in `Q`. -/
def Outcome (bad : ε) (bound : Nat) (Q : α → Prop) : Except ε (α × List τ) → Prop
  | .ok (a, rest) => rest.length ≤ bound ∧ Q a
  | .error e => e ≠ bad

/-- On inputs of at most `n` tokens `p` never reports `bad`, does not lengthen
    its input, and returns values of `Q`. -/
def Meets (p : Parser τ ε α) (n : Nat) (bad : ε) (Q : α → Prop) : Prop :=
  ∀ ts : List τ, ts.length ≤ n → Outcome bad ts.length Q (p ts)

theorem Outcome.mono {bad : ε} {b c : Nat} {Q R : α → Prop} {r : Except ε (α × List τ)}
    (h : Outcome bad b Q r) (hbc : b ≤ c) (hQR : ∀ a, Q a → R a) : Outcome bad c R r := by
  cases r with
  | error e => exact h
  | ok r => exact ⟨h.1.trans hbc, hQR _ h.2⟩

theorem meets_pure {n : Nat} {bad : ε} {Q : α → Prop} {a : α} (ha : Q a) :
    Meets (pure a : Parser τ ε α) n bad Q :=
  fun _ _ => ⟨le_rfl, ha⟩

theorem meets_throw {n : Nat} {bad e : ε} {Q : α → Prop} (he : e ≠ bad) :
    Meets (throw e : Parser τ ε α) n bad Q :=
  fun _ _ => he

/-- Sequencing on one input: the second parser runs on what the first leaves. -/
theorem Outcome.bind {p : Parser τ ε α} {f : α → Parser τ ε β} {bad : ε} {b c : Nat}
    {Q : α → Prop} {R : β → Prop} {ts : List τ} (hp : Outcome bad b Q (p ts))
    (hf : ∀ a rest, Q a → rest.length ≤ b → Outcome bad c R (f a rest)) :
    Outcome bad c R ((p >>= f) ts) := by
  show Outcome bad c R (p ts >>= fun r => f r.1 r.2)
  cases hr : p ts with
  | error e =>
    rw [hr] at hp
    exact hp
  | ok r =>
    rw [hr] at hp
    exact hf r.1 r.2 hp.2 hp.1

theorem Meets.bind {p : Parser τ ε α} {f : α → Parser τ ε β} {n : Nat} {bad : ε}
    {Q : α → Prop} {R : β → Prop} (hp : Meets p n bad Q)
    (hf : ∀ a, Q a → Meets (f a) n bad R) : Meets (p >>= f) n bad R := by
  intro ts hts
  refine (hp ts hts).bind fun a rest ha hrest => ?_
  exact (hf a ha rest (hrest.trans hts)).mono hrest fun _ => id

/-! ## Loops -/

/-- `for guard { item }`, at most `fuel` rounds, with the items in order. -/
def manyFuel (guard : List τ → Option (List τ)) (item : Parser τ ε α) (bad : ε) :
    Nat → Parser τ ε (List α)
  | 0, ts => match guard ts with
      | none => .ok ([], ts)
      | some _ => .error bad
  | fuel + 1, ts => match guard ts with
      | none => .ok ([], ts)
      | some rest => (do
          let a ← item
          let as ← manyFuel guard item bad fuel
          pure (a :: as) : Parser τ ε (List α)) rest

/-- `for guard { item }`: a loop whose rounds consume tokens. -/
def many (guard : List τ → Option (List τ)) (item : Parser τ ε α) (bad : ε) :
    Parser τ ε (List α) :=
  fun ts => manyFuel guard item bad ts.length ts

/-- A round of the loop on one input: it ends, fails, or consumes a token. -/
def Consumes (guard : List τ → Option (List τ)) (item : Parser τ ε α) (n : Nat) (bad : ε)
    (Q : α → Prop) : Prop :=
  ∀ ts rest : List τ, ts.length ≤ n → guard ts = some rest →
    0 < ts.length ∧ Outcome bad (ts.length - 1) Q (item rest)

theorem manyFuel_outcome {guard : List τ → Option (List τ)} {item : Parser τ ε α} {n : Nat}
    {bad : ε} {Q : α → Prop} (hround : Consumes guard item n bad Q) (fuel : Nat)
    (ts : List τ) (hn : ts.length ≤ n) (hfuel : ts.length ≤ fuel) :
    Outcome bad ts.length (fun as => ∀ a ∈ as, Q a) (manyFuel guard item bad fuel ts) := by
  induction fuel generalizing ts with
  | zero =>
    cases hg : guard ts with
    | none => simp [manyFuel, hg, Outcome]
    | some rest =>
      obtain ⟨hpos, -⟩ := hround ts rest hn hg
      omega
  | succ fuel ih =>
    cases hg : guard ts with
    | none => simp [manyFuel, hg, Outcome]
    | some rest =>
      obtain ⟨hpos, hitem⟩ := hround ts rest hn hg
      rw [manyFuel, hg]
      refine hitem.bind fun a rest' ha hrest' => ?_
      refine (ih rest' (by omega) (by omega)).bind fun as rest'' has hrest'' => ?_
      refine ⟨by omega, ?_⟩
      simpa using ⟨ha, has⟩

theorem meets_many {guard : List τ → Option (List τ)} {item : Parser τ ε α} {n : Nat}
    {bad : ε} {Q : α → Prop} (hround : Consumes guard item n bad Q) :
    Meets (many guard item bad) n bad (fun as => ∀ a ∈ as, Q a) :=
  fun ts hts => manyFuel_outcome hround ts.length ts hts le_rfl

/-- A guard that consumes a token makes any item that `Meets` its
    specification a round of a loop. -/
theorem Meets.consumes {guard : List τ → Option (List τ)} {item : Parser τ ε α} {n : Nat}
    {bad : ε} {Q : α → Prop} (hitem : Meets item n bad Q)
    (hguard : ∀ ts rest, guard ts = some rest → rest.length < ts.length) :
    Consumes guard item n bad Q := by
  intro ts rest hn hg
  have hlt := hguard ts rest hg
  exact ⟨by omega, (hitem rest (by omega)).mono (by omega) fun _ => id⟩

/-! ## What a result was read from -/

/-- On the input `ts` a result of `p` is in `R` with the tokens read for it. -/
def ReadsOn (p : Parser τ ε α) (ts : List τ) (R : List τ → α → Prop) : Prop :=
  ∀ a rest, p ts = .ok (a, rest) → ∃ used, ts = used ++ rest ∧ R used a

def ReadsFrom (p : Parser τ ε α) (R : List τ → α → Prop) : Prop := ∀ ts, ReadsOn p ts R

/-- A guard leaves the end of its input. -/
def Skips (guard : List τ → Option (List τ)) (G : List τ → Prop) : Prop :=
  ∀ ts rest, guard ts = some rest → ∃ used, ts = used ++ rest ∧ G used

theorem readsFrom_pure {R : List τ → α → Prop} {a : α} (ha : R [] a) :
    ReadsFrom (pure a : Parser τ ε α) R := by
  intro ts b rest hp
  obtain ⟨rfl, rfl⟩ := Prod.mk.inj (Except.ok.inj hp)
  exact ⟨[], rfl, ha⟩

/-- Sequencing on one input: the second parser reads behind the first. -/
theorem ReadsOn.bind {p : Parser τ ε α} {f : α → Parser τ ε β} {ts : List τ}
    {R : List τ → α → Prop} {S : List τ → β → Prop} (hp : ReadsOn p ts R)
    (hf : ∀ first rest a, ts = first ++ rest → R first a →
      ReadsOn (f a) rest fun used b => S (first ++ used) b) :
    ReadsOn (p >>= f) ts S := by
  intro b rest hb
  replace hb : (p ts >>= fun r => f r.1 r.2) = .ok (b, rest) := hb
  cases hr : p ts with
  | error e =>
    rw [hr] at hb
    cases hb
  | ok r =>
    rw [hr] at hb
    obtain ⟨first, hts, hR⟩ := hp r.1 r.2 hr
    obtain ⟨used, hrest, hS⟩ := hf first r.2 r.1 hts hR b rest hb
    exact ⟨first ++ used, by rw [hts, hrest, List.append_assoc], hS⟩

theorem ReadsFrom.bind {p : Parser τ ε α} {f : α → Parser τ ε β} {R : List τ → α → Prop}
    {S : List τ → β → Prop} (hp : ReadsFrom p R)
    (hf : ∀ first a, R first a → ReadsFrom (f a) fun used b => S (first ++ used) b) :
    ReadsFrom (p >>= f) S :=
  fun ts => (hp ts).bind fun first rest a _ hR => hf first a hR rest

/-- The tokens of a loop: in each round what its guard and its item read. -/
inductive Rounds (G : List τ → Prop) (R : List τ → α → Prop) : List τ → List α → Prop
  | nil : Rounds G R [] []
  | cons {skipped first used : List τ} {a : α} {as : List α} (hG : G skipped) (hR : R first a)
      (h : Rounds G R used as) : Rounds G R (skipped ++ first ++ used) (a :: as)

theorem Rounds.mono {G : List τ → Prop} {R S : List τ → α → Prop} {used : List τ} {as : List α}
    (h : Rounds G R used as) (hRS : ∀ used a, R used a → S used a) : Rounds G S used as := by
  induction h with
  | nil => exact .nil
  | cons hG hR _ ih => exact .cons hG (hRS _ _ hR) ih

theorem ReadsFrom.manyFuel {guard : List τ → Option (List τ)} {item : Parser τ ε α} {bad : ε}
    {G : List τ → Prop} {R : List τ → α → Prop} (hguard : Skips guard G)
    (hitem : ReadsFrom item R) (fuel : Nat) :
    ReadsFrom (manyFuel guard item bad fuel) (Rounds G R) := by
  induction fuel with
  | zero =>
    intro ts as rest h
    rw [Parsing.manyFuel] at h
    cases hg : guard ts with
    | none =>
      rw [hg] at h
      obtain ⟨rfl, rfl⟩ := Prod.mk.inj (Except.ok.inj h)
      exact ⟨[], rfl, .nil⟩
    | some _ =>
      rw [hg] at h
      cases h
  | succ fuel ih =>
    intro ts as rest h
    rw [Parsing.manyFuel] at h
    cases hg : guard ts with
    | none =>
      rw [hg] at h
      obtain ⟨rfl, rfl⟩ := Prod.mk.inj (Except.ok.inj h)
      exact ⟨[], rfl, .nil⟩
    | some rest₁ =>
      rw [hg] at h
      obtain ⟨skipped, rfl, hG⟩ := hguard ts rest₁ hg
      have hround : ReadsFrom (do
          let a ← item
          let as ← Parsing.manyFuel guard item bad fuel
          pure (a :: as) : Parser τ ε (List α)) fun used as =>
            Rounds G R (skipped ++ used) as := by
        refine hitem.bind fun first a hR => ih.bind fun used as has => readsFrom_pure ?_
        rw [List.append_nil, ← List.append_assoc]
        exact .cons hG hR has
      obtain ⟨used, rfl, hrounds⟩ := hround rest₁ as rest h
      exact ⟨skipped ++ used, by rw [List.append_assoc], hrounds⟩

theorem ReadsFrom.many {guard : List τ → Option (List τ)} {item : Parser τ ε α} {bad : ε}
    {G : List τ → Prop} {R : List τ → α → Prop} (hguard : Skips guard G)
    (hitem : ReadsFrom item R) : ReadsFrom (many guard item bad) (Rounds G R) :=
  fun ts => hitem.manyFuel hguard ts.length ts

/-! ## Rounds of a loop -/

/-- The loop reads the items `as` from `ts` and stops at `rest`. -/
inductive Loops (guard : List τ → Option (List τ)) (item : Parser τ ε α) :
    List τ → List α → List τ → Prop
  | stop {ts : List τ} (h : guard ts = none) : Loops guard item ts [] ts
  | round {ts mid next rest : List τ} {a : α} {as : List α} (hguard : guard ts = some mid)
      (hitem : item mid = .ok (a, next)) (hless : next.length < ts.length)
      (h : Loops guard item next as rest) : Loops guard item ts (a :: as) rest

section Loops

variable {guard : List τ → Option (List τ)} {item : Parser τ ε α} {bad : ε}

theorem manyFuel_round {fuel : Nat} {ts mid next : List τ} {a : α} (hguard : guard ts = some mid)
    (hitem : item mid = .ok (a, next)) :
    manyFuel guard item bad (fuel + 1) ts =
      (manyFuel guard item bad fuel next).map fun r => (a :: r.1, r.2) := by
  rw [manyFuel, hguard]
  show (item mid >>= fun r => manyFuel guard item bad fuel r.2 >>= fun s =>
    Except.ok (r.1 :: s.1, s.2)) = _
  rw [hitem]
  show (manyFuel guard item bad fuel next >>= fun s => Except.ok (a :: s.1, s.2)) = _
  cases manyFuel guard item bad fuel next <;> rfl

theorem Loops.manyFuel_eq {ts rest : List τ} {as : List α} (h : Loops guard item ts as rest)
    {fuel : Nat} (hfuel : ts.length ≤ fuel) : manyFuel guard item bad fuel ts = .ok (as, rest) := by
  induction h generalizing fuel with
  | stop hstop => cases fuel <;> rw [manyFuel, hstop]
  | round hguard hitem hless _ ih =>
    obtain ⟨n, rfl⟩ : ∃ n, fuel = n + 1 := ⟨fuel - 1, by omega⟩
    rw [manyFuel_round hguard hitem, ih (by omega)]
    rfl

/-- A run of the loop is what `many` returns. -/
theorem Loops.many_eq {ts rest : List τ} {as : List α} (h : Loops guard item ts as rest) :
    many guard item bad ts = .ok (as, rest) :=
  h.manyFuel_eq le_rfl

/-- A loop ends behind its guard, or behind the last item. -/
theorem manyFuel_ok {fuel : Nat} {ts rest : List τ} {as : List α}
    (h : manyFuel guard item bad fuel ts = .ok (as, rest)) :
    (guard ts = none ∧ as = [] ∧ rest = ts) ∨
      ∃ mid a next as', guard ts = some mid ∧ item mid = .ok (a, next) ∧ as = a :: as' ∧
        ∃ fuel', manyFuel guard item bad fuel' next = .ok (as', rest) := by
  cases hg : guard ts with
  | none =>
    left
    cases fuel <;> rw [manyFuel, hg] at h <;>
      obtain ⟨rfl, rfl⟩ := Prod.mk.inj (Except.ok.inj h) <;> exact ⟨rfl, rfl, rfl⟩
  | some mid =>
    right
    cases fuel with
    | zero =>
      rw [manyFuel, hg] at h
      cases h
    | succ fuel =>
      cases hi : item mid with
      | error e =>
        rw [manyFuel, hg] at h
        replace h : (item mid >>= fun r => manyFuel guard item bad fuel r.2 >>= fun s =>
          Except.ok (r.1 :: s.1, s.2)) = .ok (as, rest) := h
        rw [hi] at h
        cases h
      | ok r =>
        obtain ⟨a, next⟩ := r
        rw [manyFuel_round hg hi] at h
        cases hm : manyFuel guard item bad fuel next with
        | error e =>
          rw [hm] at h
          cases h
        | ok s =>
          rw [hm] at h
          obtain ⟨rfl, rfl⟩ := Prod.mk.inj (Except.ok.inj h)
          exact ⟨mid, a, next, s.1, rfl, hi, rfl, fuel, hm⟩

end Loops

end Parsing
