/-
  AuthzAgent.Lib.Loop

  Loops that leave from the middle.  The body of a loop goes on with a new state
  (`Sum.inl`) or returns (`Sum.inr`).  `run` makes a bounded number of passes, and
  a measure that each pass decreases gives the loop a value.
-/

import Mathlib

namespace Loop

variable {σ ρ : Type}

/-- The result of at most `n` passes. -/
def run (body : σ → σ ⊕ ρ) : Nat → σ → Option ρ
  | 0, _ => none
  | n + 1, s =>
    match body s with
    | .inl s' => run body n s'
    | .inr r => some r

/-- Each pass decreases a measure. -/
def Decreases (body : σ → σ ⊕ ρ) (μ : σ → Nat) : Prop :=
  ∀ s s', body s = .inl s' → μ s' < μ s

variable {body : σ → σ ⊕ ρ} {μ : σ → Nat}

theorem run_inl {s s' : σ} (h : body s = .inl s') (n : Nat) :
    run body (n + 1) s = run body n s' := by
  simp only [run, h]

theorem run_inr {s : σ} {r : ρ} (h : body s = .inr r) (n : Nat) :
    run body (n + 1) s = some r := by
  simp only [run, h]

/-- More passes do not change a result. -/
theorem run_mono {n m : Nat} {s : σ} {r : ρ} (hnm : n ≤ m) (h : run body n s = some r) :
    run body m s = some r := by
  induction n generalizing m s with
  | zero => cases h
  | succ n ih =>
    obtain ⟨m, rfl⟩ := Nat.exists_eq_add_of_lt hnm
    cases hbody : body s with
    | inl s' =>
      rw [run_inl hbody] at h ⊢
      exact ih (by omega) h
    | inr r' =>
      rw [run_inr hbody] at h ⊢
      exact h

theorem isSome_run (hμ : Decreases body μ) (s : σ) : (run body (μ s + 1) s).isSome = true := by
  induction hm : μ s using Nat.strongRecOn generalizing s with
  | ind m ih =>
    cases hbody : body s with
    | inr r => rw [run_inr hbody]; rfl
    | inl s' =>
      have hlt := hμ s s' hbody
      rw [run_inl hbody]
      obtain ⟨r, hr⟩ := Option.isSome_iff_exists.mp (ih (μ s') (hm ▸ hlt) s' rfl)
      rw [run_mono (by omega) hr]
      rfl

/-- The value of a loop that ends. -/
def eval (hμ : Decreases body μ) (s : σ) : ρ := (run body (μ s + 1) s).get (isSome_run hμ s)

theorem run_eq_some_eval (hμ : Decreases body μ) (s : σ) :
    run body (μ s + 1) s = some (eval hμ s) := (Option.some_get _).symm

theorem run_eq_eval_of_lt (hμ : Decreases body μ) {s : σ} {n : Nat} (h : μ s < n) :
    run body n s = some (eval hμ s) := run_mono h (run_eq_some_eval hμ s)

/-- What holds of each way to return, and is kept back over a pass, holds of the
    value of a loop. -/
theorem eval_induction (hμ : Decreases body μ) {P : σ → ρ → Prop}
    (hdone : ∀ s r, body s = .inr r → P s r)
    (hnext : ∀ s s' r, body s = .inl s' → P s' r → P s r) (s : σ) : P s (eval hμ s) := by
  have hrun : ∀ n s r, run body n s = some r → P s r := by
    intro n
    induction n with
    | zero => intro s r h; cases h
    | succ n ih =>
      intro s r h
      cases hbody : body s with
      | inl s' =>
        rw [run_inl hbody] at h
        exact hnext s s' r hbody (ih s' r h)
      | inr r' =>
        rw [run_inr hbody] at h
        exact Option.some.inj h ▸ hdone s r' hbody
  exact hrun _ s _ (run_eq_some_eval hμ s)

end Loop
