/-
  AuthzAgent.Lib.Metered

  Computations that charge for their work and end at the first charge that is
  refused.  A program is written once, over any monad that can charge.

  `Work` runs it against a meter, whose state answers each charge.  `Trace`
  lists its charges beside its value and refuses none.  `Trace.interp` replays a
  trace against a meter, and commutes with the constructs of a program, so a run
  is its trace replayed: what a program computes does not depend on the meter,
  only whether it is allowed to.
-/

import Mathlib

namespace Metered

/-- A monad in which a computation can charge. -/
class Charging (κ : outParam Type) (m : Type → Type) extends Monad m where
  charge : κ → m Unit

variable {κ α γ β : Type}

/-- A value with the charges made for it, in order. -/
structure Trace (κ α : Type) where
  charges : List κ
  value : α

instance : Charging κ (Trace κ) where
  pure a := ⟨[], a⟩
  bind x f := ⟨x.charges ++ (f x.value).charges, (f x.value).value⟩
  charge c := ⟨[c], ()⟩

/-- A computation against a meter that answers each charge. -/
def Work (_call : β → κ → Bool × β) (α : Type) : Type := β → Option (α × β)

instance (call : β → κ → Bool × β) : Charging κ (Work call) where
  pure a := fun b => some (a, b)
  bind x f := fun b => (x b).bind fun r => f r.1 r.2
  charge c := fun b => if (call b c).1 then some ((), (call b c).2) else none

/-- The meter after charges that it all allows. -/
def perform (call : β → κ → Bool × β) : List κ → β → Option β
  | [], b => some b
  | c :: cs, b => if (call b c).1 then perform call cs (call b c).2 else none

/-- The replay of a trace against a meter. -/
def Trace.interp (call : β → κ → Bool × β) (t : Trace κ α) : Work call α :=
  fun b => (perform call t.charges b).map fun b' => (t.value, b')

theorem value_bind (x : Trace κ α) (f : α → Trace κ γ) : (x >>= f).value = (f x.value).value := rfl

/-- A loop that extends a list by what each element gives. -/
theorem value_foldlM_append {f : List γ → α → Trace κ (List γ)} {g : α → List γ}
    (h : ∀ out a, (f out a).value = out ++ g a) (as : List α) (out : List γ) :
    (as.foldlM f out).value = out ++ as.flatMap g := by
  induction as generalizing out with
  | nil => exact (List.append_nil out).symm
  | cons a as ih =>
    rw [List.foldlM_cons, value_bind, h, ih, List.flatMap_cons, List.append_assoc]

section Interp

variable (call : β → κ → Bool × β)

theorem perform_append (cs ds : List κ) (b : β) :
    perform call (cs ++ ds) b = (perform call cs b).bind (perform call ds) := by
  induction cs generalizing b with
  | nil => rfl
  | cons c cs ih =>
    rw [List.cons_append, perform, perform]
    split_ifs
    · exact ih _
    · rfl

theorem interp_charge (c : κ) :
    (Charging.charge c : Trace κ Unit).interp call = Charging.charge c := by
  funext b
  show (perform call [c] b).map (fun b' => ((), b')) = if (call b c).1 then _ else none
  rw [perform]
  split_ifs <;> rfl

theorem interp_bind (x : Trace κ α) (f : α → Trace κ γ) :
    (x >>= f).interp call = x.interp call >>= fun a => (f a).interp call := by
  funext b
  show (perform call (x.charges ++ (f x.value).charges) b).map _ =
    ((perform call x.charges b).map _).bind _
  rw [perform_append]
  cases perform call x.charges b <;> rfl

theorem interp_foldlM (f : γ → α → Trace κ γ) (as : List α) (g : γ) :
    (as.foldlM f g).interp call = as.foldlM (fun g a => (f g a).interp call) g := by
  induction as generalizing g with
  | nil => rfl
  | cons a as ih =>
    rw [List.foldlM_cons, List.foldlM_cons, interp_bind]
    exact congrArg _ (funext fun g' => ih g')

theorem interp_forM (f : α → Trace κ PUnit) (as : List α) :
    (forM as f : Trace κ PUnit).interp call = forM as fun a => (f a).interp call := by
  induction as with
  | nil => rfl
  | cons a as ih =>
    rw [List.forM_cons, List.forM_cons, interp_bind]
    exact congrArg _ (funext fun _ => ih)

end Interp

end Metered
