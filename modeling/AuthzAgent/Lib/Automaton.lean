/-
  AuthzAgent.Lib.Automaton

  Automata that can get stuck.  `Leads P l Q` says that every word of a language
  takes the states of one set to states of another; it goes along products and
  Kleene stars.  `Longest` is the longest start of a text that an automaton
  accepts, and `Longest.through` follows it over a part of the text that the
  automaton reads.
-/

import Mathlib

open scoped Computability

namespace Automaton

section

variable {σ α : Type} (δ : σ → α → Option σ)

/-- The state behind a word. -/
def steps (s : σ) (w : List α) : Option σ := w.foldlM δ s

@[simp] theorem steps_nil (s : σ) : steps δ s [] = some s := rfl

theorem steps_cons (s : σ) (a : α) (w : List α) :
    steps δ s (a :: w) = (δ s a).bind fun t => steps δ t w := rfl

theorem steps_cons_of_eq {s t : σ} {a : α} (h : δ s a = some t) (w : List α) :
    steps δ s (a :: w) = steps δ t w := by
  rw [steps_cons, h, Option.bind_some]

theorem steps_append (s : σ) (u v : List α) :
    steps δ s (u ++ v) = (steps δ s u).bind fun t => steps δ t v :=
  List.foldlM_append

theorem steps_append_of_eq {s t : σ} {u : List α} (h : steps δ s u = some t) (v : List α) :
    steps δ s (u ++ v) = steps δ t v := by
  rw [steps_append, h, Option.bind_some]

/-! ## Languages -/

/-- The words of one letter of a class. -/
def letter (p : α → Bool) : Language α := {w | ∃ a, p a = true ∧ w = [a]}

/-- One word of a language or more, one behind the other. -/
def plus (l : Language α) : Language α := l * l∗

/-- The words of a language lead from states of one set to states of another. -/
def Leads (P : σ → Prop) (l : Language α) (Q : σ → Prop) : Prop :=
  ∀ s, P s → ∀ w ∈ l, ∃ t, steps δ s w = some t ∧ Q t

variable {δ} {P Q R : σ → Prop} {l m : Language α}

theorem Leads.mono {P' Q' : σ → Prop} (h : Leads δ P l Q) (hP : ∀ s, P' s → P s)
    (hQ : ∀ s, Q s → Q' s) : Leads δ P' l Q' := by
  intro s hs w hw
  obtain ⟨t, ht, hQt⟩ := h s (hP s hs) w hw
  exact ⟨t, ht, hQ t hQt⟩

theorem Leads.letter {p : α → Bool}
    (h : ∀ s, P s → ∀ a, p a = true → ∃ t, δ s a = some t ∧ Q t) :
    Leads δ P (Automaton.letter p) Q := by
  rintro s hs w ⟨a, ha, rfl⟩
  obtain ⟨t, ht, hQ⟩ := h s hs a ha
  exact ⟨t, steps_cons_of_eq δ ht [], hQ⟩

theorem Leads.mul (hl : Leads δ P l Q) (hm : Leads δ Q m R) : Leads δ P (l * m) R := by
  intro s hs w hw
  obtain ⟨u, hu, v, hv, rfl⟩ := Language.mem_mul.mp hw
  obtain ⟨t, ht, hQ⟩ := hl s hs u hu
  obtain ⟨r, hr, hR⟩ := hm t hQ v hv
  exact ⟨r, by rw [steps_append_of_eq δ ht, hr], hR⟩

theorem Leads.kstar (h : Leads δ P l P) : Leads δ P l∗ P := by
  intro s hs w hw
  obtain ⟨words, rfl, hwords⟩ := Language.mem_kstar.mp hw
  induction words generalizing s with
  | nil => exact ⟨s, rfl, hs⟩
  | cons u words ih =>
    obtain ⟨t, ht, hPt⟩ := h s hs u (hwords u List.mem_cons_self)
    have hrest : ∀ v ∈ words, v ∈ l := fun v hv => hwords v (List.mem_cons_of_mem u hv)
    obtain ⟨r, hr, hPr⟩ := ih t hPt hrest (Language.join_mem_kstar hrest)
    exact ⟨r, by rw [List.flatten_cons, steps_append_of_eq δ ht, hr], hPr⟩

theorem mem_letter {p : α → Bool} {a : α} (h : p a = true) : [a] ∈ letter p := ⟨a, h, rfl⟩

theorem append_mem_kstar {u v : List α} (hu : u ∈ l∗) (hv : v ∈ l) : u ++ v ∈ l∗ := by
  have hle : l∗ * l ≤ l∗ := kstar_mul_le_kstar
  exact hle (Language.append_mem_mul hu hv)

theorem append_mem_plus {u v : List α} (hu : u ∈ l∗) (hv : v ∈ l) : u ++ v ∈ plus l := by
  rw [plus, ← Language.mul_self_kstar_comm]
  exact Language.append_mem_mul hu hv

theorem mem_plus {w : List α} (hw : w ∈ l) : w ∈ plus l :=
  append_mem_plus (Language.nil_mem_kstar l) hw

/-! ## Longest match -/

/-- A word leads to a state of a set. -/
def Reaches (δ : σ → α → Option σ) (accept : σ → Prop) (s : σ) (w : List α) : Prop :=
  ∃ t, steps δ s w = some t ∧ accept t

/-- The longest start of a text that leads to a state of a set. -/
structure Longest (δ : σ → α → Option σ) (accept : σ → Prop) (s : σ) (text w : List α) : Prop where
  starts : w <+: text
  reaches : Reaches δ accept s w
  longest : ∀ v, v <+: text → Reaches δ accept s v → v.length ≤ w.length

variable {accept : σ → Prop}

theorem reaches_append_iff {s t : σ} {u : List α} (h : steps δ s u = some t) (v : List α) :
    Reaches δ accept s (u ++ v) ↔ Reaches δ accept t v := by
  rw [Reaches, steps_append_of_eq δ h, Reaches]

/-- Where nothing but the empty word leads to a state of the set. -/
theorem Longest.empty {s : σ} {text : List α} (hs : accept s)
    (h : ∀ v, v <+: text → Reaches δ accept s v → v = []) : Longest δ accept s text [] where
  starts := List.nil_prefix
  reaches := ⟨s, rfl, hs⟩
  longest := fun v hv hreach => by rw [h v hv hreach]

/-- Every start of a text that is longer than a part of it passes this part. -/
theorem Longest.through {s t : σ} {u text w : List α} (hu : steps δ s u = some t)
    (h : Longest δ accept t text w) : Longest δ accept s (u ++ text) (u ++ w) where
  starts := (List.prefix_append_right_inj u).mpr h.starts
  reaches := (reaches_append_iff hu w).mpr h.reaches
  longest := by
    intro v hv hreach
    rw [List.length_append]
    rcases List.prefix_or_prefix_of_prefix hv (List.prefix_append u text) with hstart | ⟨v', rfl⟩
    · have hle := hstart.length_le
      omega
    · have hv' : v' <+: text := (List.prefix_append_right_inj u).mp hv
      have hle := h.longest v' hv' ((reaches_append_iff hu v').mp hreach)
      rw [List.length_append]
      omega

end

end Automaton
