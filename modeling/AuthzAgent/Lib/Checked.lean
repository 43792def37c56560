/-
  AuthzAgent.Lib.Checked

  Computations that may fail, and loops over them.  The inversion lemmas take
  a successful computation apart; a loop that succeeds relates each item to
  its result, and facts about the items carry over along that relation.
-/

import Mathlib

namespace Checked

variable {α β γ ε : Type}

theorem bind_eq_ok {x : Except ε α} {f : α → Except ε β} {b : β} :
    (x >>= f) = .ok b ↔ ∃ a, x = .ok a ∧ f a = .ok b := by
  cases x <;> simp [bind, Except.bind]

theorem bind_eq_error {x : Except ε α} {f : α → Except ε β} {e : ε} :
    (x >>= f) = .error e ↔ x = .error e ∨ ∃ a, x = .ok a ∧ f a = .error e := by
  cases x <;> simp [bind, Except.bind]

theorem map_eq_ok {x : Except ε α} {f : α → β} {b : β} :
    x.map f = .ok b ↔ ∃ a, x = .ok a ∧ f a = b := by
  cases x <;> simp [Except.map]

theorem pure_eq_ok {a b : α} : (pure a : Except ε α) = .ok b ↔ a = b := by
  simp [pure, Except.pure]

/-- A check: fail with `e` where `bad` holds. -/
def refuse (bad : Prop) [Decidable bad] (e : ε) : Except ε Unit :=
  if bad then .error e else .ok ()

theorem refuse_eq_ok {bad : Prop} [Decidable bad] {e : ε} {u : Unit} :
    refuse bad e = .ok u ↔ ¬ bad := by
  rw [refuse]
  split <;> simp [*]

/-- A check in front of other steps. -/
theorem refuse_bind_eq_ok {bad : Prop} [Decidable bad] {e : ε} {f : Unit → Except ε β} {b : β} :
    (refuse bad e >>= f) = .ok b ↔ ¬ bad ∧ f () = .ok b := by
  rw [bind_eq_ok]
  exact ⟨fun ⟨_, h, hf⟩ => ⟨refuse_eq_ok.mp h, hf⟩, fun ⟨h, hf⟩ => ⟨(), refuse_eq_ok.mpr h, hf⟩⟩

/-- Steps that give no value but may fail, one after another. -/
theorem seq_eq_ok {x : Except ε Unit} {f : Unit → Except ε β} {b : β} :
    (x >>= f) = .ok b ↔ x = .ok () ∧ f () = .ok b := by
  rw [bind_eq_ok]
  exact ⟨fun ⟨_, h, hf⟩ => ⟨h, hf⟩, fun ⟨h, hf⟩ => ⟨(), h, hf⟩⟩

/-- Naming the place of an error does not make a success of it. -/
theorem mapError_ok_iff {x : Except ε α} {place : ε → γ} {a : α} :
    x.mapError place = .ok a ↔ x = .ok a := by
  cases x with
  | error e => exact ⟨fun h => (by cases h), fun h => (by cases h)⟩
  | ok b => rw [Except.mapError, Except.ok.injEq, Except.ok.injEq]

/-- A loop of checks passes when each of them does. -/
theorem forM_eq_ok {f : α → Except ε Unit} {as : List α} :
    as.forM f = .ok () ↔ ∀ a ∈ as, f a = .ok () := by
  induction as with
  | nil => exact ⟨fun _ a ha => absurd ha List.not_mem_nil, fun _ => rfl⟩
  | cons a as ih =>
    show (f a >>= fun _ => as.forM f) = .ok () ↔ _
    rw [bind_eq_ok, List.forall_mem_cons, ← ih]
    exact ⟨fun ⟨_, h, hrest⟩ => ⟨h, hrest⟩, fun ⟨h, hrest⟩ => ⟨(), h, hrest⟩⟩

/-- A `for` loop of checks passes when each of its rounds does. -/
theorem forIn_eq_ok {round : α → Unit → Except ε (ForInStep Unit)} {P : α → Prop}
    (hround : ∀ a u r, round a u = .ok r ↔ P a ∧ r = .yield ()) {as : List α} {u v : Unit} :
    forIn as u round = .ok v ↔ ∀ a ∈ as, P a := by
  induction as generalizing u with
  | nil =>
    rw [List.forIn_nil, pure_eq_ok]
    exact ⟨fun _ a ha => absurd ha List.not_mem_nil, fun _ => rfl⟩
  | cons a as ih =>
    rw [List.forIn_cons, bind_eq_ok, List.forall_mem_cons]
    constructor
    · rintro ⟨r, hr, hrest⟩
      obtain ⟨ha, rfl⟩ := (hround a u r).1 hr
      exact ⟨ha, ih.1 hrest⟩
    · rintro ⟨ha, has⟩
      exact ⟨.yield (), (hround a u _).2 ⟨ha, rfl⟩, ih.2 has⟩

/-- A loop that succeeds has a result for each item. -/
theorem mapM_forall₂ {f : α → Except ε β} {as : List α} {bs : List β} (h : as.mapM f = .ok bs) :
    List.Forall₂ (fun a b => f a = .ok b) as bs := by
  induction as generalizing bs with
  | nil =>
    rw [List.mapM_nil, pure_eq_ok] at h
    exact h ▸ .nil
  | cons a as ih =>
    rw [List.mapM_cons, bind_eq_ok] at h
    obtain ⟨b, hb, h⟩ := h
    obtain ⟨bs', hbs, h⟩ := bind_eq_ok.mp h
    rw [pure_eq_ok] at h
    exact h ▸ .cons hb (ih hbs)

/-- A loop that fails does so in one of its rounds. -/
theorem exists_of_foldlM_eq_error {f : β → α → Except ε β} {as : List α} {b : β} {e : ε}
    (h : as.foldlM f b = .error e) : ∃ b', ∃ a ∈ as, f b' a = .error e := by
  induction as generalizing b with
  | nil => cases h
  | cons a as ih =>
    rw [List.foldlM_cons, bind_eq_error] at h
    rcases h with h | ⟨b', -, h⟩
    · exact ⟨b, a, List.mem_cons_self, h⟩
    · obtain ⟨b'', a', ha', h⟩ := ih h
      exact ⟨b'', a', List.mem_cons_of_mem _ ha', h⟩

/-- Where a loop refuses a key that it saw before, the items that it passed
    have distinct keys, none of them seen before. -/
theorem nodup_cons_of_unseen {key : α → β} {a : α} {as : List α} {seen : List β}
    (ha : key a ∉ seen) (hnodup : (as.map key).Nodup) (hrest : ∀ b ∈ as, key b ∉ key a :: seen) :
    ((a :: as).map key).Nodup ∧ ∀ b ∈ a :: as, key b ∉ seen := by
  constructor
  · rw [List.map_cons, List.nodup_cons, List.mem_map]
    refine ⟨fun ⟨b, hb, hkey⟩ => hrest b hb ?_, hnodup⟩
    rw [hkey]
    exact List.mem_cons_self
  · intro b hb
    rcases List.mem_cons.mp hb with rfl | hb
    · exact ha
    · exact fun hmem => hrest b hb (List.mem_cons_of_mem _ hmem)

theorem map_eq_of_forall₂ {R : α → β → Prop} {f : α → γ} {g : β → γ}
    (hR : ∀ a b, R a b → g b = f a) {as : List α} {bs : List β} (h : List.Forall₂ R as bs) :
    bs.map g = as.map f := by
  induction h with
  | nil => rfl
  | cons hab _ ih => rw [List.map_cons, List.map_cons, hR _ _ hab, ih]

theorem exists_mem_right_of_forall₂ {R : α → β → Prop} {as : List α} {bs : List β}
    (h : List.Forall₂ R as bs) {a : α} (ha : a ∈ as) : ∃ b ∈ bs, R a b := by
  induction h with
  | nil => simp at ha
  | cons hab _ ih =>
    rcases List.mem_cons.mp ha with rfl | ha
    · exact ⟨_, List.mem_cons_self, hab⟩
    · obtain ⟨b, hb, hR⟩ := ih ha
      exact ⟨b, List.mem_cons_of_mem _ hb, hR⟩

/-- A loop over optional results has all of them, or none. -/
theorem mapM_eq_some_iff {f : α → Option β} {as : List α} {bs : List β} :
    as.mapM f = some bs ↔ List.Forall₂ (fun a b => f a = some b) as bs := by
  induction as generalizing bs with
  | nil =>
    rw [List.mapM_nil, List.forall₂_nil_left_iff]
    exact ⟨fun h => (Option.some.inj h).symm, fun h => h ▸ rfl⟩
  | cons a as ih =>
    rw [List.mapM_cons, List.forall₂_cons_left_iff]
    constructor
    · intro h
      obtain ⟨b, hb, h⟩ := Option.bind_eq_some_iff.1 h
      obtain ⟨bs', hbs, h⟩ := Option.bind_eq_some_iff.1 h
      exact ⟨b, bs', hb, ih.1 hbs, (Option.some.inj h).symm⟩
    · rintro ⟨b, bs', hb, hbs, rfl⟩
      rw [hb, ih.2 hbs]
      rfl

end Checked
