/-
  AuthzAgent.Lib.Rules

  The evaluation of Rego rules.  An expression has a list of solutions: none
  when it is undefined, several when it enumerates.  A rule has the values of
  all its bodies; two different ones are a conflict, and a conflict ends the
  whole evaluation.

  An evaluation is clean when it has no conflict.  What a clean evaluation
  yields is read off its parts.
-/

import Mathlib

namespace Rego

/-- The solutions of an expression, or the rule with two different values. -/
inductive Eval (α : Type) where
  | solutions (l : List α)
  | conflict (rule : String)
deriving DecidableEq, Repr

namespace Eval

variable {α β : Type}

/-- One solution. -/
def defined (a : α) : Eval α := .solutions [a]

/-- No solution. -/
def undefined : Eval α := .solutions []

/-- A value that may be undefined. -/
def ofOption (o : Option α) : Eval α := .solutions o.toList

/-- A condition. -/
def require (b : Bool) : Eval Unit := .solutions (if b then [()] else [])

/-- The solutions of two expressions, one after the other. -/
def append : Eval α → Eval α → Eval α
  | .conflict c, _ => .conflict c
  | .solutions _, .conflict c => .conflict c
  | .solutions l, .solutions l' => .solutions (l ++ l')

/-- The solutions of an expression for each item of a list. -/
def forEach (f : α → Eval β) : List α → Eval β
  | [] => undefined
  | a :: l => (f a).append (forEach f l)

def bind : Eval α → (α → Eval β) → Eval β
  | .conflict c, _ => .conflict c
  | .solutions l, f => forEach f l

instance : Monad Eval where
  pure := defined
  bind := bind

/-- A comprehension: all solutions as one. -/
def collect : Eval α → Eval (List α)
  | .conflict c => .conflict c
  | .solutions l => defined l

/-- The value of a rule whose bodies have these values. -/
def settle [DecidableEq α] (name : String) : List α → Eval α
  | [] => undefined
  | v :: vs => if vs.all (· = v) then defined v else .conflict name

def rule [DecidableEq α] (name : String) (bodies : List (Eval α)) : Eval α := do
  let values ← collect (forEach id bodies)
  settle name values

def orElse (x y : Eval α) : Eval α := do
  let values ← collect x
  if values.isEmpty then y else .solutions values

/-- `not x`, for an expression that is never false. -/
def negate (x : Eval α) : Eval Unit := do
  let values ← collect x
  require values.isEmpty

/-- An object comprehension: the members `x` enumerates, each once.  Two values
    for one key are a conflict. -/
def object {κ ν : Type} [DecidableEq κ] [DecidableEq ν] (name : String) (x : Eval (κ × ν)) :
    Eval (List (κ × ν)) := do
  let members ← collect x
  if ∀ m ∈ members, ∀ m' ∈ members, m.1 = m'.1 → m.2 = m'.2 then defined members.dedup
  else .conflict name

/-- A rule with a default. -/
def ruleOr [DecidableEq α] (name : String) (dflt : α) (bodies : List (Eval α)) : Eval α := do
  let values ← collect (rule name bodies)
  defined (values.headD dflt)

/-- Some solution passes a test. -/
def any (p : α → Bool) : Eval α → Bool
  | .solutions l => l.any p
  | .conflict _ => false

/-! ## Clean evaluations -/

/-- The evaluation has no conflict. -/
def Clean (x : Eval α) : Prop := ∃ l, x = .solutions l

/-- The evaluation has a solution. -/
def Yields (x : Eval α) (a : α) : Prop := ∃ l, x = .solutions l ∧ a ∈ l

@[simp] theorem clean_solutions (l : List α) : (solutions l).Clean := ⟨l, rfl⟩

@[simp] theorem clean_pure (a : α) : (pure a : Eval α).Clean := ⟨[a], rfl⟩

@[simp] theorem clean_ofOption (o : Option α) : (ofOption o).Clean := ⟨_, rfl⟩

@[simp] theorem clean_require (b : Bool) : (require b).Clean := ⟨_, rfl⟩

@[simp] theorem yields_solutions {l : List α} {a : α} : (solutions l).Yields a ↔ a ∈ l := by
  constructor
  · rintro ⟨l', hl, ha⟩
    rw [solutions.inj hl]
    exact ha
  · exact fun ha => ⟨l, rfl, ha⟩

@[simp] theorem yields_pure {a b : α} : (pure a : Eval α).Yields b ↔ b = a :=
  yields_solutions.trans List.mem_singleton

@[simp] theorem yields_ofOption {o : Option α} {a : α} : (ofOption o).Yields a ↔ o = some a :=
  yields_solutions.trans Option.mem_toList

@[simp] theorem yields_require {b : Bool} {u : Unit} : (require b).Yields u ↔ b = true := by
  rw [require, yields_solutions]
  cases b <;> simp

theorem exists_yields_of_any {x : Eval α} {p : α → Bool} (h : x.any p = true) :
    ∃ a, x.Yields a ∧ p a = true := by
  cases x with
  | conflict c => cases h
  | solutions l =>
    obtain ⟨a, ha, hp⟩ := List.any_eq_true.mp h
    exact ⟨a, yields_solutions.mpr ha, hp⟩

/-- The solutions of a loop whose rounds are all clean. -/
theorem forEach_eq {f : α → Eval β} {g : α → List β} {l : List α}
    (h : ∀ a ∈ l, f a = .solutions (g a)) : forEach f l = .solutions (l.flatMap g) := by
  induction l with
  | nil => rfl
  | cons a l ih =>
    have ha : f a = .solutions (g a) := h a List.mem_cons_self
    have hl := ih fun b hb => h b (List.mem_cons_of_mem _ hb)
    rw [forEach, ha, hl, List.flatMap_cons]
    rfl

/-- An enumeration with a value for some of the items. -/
theorem solutions_bind_ofOption (l : List α) (f : α → Option β) :
    (solutions l >>= fun a => ofOption (f a)) = .solutions (l.filterMap f) := by
  have hbind : (solutions l >>= fun a => ofOption (f a)) =
      .solutions (l.flatMap fun a => (f a).toList) := forEach_eq fun _ _ => rfl
  rw [hbind, List.filterMap_eq_flatMap_toList]

theorem defined_inj {a b : α} : defined a = defined b ↔ a = b :=
  ⟨fun h => List.singleton_inj.mp (solutions.inj h), congrArg defined⟩

@[simp] theorem defined_bind (a : α) (f : α → Eval β) : (defined a >>= f) = f a := by
  show (f a).append undefined = f a
  cases f a with
  | conflict c => rfl
  | solutions l => exact congrArg solutions (List.append_nil l)

/-- A sequence of clean expressions is clean, and yields what its last one
    yields for a solution of the first. -/
theorem bind_spec {x : Eval α} {f : α → Eval β} (hx : x.Clean)
    (hf : ∀ a, x.Yields a → (f a).Clean) :
    (x >>= f).Clean ∧ ∀ b, (x >>= f).Yields b ↔ ∃ a, x.Yields a ∧ (f a).Yields b := by
  obtain ⟨l, rfl⟩ := hx
  have hall : ∀ a ∈ l, ∃ g, f a = .solutions g := fun a ha => hf a (yields_solutions.mpr ha)
  choose! g hg using hall
  have hbind : (solutions l >>= f) = .solutions (l.flatMap g) := forEach_eq hg
  refine ⟨⟨_, hbind⟩, fun b => ?_⟩
  rw [hbind, yields_solutions, List.mem_flatMap]
  refine exists_congr fun a => ?_
  rw [yields_solutions]
  refine and_congr_right fun ha => ?_
  rw [hg a ha, yields_solutions]

theorem Clean.bind {x : Eval α} {f : α → Eval β} (hx : x.Clean) (hf : ∀ a, (f a).Clean) :
    (x >>= f).Clean := (bind_spec hx fun a _ => hf a).1

theorem yields_bind {x : Eval α} {f : α → Eval β} (hx : x.Clean) (hf : ∀ a, (f a).Clean) {b : β} :
    (x >>= f).Yields b ↔ ∃ a, x.Yields a ∧ (f a).Yields b :=
  (bind_spec hx fun a _ => hf a).2 b

@[simp] theorem clean_undefined : (undefined : Eval α).Clean := ⟨_, rfl⟩

@[simp] theorem clean_defined (a : α) : (defined a).Clean := ⟨_, rfl⟩

@[simp] theorem yields_undefined {a : α} : (undefined : Eval α).Yields a ↔ False :=
  yields_solutions.trans (iff_false_intro List.not_mem_nil)

@[simp] theorem yields_defined {a b : α} : (defined a).Yields b ↔ b = a :=
  yields_solutions.trans List.mem_singleton

theorem require_bind (b : Bool) (f : Unit → Eval β) :
    (require b >>= f) = if b then f () else undefined := by
  cases b with
  | false => rfl
  | true => exact defined_bind () f

theorem ofOption_bind (o : Option α) (f : α → Eval β) :
    (ofOption o >>= f) = o.elim undefined f := by
  cases o with
  | none => rfl
  | some a => exact defined_bind a f

theorem pure_eq_ofOption (a : α) : (pure a : Eval α) = ofOption (some a) := rfl

theorem ofOption_bind_ofOption (o : Option α) (f : α → Option β) :
    (ofOption o >>= fun a => ofOption (f a)) = ofOption (o.bind f) := by
  rw [ofOption_bind]
  cases o <;> rfl

theorem require_bind_ofOption (b : Bool) (o : Option β) :
    (require b >>= fun _ => ofOption o) = ofOption (if b then o else none) := by
  rw [require_bind]
  cases b <;> rfl

@[simp] theorem clean_require_bind {b : Bool} {f : Unit → Eval β} :
    (require b >>= f).Clean ↔ (b = true → (f ()).Clean) := by
  rw [require_bind]
  cases b <;> simp

@[simp] theorem yields_require_bind {b : Bool} {f : Unit → Eval β} {v : β} :
    (require b >>= f).Yields v ↔ b = true ∧ (f ()).Yields v := by
  rw [require_bind]
  cases b <;> simp

@[simp] theorem clean_ofOption_bind {o : Option α} {f : α → Eval β} :
    (ofOption o >>= f).Clean ↔ ∀ a, o = some a → (f a).Clean := by
  rw [ofOption_bind]
  cases o <;> simp

@[simp] theorem yields_ofOption_bind {o : Option α} {f : α → Eval β} {v : β} :
    (ofOption o >>= f).Yields v ↔ ∃ a, o = some a ∧ (f a).Yields v := by
  rw [ofOption_bind]
  cases o <;> simp

/-! ## Rules -/

section Rule

variable [DecidableEq α]

theorem settle_eq_defined {name : String} {l : List α} {v : α} (hne : l ≠ [])
    (h : ∀ a ∈ l, a = v) : settle name l = defined v := by
  cases l with
  | nil => exact absurd rfl hne
  | cons a l =>
    obtain rfl : a = v := h a List.mem_cons_self
    rw [settle, if_pos]
    exact List.all_eq_true.mpr fun b hb =>
      decide_eq_true (h b (List.mem_cons_of_mem _ hb))

theorem rule_eq_settle (name : String) {bodies : List (Eval α)}
    (hclean : ∀ b ∈ bodies, b.Clean) :
    ∃ l, rule name bodies = settle name l ∧
      ∀ a, a ∈ l ↔ ∃ b ∈ bodies, b.Yields a := by
  choose! g hg using hclean
  have hall : forEach id bodies = .solutions (bodies.flatMap g) := forEach_eq hg
  refine ⟨bodies.flatMap g, ?_, fun a => ?_⟩
  · rw [rule, hall]
    exact defined_bind _ _
  · rw [List.mem_flatMap]
    refine exists_congr fun b => and_congr_right fun hb => ?_
    have hyields : (solutions (g b)).Yields a ↔ a ∈ g b := yields_solutions
    rw [← hg b hb] at hyields
    exact hyields.symm

/-- A rule whose bodies are clean and agree has the value they agree on. -/
theorem rule_eq_ofOption {name : String} {bodies : List (Eval α)} {o : Option α}
    (hclean : ∀ b ∈ bodies, b.Clean) (h : ∀ v, (∃ b ∈ bodies, b.Yields v) ↔ o = some v) :
    rule name bodies = ofOption o := by
  obtain ⟨l, hrule, hmem⟩ := rule_eq_settle name hclean
  rw [hrule]
  cases o with
  | none =>
    have hl : l = [] := List.eq_nil_iff_forall_not_mem.mpr fun a ha =>
      absurd ((h a).mp ((hmem a).mp ha)) nofun
    rw [hl]
    rfl
  | some v =>
    have hv : v ∈ l := (hmem v).mpr ((h v).mpr rfl)
    refine settle_eq_defined (List.ne_nil_of_mem hv) fun a ha => ?_
    exact (Option.some.inj ((h a).mp ((hmem a).mp ha))).symm

theorem ruleOr_eq_defined {name : String} {dflt : α} {bodies : List (Eval α)} {o : Option α}
    (hclean : ∀ b ∈ bodies, b.Clean) (h : ∀ v, (∃ b ∈ bodies, b.Yields v) ↔ o = some v) :
    ruleOr name dflt bodies = defined (o.getD dflt) := by
  rw [ruleOr, rule_eq_ofOption hclean h]
  cases o with
  | none => exact defined_bind _ _
  | some v => exact defined_bind _ _

/-- A rule whose bodies have one value at most. -/
theorem rule_options (name : String) (os : List (Option α)) {o : Option α}
    (h : ∀ v, some v ∈ os ↔ some v = o) : rule name (os.map ofOption) = ofOption o := by
  refine rule_eq_ofOption ?_ fun v => ?_
  · rw [List.forall_mem_map]
    exact fun o _ => clean_ofOption o
  · rw [eq_comm, ← h v]
    simp

theorem rule_options_defined (name : String) (os : List (Option α)) {v : α}
    (h : ∀ w, some w ∈ os ↔ w = v) : rule name (os.map ofOption) = defined v :=
  rule_options name os fun w => (h w).trans Option.some_inj.symm

theorem ruleOr_options (name : String) (dflt : α) (os : List (Option α)) {o : Option α}
    (h : ∀ v, some v ∈ os ↔ some v = o) :
    ruleOr name dflt (os.map ofOption) = defined (o.getD dflt) := by
  rw [ruleOr, rule_options name os h]
  cases o with
  | none => exact defined_bind _ _
  | some v => exact defined_bind _ _

end Rule

/-! ## Expressions with one value at most -/

@[simp] theorem not_clean_conflict {c : String} : ¬ (conflict c : Eval α).Clean :=
  fun ⟨_, h⟩ => nomatch h

theorem Yields.clean {x : Eval α} {a : α} (h : x.Yields a) : x.Clean :=
  let ⟨l, hl, _⟩ := h
  ⟨l, hl⟩

theorem clean_append {x y : Eval α} : (x.append y).Clean ↔ x.Clean ∧ y.Clean := by
  cases x with
  | conflict c => simp [append]
  | solutions l =>
    cases y with
    | conflict c => simp [append]
    | solutions l' => simp [append]

theorem clean_forEach {f : α → Eval β} {l : List α} :
    (forEach f l).Clean ↔ ∀ a ∈ l, (f a).Clean := by
  induction l with
  | nil => simp [forEach]
  | cons a l ih => rw [forEach, clean_append, ih, List.forall_mem_cons]

/-- A sequence is clean when all its parts are that are reached. -/
theorem clean_bind {x : Eval α} {f : α → Eval β} :
    (x >>= f).Clean ↔ x.Clean ∧ ∀ a, x.Yields a → (f a).Clean := by
  cases x with
  | conflict c =>
    refine iff_of_false not_clean_conflict fun h => not_clean_conflict h.1
  | solutions l =>
    have hbind : (solutions l >>= f).Clean ↔ ∀ a ∈ l, (f a).Clean := clean_forEach
    rw [hbind]
    simp

/-- What a sequence yields comes from its parts. -/
theorem Yields.of_bind {x : Eval α} {f : α → Eval β} {b : β} (h : (x >>= f).Yields b) :
    ∃ a, x.Yields a ∧ (f a).Yields b := by
  obtain ⟨hx, hf⟩ := clean_bind.mp h.clean
  exact ((bind_spec hx hf).2 b).mp h

theorem Yields.bind {x : Eval α} {f : α → Eval β} {a : α} {b : β} (hclean : (x >>= f).Clean)
    (ha : x.Yields a) (hb : (f a).Yields b) : (x >>= f).Yields b := by
  obtain ⟨hx, hf⟩ := clean_bind.mp hclean
  exact ((bind_spec hx hf).2 b).mpr ⟨a, ha, hb⟩

theorem clean_collect {x : Eval α} : (collect x).Clean ↔ x.Clean := by
  cases x <;> simp [collect]

theorem yields_collect {x : Eval α} {l : List α} : (collect x).Yields l ↔ x = .solutions l := by
  cases x with
  | conflict c => exact iff_of_false (fun h => not_clean_conflict h.clean) nofun
  | solutions l' =>
    rw [collect, yields_defined, eq_comm]
    exact ⟨congrArg _, solutions.inj⟩

/-- No value of the one differs from a value of the other. -/
def Agree (x y : Eval α) : Prop := ∀ a b, x.Yields a → y.Yields b → a = b

instance : Std.Symm (@Agree α) :=
  ⟨fun _ _ h a b ha hb => (h b a hb ha).symm⟩

/-- No two different values. -/
def AtMostOne (x : Eval α) : Prop := x.Agree x

/-- No conflict and no two different values: what a function of the source
    should be. -/
structure Determined (x : Eval α) : Prop where
  clean : x.Clean
  atMostOne : x.AtMostOne

theorem atMostOne_ofOption (o : Option α) : (ofOption o).AtMostOne := by
  intro a b ha hb
  rw [yields_ofOption] at ha hb
  exact Option.some.inj (ha.symm.trans hb)

theorem determined_ofOption (o : Option α) : (ofOption o).Determined :=
  ⟨clean_ofOption o, atMostOne_ofOption o⟩

theorem determined_pure (a : α) : (pure a : Eval α).Determined := determined_ofOption (some a)

theorem determined_undefined : (undefined : Eval α).Determined := determined_ofOption none

theorem determined_require (b : Bool) : (require b).Determined :=
  ⟨clean_require b, fun _ _ _ _ => rfl⟩

theorem AtMostOne.bind {x : Eval α} {f : α → Eval β} (hx : x.AtMostOne)
    (hf : ∀ a, (f a).AtMostOne) : (x >>= f).AtMostOne := by
  intro b b' hb hb'
  obtain ⟨a, ha, hfa⟩ := hb.of_bind
  obtain ⟨a', ha', hfa'⟩ := hb'.of_bind
  obtain rfl := hx a a' ha ha'
  exact hf a b b' hfa hfa'

theorem Determined.bind {x : Eval α} {f : α → Eval β} (hx : x.Determined)
    (hf : ∀ a, (f a).Determined) : (x >>= f).Determined :=
  ⟨hx.clean.bind fun a => (hf a).clean, hx.atMostOne.bind fun a => (hf a).atMostOne⟩

theorem atMostOne_collect {x : Eval α} : (collect x).AtMostOne := by
  intro l l' hl hl'
  exact solutions.inj ((yields_collect.mp hl).symm.trans (yields_collect.mp hl'))

theorem determined_collect {x : Eval α} (h : x.Clean) : (collect x).Determined :=
  ⟨clean_collect.mpr h, atMostOne_collect⟩

/-- One value, where there is no conflict. -/
def Total (x : Eval α) : Prop := x.Clean → ∃ a, x = defined a

theorem total_pure (a : α) : (pure a : Eval α).Total := fun _ => ⟨a, rfl⟩

theorem Total.bind {x : Eval α} {f : α → Eval β} (hx : x.Total) (hf : ∀ a, (f a).Total) :
    (x >>= f).Total := by
  intro hclean
  obtain ⟨hcleanx, hcleanf⟩ := clean_bind.mp hclean
  obtain ⟨a, rfl⟩ := hx hcleanx
  rw [defined_bind]
  exact hf a (hcleanf a (yields_defined.mpr rfl))

theorem total_collect {x : Eval α} : (collect x).Total := by
  rintro ⟨l, h⟩
  cases x with
  | conflict c => cases h
  | solutions l' => exact ⟨l', rfl⟩

section Rule

variable [DecidableEq α]

theorem clean_settle {name : String} {l : List α} :
    (settle name l).Clean ↔ ∀ a ∈ l, ∀ b ∈ l, a = b := by
  cases l with
  | nil => simp [settle]
  | cons a l =>
    rw [settle]
    split
    · rename_i h
      have hall : ∀ b ∈ a :: l, b = a := List.forall_mem_cons.mpr ⟨rfl, by simpa using h⟩
      exact iff_of_true (clean_defined a) fun b hb b' hb' => (hall b hb).trans (hall b' hb').symm
    · rename_i h
      refine iff_of_false not_clean_conflict fun hall => h ?_
      refine List.all_eq_true.mpr fun b hb => decide_eq_true ?_
      exact hall b (List.mem_cons_of_mem a hb) a List.mem_cons_self

theorem atMostOne_settle {name : String} {l : List α} : (settle name l).AtMostOne := by
  cases l with
  | nil => exact atMostOne_ofOption none
  | cons a l =>
    rw [settle]
    split
    · exact atMostOne_ofOption (some a)
    · exact fun _ _ h _ => absurd h.clean not_clean_conflict

theorem atMostOne_rule {name : String} {bodies : List (Eval α)} :
    (rule name bodies).AtMostOne :=
  atMostOne_collect.bind fun _ => atMostOne_settle

/-- A rule fails exactly when a body does or when two bodies disagree. -/
theorem clean_rule {name : String} {bodies : List (Eval α)} :
    (rule name bodies).Clean ↔
      (∀ b ∈ bodies, b.Clean) ∧ ∀ b ∈ bodies, ∀ b' ∈ bodies, b.Agree b' := by
  have hfor : (rule name bodies).Clean → ∀ b ∈ bodies, b.Clean := fun h =>
    clean_forEach.mp (clean_collect.mp (clean_bind.mp h).1)
  by_cases hclean : ∀ b ∈ bodies, b.Clean
  · obtain ⟨l, hrule, hmem⟩ := rule_eq_settle name hclean
    rw [hrule, clean_settle, and_iff_right hclean]
    constructor
    · intro h b hb b' hb' v v' hv hv'
      exact h v ((hmem v).mpr ⟨b, hb, hv⟩) v' ((hmem v').mpr ⟨b', hb', hv'⟩)
    · intro h v hv v' hv'
      obtain ⟨b, hb, hbv⟩ := (hmem v).mp hv
      obtain ⟨b', hb', hbv'⟩ := (hmem v').mp hv'
      exact h b hb b' hb' v v' hbv hbv'
  · exact iff_of_false (fun h => hclean (hfor h)) fun h => hclean h.1

theorem Yields.of_rule {name : String} {bodies : List (Eval α)} {v : α}
    (h : (rule name bodies).Yields v) : ∃ b ∈ bodies, b.Yields v := by
  obtain ⟨l, hrule, hmem⟩ := rule_eq_settle name (clean_rule.mp h.clean).1
  rw [hrule] at h
  refine (hmem v).mp ?_
  cases l with
  | nil => exact absurd h (by simp [settle])
  | cons a l =>
    rw [settle] at h
    split at h
    · exact yields_defined.mp h ▸ List.mem_cons_self
    · exact absurd h.clean not_clean_conflict

/-- A rule is determined when each body is and no two bodies disagree. -/
theorem determined_rule {name : String} {bodies : List (Eval α)}
    (hbodies : ∀ b ∈ bodies, b.Determined) (hagree : bodies.Pairwise Agree) :
    (rule name bodies).Determined := by
  have hself : ∀ b ∈ bodies, b.Agree b := fun b hb => (hbodies b hb).atMostOne
  have hall := List.Pairwise.forall_of_forall hself hagree
  exact ⟨clean_rule.mpr ⟨fun b hb => (hbodies b hb).clean, hall⟩, atMostOne_rule⟩

theorem clean_rule_one {name : String} {body : Eval α} (h : body.AtMostOne) :
    (rule name [body]).Clean ↔ body.Clean := by
  rw [clean_rule]
  simp only [List.forall_mem_singleton]
  exact and_iff_left h

theorem clean_ruleOr {name : String} {dflt : α} {bodies : List (Eval α)} :
    (ruleOr name dflt bodies).Clean ↔ (rule name bodies).Clean := by
  rw [ruleOr, clean_bind, clean_collect]
  exact and_iff_left fun l _ => clean_defined _

theorem atMostOne_ruleOr {name : String} {dflt : α} {bodies : List (Eval α)} :
    (ruleOr name dflt bodies).AtMostOne :=
  atMostOne_collect.bind fun l => atMostOne_ofOption (some (l.headD dflt))

/-- A rule with a default has a value, unless it has a conflict. -/
theorem total_ruleOr {name : String} {dflt : α} {bodies : List (Eval α)} :
    (ruleOr name dflt bodies).Total := by
  intro hclean
  obtain ⟨values, hvalues⟩ := clean_ruleOr.mp hclean
  refine ⟨values.headD dflt, ?_⟩
  rw [ruleOr, hvalues]
  exact defined_bind _ _

theorem determined_ruleOr_one {name : String} {dflt : α} {body : Eval α} (h : body.Determined) :
    (ruleOr name dflt [body]).Determined :=
  ⟨clean_ruleOr.mpr ((clean_rule_one h.atMostOne).mpr h.clean), atMostOne_ruleOr⟩

end Rule

theorem clean_negate {x : Eval α} : (negate x).Clean ↔ x.Clean := by
  rw [negate, clean_bind, clean_collect]
  exact and_iff_left fun l _ => clean_require _

theorem solutions_orElse (l : List α) (y : Eval α) :
    (solutions l).orElse y = if l.isEmpty then y else .solutions l :=
  defined_bind _ _

theorem AtMostOne.orElse {x y : Eval α} (hx : x.AtMostOne) (hy : y.AtMostOne) :
    (x.orElse y).AtMostOne := by
  cases x with
  | conflict c => exact fun _ _ h _ => absurd h.clean not_clean_conflict
  | solutions l =>
    rw [solutions_orElse]
    split
    · exact hy
    · exact hx

theorem Clean.orElse {x y : Eval α} (hx : x.Clean) (hy : y.Clean) : (x.orElse y).Clean := by
  obtain ⟨l, rfl⟩ := hx
  rw [solutions_orElse]
  split
  · exact hy
  · exact clean_solutions l

theorem Determined.orElse {x y : Eval α} (hx : x.Determined) (hy : y.Determined) :
    (x.orElse y).Determined :=
  ⟨hx.clean.orElse hy.clean, hx.atMostOne.orElse hy.atMostOne⟩

/-! ## Objects -/

section Object

variable {κ ν : Type}

/-- The members an expression enumerates give each key one value. -/
def SingleValued (x : Eval (κ × ν)) : Prop :=
  ∀ k v w, x.Yields (k, v) → x.Yields (k, w) → v = w

theorem singleValued_solutions {l : List (κ × ν)} :
    (solutions l).SingleValued ↔ ∀ m ∈ l, ∀ m' ∈ l, m.1 = m'.1 → m.2 = m'.2 := by
  constructor
  · rintro h ⟨k, v⟩ hm ⟨k', w⟩ hm' hk
    obtain rfl : k = k' := hk
    exact h k v w (yields_solutions.mpr hm) (yields_solutions.mpr hm')
  · intro h k v w hv hw
    exact h (k, v) (yields_solutions.mp hv) (k, w) (yields_solutions.mp hw) rfl

variable [DecidableEq κ] [DecidableEq ν]

theorem object_solutions (name : String) (l : List (κ × ν)) :
    object name (.solutions l) =
      if ∀ m ∈ l, ∀ m' ∈ l, m.1 = m'.1 → m.2 = m'.2 then defined l.dedup else .conflict name :=
  defined_bind _ _

/-- An object comprehension fails exactly when it gives a key two values. -/
theorem clean_object {name : String} {x : Eval (κ × ν)} :
    (object name x).Clean ↔ x.Clean ∧ x.SingleValued := by
  cases x with
  | conflict c => exact iff_of_false not_clean_conflict fun h => not_clean_conflict h.1
  | solutions l =>
    rw [object_solutions, singleValued_solutions]
    split
    · rename_i h
      exact iff_of_true (clean_defined _) ⟨clean_solutions l, h⟩
    · rename_i h
      exact iff_of_false not_clean_conflict fun hl => h hl.2

/-- The members of an object are those its comprehension enumerates. -/
theorem Yields.of_object {name : String} {x : Eval (κ × ν)} {o : List (κ × ν)}
    (h : (object name x).Yields o) : o.Nodup ∧ ∀ m, m ∈ o ↔ x.Yields m := by
  obtain ⟨⟨l, rfl⟩, hsingle⟩ := clean_object.mp h.clean
  rw [object_solutions, if_pos (singleValued_solutions.mp hsingle), yields_defined] at h
  rw [h]
  exact ⟨List.nodup_dedup l, fun m => List.mem_dedup.trans yields_solutions.symm⟩

theorem atMostOne_object {name : String} {x : Eval (κ × ν)} : (object name x).AtMostOne := by
  intro o o' ho ho'
  obtain ⟨⟨l, rfl⟩, hsingle⟩ := clean_object.mp ho.clean
  rw [object_solutions, if_pos (singleValued_solutions.mp hsingle), yields_defined] at ho ho'
  rw [ho, ho']

theorem determined_object {name : String} {x : Eval (κ × ν)} (hclean : x.Clean)
    (hsingle : x.SingleValued) : (object name x).Determined :=
  ⟨clean_object.mpr ⟨hclean, hsingle⟩, atMostOne_object⟩

/-- An object with as many members as there are keys has one for every item. -/
theorem Yields.exists_of_length {name : String} {l : List α} {f : α → Eval (κ × ν)} {key : α → κ}
    {o : List (κ × ν)} (h : (object name (solutions l >>= f)).Yields o)
    (hkey : ∀ a m, (f a).Yields m → m.1 = key a) (hlength : o.length = (l.map key).dedup.length) :
    ∀ a ∈ l, ∃ m ∈ o, m.1 = key a := by
  obtain ⟨hnodup, hmem⟩ := h.of_object
  have hsingle := (clean_object.mp h.clean).2
  have hkeys : (o.map Prod.fst).Nodup := by
    refine hnodup.map_on fun m hm m' hm' hfst => ?_
    obtain ⟨k, v⟩ := m
    obtain ⟨k', w⟩ := m'
    obtain rfl : k = k' := hfst
    rw [hsingle k v w ((hmem _).mp hm) ((hmem _).mp hm')]
  have hsubset : o.map Prod.fst ⊆ (l.map key).dedup := by
    intro k hk
    obtain ⟨m, hm, rfl⟩ := List.mem_map.mp hk
    obtain ⟨a, ha, hfa⟩ := ((hmem m).mp hm).of_bind
    rw [hkey a m hfa, List.mem_dedup]
    exact List.mem_map_of_mem (yields_solutions.mp ha)
  have hperm : (o.map Prod.fst).Perm (l.map key).dedup := by
    refine (List.Nodup.subperm hkeys hsubset).perm_of_length_le (Nat.le_of_eq ?_)
    rw [List.length_map, hlength]
  intro a ha
  have hfound : key a ∈ o.map Prod.fst :=
    hperm.mem_iff.mpr (List.mem_dedup.mpr (List.mem_map_of_mem ha))
  obtain ⟨m, hm, hfst⟩ := List.mem_map.mp hfound
  exact ⟨m, hm, hfst⟩

/-- An object whose keys tell the items apart that it is built from. -/
theorem clean_object_bind {name : String} {x : Eval α} {f : α → Eval (κ × ν)}
    (hf : ∀ a, (f a).AtMostOne)
    (hkey : ∀ a a' m m', x.Yields a → x.Yields a' → (f a).Yields m → (f a').Yields m' →
      m.1 = m'.1 → a = a') :
    (object name (x >>= f)).Clean ↔ (x >>= f).Clean := by
  rw [clean_object]
  refine and_iff_left fun k v w hv hw => ?_
  obtain ⟨a, ha, hv⟩ := hv.of_bind
  obtain ⟨a', ha', hw⟩ := hw.of_bind
  obtain rfl := hkey a a' _ _ ha ha' hv hw rfl
  exact congrArg Prod.snd (hf a _ _ hv hw)

theorem determined_object_bind {name : String} {x : Eval α} {f : α → Eval (κ × ν)}
    (hx : x.Clean) (hf : ∀ a, (f a).Determined)
    (hkey : ∀ a a' m m', x.Yields a → x.Yields a' → (f a).Yields m → (f a').Yields m' →
      m.1 = m'.1 → a = a') :
    (object name (x >>= f)).Determined := by
  refine ⟨?_, atMostOne_object⟩
  rw [clean_object_bind (fun a => (hf a).atMostOne) hkey]
  exact hx.bind fun a => (hf a).clean

/-- An object comprehension that does not fail has one value. -/
theorem object_eq_defined {name : String} {x : Eval (κ × ν)} (h : (object name x).Clean) :
    ∃ o, object name x = defined o := by
  obtain ⟨⟨l, rfl⟩, hsingle⟩ := clean_object.mp h
  exact ⟨l.dedup, by rw [object_solutions, if_pos (singleValued_solutions.mp hsingle)]⟩

end Object

end Eval

end Rego
