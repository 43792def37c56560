/-
  AuthzAgent.Pull.Consistency

  Loads as evaluations see them.  Between the two transactions of a call the
  store has the policies of the new load and the PIPs of the last one.  This is
  what an evaluation reads there, and what a failure of the second transaction
  leaves behind; nothing else in a run of the agent shows a load in part.
-/

import AuthzAgent.Lib.Runs
import AuthzAgent.PolicyAdmin.Pipeline
import AuthzAgent.Pull.Puller

namespace AuthzAgent

open Acconfig

namespace Pull

/-! ## The invariant -/

section

variable {Doc : Type}

/-- The store, in terms of the last successful load and the call in progress. -/
def Agent.Consistent (s : Agent Doc) : Prop :=
  match s.call with
  | none => s.store = s.loaded
  | some c => c.before = s.loaded ∧
      s.store = if c.policiesStored then ⟨some c.prepared.policies, s.loaded.pips⟩ else s.loaded

theorem consistent_initial : (Agent.initial Doc).Consistent := rfl

theorem Agent.Consistent.idle {s : Agent Doc} (h : s.Consistent) (hcall : s.call = none) :
    s.store = s.loaded := by
  simpa [Consistent, hcall] using h

theorem Agent.Consistent.before {s : Agent Doc} (h : s.Consistent) {c : Call Doc}
    (hcall : s.call = some c) : c.before = s.loaded := by
  rw [Consistent, hcall] at h
  exact h.1

theorem Agent.Consistent.unstored {s : Agent Doc} (h : s.Consistent) {c : Call Doc}
    (hcall : s.call = some c) (hstored : c.policiesStored = false) : s.store = s.loaded := by
  simp only [Consistent, hcall, hstored] at h
  exact h.2

theorem Agent.Consistent.halfway {s : Agent Doc} (h : s.Consistent) {c : Call Doc}
    (hcall : s.call = some c) (hstored : c.policiesStored = true) :
    s.store = ⟨some c.prepared.policies, s.loaded.pips⟩ := by
  simp only [Consistent, hcall, hstored] at h
  exact h.2

end

/-! ## All or nothing -/

variable {PIP PIPDocument Doc : Type} (P : Platform) (quote : String → String)
  (C : Conversions PIP PIPDocument Doc)

/-- The store when the call in progress began, or begins now. -/
def Agent.atStart (s : Agent Doc) : Documents Doc := (s.call.map Call.before).getD s.store

/-- A call that returns an error leaves the store as it was before the call, and
    an evaluation reads the documents of the last successful load. -/
structure AllOrNothing (s : Agent Doc) (e : Event) : Prop where
  error : ∀ err, (step P quote C s e).1 = some (.error err) →
    (step P quote C s e).2.store = s.atStart
  evaluation : e = .evaluate → s.store = s.loaded

/-- While the policies of a call are stored and its PIPs are not, no decision is
    evaluated and the second `Put` does not fail, unless the policies are those
    that the store had. -/
def Undivided (s : Agent Doc) (e : Event) : Prop :=
  ∀ c, s.call = some c → c.policiesStored = true →
    (e = .evaluate ∨ ∃ fault, e = .put (some fault)) →
      c.before.policies = some c.prepared.policies

variable {P quote C}

/-- The events that show the store: the store is the one of the last load,
    unless a call is halfway with other policies. -/
theorem Agent.Consistent.store_eq_loaded_iff {s : Agent Doc} (h : s.Consistent) {e : Event}
    (he : e = .evaluate ∨ ∃ fault, e = .put (some fault)) :
    s.store = s.loaded ↔ Undivided s e := by
  cases hcall : s.call with
  | none => exact iff_of_true (h.idle hcall) fun c hc => by simp [hcall] at hc
  | some c =>
    have hcalls : ∀ c', s.call = some c' → c = c' := fun c' hc' =>
      Option.some.inj (hcall.symm.trans hc')
    cases hstored : c.policiesStored with
    | false =>
      refine iff_of_true (h.unstored hcall hstored) fun c' hc' hstored' => ?_
      rw [← hcalls c' hc', hstored] at hstored'
      exact absurd hstored' (by decide)
    | true =>
      have hpolicies : s.store = s.loaded ↔ c.before.policies = some c.prepared.policies := by
        rw [h.halfway hcall hstored, h.before hcall]
        cases s.loaded with
        | mk policies pips => simp [eq_comm]
      rw [hpolicies]
      constructor
      · exact fun hsame c' hc' _ _ => hcalls c' hc' ▸ hsame
      · exact fun hundivided => hundivided c hcall hstored he

/-- A `Put` that fails ends the call and changes nothing. -/
theorem putStep_some (s : Agent Doc) (c : Call Doc) (fault : String) :
    ∃ err, putStep s c (some fault) = (some (.error err), { s with call := none }) := by
  cases hstored : c.policiesStored <;> simp [putStep, hstored, Documents.put]

theorem putStep_none_ne_error (s : Agent Doc) (c : Call Doc) (err : String) :
    (putStep s c none).1 ≠ some (.error err) := by
  cases hstored : c.policiesStored <;> simp [putStep, hstored, Documents.put]

/-- Step: every event. -/
theorem allOrNothing_iff {s : Agent Doc} (h : s.Consistent) (e : Event) :
    AllOrNothing P quote C s e ↔ Undivided s e := by
  cases e with
  | pull fetches =>
    refine iff_of_true ⟨fun err herr => ?_, by simp⟩ fun c _ _ hevent => by simp at hevent
    cases hcall : s.call with
    | some c => simp [step, hcall] at herr
    | none =>
      cases hprepare : prepare P quote C fetches with
      | error e' => simp [step, hcall, hprepare, Agent.atStart]
      | ok prepared => simp [step, hcall, hprepare] at herr
  | put fault =>
    cases fault with
    | none =>
      refine iff_of_true ⟨fun err herr => ?_, by simp⟩ fun c _ _ hevent => by simp at hevent
      cases hcall : s.call with
      | none => simp [step, hcall] at herr
      | some c =>
        simp only [step, hcall] at herr
        exact absurd herr (putStep_none_ne_error s c err)
    | some fault =>
      rw [← h.store_eq_loaded_iff (Or.inr ⟨fault, rfl⟩)]
      cases hcall : s.call with
      | none =>
        exact iff_of_true ⟨fun err herr => by simp [step, hcall] at herr, by simp⟩
          (h.idle hcall)
      | some c =>
        obtain ⟨err, hput⟩ := putStep_some s c fault
        have hstart : s.atStart = s.loaded := by simp [Agent.atStart, hcall, h.before hcall]
        constructor
        · intro hall
          have herror := hall.error err (by simp [step, hcall, hput])
          simpa [step, hcall, hput, hstart] using herror
        · exact fun hstore => ⟨fun _ _ => by simp [step, hcall, hput, hstart, hstore], by simp⟩
  | evaluate =>
    rw [← h.store_eq_loaded_iff (Or.inl rfl)]
    exact ⟨fun hall => hall.evaluation rfl, fun hstore => ⟨by simp [step], fun _ => hstore⟩⟩

/-- Step: the invariant. -/
theorem consistent_step {s : Agent Doc} (h : s.Consistent) (e : Event)
    (hall : AllOrNothing P quote C s e) : (step P quote C s e).2.Consistent := by
  cases e with
  | pull fetches =>
    cases hcall : s.call with
    | some c => simpa [step, hcall] using h
    | none =>
      cases hprepare : prepare P quote C fetches with
      | error e' => simpa [step, hcall, hprepare] using h
      | ok prepared => simp [step, hcall, hprepare, Agent.Consistent, h.idle hcall]
  | put fault =>
    cases hcall : s.call with
    | none => simpa [step, hcall] using h
    | some c =>
      cases fault with
      | some fault =>
        have hstore : s.store = s.loaded := (h.store_eq_loaded_iff (Or.inr ⟨fault, rfl⟩)).mpr
          ((allOrNothing_iff h _).mp hall)
        obtain ⟨err, hput⟩ := putStep_some s c fault
        simpa [step, hcall, hput, Agent.Consistent] using hstore
      | none =>
        cases hstored : c.policiesStored with
        | false =>
          simp [step, hcall, putStep, hstored, Documents.put, Agent.Consistent,
            h.before hcall, h.unstored hcall hstored]
        | true =>
          simp [step, hcall, putStep, hstored, Documents.put, Agent.Consistent,
            h.halfway hcall hstored]
  | evaluate => exact h

/-! ## Runs -/

/-- In every run of calls and evaluations, loads are all or nothing exactly if
    no step shows a load in part. -/
theorem load_all_or_nothing_iff (P : Platform) (quote : String → String)
    (C : Conversions PIP PIPDocument Doc) (events : List Event) :
    Runs.AllSteps (fun s e => (step P quote C s e).2) (AllOrNothing P quote C)
        (Agent.initial Doc) events ↔
      Runs.AllSteps (fun s e => (step P quote C s e).2) Undivided (Agent.initial Doc) events :=
  Runs.allSteps_iff Agent.Consistent (fun _ e h => allOrNothing_iff h e)
    (fun _ e h hall => consistent_step h e hall) consistent_initial events

/-- A source that serves one policy, for the resource type it is asked with, and
    one PIP; the documents are lists of names. -/
def namedSource : Conversions String (List String) String where
  parsePolicySets := fun raw => .ok (PolicyAdmin.toV3PolicySets .ascii
    [{ PolicyAdmin.readDocuments ["OPS"] with resourceType := raw }])
  convertPIPs := fun raw => .ok [raw]
  normalizeItems := fun items => .ok items
  applyEntitlementsOverride := id
  withActivationIndex := fun _ doc => doc
  encodePolicies := fun doc => .ok (GoText.join ',' doc.ols.keys)
  encodePIPs := fun doc => .ok (GoText.join ',' doc)

/-- The agent after one load and the first half of the next. -/
def halfLoaded : Agent String :=
  [.pull ⟨.ok "doc", .ok "subject.unit"⟩, .put none, .put none,
    .pull ⟨.ok "report", .ok "subject.team"⟩, .put none].foldl
      (fun s e => (step .ascii id namedSource s e).2) (Agent.initial String)

/-- Halfway through the second load an evaluation reads its policies with the
    PIPs of the first, and so it stays when the second `Put` fails. -/
theorem half_load_is_read_and_kept :
    halfLoaded.loaded = ⟨some "DOC", some "subject.unit"⟩ ∧
    halfLoaded.store = ⟨some "REPORT", some "subject.unit"⟩ ∧
    (step .ascii id namedSource halfLoaded (.put (some "context canceled"))).1 =
      some (.error "store pips: context canceled") ∧
    (step .ascii id namedSource halfLoaded (.put (some "context canceled"))).2.store =
      ⟨some "REPORT", some "subject.unit"⟩ ∧
    ¬ AllOrNothing .ascii id namedSource halfLoaded .evaluate ∧
    ¬ AllOrNothing .ascii id namedSource halfLoaded (.put (some "context canceled")) := by
  have hloaded : halfLoaded.loaded = ⟨some "DOC", some "subject.unit"⟩ := by decide +kernel
  have hstore : halfLoaded.store = ⟨some "REPORT", some "subject.unit"⟩ := by decide +kernel
  have herror : (step .ascii id namedSource halfLoaded (.put (some "context canceled"))).1 =
      some (.error "store pips: context canceled") := by decide +kernel
  have hkept : (step .ascii id namedSource halfLoaded (.put (some "context canceled"))).2.store =
      ⟨some "REPORT", some "subject.unit"⟩ := by decide +kernel
  have hstart : halfLoaded.atStart = ⟨some "DOC", some "subject.unit"⟩ := by decide +kernel
  refine ⟨hloaded, hstore, herror, hkept, fun hall => ?_, fun hall => ?_⟩
  · have hreads := hall.evaluation rfl
    rw [hstore, hloaded] at hreads
    exact absurd hreads (by decide)
  · have hkeeps := hall.error _ herror
    rw [hkept, hstart] at hkeeps
    exact absurd hkeeps (by decide)

end Pull

end AuthzAgent
