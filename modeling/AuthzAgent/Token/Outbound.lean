/-
  AuthzAgent.Token.Outbound

  The loop that keeps an outbound token in its file and the calls of `Renew`
  that run beside it (writer.go of token/outbound).

  Each read of the clock, each load and store of `requested` and each send and
  receive on `renew` is one step, and the steps of the loop and of the calls
  interleave in any order.  The clock is a Unix time in nanoseconds.  A call
  decides with what it has read and sends later, so a signal may be older than
  the request that the loop has made in between.  The states from which no such
  signal can start a request too soon are the ones that are `Guarded`.
-/

import Mathlib

namespace AuthzAgent.Outbound

/-! ## The writer -/

/-- `time.Second` -/
def second : Int := 1000000000

def minRenewInterval : Int := 30 * second

def defaultFirstBackoff : Int := 2 * second

def maxBackoff : Int := 300 * second

def nextBackoff (backoff : Int) : Int := min (backoff * 2) maxBackoff

def renewal (lifetime : Int) : Int := max (lifetime.tdiv 10 * 7) second

/-- What makes `Run` request a token. -/
inductive Cause where
  | first
  | timer
  | renew
deriving DecidableEq, Repr

/-- Where `Run` stands, with its `backoff`. -/
inductive Loop where
  -- before `Refresh`
  | refresh (cause : Cause) (backoff : Int)
  -- in `Refresh`, between `now` and the store
  | stamped (start backoff : Int)
  -- in `Refresh`, after the store
  | requesting (backoff : Int)
  -- before the receive that drops a signal
  | drain (pause backoff : Int)
  -- in `sleep`, before and after the timer is set
  | sleep (pause backoff : Int)
  | waiting (deadline backoff : Int)
  | returned
deriving DecidableEq, Repr

/-- Where a call of `Renew` stands. -/
inductive Call where
  -- the clock is read, `requested` is not
  | clocked (now : Int)
  -- the check let it through, nothing is sent
  | passed
  | returned
deriving DecidableEq, Repr

/-- The writer, its loop and its calls.  `starts` is the history of the token
    requests, the last first. -/
structure State where
  clock : Int
  requested : Int
  renew : Bool
  cancelled : Bool
  loop : Loop
  calls : List Call
  starts : List Int
deriving DecidableEq, Repr

/-- `Run` is called on a new writer. -/
def State.initial (clock : Int) : State where
  clock := clock
  requested := 0
  renew := false
  cancelled := false
  loop := .refresh .first defaultFirstBackoff
  calls := []
  starts := []

inductive Action where
  -- the clock and the context
  | tick (d : Nat)
  | cancel
  -- `Renew`: the clock, the load with the check, the send
  | call
  | load (i : Nat)
  | send (i : Nat)
  -- `Refresh`: the clock, the store, the end
  | stamp
  | store
  | answer (lifetime : Option Int)
  -- the rest of `Run`, and the three branches of `sleep`
  | drain
  | arm
  | fire
  | take
  | stop
deriving DecidableEq, Repr

/-- One atomic step; `none` when it is not enabled. -/
def step (s : State) : Action → Option State
  | .tick d => some { s with clock := s.clock + d }
  | .cancel => some { s with cancelled := true }
  | .call => some { s with calls := s.calls ++ [.clocked s.clock] }
  | .load i =>
    match s.calls[i]? with
    | some (.clocked now) =>
      let call := if now - s.requested < minRenewInterval then Call.returned else .passed
      some { s with calls := s.calls.set i call }
    | _ => none
  | .send i =>
    match s.calls[i]? with
    -- a signal that is pending already is not sent again
    | some .passed => some { s with renew := true, calls := s.calls.set i .returned }
    | _ => none
  | .stamp =>
    match s.loop with
    | .refresh _ backoff =>
      some { s with loop := .stamped s.clock backoff, starts := s.clock :: s.starts }
    | _ => none
  | .store =>
    match s.loop with
    | .stamped start backoff => some { s with requested := start, loop := .requesting backoff }
    | _ => none
  | .answer (some lifetime) =>
    match s.loop with
    | .requesting _ => some { s with loop := .drain (renewal lifetime) defaultFirstBackoff }
    | _ => none
  | .answer none =>
    match s.loop with
    | .requesting backoff =>
      if s.cancelled then some { s with loop := .returned }
      else some { s with loop := .drain backoff (nextBackoff backoff) }
    | _ => none
  | .drain =>
    match s.loop with
    | .drain pause backoff => some { s with renew := false, loop := .sleep pause backoff }
    | _ => none
  | .arm =>
    match s.loop with
    | .sleep pause backoff => some { s with loop := .waiting (s.clock + pause) backoff }
    | _ => none
  | .fire =>
    match s.loop with
    | .waiting deadline backoff =>
      if deadline ≤ s.clock then some { s with loop := .refresh .timer backoff } else none
    | _ => none
  | .take =>
    match s.loop with
    | .waiting _ backoff =>
      if s.renew then some { s with renew := false, loop := .refresh .renew backoff } else none
    | _ => none
  | .stop =>
    match s.loop with
    | .waiting _ _ => if s.cancelled then some { s with loop := .returned } else none
    | _ => none

def run (s : State) : List Action → Option State
  | [] => some s
  | a :: acts => (step s a).bind fun s => run s acts

/-- A state of a run of the writer. -/
def Reachable (s : State) : Prop := ∃ clock acts, run (.initial clock) acts = some s

/-! ## Steps -/

/-- Every step there is, with its guard. -/
inductive Step (s : State) : Action → State → Prop where
  | tick (d : Nat) : Step s (.tick d) { s with clock := s.clock + d }
  | cancel : Step s .cancel { s with cancelled := true }
  | call : Step s .call { s with calls := s.calls ++ [.clocked s.clock] }
  | refuse {i : Nat} {now : Int} (hcall : s.calls[i]? = some (.clocked now))
      (hsoon : now - s.requested < minRenewInterval) :
      Step s (.load i) { s with calls := s.calls.set i .returned }
  | pass {i : Nat} {now : Int} (hcall : s.calls[i]? = some (.clocked now))
      (hlate : ¬ now - s.requested < minRenewInterval) :
      Step s (.load i) { s with calls := s.calls.set i .passed }
  | send {i : Nat} (hcall : s.calls[i]? = some .passed) :
      Step s (.send i) { s with renew := true, calls := s.calls.set i .returned }
  | stamp {cause : Cause} {backoff : Int} (hloop : s.loop = .refresh cause backoff) :
      Step s .stamp { s with loop := .stamped s.clock backoff, starts := s.clock :: s.starts }
  | store {start backoff : Int} (hloop : s.loop = .stamped start backoff) :
      Step s .store { s with requested := start, loop := .requesting backoff }
  | answer {backoff : Int} (lifetime : Int) (hloop : s.loop = .requesting backoff) :
      Step s (.answer (some lifetime))
        { s with loop := .drain (renewal lifetime) defaultFirstBackoff }
  | leave {backoff : Int} (hloop : s.loop = .requesting backoff) (hctx : s.cancelled = true) :
      Step s (.answer none) { s with loop := .returned }
  | fail {backoff : Int} (hloop : s.loop = .requesting backoff) :
      Step s (.answer none) { s with loop := .drain backoff (nextBackoff backoff) }
  | drain {pause backoff : Int} (hloop : s.loop = .drain pause backoff) :
      Step s .drain { s with renew := false, loop := .sleep pause backoff }
  | arm {pause backoff : Int} (hloop : s.loop = .sleep pause backoff) :
      Step s .arm { s with loop := .waiting (s.clock + pause) backoff }
  | fire {deadline backoff : Int} (hloop : s.loop = .waiting deadline backoff)
      (htime : deadline ≤ s.clock) : Step s .fire { s with loop := .refresh .timer backoff }
  | take {deadline backoff : Int} (hloop : s.loop = .waiting deadline backoff)
      (hrenew : s.renew = true) :
      Step s .take { s with renew := false, loop := .refresh .renew backoff }
  | stop {deadline backoff : Int} (hloop : s.loop = .waiting deadline backoff)
      (hctx : s.cancelled = true) : Step s .stop { s with loop := .returned }

theorem Step.of_step {s s' : State} {a : Action} (h : step s a = some s') : Step s a s' := by
  rw [step.eq_def] at h
  split at h
  · obtain rfl := Option.some.inj h
    exact .tick _
  · obtain rfl := Option.some.inj h
    exact .cancel
  · obtain rfl := Option.some.inj h
    exact .call
  · split at h
    · rename_i hcall
      obtain rfl := Option.some.inj h
      split_ifs with hsoon
      · exact .refuse hcall hsoon
      · exact .pass hcall hsoon
    · cases h
  · split at h
    · rename_i hcall
      obtain rfl := Option.some.inj h
      exact .send hcall
    · cases h
  · split at h
    · rename_i hloop
      obtain rfl := Option.some.inj h
      exact .stamp hloop
    · cases h
  · split at h
    · rename_i hloop
      obtain rfl := Option.some.inj h
      exact .store hloop
    · cases h
  · split at h
    · rename_i hloop
      obtain rfl := Option.some.inj h
      exact .answer _ hloop
    · cases h
  · split at h
    · rename_i hloop
      split_ifs at h with hctx
      · obtain rfl := Option.some.inj h
        exact .leave hloop hctx
      · obtain rfl := Option.some.inj h
        exact .fail hloop
    · cases h
  · split at h
    · rename_i hloop
      obtain rfl := Option.some.inj h
      exact .drain hloop
    · cases h
  · split at h
    · rename_i hloop
      obtain rfl := Option.some.inj h
      exact .arm hloop
    · cases h
  · split at h
    · rename_i hloop
      split_ifs at h with htime
      obtain rfl := Option.some.inj h
      exact .fire hloop htime
    · cases h
  · split at h
    · rename_i hloop
      split_ifs at h with hrenew
      obtain rfl := Option.some.inj h
      exact .take hloop hrenew
    · cases h
  · split at h
    · rename_i hloop
      split_ifs at h with hctx
      obtain rfl := Option.some.inj h
      exact .stop hloop hctx
    · cases h

theorem run_cons_eq_some {s s' : State} {a : Action} {acts : List Action}
    (h : run s (a :: acts) = some s') : ∃ t, step s a = some t ∧ run t acts = some s' :=
  Option.bind_eq_some_iff.mp h

theorem run_append (s : State) (before after : List Action) :
    run s (before ++ after) = (run s before).bind fun t => run t after := by
  induction before generalizing s with
  | nil => rfl
  | cons a before ih =>
    rw [List.cons_append, run, run]
    cases step s a with
    | none => rfl
    | some t => exact ih t

/-- A property that every step of some kind keeps holds at the end of a run of
    such steps. -/
theorem run_preserves {P : State → Prop} {allowed : Action → Prop}
    (hstep : ∀ {s s' : State} {a : Action}, allowed a → Step s a s' → P s → P s')
    {s s' : State} {acts : List Action} (hrun : run s acts = some s')
    (hacts : ∀ a ∈ acts, allowed a) (hs : P s) : P s' := by
  induction acts generalizing s with
  | nil =>
    obtain rfl := Option.some.inj hrun
    exact hs
  | cons a acts ih =>
    obtain ⟨t, ht, hrest⟩ := run_cons_eq_some hrun
    have ha := hacts a List.mem_cons_self
    exact ih hrest (fun b hb => hacts b (List.mem_cons_of_mem a hb))
      (hstep ha (Step.of_step ht) hs)

/-! ## The invariant -/

/-- The last request is stored, and there is one. -/
def Loop.settled : Loop → Bool
  | .refresh .first _ => false
  | .stamped _ _ => false
  | _ => true

/-- What holds in every run: no call has read a time that is still to come, and
    `requested` is the start of the last request once it is stored. -/
structure Inv (s : State) : Prop where
  clocked : ∀ now, Call.clocked now ∈ s.calls → now ≤ s.clock
  stamped : ∀ start backoff, s.loop = .stamped start backoff → s.starts.head? = some start
  stored : s.loop.settled = true → s.starts.head? = some s.requested

theorem inv_initial (clock : Int) : Inv (.initial clock) where
  clocked := fun _ h => absurd h List.not_mem_nil
  stamped := fun _ _ h => nomatch h
  stored := fun h => absurd h Bool.false_ne_true

theorem Inv.step {s s' : State} {a : Action} (h : Step s a s') (hs : Inv s) : Inv s' := by
  -- a call that moves on forgets its time
  have hset : ∀ {i : Nat} {c : Call}, (∀ now, c ≠ .clocked now) → ∀ now,
      Call.clocked now ∈ s.calls.set i c → now ≤ s.clock := by
    intro i c hc now hmem
    rcases List.mem_or_eq_of_mem_set hmem with hmem | heq
    · exact hs.clocked now hmem
    · exact absurd heq.symm (hc now)
  cases h with
  | tick d =>
    refine ⟨fun now hnow => ?_, hs.stamped, hs.stored⟩
    have hle := hs.clocked now hnow
    show now ≤ s.clock + d
    omega
  | cancel => exact ⟨hs.clocked, hs.stamped, hs.stored⟩
  | call =>
    refine ⟨fun now hnow => ?_, hs.stamped, hs.stored⟩
    rcases List.mem_append.mp hnow with hmem | hmem
    · exact hs.clocked now hmem
    · obtain heq := Call.clocked.inj (List.mem_singleton.mp hmem)
      exact Int.le_of_eq heq
  | refuse hcall hsoon => exact ⟨hset nofun, hs.stamped, hs.stored⟩
  | pass hcall hlate => exact ⟨hset nofun, hs.stamped, hs.stored⟩
  | send hcall => exact ⟨hset nofun, hs.stamped, hs.stored⟩
  | stamp hloop =>
    refine ⟨hs.clocked, fun start b heq => ?_, fun h => absurd h Bool.false_ne_true⟩
    obtain ⟨rfl, -⟩ := Loop.stamped.inj heq
    rfl
  | store hloop => exact ⟨hs.clocked, nofun, fun _ => hs.stamped _ _ hloop⟩
  | answer lifetime hloop => exact ⟨hs.clocked, nofun, fun _ => hs.stored (by rw [hloop]; rfl)⟩
  | leave hloop hctx => exact ⟨hs.clocked, nofun, fun _ => hs.stored (by rw [hloop]; rfl)⟩
  | fail hloop => exact ⟨hs.clocked, nofun, fun _ => hs.stored (by rw [hloop]; rfl)⟩
  | drain hloop => exact ⟨hs.clocked, nofun, fun _ => hs.stored (by rw [hloop]; rfl)⟩
  | arm hloop => exact ⟨hs.clocked, nofun, fun _ => hs.stored (by rw [hloop]; rfl)⟩
  | fire hloop htime => exact ⟨hs.clocked, nofun, fun _ => hs.stored (by rw [hloop]; rfl)⟩
  | take hloop hrenew => exact ⟨hs.clocked, nofun, fun _ => hs.stored (by rw [hloop]; rfl)⟩
  | stop hloop hctx => exact ⟨hs.clocked, nofun, fun _ => hs.stored (by rw [hloop]; rfl)⟩

theorem Inv.run {s s' : State} {acts : List Action} (hrun : run s acts = some s') (hs : Inv s) :
    Inv s' :=
  run_preserves (fun _ hstep hinv => hinv.step hstep) hrun (fun _ _ => True.intro) hs

theorem Reachable.inv {s : State} (h : Reachable s) : Inv s := by
  obtain ⟨clock, acts, hrun⟩ := h
  exact (inv_initial clock).run hrun

/-! ## Requests that a call of Renew starts -/

/-- However the run goes on, the next request keeps its distance from the one
    before it if a call of `Renew` starts it. -/
def RenewLimited (s : State) : Prop :=
  ∀ (acts : List Action) (s' : State), run s acts = some s' → (∀ a ∈ acts, a ≠ .stamp) →
    ∀ backoff, s'.loop = .refresh .renew backoff →
      ∀ previous, s'.starts.head? = some previous → previous + minRenewInterval ≤ s'.clock

/-- The interval since `start` is over. -/
def Elapsed (s : State) (start : Int) : Prop := start + minRenewInterval ≤ s.clock

/-- No call has been let through by the check and is still to send. -/
def NoneInFlight (s : State) : Prop := Call.passed ∉ s.calls

/-- No signal can start a request before the interval is over. -/
def Guarded (s : State) : Prop :=
  match s.loop with
  | .refresh .renew _ => Elapsed s s.requested
  | .refresh _ _ => True
  -- until the store a call still reads the start of the request before
  | .stamped start _ => Elapsed s start ∨ NoneInFlight s ∧ start ≤ s.requested
  -- a signal that is pending is dropped
  | .requesting _ => Elapsed s s.requested ∨ NoneInFlight s
  | .drain _ _ => Elapsed s s.requested ∨ NoneInFlight s
  | .sleep _ _ => Elapsed s s.requested ∨ NoneInFlight s ∧ s.renew = false
  | .waiting _ _ => Elapsed s s.requested ∨ NoneInFlight s ∧ s.renew = false
  | .returned => True

/-- A step beside the loop keeps the guard if it puts no signal on its way, or
    the interval is over. -/
theorem Guarded.beside {s s' : State} (hs : Guarded s) (hloop : s'.loop = s.loop)
    (hrequested : s'.requested = s.requested) (hclock : s.clock ≤ s'.clock)
    (hquiet : NoneInFlight s →
      NoneInFlight s' ∧ (s.renew = false → s'.renew = false) ∨ Elapsed s' s.requested) :
    Guarded s' := by
  have helapsed : ∀ {start : Int}, Elapsed s start → Elapsed s' start :=
    fun h => Int.le_trans h hclock
  unfold Guarded at hs ⊢
  rw [hloop, hrequested]
  split
  · rename_i hl
    rw [hl] at hs
    exact helapsed hs
  · exact True.intro
  · rename_i start backoff hl
    rw [hl] at hs
    rcases hs with hs | ⟨hnone, hle⟩
    · exact .inl (helapsed hs)
    · rcases hquiet hnone with hq | hq
      · exact .inr ⟨hq.1, hle⟩
      · have hq : s.requested + minRenewInterval ≤ s'.clock := hq
        exact .inl (show start + minRenewInterval ≤ s'.clock by omega)
  · rename_i hl
    rw [hl] at hs
    rcases hs with hs | hnone
    · exact .inl (helapsed hs)
    · exact (hquiet hnone).symm.imp_right And.left
  · rename_i hl
    rw [hl] at hs
    rcases hs with hs | hnone
    · exact .inl (helapsed hs)
    · exact (hquiet hnone).symm.imp_right And.left
  · rename_i hl
    rw [hl] at hs
    rcases hs with hs | ⟨hnone, hrenew⟩
    · exact .inl (helapsed hs)
    · exact (hquiet hnone).symm.imp_right fun hq => ⟨hq.1, hq.2 hrenew⟩
  · rename_i hl
    rw [hl] at hs
    rcases hs with hs | ⟨hnone, hrenew⟩
    · exact .inl (helapsed hs)
    · exact (hquiet hnone).symm.imp_right fun hq => ⟨hq.1, hq.2 hrenew⟩
  · exact True.intro

theorem noneInFlight_set {s : State} (h : NoneInFlight s) {i : Nat} {c : Call} (hc : c ≠ .passed) :
    Call.passed ∉ s.calls.set i c := by
  intro hmem
  rcases List.mem_or_eq_of_mem_set hmem with hmem | heq
  · exact h hmem
  · exact hc heq.symm

/-- Every step but the start of a request keeps the guard. -/
theorem Guarded.step {s s' : State} {a : Action} (h : Step s a s') (ha : a ≠ .stamp) (hinv : Inv s)
    (hs : Guarded s) : Guarded s' := by
  cases h with
  | tick d =>
    refine hs.beside rfl rfl ?_ fun hnone => .inl ⟨hnone, id⟩
    show s.clock ≤ s.clock + d
    omega
  | cancel => exact hs.beside rfl rfl (Int.le_refl _) fun hnone => .inl ⟨hnone, id⟩
  | call =>
    refine hs.beside rfl rfl (Int.le_refl _) fun hnone => .inl ⟨fun hmem => ?_, id⟩
    rcases List.mem_append.mp hmem with hmem | hmem
    · exact hnone hmem
    · cases List.mem_singleton.mp hmem
  | refuse hcall hsoon =>
    exact hs.beside rfl rfl (Int.le_refl _) fun hnone => .inl ⟨noneInFlight_set hnone nofun, id⟩
  | @pass i now hcall hlate =>
    -- the call has read a time that the clock has reached
    refine hs.beside rfl rfl (Int.le_refl _) fun _ => .inr ?_
    have hle : now ≤ s.clock := hinv.clocked now (List.mem_of_getElem? hcall)
    show s.requested + minRenewInterval ≤ s.clock
    omega
  | send hcall =>
    exact hs.beside rfl rfl (Int.le_refl _) fun hnone =>
      absurd (List.mem_of_getElem? hcall) hnone
  | stamp hloop => exact absurd rfl ha
  | store hloop =>
    rw [Guarded, hloop] at hs
    exact hs.imp id And.left
  | answer lifetime hloop =>
    rw [Guarded, hloop] at hs
    exact hs
  | leave hloop hctx => exact True.intro
  | fail hloop =>
    rw [Guarded, hloop] at hs
    exact hs
  | drain hloop =>
    rw [Guarded, hloop] at hs
    exact hs.imp id fun hnone => ⟨hnone, rfl⟩
  | arm hloop =>
    rw [Guarded, hloop] at hs
    exact hs
  | fire hloop htime => exact True.intro
  | take hloop hrenew =>
    rw [Guarded, hloop] at hs
    rcases hs with hs | ⟨-, hempty⟩
    · exact hs
    · rw [hrenew] at hempty
      cases hempty
  | stop hloop hctx => exact True.intro

theorem Guarded.renewLimited {s : State} (hs : Guarded s) (hinv : Inv s) : RenewLimited s := by
  intro acts s' hrun hacts backoff hloop previous hprevious
  have hend : Inv s' ∧ Guarded s' :=
    run_preserves (P := fun s => Inv s ∧ Guarded s)
      (fun ha hstep h => ⟨h.1.step hstep, h.2.step hstep ha h.1⟩) hrun hacts ⟨hinv, hs⟩
  have hstored := hend.1.stored (by rw [hloop]; rfl)
  rw [hprevious] at hstored
  obtain rfl := Option.some.inj hstored
  have hguard := hend.2
  rw [Guarded, hloop] at hguard
  exact hguard

/-! ## Runs that start a request too soon -/

/-- Some run without a request ends with one that a call of `Renew` starts too
    soon. -/
def Exposed (s : State) : Prop :=
  ∃ (acts : List Action) (s' : State) (backoff : Int), run s acts = some s' ∧
    (∀ a ∈ acts, a ≠ .stamp) ∧ s'.loop = .refresh .renew backoff ∧ ¬ Elapsed s' s'.requested

theorem Exposed.of_step {s t : State} {a : Action} (hstep : step s a = some t) (ha : a ≠ .stamp)
    (h : Exposed t) : Exposed s := by
  obtain ⟨acts, s', backoff, hrun, hacts, hend⟩ := h
  refine ⟨a :: acts, s', backoff, ?_, ?_, hend⟩
  · rw [run, hstep]
    exact hrun
  · intro b hb
    rcases List.mem_cons.mp hb with rfl | hb
    · exact ha
    · exact hacts b hb

theorem not_renewLimited {s : State} (hinv : Inv s) (h : Exposed s) : ¬ RenewLimited s := by
  obtain ⟨acts, s', backoff, hrun, hacts, hloop, hsoon⟩ := h
  intro hlimited
  have hstored := (hinv.run hrun).stored (by rw [hloop]; rfl)
  exact hsoon (hlimited acts s' hrun hacts backoff hloop _ hstored)

theorem exposed_refresh {s : State} {backoff : Int} (hloop : s.loop = .refresh .renew backoff)
    (hsoon : ¬ Elapsed s s.requested) : Exposed s :=
  ⟨[], s, backoff, rfl, fun _ h => absurd h List.not_mem_nil, hloop, hsoon⟩

/-- The loop takes a signal that is pending. -/
theorem exposed_pending {s : State} {deadline backoff : Int}
    (hloop : s.loop = .waiting deadline backoff) (hrenew : s.renew = true)
    (hsoon : ¬ Elapsed s s.requested) : Exposed s := by
  refine .of_step (a := .take) (t := { s with renew := false, loop := .refresh .renew backoff })
    ?_ nofun (exposed_refresh rfl hsoon)
  simp only [step, hloop, hrenew, if_pos]

/-- A call that is in flight sends while the loop waits. -/
theorem exposed_waiting {s : State} {deadline backoff : Int}
    (hloop : s.loop = .waiting deadline backoff)
    (hsignal : ¬ (NoneInFlight s ∧ s.renew = false)) (hsoon : ¬ Elapsed s s.requested) :
    Exposed s := by
  cases hrenew : s.renew with
  | true => exact exposed_pending hloop hrenew hsoon
  | false =>
    have hmem : Call.passed ∈ s.calls := by
      by_contra hnone
      exact hsignal ⟨hnone, hrenew⟩
    obtain ⟨i, hi⟩ := List.mem_iff_getElem?.mp hmem
    refine .of_step (a := .send i)
      (t := { s with renew := true, calls := s.calls.set i .returned }) ?_ nofun
      (exposed_pending hloop rfl hsoon)
    simp only [step, hi]

theorem exposed_sleep {s : State} {pause backoff : Int} (hloop : s.loop = .sleep pause backoff)
    (hsignal : ¬ (NoneInFlight s ∧ s.renew = false)) (hsoon : ¬ Elapsed s s.requested) :
    Exposed s := by
  refine .of_step (a := .arm) (t := { s with loop := .waiting (s.clock + pause) backoff }) ?_ nofun
    (exposed_waiting rfl hsignal hsoon)
  simp only [step, hloop]

theorem exposed_drain {s : State} {pause backoff : Int} (hloop : s.loop = .drain pause backoff)
    (hflight : ¬ NoneInFlight s) (hsoon : ¬ Elapsed s s.requested) : Exposed s := by
  refine .of_step (a := .drain) (t := { s with renew := false, loop := .sleep pause backoff }) ?_
    nofun (exposed_sleep rfl (fun h => hflight h.1) hsoon)
  simp only [step, hloop]

theorem exposed_requesting {s : State} {backoff : Int} (hloop : s.loop = .requesting backoff)
    (hflight : ¬ NoneInFlight s) (hsoon : ¬ Elapsed s s.requested) : Exposed s := by
  refine .of_step (a := .answer (some 0))
    (t := { s with loop := .drain (renewal 0) defaultFirstBackoff }) ?_ nofun
    (exposed_drain rfl hflight hsoon)
  simp only [step, hloop]

/-- A call that was let through before the store sends after it. -/
theorem exposed_stamped {s : State} {start backoff : Int} (hloop : s.loop = .stamped start backoff)
    (hflight : ¬ NoneInFlight s) (hsoon : ¬ Elapsed s start) : Exposed s := by
  refine .of_step (a := .store) (t := { s with requested := start, loop := .requesting backoff }) ?_
    nofun (exposed_requesting rfl hflight hsoon)
  simp only [step, hloop]

/-- A call that is made before the store reads the start of the request before,
    and the interval since then may end before the new one. -/
theorem exposed_unstored {s : State} {start backoff : Int} (hloop : s.loop = .stamped start backoff)
    (hlt : s.requested < start) (hsoon : ¬ Elapsed s start) : Exposed s := by
  have hclock : s.clock < start + minRenewInterval := Int.not_le.mp hsoon
  obtain ⟨d, hd⟩ : ∃ d : Nat, d = (s.requested + minRenewInterval - s.clock).toNat := ⟨_, rfl⟩
  have hlate : ¬ s.clock + d - s.requested < minRenewInterval := by omega
  have hstill : s.clock + d < start + minRenewInterval := by omega
  refine .of_step (a := .tick d) (t := { s with clock := s.clock + d }) rfl nofun ?_
  refine .of_step (a := .call) rfl nofun ?_
  refine .of_step (a := .load s.calls.length)
    (t := { s with clock := s.clock + d, calls := s.calls ++ [.passed] }) ?_ nofun ?_
  · have hcall : (s.calls ++ [Call.clocked (s.clock + d)])[s.calls.length]? =
        some (.clocked (s.clock + d)) := List.getElem?_concat_length
    simp only [step, hcall, if_neg hlate]
    rw [List.set_append_right _ _ (Nat.le_refl _), Nat.sub_self]
    rfl
  · refine exposed_stamped hloop (fun hnone => hnone ?_) (Int.not_le.mpr hstill)
    exact List.mem_append_right _ List.mem_cons_self

theorem exposed_of_not_guarded {s : State} (h : ¬ Guarded s) : Exposed s := by
  rw [Guarded] at h
  split at h
  · rename_i hloop
    exact exposed_refresh hloop h
  · exact absurd True.intro h
  · rename_i hloop
    obtain ⟨hsoon, hcalls⟩ := not_or.mp h
    by_cases hnone : NoneInFlight s
    · exact exposed_unstored hloop (Int.not_le.mp fun hle => hcalls ⟨hnone, hle⟩) hsoon
    · exact exposed_stamped hloop hnone hsoon
  · rename_i hloop
    exact exposed_requesting hloop (not_or.mp h).2 (not_or.mp h).1
  · rename_i hloop
    exact exposed_drain hloop (not_or.mp h).2 (not_or.mp h).1
  · rename_i hloop
    exact exposed_sleep hloop (not_or.mp h).2 (not_or.mp h).1
  · rename_i hloop
    exact exposed_waiting hloop (not_or.mp h).2 (not_or.mp h).1
  · exact absurd True.intro h

/-- From the states of a run that are guarded, and from no other one, the next
    request keeps its distance if a call of `Renew` starts it. -/
theorem renewLimited_iff_guarded {s : State} (h : Reachable s) : RenewLimited s ↔ Guarded s := by
  constructor
  · intro hlimited
    by_contra hs
    exact not_renewLimited h.inv (exposed_of_not_guarded hs) hlimited
  · intro hs
    exact hs.renewLimited h.inv

/-- In a run, every request that a call of `Renew` starts keeps its distance from
    the one before it. -/
def RateLimited (s : State) (acts : List Action) : Prop :=
  ∀ before after s' backoff previous, acts = before ++ .stamp :: after →
    run s before = some s' → s'.loop = .refresh .renew backoff →
    s'.starts.head? = some previous → previous + minRenewInterval ≤ s'.clock

/-- In a run, a state that is guarded comes before every request that a call of
    `Renew` starts, and behind the request before it. -/
def GuardedBetween (s : State) (acts : List Action) : Prop :=
  ∀ before after s' backoff, acts = before ++ .stamp :: after → run s before = some s' →
    s'.loop = .refresh .renew backoff →
    ∃ early late t, before = early ++ late ∧ run s early = some t ∧ Guarded t ∧
      ∀ a ∈ late, a ≠ .stamp

/-- The runs that keep the interval are those with a guarded state between any
    request and the next one that a call of `Renew` starts. -/
theorem rateLimited_iff_guardedBetween (clock : Int) (acts : List Action) :
    RateLimited (.initial clock) acts ↔ GuardedBetween (.initial clock) acts := by
  constructor
  · -- the state in which the request starts is guarded itself
    intro hlimited before after s' backoff hacts hrun hloop
    have hstored := ((inv_initial clock).run hrun).stored (by rw [hloop]; rfl)
    have hguarded : Guarded s' := by
      rw [Guarded, hloop]
      exact hlimited before after s' backoff _ hacts hrun hloop hstored
    exact ⟨before, [], s', (List.append_nil before).symm, hrun, hguarded,
      fun a ha => absurd ha List.not_mem_nil⟩
  · intro hguarded before after s' backoff previous hacts hrun hloop hprevious
    obtain ⟨early, late, t, rfl, hearly, ht, hlate⟩ :=
      hguarded before after s' backoff hacts hrun hloop
    rw [run_append, hearly] at hrun
    exact ht.renewLimited ((inv_initial clock).run hearly) late s' hrun hlate backoff hloop
      previous hprevious

/-- Waiting after a first request, with the clock at zero. -/
def firstAnswered : State where
  clock := 0
  requested := 0
  renew := false
  cancelled := false
  loop := .waiting (42 * second) defaultFirstBackoff
  calls := []
  starts := [0]

theorem firstAnswered_renewLimited : Reachable firstAnswered ∧ RenewLimited firstAnswered := by
  have hreachable : Reachable firstAnswered :=
    ⟨0, [.stamp, .store, .answer (some (60 * second)), .drain, .arm], by decide⟩
  have hguarded : Guarded firstAnswered := .inr ⟨List.not_mem_nil, rfl⟩
  exact ⟨hreachable, (renewLimited_iff_guarded hreachable).mpr hguarded⟩

/-- A call of `Renew` finds the last request 41 seconds old.  The timer starts
    the next one, and only after its answer the call sends. -/
def lateSignal : List Action :=
  [.stamp, .store, .answer (some (60 * second)), .drain, .arm, .tick 41000000000, .call, .load 0,
    .tick 1000000000, .fire, .stamp, .store, .answer (some (60 * second)), .drain, .arm,
    .tick 1000000000, .send 0, .take]

/-- The request that the signal starts begins one second after the one before. -/
theorem lateSignal_too_soon :
    ∃ s backoff previous, run (.initial 0) lateSignal = some s ∧
      s.loop = .refresh .renew backoff ∧ s.starts.head? = some previous ∧
      s.clock = previous + second ∧ s.clock < previous + minRenewInterval :=
  ⟨_, defaultFirstBackoff, 42 * second, rfl, by decide, by decide, by decide, by decide⟩

end AuthzAgent.Outbound
