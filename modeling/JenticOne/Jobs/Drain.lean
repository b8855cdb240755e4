import JenticOne.Library.Machine

/-!
# A Drained Worker Is Quiet

`WorkerLoop.drain`: no new claim, then wait until the loop is idle. Whether it is,
is kept by hand in an event, which is cleared before a claim begins and set where a
claim has found nothing or a job has ended, if nothing else is left then.

The run loop polls, again and again. A poll claims jobs into free slots and starts a
task for each, and it has ended before the tasks have. A tick claims one job and runs
it itself. What is suspended at an await is a sweep, a claim, the job of a tick, a
task, or a drain; a step of the model takes one of them to its next await. A claim
that raises has handed over nothing, and neither has one that is cancelled.

What else is left is read off one flag for the claims and off the tasks, so a second
claim at the same time, or the job of a tick at the same time as anything else, is
not seen. The run loop polls once at a time, and a tick is a step of the loop without
concurrency, so in their runs (`Serial`) there is nothing to overlook.

## Main definitions

* `Driver`, `JobRun`, `DrainCall`, `State`: What is suspended where, and the flags.
* `step`, `machine`: One step, from an await to the next.
* `Serial`: A poll or a tick begins only where no other is in progress.
* `DrainedQuiet`: What a drain that returned `True` promises.
* `Inv`: What the flags say about what is suspended.

## Theorems

* `step_draining`: A worker that drains begins no claim.
* `inv_put`, `inv_step`: What a serial step keeps.
* `drainedQuiet`: The promise, in every serial run.
* `tick_overlooked`: A poll that finds nothing while a tick runs its job.
-/

namespace JenticOne

namespace Jobs

namespace Drain

/-! ## The model -/

/-- Who claims: a poll of the run loop, or a tick. -/
inductive Origin
  | poll
  | tick
  deriving DecidableEq

/-- Where a poll or a tick is suspended, or that it has ended. A poll counts the jobs it
    has started. -/
inductive Driver
  | sweeping (origin : Origin)
  | polling (started : Nat)
  | ticking
  | running (job : Nat)
  | returned (claimed : Bool)
  | raised
  deriving DecidableEq

namespace Driver

/-- It has not ended. -/
def active : Driver → Bool
  | returned _ => false
  | raised => false
  | _ => true

/-- It waits for a claim. -/
def claiming : Driver → Bool
  | polling _ => true
  | ticking => true
  | _ => false

/-- It waits for a claim, or for the job it runs. -/
def busy : Driver → Bool
  | running _ => true
  | x => x.claiming

/-- It is a tick that has not ended. -/
def ofTick : Driver → Bool
  | sweeping .tick => true
  | ticking => true
  | running _ => true
  | _ => false

end Driver

/-- The run of a claimed job. -/
inductive JobRun
  | unstarted
  | running
  | ended
  deriving DecidableEq

/-- Where a call of `drain` is: it waits for the event, the event has been set since, or
    it has returned. -/
inductive DrainCall
  | waiting
  | woken
  | returned (drained : Bool)
  deriving DecidableEq

/-- What setting the event does to a drain. -/
def DrainCall.wake : DrainCall → DrainCall
  | waiting => woken
  | w => w

/-- The flags of the loop, the jobs whose tasks it tracks, and what is suspended. The
    number of claims begun so far is no field of the loop: it is there to be spoken
    about. -/
structure State where
  running : Bool
  draining : Bool
  claiming : Bool
  idle : Bool
  inFlight : Finset Nat
  drivers : Nat → Option Driver
  jobs : Nat → Option JobRun
  drains : Nat → Option DrainCall
  claims : Nat

def State.initial : State where
  running := false
  draining := false
  claiming := false
  idle := true
  inFlight := ∅
  drivers _ := none
  jobs _ := none
  drains _ := none
  claims := 0

/-- What comes of a claim. -/
inductive Claim
  | job (j : Nat)
  | nothing
  | raised
  deriving DecidableEq

/-- Steps. `run` is `run()` up to its first poll, and `swept` says whether the sweep has
    lost its connection. A job that is claimed again later is another run. -/
inductive Action
  | run
  | poll (d : Nat)
  | tick (d : Nat)
  | swept (d : Nat) (lost : Bool)
  | claimed (d : Nat) (claim : Claim)
  | startJob (j : Nat)
  | endJob (j : Nat)
  | jobDone (j : Nat)
  | endTick (d : Nat)
  | stop
  | drain (w : Nat)
  | resume (w : Nat)
  | timeout (w : Nat)
  deriving DecidableEq

namespace State

def put (s : State) (d : Nat) (x : Driver) : State :=
  { s with drivers := Function.update s.drivers d (some x) }

def putJob (s : State) (j : Nat) (r : JobRun) : State :=
  { s with jobs := Function.update s.jobs j (some r) }

/-- `_idle.set()`: whoever waits is to go on. -/
def setIdle (s : State) : State :=
  { s with idle := true, drains := fun w => (s.drains w).map DrainCall.wake }

def markIdleIfQuiet (s : State) : State :=
  if !s.claiming && s.inFlight = ∅ then s.setIdle else s

/-- `_claim_tracked` up to its await. -/
def beginClaim (s : State) (d : Nat) (x : Driver) : State :=
  { s with claiming := true, idle := false, claims := s.claims + 1 }.put d x

/-- The `finally` of `_claim_tracked` where no job has come back. -/
def endClaim (s : State) : State :=
  { s with claiming := false }.markIdleIfQuiet

def startJob (s : State) (j : Nat) : State :=
  { s with idle := false, inFlight := insert j s.inFlight }.putJob j .unstarted

/-- The loop of `_poll`, from its condition on. -/
def loop (concurrency : Nat) (s : State) (d started : Nat) : State :=
  if s.running && !s.draining && s.inFlight.card < concurrency then
    s.beginClaim d (.polling started)
  else s.put d (.returned (0 < started))

/-- `_tick`, after the sweep. -/
def tick (s : State) (d : Nat) : State :=
  if s.draining then s.put d (.returned false) else s.beginClaim d .ticking

def afterSweep (concurrency : Nat) (s : State) (d : Nat) (lost : Bool) : Driver → Option State
  | .sweeping .poll => some (if lost then s.put d .raised else s.loop concurrency d 0)
  | .sweeping .tick => some (if lost then s.put d .raised else s.tick d)
  | _ => none

/-- A claim has come back. A job is started although the worker drains by now. -/
def afterClaim (concurrency : Nat) (s : State) (d : Nat) : Claim → Driver → Option State
  | .job j, .polling started =>
      if s.jobs j = none then
        some (({ s with claiming := false }.startJob j).loop concurrency d (started + 1))
      else none
  | .job j, .ticking =>
      if s.jobs j = none then
        some (({ s with claiming := false }.putJob j .running).put d (.running j))
      else none
  | .nothing, .polling _ => some (s.endClaim.put d (.returned false))
  | .nothing, .ticking => some (s.endClaim.put d (.returned false))
  | .raised, .polling _ => some (s.endClaim.put d .raised)
  | .raised, .ticking => some (s.endClaim.put d .raised)
  | _, _ => none

/-- The job of a tick has ended. -/
def afterJob (s : State) (d : Nat) : Driver → Option State
  | .running j => some ((s.putJob j .ended).markIdleIfQuiet.put d (.returned true))
  | _ => none

/-- `drain` returns; the loop is stopped. -/
def conclude (s : State) (w : Nat) (drained : Bool) : State :=
  { s with
    running := false
    drains := Function.update s.drains w (some (.returned drained)) }

/-- `drain` up to its await. Where the event is set there is nothing to wait for. -/
def drain (s : State) (w : Nat) : State :=
  if s.idle then { s with draining := true }.conclude w true
  else { s with draining := true, drains := Function.update s.drains w (some .waiting) }

end State

/-- A step. A poll is made by the run loop again and again, so it may begin at any time,
    and so may a tick. A timeout is noticed before the wait is over, or too late. -/
def step (concurrency : Nat) (s : State) : Action → Option State
  | .run => some { s with running := true }
  | .poll d => if s.drivers d = none then some (s.put d (.sweeping .poll)) else none
  | .tick d => if s.drivers d = none then some (s.put d (.sweeping .tick)) else none
  | .swept d lost => (s.drivers d).bind (s.afterSweep concurrency d lost)
  | .claimed d claim => (s.drivers d).bind (s.afterClaim concurrency d claim)
  | .startJob j => if s.jobs j = some .unstarted then some (s.putJob j .running) else none
  | .endJob j =>
      if j ∈ s.inFlight ∧ s.jobs j ≠ some .ended then some (s.putJob j .ended) else none
  | .jobDone j =>
      if j ∈ s.inFlight ∧ s.jobs j = some .ended then
        some { s with inFlight := s.inFlight.erase j }.markIdleIfQuiet
      else none
  | .endTick d => (s.drivers d).bind (s.afterJob d)
  | .stop => some { s with running := false }
  | .drain w => if s.drains w = none then some (s.drain w) else none
  | .resume w => if s.drains w = some .woken then some (s.conclude w true) else none
  | .timeout w =>
      if s.drains w = some .waiting ∨ s.drains w = some .woken then some (s.conclude w false)
      else none

def machine (concurrency : Nat) : Machine State Action where
  start s := s = .initial
  step := step concurrency

/-! ## The promise -/

/-- A poll begins only where no poll and no tick is in progress, and a tick only where
    no task is in flight either. -/
def Serial (s : State) : Action → Prop
  | .poll _ => ∀ d x, s.drivers d = some x → x.active = false
  | .tick _ => (∀ d x, s.drivers d = some x → x.active = false) ∧ s.inFlight = ∅
  | _ => True

/-- A poll or a tick begins. -/
def Action.begins : Action → Bool
  | poll _ => true
  | tick _ => true
  | _ => false

theorem serial_of_begins {s : State} {a : Action} (h : (!a.begins) = true) : Serial s a := by
  cases a with
  | poll d => exact absurd h Bool.false_ne_true
  | tick d => exact absurd h Bool.false_ne_true
  | _ => exact trivial

/-- Once a drain has returned `True`, every job claimed has ended, no claim is under way,
    and none begins, whatever happens next. -/
def DrainedQuiet (concurrency : Nat) (s : State) : Prop :=
  ∀ w, s.drains w = some (.returned true) →
    (∀ j r, s.jobs j = some r → r = .ended) ∧
    (∀ d x, s.drivers d = some x → x.claiming = false) ∧
    ∀ acts s', (machine concurrency).runActions s acts = some s' → s'.claims = s.claims

/-! ## The invariant -/

/-- Nothing is in flight, and no poll or tick waits for a claim or runs a job. -/
structure Quiet (s : State) : Prop where
  inFlight : s.inFlight = ∅
  drivers : ∀ d x, s.drivers d = some x → x.busy = false

/-- A drain is going to return `True`, or has. -/
def DrainCall.through : DrainCall → Bool
  | woken => true
  | returned drained => drained
  | waiting => false

structure Inv (s : State) : Prop where
  /-- One poll or tick is in progress at most. -/
  one : ∀ d x d' x', s.drivers d = some x → s.drivers d' = some x' → x.active = true →
    x'.active = true → d = d'
  claiming : ∀ d x, s.drivers d = some x → x.claiming = true → s.claiming = true
  apart : ∀ d x, s.drivers d = some x → x.ofTick = true → s.inFlight = ∅
  /-- A job that has not ended is in flight, or is run by a tick. -/
  held : ∀ j r, s.jobs j = some r → r ≠ .ended →
    j ∈ s.inFlight ∨ ∃ d, s.drivers d = some (.running j)
  idle : s.idle = true → Quiet s
  draining : ∀ w call, s.drains w = some call → s.draining = true
  through : ∀ w call, s.drains w = some call → call.through = true → Quiet s

section Steps

variable {concurrency : Nat} {s s' : State}

/-! ### Small facts -/

theorem markIdle_cases (s : State) : s.markIdleIfQuiet = s ∨
    s.claiming = false ∧ s.inFlight = ∅ ∧ s.markIdleIfQuiet = s.setIdle := by
  unfold State.markIdleIfQuiet
  split
  · next h =>
      rw [Bool.and_eq_true, Bool.not_eq_true', decide_eq_true_eq] at h
      exact .inr ⟨h.1, h.2, rfl⟩
  · exact .inl rfl

@[simp] theorem markIdle_draining : s.markIdleIfQuiet.draining = s.draining := by
  rcases markIdle_cases s with h | ⟨_, _, h⟩ <;> rw [h]; rfl

@[simp] theorem markIdle_claims : s.markIdleIfQuiet.claims = s.claims := by
  rcases markIdle_cases s with h | ⟨_, _, h⟩ <;> rw [h]; rfl

@[simp] theorem markIdle_claiming : s.markIdleIfQuiet.claiming = s.claiming := by
  rcases markIdle_cases s with h | ⟨_, _, h⟩ <;> rw [h]; rfl

@[simp] theorem markIdle_inFlight : s.markIdleIfQuiet.inFlight = s.inFlight := by
  rcases markIdle_cases s with h | ⟨_, _, h⟩ <;> rw [h]; rfl

@[simp] theorem markIdle_drivers : s.markIdleIfQuiet.drivers = s.drivers := by
  rcases markIdle_cases s with h | ⟨_, _, h⟩ <;> rw [h]; rfl

@[simp] theorem markIdle_jobs : s.markIdleIfQuiet.jobs = s.jobs := by
  rcases markIdle_cases s with h | ⟨_, _, h⟩ <;> rw [h]; rfl

theorem markIdle_idle (h : s.markIdleIfQuiet.idle = true) :
    s.idle = true ∨ s.claiming = false ∧ s.inFlight = ∅ := by
  rcases markIdle_cases s with he | ⟨hclaiming, hempty, _⟩
  · exact .inl (he ▸ h)
  · exact .inr ⟨hclaiming, hempty⟩

/-- A drain of which more is known now had been called before, and nothing is in flight. -/
theorem markIdle_drains {w : Nat} {call : DrainCall}
    (h : s.markIdleIfQuiet.drains w = some call) :
    s.drains w = some call ∨
      (s.claiming = false ∧ s.inFlight = ∅) ∧ ∃ call', s.drains w = some call' := by
  rcases markIdle_cases s with he | ⟨hclaiming, hempty, he⟩
  · exact .inl (he ▸ h)
  · rw [he] at h
    rcases Option.map_eq_some_iff.mp h with ⟨call', hcall', _⟩
    exact .inr ⟨⟨hclaiming, hempty⟩, call', hcall'⟩

theorem busy_active {x : Driver} (h : x.active = false) : x.busy = false := by
  cases x <;> simp_all [Driver.active, Driver.busy, Driver.claiming]

theorem claiming_busy {x : Driver} (h : x.claiming = true) : x.busy = true := by
  cases x <;> simp_all [Driver.busy, Driver.claiming]

theorem ofTick_active {x : Driver} (h : x.ofTick = true) : x.active = true := by
  cases x <;> simp_all [Driver.active, Driver.ofTick]

theorem put_drivers {d d' : Nat} {x x' : Driver} (h : (s.put d x).drivers d' = some x') :
    d' = d ∧ x' = x ∨ d' ≠ d ∧ s.drivers d' = some x' :=
  Machine.update_cases h

theorem putJob_jobs {j j' : Nat} {r r' : JobRun} (h : (s.putJob j r).jobs j' = some r') :
    j' = j ∧ r' = r ∨ j' ≠ j ∧ s.jobs j' = some r' :=
  Machine.update_cases h

/-! ### What a step of a poll or a tick is -/

/-- A step that takes a poll or a tick from `x` to `x'`, and the rest of the state from
    `s` to `s₁` before that. -/
inductive Resumed (s : State) : State → Driver → Driver → Prop
  | left (origin : Origin) (x' : Driver) : x'.active = false → Resumed s s (.sweeping origin) x'
  | claims (origin : Origin) (x' : Driver) : s.draining = false → x'.claiming = true →
      (x'.ofTick = true → (Driver.sweeping origin).ofTick = true) →
      Resumed s { s with claiming := true, idle := false, claims := s.claims + 1 }
        (.sweeping origin) x'
  | found (started j : Nat) (b : Bool) : s.jobs j = none →
      Resumed s ({ s with claiming := false }.startJob j) (.polling started) (.returned b)
  | foundMore (started j : Nat) : s.jobs j = none → s.draining = false →
      Resumed s
        { { s with claiming := false }.startJob j with
          claiming := true, idle := false, claims := s.claims + 1 }
        (.polling started) (.polling (started + 1))
  | runs (j : Nat) : s.jobs j = none →
      Resumed s ({ s with claiming := false }.putJob j .running) .ticking (.running j)
  | nothing (x x' : Driver) : x.claiming = true → x'.active = false →
      Resumed s s.endClaim x x'
  | ran (j : Nat) (b : Bool) :
      Resumed s (s.putJob j .ended).markIdleIfQuiet (.running j) (.returned b)

/-- Who is resumed has not ended. -/
theorem Resumed.active {s₁ : State} {x x' : Driver} (h : Resumed s s₁ x x') :
    x.active = true := by
  cases h with
  | nothing _ _ hx =>
      cases x with
      | returned => exact absurd hx Bool.false_ne_true
      | raised => exact absurd hx Bool.false_ne_true
      | _ => rfl
  | _ => rfl

theorem loop_cases (concurrency d started : Nat) :
    s.loop concurrency d started = s.put d (.returned (0 < started)) ∨
    s.draining = false ∧
      s.loop concurrency d started = s.beginClaim d (.polling started) := by
  unfold State.loop
  split
  · next h =>
      rw [Bool.and_eq_true, Bool.and_eq_true, Bool.not_eq_true'] at h
      exact .inr ⟨h.1.2, rfl⟩
  · exact .inl rfl

theorem resumed_sweep {d : Nat} {lost : Bool} {x : Driver}
    (h : s.afterSweep concurrency d lost x = some s') :
    ∃ s₁ x', Resumed s s₁ x x' ∧ s' = s₁.put d x' := by
  cases x with
  | sweeping origin =>
      cases origin with
      | poll =>
          rw [State.afterSweep, Option.some.injEq] at h
          cases lost with
          | true => exact ⟨s, .raised, .left _ _ rfl, h.symm⟩
          | false =>
              rw [if_neg Bool.false_ne_true] at h
              rcases loop_cases (s := s) concurrency d 0 with he | ⟨hdrain, he⟩
              · exact ⟨s, _, .left _ _ rfl, h.symm.trans he⟩
              · exact ⟨_, .polling 0, .claims _ _ hdrain rfl (fun hx => hx), h.symm.trans he⟩
      | tick =>
          rw [State.afterSweep, Option.some.injEq] at h
          cases lost with
          | true => exact ⟨s, .raised, .left _ _ rfl, h.symm⟩
          | false =>
              rw [if_neg Bool.false_ne_true, State.tick] at h
              by_cases hdrain : s.draining = true
              · rw [if_pos hdrain] at h
                exact ⟨s, .returned false, .left _ _ rfl, h.symm⟩
              · rw [if_neg hdrain] at h
                exact ⟨_, .ticking, .claims _ _ (Bool.eq_false_iff.mpr hdrain) rfl
                  (fun _ => rfl), h.symm⟩
  | _ => exact absurd h (by simp only [State.afterSweep, reduceCtorEq, not_false_eq_true])

theorem resumed_claim {d : Nat} {claim : Claim} {x : Driver}
    (h : s.afterClaim concurrency d claim x = some s') :
    ∃ s₁ x', Resumed s s₁ x x' ∧ s' = s₁.put d x' := by
  cases x with
  | polling started =>
      cases claim with
      | job j =>
          rw [State.afterClaim, Option.ite_none_right_eq_some, Option.some.injEq] at h
          rcases loop_cases (s := { s with claiming := false }.startJob j) concurrency d
            (started + 1) with he | ⟨hdrain, he⟩
          · exact ⟨_, _, .found started j _ h.1, h.2.symm.trans he⟩
          · exact ⟨_, _, .foundMore started j h.1 hdrain, h.2.symm.trans he⟩
      | nothing => exact ⟨_, _, .nothing _ _ rfl rfl, (Option.some.inj h).symm⟩
      | raised => exact ⟨_, _, .nothing _ _ rfl rfl, (Option.some.inj h).symm⟩
  | ticking =>
      cases claim with
      | job j =>
          rw [State.afterClaim, Option.ite_none_right_eq_some, Option.some.injEq] at h
          exact ⟨_, _, .runs j h.1, h.2.symm⟩
      | nothing => exact ⟨_, _, .nothing _ _ rfl rfl, (Option.some.inj h).symm⟩
      | raised => exact ⟨_, _, .nothing _ _ rfl rfl, (Option.some.inj h).symm⟩
  | _ =>
      cases claim <;>
        exact absurd h (by simp only [State.afterClaim, reduceCtorEq, not_false_eq_true])

theorem resumed_job {d : Nat} {x : Driver} (h : s.afterJob d x = some s') :
    ∃ s₁ x', Resumed s s₁ x x' ∧ s' = s₁.put d x' := by
  cases x with
  | running j => exact ⟨_, _, .ran j true, (Option.some.inj h).symm⟩
  | _ => exact absurd h (by simp only [State.afterJob, reduceCtorEq, not_false_eq_true])

/-- A sweep, a claim or the job of a tick that is over takes its poll or tick on. -/
theorem resumed_step {a : Action} {d : Nat}
    (ha : (∃ lost, a = .swept d lost) ∨ (∃ claim, a = .claimed d claim) ∨ a = .endTick d)
    (h : step concurrency s a = some s') :
    ∃ x s₁ x', s.drivers d = some x ∧ Resumed s s₁ x x' ∧ s' = s₁.put d x' := by
  rcases ha with ⟨lost, rfl⟩ | ⟨claim, rfl⟩ | rfl
  · rcases Option.bind_eq_some_iff.mp h with ⟨x, hx, hs⟩
    rcases resumed_sweep hs with ⟨s₁, x', hr, he⟩
    exact ⟨x, s₁, x', hx, hr, he⟩
  · rcases Option.bind_eq_some_iff.mp h with ⟨x, hx, hs⟩
    rcases resumed_claim hs with ⟨s₁, x', hr, he⟩
    exact ⟨x, s₁, x', hx, hr, he⟩
  · rcases Option.bind_eq_some_iff.mp h with ⟨x, hx, hs⟩
    rcases resumed_job hs with ⟨s₁, x', hr, he⟩
    exact ⟨x, s₁, x', hx, hr, he⟩

/-! ### A worker that drains -/

theorem resumed_draining {s₁ : State} {x x' : Driver} (h : s.draining = true)
    (hr : Resumed s s₁ x x') : s₁.draining = true ∧ s₁.claims = s.claims := by
  cases hr with
  | left => exact ⟨h, rfl⟩
  | claims _ _ hnot => exact absurd (h.symm.trans hnot) (by decide)
  | found => exact ⟨h, rfl⟩
  | foundMore _ _ _ hnot => exact absurd (h.symm.trans hnot) (by decide)
  | runs => exact ⟨h, rfl⟩
  | nothing => exact ⟨markIdle_draining.trans h, markIdle_claims⟩
  | ran => exact ⟨markIdle_draining.trans h, markIdle_claims⟩

/-- A worker that drains begins no claim, and it does not stop draining. -/
theorem step_draining {a : Action} (h : s.draining = true)
    (hstep : step concurrency s a = some s') : s'.draining = true ∧ s'.claims = s.claims := by
  have hresumed : ∀ d, (∃ lost, a = .swept d lost) ∨ (∃ claim, a = .claimed d claim) ∨
      a = .endTick d → s'.draining = true ∧ s'.claims = s.claims := by
    intro d ha
    rcases resumed_step ha hstep with ⟨x, s₁, x', _, hr, he⟩
    have hdraining := resumed_draining h hr
    rw [he]
    exact hdraining
  cases a with
  | swept d lost => exact hresumed d (.inl ⟨lost, rfl⟩)
  | claimed d claim => exact hresumed d (.inr (.inl ⟨claim, rfl⟩))
  | endTick d => exact hresumed d (.inr (.inr rfl))
  | run => rw [← Option.some.inj hstep]; exact ⟨h, rfl⟩
  | stop => rw [← Option.some.inj hstep]; exact ⟨h, rfl⟩
  | jobDone j =>
      rw [step, Option.ite_none_right_eq_some, Option.some.injEq] at hstep
      rw [← hstep.2]
      exact ⟨markIdle_draining.trans h, markIdle_claims⟩
  | drain w =>
      rw [step, Option.ite_none_right_eq_some, Option.some.injEq, State.drain] at hstep
      by_cases hidle : s.idle = true
      · rw [if_pos hidle] at hstep
        rw [← hstep.2]; exact ⟨rfl, rfl⟩
      · rw [if_neg hidle] at hstep
        rw [← hstep.2]; exact ⟨rfl, rfl⟩
  | _ =>
      rw [step, Option.ite_none_right_eq_some, Option.some.injEq] at hstep
      rw [← hstep.2]; exact ⟨h, rfl⟩

/-! ### What a serial step keeps -/

/-- Everybody else has ended: then what the flags have to say is about one. -/
theorem inv_alone {d : Nat} {x : Driver}
    (halone : ∀ d' y, s.drivers d' = some y → d' ≠ d → y.active = false)
    (hclaiming : x.claiming = true → s.claiming = true)
    (hapart : x.ofTick = true → s.inFlight = ∅)
    (hheld : ∀ j r, s.jobs j = some r → r ≠ .ended → j ∈ s.inFlight ∨ x = .running j)
    (hidle : s.idle = true → s.inFlight = ∅ ∧ x.busy = false)
    (hdraining : ∀ w call, s.drains w = some call → s.draining = true)
    (hthrough : ∀ w call, s.drains w = some call → call.through = true →
      s.inFlight = ∅ ∧ x.busy = false) : Inv (s.put d x) := by
  have hother : ∀ d' y, (s.put d x).drivers d' = some y → y.active = true → d' = d ∧ y = x := by
    intro d' y hy hactive
    rcases put_drivers hy with hself | ⟨hne, hy⟩
    · exact hself
    · rw [halone d' y hy hne] at hactive
      exact absurd hactive Bool.false_ne_true
  have hquiet : s.inFlight = ∅ ∧ x.busy = false → Quiet (s.put d x) := by
    intro hq
    refine ⟨hq.1, fun d' y hy => ?_⟩
    rcases put_drivers hy with ⟨_, rfl⟩ | ⟨hne, hy⟩
    · exact hq.2
    · exact busy_active (halone d' y hy hne)
  refine ⟨?_, ?_, ?_, ?_, fun hi => hquiet (hidle hi), hdraining,
    fun w call hw ht => hquiet (hthrough w call hw ht)⟩
  · intro d₁ x₁ d₂ x₂ h₁ h₂ ha₁ ha₂
    rw [(hother d₁ x₁ h₁ ha₁).1, (hother d₂ x₂ h₂ ha₂).1]
  · intro d' y hy hc
    rcases put_drivers hy with ⟨_, rfl⟩ | ⟨hne, hy⟩
    · exact hclaiming hc
    · have hbusy := claiming_busy hc
      rw [busy_active (halone d' y hy hne)] at hbusy
      exact absurd hbusy Bool.false_ne_true
  · intro d' y hy ht
    rw [(hother d' y hy (ofTick_active ht)).2] at ht
    exact hapart ht
  · intro j r hj hr
    rcases hheld j r hj hr with hin | hx
    · exact .inl hin
    · exact .inr ⟨d, by rw [← hx]; exact Function.update_self d (some x) s.drivers⟩

/-- A job that has been started is in flight, and so are those that were. -/
theorem started_held {started j j' : Nat} {r : JobRun}
    (hheld : ∀ j r, s.jobs j = some r → r ≠ .ended → j ∈ s.inFlight ∨
      Driver.polling started = .running j)
    (hj' : ({ s with claiming := false }.startJob j).jobs j' = some r) (hne : r ≠ .ended) :
    j' ∈ insert j s.inFlight := by
  rcases putJob_jobs hj' with ⟨rfl, _⟩ | ⟨_, hj'⟩
  · exact Finset.mem_insert_self j' s.inFlight
  · rcases hheld j' r hj' hne with hin | he
    · exact Finset.mem_insert_of_mem hin
    · exact absurd he (by simp only [reduceCtorEq, not_false_eq_true])

/-- The one that is resumed was the only one. -/
theorem inv_resumed (h : Inv s) {d : Nat} {s₁ : State} {x x' : Driver}
    (hx : s.drivers d = some x) (hactive : x.active = true) (hr : Resumed s s₁ x x') :
    Inv (s₁.put d x') := by
  have halone : ∀ d' y, s.drivers d' = some y → d' ≠ d → y.active = false := by
    intro d' y hy hne
    by_contra hy'
    exact hne (h.one d' y d x hy hx (Bool.eq_true_of_not_eq_false hy') hactive)
  have hheld : ∀ j r, s.jobs j = some r → r ≠ .ended → j ∈ s.inFlight ∨ x = .running j := by
    intro j r hj hne
    rcases h.held j r hj hne with hin | ⟨d', hd'⟩
    · exact .inl hin
    · have he := h.one d' _ d x hd' hx rfl hactive
      rw [he, hx] at hd'
      exact .inr (Option.some.inj hd')
  have hbusy : x.busy = true → ¬ Quiet s := by
    intro hb hq
    rw [hq.drivers d x hx] at hb
    exact Bool.false_ne_true hb
  cases hr with
  | left _ _ hleft =>
      have hnot := busy_active hleft
      refine inv_alone halone ?_ ?_ ?_ (fun hi => ⟨(h.idle hi).inFlight, hnot⟩) h.draining
        (fun w call hw ht => ⟨(h.through w call hw ht).inFlight, hnot⟩)
      · intro hc
        rw [claiming_busy hc] at hnot
        exact absurd hnot.symm Bool.false_ne_true
      · intro ht
        rw [ofTick_active ht] at hleft
        exact absurd hleft.symm Bool.false_ne_true
      · intro j r hj hne
        rcases hheld j r hj hne with hin | he
        · exact .inl hin
        · exact absurd he (by simp only [reduceCtorEq, not_false_eq_true])
  | claims _ _ hdrain hclaims htick =>
      have hnone : ∀ w call, s.drains w ≠ some call := by
        intro w call hw
        rw [h.draining w call hw] at hdrain
        exact Bool.false_ne_true hdrain.symm
      refine inv_alone halone (fun _ => rfl) (fun ht => h.apart d _ hx (htick ht)) ?_
        (fun hi => absurd hi Bool.false_ne_true) (fun w call hw => absurd hw (hnone w call))
        (fun w call hw => absurd hw (hnone w call))
      intro j r hj hne
      rcases hheld j r hj hne with hin | he
      · exact .inl hin
      · exact absurd he (by simp only [reduceCtorEq, not_false_eq_true])
  | found started j b hnew =>
      refine inv_alone halone (fun hc => absurd hc Bool.false_ne_true)
        (fun ht => absurd ht Bool.false_ne_true) (fun j' r hj' hne => ?_)
        (fun hi => absurd hi Bool.false_ne_true) h.draining
        (fun w call hw ht => absurd (h.through w call hw ht) (hbusy rfl))
      exact .inl (started_held hheld hj' hne)
  | foundMore started j hnew hdrain =>
      refine inv_alone halone (fun _ => rfl) (fun ht => absurd ht Bool.false_ne_true)
        (fun j' r hj' hne => ?_) (fun hi => absurd hi Bool.false_ne_true) h.draining
        (fun w call hw ht => absurd (h.through w call hw ht) (hbusy rfl))
      exact .inl (started_held hheld hj' hne)
  | runs j hnew =>
      refine inv_alone halone (fun hc => absurd hc Bool.false_ne_true)
        (fun _ => h.apart d _ hx rfl) ?_ (fun hi => absurd (h.idle hi) (hbusy rfl)) h.draining
        (fun w call hw ht => absurd (h.through w call hw ht) (hbusy rfl))
      intro j' r hj' hne
      rcases putJob_jobs hj' with ⟨rfl, _⟩ | ⟨_, hj'⟩
      · exact .inr rfl
      · rcases hheld j' r hj' hne with hin | he
        · exact .inl hin
        · exact absurd he (by simp only [reduceCtorEq, not_false_eq_true])
  | nothing _ _ hclaims hleft =>
      have hnot := busy_active hleft
      refine inv_alone ?_ ?_ ?_ ?_ ?_ ?_ ?_
      · intro d' y hy
        rw [State.endClaim, markIdle_drivers] at hy
        exact halone d' y hy
      · intro hc
        rw [claiming_busy hc] at hnot
        exact absurd hnot.symm Bool.false_ne_true
      · intro ht
        rw [ofTick_active ht] at hleft
        exact absurd hleft.symm Bool.false_ne_true
      · intro j r hj hne
        rw [State.endClaim, markIdle_jobs] at hj
        rw [State.endClaim, markIdle_inFlight]
        rcases hheld j r hj hne with hin | rfl
        · exact .inl hin
        · exact absurd hclaims Bool.false_ne_true
      · intro hi
        rw [State.endClaim, markIdle_inFlight]
        rcases markIdle_idle hi with hi | ⟨_, hempty⟩
        · exact absurd (h.idle hi) (hbusy (claiming_busy hclaims))
        · exact ⟨hempty, hnot⟩
      · intro w call hw
        rw [State.endClaim, markIdle_draining]
        rcases markIdle_drains hw with hw | ⟨_, call', hw⟩
        · exact h.draining w call hw
        · exact h.draining w call' hw
      · intro w call hw ht
        rw [State.endClaim, markIdle_inFlight]
        rcases markIdle_drains hw with hw | ⟨⟨_, hempty⟩, _⟩
        · exact absurd (h.through w call hw ht) (hbusy (claiming_busy hclaims))
        · exact ⟨hempty, hnot⟩
  | ran j b =>
      have hempty : s.inFlight = ∅ := h.apart d _ hx rfl
      refine inv_alone ?_ (fun hc => absurd hc Bool.false_ne_true)
        (fun ht => absurd ht Bool.false_ne_true) ?_ ?_ ?_ ?_
      · intro d' y hy
        rw [markIdle_drivers] at hy
        exact halone d' y hy
      · intro j' r hj' hne
        rw [markIdle_jobs] at hj'
        rw [markIdle_inFlight]
        rcases putJob_jobs hj' with ⟨_, rfl⟩ | ⟨hjj, hj'⟩
        · exact absurd rfl hne
        · rcases hheld j' r hj' hne with hin | he
          · exact .inl hin
          · exact absurd (Driver.running.inj he).symm hjj
      · intro _
        rw [markIdle_inFlight]
        exact ⟨hempty, rfl⟩
      · intro w call hw
        rw [markIdle_draining]
        rcases markIdle_drains hw with hw | ⟨_, call', hw⟩
        · exact h.draining w call hw
        · exact h.draining w call' hw
      · intro w call _ _
        rw [markIdle_inFlight]
        exact ⟨hempty, rfl⟩

/-- Only the flags that the invariant does not speak of have changed. -/
theorem inv_running (h : Inv s) (b : Bool) : Inv { s with running := b } :=
  ⟨h.one, h.claiming, h.apart, h.held, fun hi => ⟨(h.idle hi).inFlight, (h.idle hi).drivers⟩,
    h.draining, fun w call hw ht => ⟨(h.through w call hw ht).inFlight,
      (h.through w call hw ht).drivers⟩⟩

/-- Where no poll and no tick is in progress, one begins. -/
theorem inv_begin (h : Inv s) {d : Nat} {origin : Origin}
    (hnone : ∀ d x, s.drivers d = some x → x.active = false)
    (hempty : origin = .tick → s.inFlight = ∅) : Inv (s.put d (.sweeping origin)) := by
  refine inv_alone (fun d' y hy _ => hnone d' y hy) (fun hc => ?_) (fun ht => ?_) ?_
    (fun hi => ⟨(h.idle hi).inFlight, rfl⟩) h.draining
    (fun w call hw ht => ⟨(h.through w call hw ht).inFlight, rfl⟩)
  · exact absurd hc Bool.false_ne_true
  · cases origin with
    | poll => exact absurd ht Bool.false_ne_true
    | tick => exact hempty rfl
  · intro j r hj hne
    rcases h.held j r hj hne with hin | ⟨d', hd'⟩
    · exact .inl hin
    · exact absurd (hnone d' _ hd').symm Bool.false_ne_true

/-- A job that is held goes on, or ends. -/
theorem inv_putJob (h : Inv s) {j : Nat} {r : JobRun}
    (hr : r ≠ .ended → ∃ r', s.jobs j = some r' ∧ r' ≠ .ended) : Inv (s.putJob j r) := by
  refine ⟨h.one, h.claiming, h.apart, ?_, fun hi => ⟨(h.idle hi).inFlight, (h.idle hi).drivers⟩,
    h.draining, fun w call hw ht => ⟨(h.through w call hw ht).inFlight,
      (h.through w call hw ht).drivers⟩⟩
  intro j' r' hj' hne
  rcases putJob_jobs hj' with ⟨rfl, rfl⟩ | ⟨_, hj'⟩
  · rcases hr hne with ⟨r₀, hr₀, hne₀⟩
    exact h.held j' r₀ hr₀ hne₀
  · exact h.held j' r' hj' hne

/-- The callback of a task that has ended. -/
theorem inv_jobDone (h : Inv s) {j : Nat} (hin : j ∈ s.inFlight) (hended : s.jobs j = some .ended) :
    Inv { s with inFlight := s.inFlight.erase j }.markIdleIfQuiet := by
  have hbusy : ¬ Quiet s := by
    intro hq
    rw [hq.inFlight] at hin
    exact absurd hin (Finset.notMem_empty j)
  have hnotick : ∀ d x, s.drivers d = some x → x.ofTick = false := by
    intro d x hx
    by_contra ht
    rw [h.apart d x hx (Bool.eq_true_of_not_eq_false ht)] at hin
    exact absurd hin (Finset.notMem_empty j)
  have hquiet : s.claiming = false ∧ s.inFlight.erase j = ∅ →
      Quiet { s with inFlight := s.inFlight.erase j }.markIdleIfQuiet := by
    intro hq
    refine ⟨?_, fun d x hx => ?_⟩
    · rw [markIdle_inFlight]
      exact hq.2
    · rw [markIdle_drivers] at hx
      have htick := hnotick d x hx
      cases hc : x.claiming with
      | true =>
          rw [h.claiming d x hx hc] at hq
          exact absurd hq.1.symm Bool.false_ne_true
      | false =>
          cases x with
          | running => exact absurd htick.symm Bool.false_ne_true
          | _ => exact hc
  refine ⟨?_, ?_, ?_, ?_, ?_, ?_, ?_⟩
  · rw [markIdle_drivers]
    exact h.one
  · rw [markIdle_drivers, markIdle_claiming]
    exact h.claiming
  · intro d x hx ht
    rw [markIdle_drivers] at hx
    rw [hnotick d x hx] at ht
    exact absurd ht Bool.false_ne_true
  · intro j' r hj' hne
    rw [markIdle_jobs] at hj'
    rw [markIdle_inFlight, markIdle_drivers]
    rcases h.held j' r hj' hne with hin' | hrun
    · refine .inl (Finset.mem_erase.mpr ⟨fun hjj => ?_, hin'⟩)
      rw [hjj] at hj'
      exact hne (Option.some.inj (hj'.symm.trans hended))
    · exact .inr hrun
  · intro hi
    rcases markIdle_idle hi with hi | hq
    · exact absurd (h.idle hi) hbusy
    · exact hquiet hq
  · intro w call hw
    rw [markIdle_draining]
    rcases markIdle_drains hw with hw | ⟨_, call', hw⟩
    · exact h.draining w call hw
    · exact h.draining w call' hw
  · intro w call hw ht
    rcases markIdle_drains hw with hw | ⟨hq, _⟩
    · exact absurd (h.through w call hw ht) hbusy
    · exact hquiet hq

/-- A drain is called, or it returns: it does so with `True` only where all is quiet. -/
theorem inv_drains (h : Inv s) {w : Nat} {call : DrainCall} {b c : Bool} (hc : c = true)
    (hquiet : call.through = true → Quiet s) :
    Inv { s with
      running := b
      draining := c
      drains := Function.update s.drains w (some call) } := by
  refine ⟨h.one, h.claiming, h.apart, h.held,
    fun hi => ⟨(h.idle hi).inFlight, (h.idle hi).drivers⟩, fun _ _ _ => hc, ?_⟩
  intro w' call' hw' ht
  rcases Machine.update_cases hw' with ⟨_, rfl⟩ | ⟨_, hw'⟩
  · exact ⟨(hquiet ht).inFlight, (hquiet ht).drivers⟩
  · exact ⟨(h.through w' call' hw' ht).inFlight, (h.through w' call' hw' ht).drivers⟩

theorem inv_step {a : Action} (h : Inv s) (hserial : Serial s a)
    (hstep : step concurrency s a = some s') : Inv s' := by
  have hresumed : ∀ d, (∃ lost, a = .swept d lost) ∨ (∃ claim, a = .claimed d claim) ∨
      a = .endTick d → Inv s' := by
    intro d ha
    rcases resumed_step ha hstep with ⟨x, s₁, x', hx, hr, he⟩
    rw [he]
    exact inv_resumed h hx hr.active hr
  cases a with
  | swept d lost => exact hresumed d (.inl ⟨lost, rfl⟩)
  | claimed d claim => exact hresumed d (.inr (.inl ⟨claim, rfl⟩))
  | endTick d => exact hresumed d (.inr (.inr rfl))
  | run =>
      rw [← Option.some.inj hstep]
      exact inv_running h true
  | stop =>
      rw [← Option.some.inj hstep]
      exact inv_running h false
  | poll d =>
      rw [step, Option.ite_none_right_eq_some, Option.some.injEq] at hstep
      rw [← hstep.2]
      exact inv_begin h hserial (by simp only [reduceCtorEq, false_implies])
  | tick d =>
      rw [step, Option.ite_none_right_eq_some, Option.some.injEq] at hstep
      rw [← hstep.2]
      exact inv_begin h hserial.1 (fun _ => hserial.2)
  | startJob j =>
      rw [step, Option.ite_none_right_eq_some, Option.some.injEq] at hstep
      rw [← hstep.2]
      exact inv_putJob h (fun _ => ⟨.unstarted, hstep.1,
        by simp only [ne_eq, reduceCtorEq, not_false_eq_true]⟩)
  | endJob j =>
      rw [step, Option.ite_none_right_eq_some, Option.some.injEq] at hstep
      rw [← hstep.2]
      exact inv_putJob h (fun hne => absurd rfl hne)
  | jobDone j =>
      rw [step, Option.ite_none_right_eq_some, Option.some.injEq] at hstep
      rw [← hstep.2]
      exact inv_jobDone h hstep.1.1 hstep.1.2
  | drain w =>
      rw [step, Option.ite_none_right_eq_some, Option.some.injEq, State.drain] at hstep
      by_cases hidle : s.idle = true
      · rw [if_pos hidle] at hstep
        rw [← hstep.2]
        exact inv_drains h rfl (fun _ => h.idle hidle)
      · rw [if_neg hidle] at hstep
        rw [← hstep.2]
        exact inv_drains h rfl (fun ht => absurd ht Bool.false_ne_true)
  | resume w =>
      rw [step, Option.ite_none_right_eq_some, Option.some.injEq] at hstep
      rw [← hstep.2]
      exact inv_drains h (h.draining w _ hstep.1) (fun _ => h.through w _ hstep.1 rfl)
  | timeout w =>
      rw [step, Option.ite_none_right_eq_some, Option.some.injEq] at hstep
      rw [← hstep.2]
      refine inv_drains h ?_ (fun ht => absurd ht Bool.false_ne_true)
      rcases hstep.1 with hw | hw
      · exact h.draining w _ hw
      · exact h.draining w _ hw

theorem inv_initial : Inv .initial := by
  refine ⟨?_, ?_, ?_, ?_, fun _ => ⟨rfl, ?_⟩, ?_, ?_⟩ <;>
    (intros; simp_all only [State.initial, reduceCtorEq])

theorem inv_reachesWhen (h : (machine concurrency).ReachesWhen Serial s) : Inv s := by
  refine Machine.reachesWhen_invariant ?_ ?_ h
  · intro s hs
    rw [show s = .initial from hs]
    exact inv_initial
  · intro s a s' hi hserial hstep
    exact inv_step hi hserial hstep

/-- No later claim, after any steps at all. -/
theorem runActions_draining {acts : List Action} (h : s.draining = true)
    (hrun : (machine concurrency).runActions s acts = some s') : s'.claims = s.claims := by
  have hboth : s'.draining = true ∧ s'.claims = s.claims :=
    Machine.runActions_invariant (P := fun t => t.draining = true ∧ t.claims = s.claims)
      (fun a _ t t' ht hstep => by
        have hnext := step_draining ht.1 hstep
        exact ⟨hnext.1, hnext.2.trans ht.2⟩)
      ⟨h, rfl⟩ hrun
  exact hboth.2

/-- In every serial run, a drain that has returned `True` leaves a worker whose jobs have
    all ended and that begins no claim. -/
theorem drainedQuiet (h : (machine concurrency).ReachesWhen Serial s) :
    DrainedQuiet concurrency s := by
  intro w hw
  have hinv := inv_reachesWhen h
  have hquiet := hinv.through w _ hw rfl
  refine ⟨?_, ?_, fun acts s' hrun => runActions_draining (hinv.draining w _ hw) hrun⟩
  · intro j r hj
    by_contra hne
    rcases hinv.held j r hj hne with hin | ⟨d, hd⟩
    · rw [hquiet.inFlight] at hin
      exact absurd hin (Finset.notMem_empty j)
    · exact absurd (hquiet.drivers d _ hd).symm Bool.false_ne_true
  · intro d x hx
    cases hc : x.claiming with
    | true =>
        exact absurd ((hquiet.drivers d x hx).symm.trans (claiming_busy hc)) Bool.false_ne_true
    | false => rfl

end Steps

/-- A claim is under way when the worker is drained; its job is run to the end. -/
theorem drainedQuiet_claim_under_way : ∃ s, s.drains 0 = some (.returned true) ∧
    s.jobs 0 = some .ended ∧ s.claims = 1 ∧ DrainedQuiet 1 s := by
  have hpoll : (machine 1).ReachesWhen Serial (State.initial.put 0 (.sweeping .poll)) :=
    .step _ (.poll 0) _ (.start _ rfl) (fun d x hx => absurd hx (by
      simp only [State.initial, reduceCtorEq, not_false_eq_true])) rfl
  obtain ⟨s, hrun, hdrained, hjob, hclaims⟩ : ∃ s, (machine 1).runWhen (fun _ a => !a.begins)
      (State.initial.put 0 (.sweeping .poll))
      [.run, .swept 0 false, .drain 0, .claimed 0 (.job 0), .startJob 0, .endJob 0, .jobDone 0,
        .resume 0] = some s ∧ s.drains 0 = some (.returned true) ∧ s.jobs 0 = some .ended ∧
      s.claims = 1 := ⟨_, rfl, rfl, rfl, rfl⟩
  exact ⟨s, hdrained, hjob, hclaims,
    drainedQuiet (Machine.reachesWhen_runWhen (fun _ _ => serial_of_begins) hpoll hrun)⟩

/-- A tick runs its job, and a poll finds nothing: the event is set, and a drain returns
    `True` while the job is running. -/
theorem tick_overlooked : ¬ ∀ s, (machine 1).Reachable s → DrainedQuiet 1 s := by
  intro h
  obtain ⟨s, hrun, hdrained, hjob⟩ : ∃ s, (machine 1).runActions .initial
      [.run, .tick 0, .swept 0 false, .claimed 0 (.job 0), .poll 1, .swept 1 false,
        .claimed 1 .nothing, .drain 0] = some s ∧
      s.drains 0 = some (.returned true) ∧ s.jobs 0 = some .running := ⟨_, rfl, rfl, rfl⟩
  have hquiet := h s (Machine.reachable_runActions (.start _ rfl) hrun) 0 hdrained
  exact absurd (hquiet.1 0 _ hjob) (by decide)

end Drain

end Jobs

end JenticOne
