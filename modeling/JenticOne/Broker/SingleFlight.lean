import JenticOne.Library.Machine
import JenticOne.Library.Dict
import JenticOne.Library.Text

/-!
# Single Flight

`SingleFlight.do`: the first caller of a key runs its function and shares what
comes of it with those that call while it runs. A caller that is cancelled while
it runs the function aborts the run, and one of those that wait takes over; a
caller that is cancelled while it waits concerns nobody else.

The event loop runs one caller at a time up to its next await, so the steps are:
a call up to its first await, a waiting caller that is resumed, a run of the
function that comes to its end, and the cancellation of a caller, which takes
effect where the caller is resumed, or where its run ends. A run that is cancelled
may end in any way, as a function may answer its cancellation as it likes. While a
run is suspended, nothing happens.

A run is in the map from its start to its end, and so is nothing else. The rest is
read off that.

## Main definitions

* `Future`, `Call`, `State`: A run with those that share it, a caller, the map.
* `step`: One step.
* `Coalesced`: What has to be true of every state.

## Theorems

* `inv_enter`, `inv_settle`: What the steps keep.
* `acc_later`: Without new callers, only finitely many steps are left.
* `coalesced`: The law.
-/

namespace JenticOne

namespace Broker

namespace SingleFlight

/-! ## The model -/

/-- How a run of the function ends, or a call. -/
inductive Outcome (V E : Type)
  | result (v : V)
  | exception (e : E)
  | cancelledError
  deriving DecidableEq

/-- The future of a run: its key, who runs the function, since when, and how and
    when the run has ended. -/
structure Future (V E : Type) where
  key : Text
  leader : Nat
  startedAt : Nat
  outcome : Option (Outcome V E × Nat)
  deriving DecidableEq

/-- Where a caller is: it waits for a future, it runs the function for one, it runs
    the function for itself since the map is full, or it has ended. -/
inductive Phase (V E : Type)
  | waiting (future : Nat)
  | leading (future : Nat)
  | alone
  | ended (outcome : Outcome V E) (time : Nat)
  deriving DecidableEq

namespace Phase

variable {V E : Type}

/-- The function is being run. -/
def running : Phase V E → Bool
  | leading _ => true
  | alone => true
  | _ => false

def isEnded : Phase V E → Bool
  | ended _ _ => true
  | _ => false

end Phase

/-- A caller, with when it called and whether it has been cancelled. -/
structure Call (V E : Type) where
  key : Text
  calledAt : Nat
  cancelled : Bool
  phase : Phase V E
  deriving DecidableEq

/-- The number of steps so far, the map, the futures and the callers. -/
structure State (V E : Type) where
  now : Nat
  inFlight : Dict Text Nat
  next : Nat
  futures : Nat → Option (Future V E)
  callers : List Nat
  calls : Nat → Option (Call V E)

/-- Steps. A second cancellation of a caller adds nothing to the first. -/
inductive Action (V E : Type)
  | call (c : Nat) (key : Text)
  | resume (c : Nat)
  | finish (c : Nat) (outcome : Outcome V E)
  | cancel (c : Nat)
  deriving DecidableEq

section Model

variable {V E : Type}

/-- A caller's step is done. -/
def State.put (s : State V E) (c : Nat) (call : Call V E) : State V E :=
  { s with now := s.now + 1, calls := Function.update s.calls c (some call) }

/-- A caller waits for the future in the map, or runs the function and puts a future
    there, unless the map is full. -/
def State.enter (maxInFlight : Nat) (s : State V E) (c : Nat) (key : Text) (calledAt : Nat) :
    State V E :=
  match s.inFlight.get? key with
  | some f => s.put c ⟨key, calledAt, false, .waiting f⟩
  | none =>
      if maxInFlight ≤ s.inFlight.items.length then s.put c ⟨key, calledAt, false, .alone⟩
      else
        { s with
          inFlight := s.inFlight.set key s.next
          next := s.next + 1
          futures := Function.update s.futures s.next (some ⟨key, c, s.now, none⟩) }.put c
            ⟨key, calledAt, false, .leading s.next⟩

/-- The future of a run that has ended; its own entry is removed. -/
def State.settle (s : State V E) (f : Nat) (key : Text) (o : Outcome V E) : State V E :=
  { s with
    futures := Function.update s.futures f
      ((s.futures f).map fun future => { future with outcome := some (o, s.now) })
    inFlight := if s.inFlight.get? key = some f then s.inFlight.erase key else s.inFlight }

def State.conclude (s : State V E) (c : Nat) (call : Call V E) (o : Outcome V E) : State V E :=
  s.put c { call with phase := .ended o s.now }

/-- A caller that waits is resumed: by its cancellation, or when the run has ended. -/
def resume (maxInFlight : Nat) (s : State V E) (c : Nat) (call : Call V E) (f : Nat) :
    Option (State V E) :=
  if call.cancelled then some (s.conclude c call .cancelledError)
  else
    match (s.futures f).bind (·.outcome) with
    | none => none
    | some (.cancelledError, _) => some (s.enter maxInFlight c call.key call.calledAt)
    | some (.result v, _) => some (s.conclude c call (.result v))
    | some (.exception e, _) => some (s.conclude c call (.exception e))

def step (maxInFlight : Nat) (s : State V E) : Action V E → Option (State V E)
  | .call c key =>
      if s.calls c = none then
        some ({ s with callers := c :: s.callers }.enter maxInFlight c key s.now)
      else none
  | .resume c => (s.calls c).bind fun call =>
      match call.phase with
      | .waiting f => resume maxInFlight s c call f
      | _ => none
  | .finish c o => (s.calls c).bind fun call =>
      match call.phase with
      | .leading f => some ((s.settle f call.key o).conclude c call o)
      | .alone => some (s.conclude c call o)
      | _ => none
  | .cancel c => (s.calls c).bind fun call =>
      if call.phase.isEnded || call.cancelled then none
      else some (s.put c { call with cancelled := true })

def machine (V E : Type) (maxInFlight : Nat) : Machine (State V E) (Action V E) where
  start s := s = ⟨0, .empty, 0, fun _ => none, [], fun _ => none⟩
  step := step maxInFlight

/-- The map is not full. -/
def NotFull (maxInFlight : Nat) (s : State V E) (_ : Action V E) : Prop :=
  s.inFlight.items.length < maxInFlight

/-! ## The law -/

/-- A step that is not a new call. -/
def Later (maxInFlight : Nat) (s' s : State V E) : Prop :=
  ∃ a, (∀ c key, a ≠ .call c key) ∧ NotFull maxInFlight s a ∧ step maxInFlight s a = some s'

/-- The call ended with the outcome of a run of its key that had begun when the call
    ended, and ended when the call had begun. -/
def Overlapped (s : State V E) (c : Nat) (call : Call V E) (o : Outcome V E) (time : Nat) : Prop :=
  ∃ f future ended, s.futures f = some future ∧ future.key = call.key ∧
    future.outcome = some (o, ended) ∧ future.startedAt ≤ time ∧ call.calledAt ≤ ended ∧
    (o = .cancelledError → future.leader = c)

structure Coalesced (maxInFlight : Nat) (s : State V E) : Prop where
  /-- One run of a key is in progress at most. -/
  single : ∀ c call c' call', s.calls c = some call → s.calls c' = some call' →
    call.key = call'.key → call.phase.running = true → call'.phase.running = true → c = c'
  /-- A caller that was not cancelled ends with the outcome of a run that overlapped
      its call, and only the one whose own run was cancelled ends as that. -/
  overlapped : ∀ c call o time, s.calls c = some call → call.phase = .ended o time →
    call.cancelled = false → Overlapped s c call o time
  /-- Neither the cancellation of a caller nor the end of its run touches another, nor
      the run of another. -/
  isolated : ∀ c a s', (a = .cancel c ∨ ∃ o, a = .finish c o) →
    step maxInFlight s a = some s' → ∀ c', c' ≠ c → s'.calls c' = s.calls c' ∧
      ∀ f future, s.futures f = some future → future.leader = c' → s'.futures f = some future
  cleared : ∀ key, (∀ c call, s.calls c = some call → call.key = key → call.phase.isEnded = true) →
    s.inFlight.get? key = none
  /-- A caller that has not ended can go on, or a run of its key can end. -/
  progress : ∀ c call, s.calls c = some call → call.phase.isEnded = false →
    (step maxInFlight s (.resume c)).isSome = true ∨
      ∃ c' call', s.calls c' = some call' ∧ call'.key = call.key ∧ call'.phase.running = true ∧
        ∀ o, (step maxInFlight s (.finish c' o)).isSome = true
  /-- Without new callers, only finitely many steps are left. -/
  finite : Acc (Later maxInFlight) s

/-! ## The invariant -/

/-- What is in the map are the runs that have not ended, each under its key. -/
structure Inv (s : State V E) : Prop where
  clock : ∀ c call, s.calls c = some call → call.calledAt ≤ s.now
  unused : ∀ f, s.next ≤ f → s.futures f = none
  mapped : ∀ key f, s.inFlight.get? key = some f → ∃ future call, s.futures f = some future ∧
    future.key = key ∧ s.calls future.leader = some call ∧ call.phase = .leading f
  leading : ∀ c call f, s.calls c = some call → call.phase = .leading f →
    ∃ future, s.futures f = some future ∧ future.key = call.key ∧ future.leader = c ∧
      future.outcome = none ∧ future.startedAt ≤ s.now ∧ s.inFlight.get? call.key = some f
  waiting : ∀ c call f, s.calls c = some call → call.phase = .waiting f →
    ∃ future, s.futures f = some future ∧ future.key = call.key ∧ future.startedAt ≤ s.now ∧
      (future.outcome = none → s.inFlight.get? call.key = some f) ∧
      ∀ o t, future.outcome = some (o, t) → call.calledAt ≤ t
  coalesced : ∀ c call, s.calls c = some call → call.phase ≠ .alone
  overlapped : ∀ c call o time, s.calls c = some call → call.phase = .ended o time →
    call.cancelled = false → Overlapped s c call o time

section Steps

variable {maxInFlight : Nat} {s s' : State V E} {c : Nat} {call call' : Call V E}

@[simp] theorem put_self : (s.put c call).calls c = some call := Function.update_self _ _ _

theorem put_of_ne {c' : Nat} (h : c' ≠ c) : (s.put c call).calls c' = s.calls c' :=
  Function.update_of_ne h _ _

theorem put_calls {c' : Nat} (h : (s.put c call).calls c' = some call') :
    c' = c ∧ call' = call ∨ c' ≠ c ∧ s.calls c' = some call' := by
  by_cases hc : c' = c
  · rw [hc, put_self] at h
    exact .inl ⟨hc, (Option.some.inj h).symm⟩
  · exact .inr ⟨hc, (put_of_ne hc).symm.trans h⟩

/-- What overlapped still does while futures that have ended stay. -/
theorem Overlapped.mono {o : Outcome V E} {time : Nat} (h : Overlapped s c call o time)
    (hfutures : ∀ f future, s.futures f = some future → future.outcome ≠ none →
      s'.futures f = some future) : Overlapped s' c call o time := by
  rcases h with ⟨f, future, ended, hf, hkey, ho, hstart, hcalled, hleader⟩
  refine ⟨f, future, ended, hfutures f future hf ?_, hkey, ho, hstart, hcalled, hleader⟩
  rw [ho]
  exact fun he => absurd he (by simp only [reduceCtorEq, not_false_eq_true])

/-- A caller that does not run the function goes on without touching the futures:
    it ends, or it is only marked. -/
theorem inv_put (h : Inv s) (hcall : s.calls c = some call) (hkey : call'.key = call.key)
    (hcalled : call'.calledAt = call.calledAt)
    (hphase : call'.phase = call.phase ∧ (call'.cancelled = false → call.cancelled = false) ∨
      (∃ f, call.phase = .waiting f) ∧ ∃ o, call'.phase = .ended o s.now ∧
        (call'.cancelled = false → Overlapped s c call' o s.now)) : Inv (s.put c call') := by
  refine ⟨?_, h.unused, ?_, ?_, ?_, ?_, ?_⟩
  · intro c' call'' hc'
    rcases put_calls hc' with ⟨_, rfl⟩ | ⟨_, hc'⟩
    · rw [hcalled]
      exact (h.clock c call hcall).trans (Nat.le_succ _)
    · exact (h.clock c' call'' hc').trans (Nat.le_succ _)
  · intro key f hf
    rcases h.mapped key f hf with ⟨future, leader, hfuture, hfkey, hleader, hleading⟩
    by_cases hc : future.leader = c
    · rw [hc, hcall] at hleader
      rcases hphase with ⟨hsame, _⟩ | ⟨⟨f', hwaiting⟩, _⟩
      · refine ⟨future, call', hfuture, hfkey, by rw [hc, put_self], ?_⟩
        rw [hsame, Option.some.inj hleader]
        exact hleading
      · rw [← Option.some.inj hleader, hwaiting] at hleading
        exact absurd hleading (by simp only [reduceCtorEq, not_false_eq_true])
    · exact ⟨future, leader, hfuture, hfkey, (put_of_ne hc).trans hleader, hleading⟩
  · intro c' call'' f hc' hp
    rcases put_calls hc' with ⟨rfl, rfl⟩ | ⟨_, hc'⟩
    · rcases hphase with ⟨hsame, _⟩ | ⟨_, o, he, _⟩
      · rw [hsame] at hp
        rw [hkey]
        rcases h.leading c' call f hcall hp with ⟨future, hf, hk, hl, ho, hs, hm⟩
        exact ⟨future, hf, hk, hl, ho, hs.trans (Nat.le_succ _), hm⟩
      · rw [he] at hp
        exact absurd hp (by simp only [reduceCtorEq, not_false_eq_true])
    · rcases h.leading c' call'' f hc' hp with ⟨future, hf, hk, hl, ho, hs, hm⟩
      exact ⟨future, hf, hk, hl, ho, hs.trans (Nat.le_succ _), hm⟩
  · intro c' call'' f hc' hp
    rcases put_calls hc' with ⟨rfl, rfl⟩ | ⟨_, hc'⟩
    · rcases hphase with ⟨hsame, _⟩ | ⟨_, o, he, _⟩
      · rw [hsame] at hp
        rw [hkey, hcalled]
        rcases h.waiting c' call f hcall hp with ⟨future, hf, hk, hs, hm, ht⟩
        exact ⟨future, hf, hk, hs.trans (Nat.le_succ _), hm, ht⟩
      · rw [he] at hp
        exact absurd hp (by simp only [reduceCtorEq, not_false_eq_true])
    · rcases h.waiting c' call'' f hc' hp with ⟨future, hf, hk, hs, hm, ht⟩
      exact ⟨future, hf, hk, hs.trans (Nat.le_succ _), hm, ht⟩
  · intro c' call'' hc'
    rcases put_calls hc' with ⟨rfl, rfl⟩ | ⟨_, hc'⟩
    · rcases hphase with ⟨hsame, _⟩ | ⟨_, o, he, _⟩
      · rw [hsame]
        exact h.coalesced c' call hcall
      · rw [he]
        exact fun he => absurd he (by simp only [reduceCtorEq, not_false_eq_true])
    · exact h.coalesced c' call'' hc'
  · intro c' call'' o time hc' hp hcancelled
    rcases put_calls hc' with ⟨rfl, rfl⟩ | ⟨_, hc'⟩
    · rcases hphase with ⟨hsame, hflag⟩ | ⟨_, o', he, hover⟩
      · rw [hsame] at hp
        rcases h.overlapped c' call o time hcall hp (hflag hcancelled) with
          ⟨f, future, ended, hf, hk, ho, hs, ht, hl⟩
        exact ⟨f, future, ended, hf, hk.trans hkey.symm, ho, hs, hcalled ▸ ht, hl⟩
      · rw [he, Phase.ended.injEq] at hp
        rw [← hp.1, ← hp.2]
        exact (hover hcancelled).mono fun _ _ hf _ => hf
    · exact (h.overlapped c' call'' o time hc' hp hcancelled).mono fun _ _ hf _ => hf

/-- A future that is there has been given out. -/
theorem lt_next (h : Inv s) {f : Nat} {future : Future V E} (hf : s.futures f = some future) :
    f < s.next := by
  by_contra hle
  rw [h.unused f (by omega)] at hf
  exact absurd hf (by simp only [reduceCtorEq, not_false_eq_true])

/-- A run ends, and the call of its leader with it. -/
theorem inv_settle (h : Inv s) (hcall : s.calls c = some call) {f : Nat}
    (hphase : call.phase = .leading f) (o : Outcome V E) :
    Inv ((s.settle f call.key o).conclude c call o) := by
  rcases h.leading c call f hcall hphase with ⟨future, hf, hkey, hleader, hopen, hstart, hmap⟩
  obtain ⟨done, hdone⟩ : ∃ done : Future V E, done = { future with outcome := some (o, s.now) } :=
    ⟨_, rfl⟩
  have hself : ((s.settle f call.key o).conclude c call o).futures f = some done := by
    change Function.update s.futures f _ f = _
    rw [Function.update_self, hf, hdone]
    rfl
  have hother : ∀ f', f' ≠ f →
      ((s.settle f call.key o).conclude c call o).futures f' = s.futures f' :=
    fun f' hne => Function.update_of_ne hne _ _
  have herase : ∀ key, ((s.settle f call.key o).conclude c call o).inFlight.get? key =
      if call.key = key then none else s.inFlight.get? key := by
    intro key
    change (if s.inFlight.get? call.key = some f then s.inFlight.erase call.key
      else s.inFlight).get? key = _
    rw [if_pos hmap, Dict.get?_erase]
  -- Whatever is at another future is at another key.
  have hapart : ∀ {key f'}, s.inFlight.get? key = some f' → f' ≠ f → call.key ≠ key := by
    intro key f' hkey' hne he
    rw [← he, hmap] at hkey'
    exact hne (Option.some.inj hkey').symm
  refine ⟨?_, ?_, ?_, ?_, ?_, ?_, ?_⟩
  · intro c' call' hc'
    rcases put_calls hc' with ⟨_, rfl⟩ | ⟨_, hc'⟩
    · exact (h.clock c call hcall).trans (Nat.le_succ _)
    · exact (h.clock c' call' hc').trans (Nat.le_succ _)
  · intro f' hle
    have hlt := lt_next h hf
    have hle' : s.next ≤ f' := hle
    rw [hother f' (by omega)]
    exact h.unused f' hle'
  · intro key f' hkey'
    rw [herase] at hkey'
    split at hkey'
    · exact absurd hkey' (by simp only [reduceCtorEq, not_false_eq_true])
    · next hne =>
        rcases h.mapped key f' hkey' with ⟨future', leader, hf', hk', hl', hp'⟩
        have hff : f' ≠ f := by
          intro he
          rw [he, hf] at hf'
          rw [← Option.some.inj hf'] at hk'
          exact hne (hkey.symm.trans hk')
        have hcc : future'.leader ≠ c := by
          intro he
          rw [he, hcall] at hl'
          rw [← Option.some.inj hl', hphase, Phase.leading.injEq] at hp'
          exact hff hp'.symm
        exact ⟨future', leader, (hother f' hff).trans hf', hk', (put_of_ne hcc).trans hl', hp'⟩
  · intro c' call' f' hc' hp'
    rcases put_calls hc' with ⟨_, rfl⟩ | ⟨hne, hc'⟩
    · exact absurd hp' (by simp only [reduceCtorEq, not_false_eq_true])
    · rcases h.leading c' call' f' hc' hp' with ⟨future', hf', hk', hl', ho', hs', hm'⟩
      have hff : f' ≠ f := by
        intro he
        rw [he, hf] at hf'
        rw [← Option.some.inj hf', hleader] at hl'
        exact hne hl'.symm
      refine ⟨future', (hother f' hff).trans hf', hk', hl', ho', hs'.trans (Nat.le_succ _), ?_⟩
      rw [herase, if_neg (hapart hm' hff)]
      exact hm'
  · intro c' call' f' hc' hp'
    rcases put_calls hc' with ⟨_, rfl⟩ | ⟨hne, hc'⟩
    · exact absurd hp' (by simp only [reduceCtorEq, not_false_eq_true])
    · rcases h.waiting c' call' f' hc' hp' with ⟨future', hf', hk', hs', hm', ht'⟩
      by_cases hff : f' = f
      · rw [hff, hf] at hf'
        have heq := Option.some.inj hf'
        refine ⟨done, hff ▸ hself, ?_, ?_, fun hnone => ?_, fun o' t ho' => ?_⟩
        · rw [hdone]
          exact (heq ▸ hk' : future.key = call'.key)
        · rw [hdone]
          exact hstart.trans (Nat.le_succ _)
        · rw [hdone] at hnone
          exact absurd hnone (by simp only [reduceCtorEq, not_false_eq_true])
        · rw [hdone] at ho'
          have ht : s.now = t := (Prod.mk.inj (Option.some.inj ho')).2
          rw [← ht]
          exact h.clock c' call' hc'
      · refine ⟨future', (hother f' hff).trans hf', hk', hs'.trans (Nat.le_succ _),
          fun hnone => ?_, ht'⟩
        rw [herase, if_neg (hapart (hm' hnone) hff)]
        exact hm' hnone
  · intro c' call' hc'
    rcases put_calls hc' with ⟨_, rfl⟩ | ⟨_, hc'⟩
    · exact fun he => absurd he (by simp only [reduceCtorEq, not_false_eq_true])
    · exact h.coalesced c' call' hc'
  · intro c' call' o' time hc' hp' hcancelled
    rcases put_calls hc' with ⟨rfl, rfl⟩ | ⟨_, hc'⟩
    · rw [Phase.ended.injEq] at hp'
      rw [← hp'.1, ← hp'.2]
      refine ⟨f, done, s.now, hself, ?_, ?_, ?_, h.clock c' call hcall, fun _ => ?_⟩
      · rw [hdone]
        exact hkey
      · rw [hdone]
      · rw [hdone]
        exact hstart
      · rw [hdone]
        exact hleader
    · refine (h.overlapped c' call' o' time hc' hp' hcancelled).mono fun f' future' hf' ho' => ?_
      refine (hother f' fun he => ho' ?_).trans hf'
      rw [he, hf] at hf'
      rw [← Option.some.inj hf']
      exact hopen

/-- A caller that runs nothing waits for a run, or begins one. -/
theorem inv_enter (h : Inv s) (hfull : s.inFlight.items.length < maxInFlight)
    (hfree : ∀ call, s.calls c = some call → ∃ f, call.phase = .waiting f) {key : Text}
    {calledAt : Nat} (hcalled : calledAt ≤ s.now) : Inv (s.enter maxInFlight c key calledAt) := by
  have hother : ∀ {c' call' f}, s.calls c' = some call' → call'.phase = .leading f → c' ≠ c := by
    intro c' call' f hc' hp he
    rw [he] at hc'
    rcases hfree call' hc' with ⟨f', hw⟩
    rw [hw] at hp
    exact absurd hp (by simp only [reduceCtorEq, not_false_eq_true])
  unfold State.enter
  cases hget : s.inFlight.get? key with
  | some f =>
      dsimp only
      rcases h.mapped key f hget with ⟨future, leader, hf, hkey, hleader, hleading⟩
      rcases h.leading future.leader leader f hleader hleading with
        ⟨future', hf', _, _, hopen, hstart, _⟩
      rw [hf] at hf'
      rw [← Option.some.inj hf'] at hopen hstart
      refine ⟨?_, h.unused, ?_, ?_, ?_, ?_, ?_⟩
      · intro c' call' hc'
        rcases put_calls hc' with ⟨_, rfl⟩ | ⟨_, hc'⟩
        · exact hcalled.trans (Nat.le_succ _)
        · exact (h.clock c' call' hc').trans (Nat.le_succ _)
      · intro key' f' hf'
        rcases h.mapped key' f' hf' with ⟨future', leader', hf', hk', hl', hp'⟩
        exact ⟨future', leader', hf', hk', (put_of_ne (hother hl' hp')).trans hl', hp'⟩
      · intro c' call' f' hc' hp'
        rcases put_calls hc' with ⟨_, rfl⟩ | ⟨_, hc'⟩
        · exact absurd hp' (by simp only [reduceCtorEq, not_false_eq_true])
        · rcases h.leading c' call' f' hc' hp' with ⟨future', hf', hk', hl', ho', hs', hm'⟩
          exact ⟨future', hf', hk', hl', ho', hs'.trans (Nat.le_succ _), hm'⟩
      · intro c' call' f' hc' hp'
        rcases put_calls hc' with ⟨_, rfl⟩ | ⟨_, hc'⟩
        · rw [← Phase.waiting.inj hp']
          refine ⟨future, hf, hkey, hstart.trans (Nat.le_succ _), fun _ => hget, fun o t ho => ?_⟩
          rw [hopen] at ho
          exact absurd ho (by simp only [reduceCtorEq, not_false_eq_true])
        · rcases h.waiting c' call' f' hc' hp' with ⟨future', hf', hk', hs', hm', ht'⟩
          exact ⟨future', hf', hk', hs'.trans (Nat.le_succ _), hm', ht'⟩
      · intro c' call' hc'
        rcases put_calls hc' with ⟨_, rfl⟩ | ⟨_, hc'⟩
        · exact fun he => absurd he (by simp only [reduceCtorEq, not_false_eq_true])
        · exact h.coalesced c' call' hc'
      · intro c' call' o time hc' hp' hcancelled
        rcases put_calls hc' with ⟨_, rfl⟩ | ⟨_, hc'⟩
        · exact absurd hp' (by simp only [reduceCtorEq, not_false_eq_true])
        · exact (h.overlapped c' call' o time hc' hp' hcancelled).mono fun _ _ hf _ => hf
  | none =>
      dsimp only
      rw [if_neg (by omega)]
      obtain ⟨s₁, hs₁⟩ : ∃ s₁ : State V E, s₁ = { s with
          inFlight := s.inFlight.set key s.next
          next := s.next + 1
          futures := Function.update s.futures s.next (some ⟨key, c, s.now, none⟩) } := ⟨_, rfl⟩
      rw [← hs₁]
      have hnow : s₁.now = s.now := by rw [hs₁]
      have hcalls : s₁.calls = s.calls := by rw [hs₁]
      have hself : s₁.futures s.next = some ⟨key, c, s.now, none⟩ := by
        rw [hs₁]
        exact Function.update_self _ _ _
      have hfutures : ∀ {f future}, s.futures f = some future → s₁.futures f = some future := by
        intro f future hf
        have hlt := lt_next h hf
        rw [hs₁]
        exact (Function.update_of_ne (by omega) _ _).trans hf
      have hmap : ∀ {key' f}, s.inFlight.get? key' = some f → s₁.inFlight.get? key' = some f := by
        intro key' f hf
        rw [hs₁]
        dsimp only
        rw [Dict.get?_set, if_neg ?_]
        · exact hf
        · intro he
          rw [← he, hget] at hf
          exact absurd hf (by simp only [reduceCtorEq, not_false_eq_true])
      refine ⟨?_, ?_, ?_, ?_, ?_, ?_, ?_⟩
      · intro c' call' hc'
        change call'.calledAt ≤ s₁.now + 1
        rw [hnow]
        rcases put_calls hc' with ⟨_, rfl⟩ | ⟨_, hc'⟩
        · exact hcalled.trans (Nat.le_succ _)
        · rw [hcalls] at hc'
          exact (h.clock c' call' hc').trans (Nat.le_succ _)
      · intro f hle
        change s₁.next ≤ f at hle
        rw [hs₁] at hle
        dsimp only at hle
        change s₁.futures f = none
        rw [hs₁]
        exact (Function.update_of_ne (by omega) _ _).trans (h.unused f (by omega))
      · intro key' f hf
        change s₁.inFlight.get? key' = some f at hf
        by_cases hkey : key = key'
        · rw [hs₁] at hf
          dsimp only at hf
          rw [Dict.get?_set, if_pos hkey] at hf
          rw [← Option.some.inj hf]
          exact ⟨_, _, hself, hkey, put_self, rfl⟩
        · rw [hs₁] at hf
          dsimp only at hf
          rw [Dict.get?_set, if_neg hkey] at hf
          rcases h.mapped key' f hf with ⟨future, leader, hf, hk, hl, hp⟩
          refine ⟨future, leader, hfutures hf, hk, ?_, hp⟩
          rw [put_of_ne (hother hl hp), hcalls]
          exact hl
      · intro c' call' f hc' hp
        change ∃ future, s₁.futures f = some future ∧ _ ∧ _ ∧ _ ∧ future.startedAt ≤ s₁.now + 1 ∧
          s₁.inFlight.get? call'.key = some f
        rw [hnow]
        rcases put_calls hc' with ⟨rfl, rfl⟩ | ⟨_, hc'⟩
        · rw [← Phase.leading.inj hp]
          refine ⟨_, hself, rfl, rfl, rfl, Nat.le_succ _, ?_⟩
          rw [hs₁]
          dsimp only
          rw [Dict.get?_set, if_pos rfl]
        · rw [hcalls] at hc'
          rcases h.leading c' call' f hc' hp with ⟨future, hf, hk, hl, ho, hs, hm⟩
          exact ⟨future, hfutures hf, hk, hl, ho, hs.trans (Nat.le_succ _), hmap hm⟩
      · intro c' call' f hc' hp
        change ∃ future, s₁.futures f = some future ∧ _ ∧ future.startedAt ≤ s₁.now + 1 ∧
          (_ → s₁.inFlight.get? call'.key = some f) ∧ _
        rw [hnow]
        rcases put_calls hc' with ⟨_, rfl⟩ | ⟨_, hc'⟩
        · exact absurd hp (by simp only [reduceCtorEq, not_false_eq_true])
        · rw [hcalls] at hc'
          rcases h.waiting c' call' f hc' hp with ⟨future, hf, hk, hs, hm, ht⟩
          exact ⟨future, hfutures hf, hk, hs.trans (Nat.le_succ _), fun hn => hmap (hm hn), ht⟩
      · intro c' call' hc'
        rcases put_calls hc' with ⟨_, rfl⟩ | ⟨_, hc'⟩
        · exact fun he => absurd he (by simp only [reduceCtorEq, not_false_eq_true])
        · rw [hcalls] at hc'
          exact h.coalesced c' call' hc'
      · intro c' call' o time hc' hp hcancelled
        rcases put_calls hc' with ⟨_, rfl⟩ | ⟨_, hc'⟩
        · exact absurd hp (by simp only [reduceCtorEq, not_false_eq_true])
        · rw [hcalls] at hc'
          exact (h.overlapped c' call' o time hc' hp hcancelled).mono fun _ _ hf _ => hfutures hf

/-- The outcome of the future that a caller waited for is one of a run that
    overlapped its call. -/
theorem overlapped_of_waiting (h : Inv s) (hcall : s.calls c = some call) {f : Nat}
    (hphase : call.phase = .waiting f) {o : Outcome V E} {t : Nat}
    (hout : (s.futures f).bind (·.outcome) = some (o, t)) (hne : o ≠ .cancelledError) :
    Overlapped s c { call with phase := .ended o s.now } o s.now := by
  rcases h.waiting c call f hcall hphase with ⟨future, hf, hkey, hstart, _, ht⟩
  rw [hf, Option.bind_some] at hout
  exact ⟨f, future, t, hf, hkey, hout, hstart, ht o t hout, fun he => absurd he hne⟩

theorem inv_resume (h : Inv s) (hfull : s.inFlight.items.length < maxInFlight)
    (hcall : s.calls c = some call) {f : Nat} (hphase : call.phase = .waiting f)
    (hstep : resume maxInFlight s c call f = some s') : Inv s' := by
  unfold resume at hstep
  split at hstep
  · next hcancelled =>
      rw [← Option.some.inj hstep]
      refine inv_put h hcall rfl rfl (.inr ⟨⟨f, hphase⟩, _, rfl, fun hnot => ?_⟩)
      rw [show call.cancelled = false from hnot] at hcancelled
      exact absurd hcancelled Bool.false_ne_true
  · split at hstep
    · exact absurd hstep (by simp only [reduceCtorEq, not_false_eq_true])
    · rw [← Option.some.inj hstep]
      refine inv_enter h hfull (fun call' hc' => ⟨f, ?_⟩) (h.clock c call hcall)
      rw [Option.some.inj (hc'.symm.trans hcall)]
      exact hphase
    · next v t hout =>
        rw [← Option.some.inj hstep]
        exact inv_put h hcall rfl rfl (.inr ⟨⟨f, hphase⟩, _, rfl, fun _ =>
          overlapped_of_waiting h hcall hphase hout
            (by simp only [ne_eq, reduceCtorEq, not_false_eq_true])⟩)
    · next e t hout =>
        rw [← Option.some.inj hstep]
        exact inv_put h hcall rfl rfl (.inr ⟨⟨f, hphase⟩, _, rfl, fun _ =>
          overlapped_of_waiting h hcall hphase hout
            (by simp only [ne_eq, reduceCtorEq, not_false_eq_true])⟩)

theorem inv_step (h : Inv s) (hfull : s.inFlight.items.length < maxInFlight) {a : Action V E}
    (hstep : step maxInFlight s a = some s') : Inv s' := by
  cases a with
  | call c key =>
      rw [step] at hstep
      split at hstep
      · next hnone =>
          rw [← Option.some.inj hstep]
          have hinv : Inv { s with callers := c :: s.callers } :=
            ⟨h.clock, h.unused, h.mapped, h.leading, h.waiting, h.coalesced,
              fun c call o t hc hp hx => (h.overlapped c call o t hc hp hx).mono fun _ _ hf _ => hf⟩
          refine inv_enter hinv hfull (fun call hc => ?_) (le_refl s.now)
          rw [show s.calls c = some call from hc] at hnone
          exact absurd hnone (by simp only [reduceCtorEq, not_false_eq_true])
      · exact absurd hstep (by simp only [reduceCtorEq, not_false_eq_true])
  | resume c =>
      rcases Option.bind_eq_some_iff.mp hstep with ⟨call, hcall, hresume⟩
      split at hresume
      · next f hphase => exact inv_resume h hfull hcall hphase hresume
      · exact absurd hresume (by simp only [reduceCtorEq, not_false_eq_true])
  | finish c o =>
      rcases Option.bind_eq_some_iff.mp hstep with ⟨call, hcall, hfinish⟩
      split at hfinish
      · next f hphase =>
          rw [← Option.some.inj hfinish]
          exact inv_settle h hcall hphase o
      · next hphase => exact absurd hphase (h.coalesced c call hcall)
      · exact absurd hfinish (by simp only [reduceCtorEq, not_false_eq_true])
  | cancel c =>
      rcases Option.bind_eq_some_iff.mp hstep with ⟨call, hcall, hcancel⟩
      split at hcancel
      · exact absurd hcancel (by simp only [reduceCtorEq, not_false_eq_true])
      · rw [← Option.some.inj hcancel]
        exact inv_put h hcall rfl rfl (.inl ⟨rfl, fun he => absurd he Bool.true_eq_false.mp⟩)

theorem inv_start (h : (machine V E maxInFlight).start s) : Inv s := by
  have hs : s = ⟨0, .empty, 0, fun _ => none, [], fun _ => none⟩ := h
  have hnone : ∀ {c call}, s.calls c ≠ some call := by
    intro c call hc
    rw [hs] at hc
    exact absurd hc (by simp only [reduceCtorEq, not_false_eq_true])
  refine ⟨fun _ _ hc => absurd hc hnone, fun f _ => by rw [hs], fun key f hf => ?_,
    fun _ _ _ hc => absurd hc hnone, fun _ _ _ hc => absurd hc hnone,
    fun _ _ hc => absurd hc hnone, fun _ _ _ _ hc => absurd hc hnone⟩
  rw [hs, Dict.get?_empty] at hf
  exact absurd hf (by simp only [reduceCtorEq, not_false_eq_true])

/-! ## Steps that are left -/

/-- Every caller is listed. -/
def Listed (s : State V E) : Prop := ∀ c call, s.calls c = some call → c ∈ s.callers

/-- What a caller adds to those that have not ended. -/
def Call.remains (call : Call V E) : Nat := if call.phase.isEnded then 0 else 1

/-- What a caller has before it until it ends: it waits for a future that is
    cancelled, or for another, or runs the function; and it may be cancelled. -/
def Call.left (futures : Nat → Option (Future V E)) (call : Call V E) : Nat :=
  (match call.phase with
    | .waiting f =>
        match (futures f).bind (·.outcome) with
        | some (.cancelledError, _) => 2
        | _ => 1
    | _ => 0) + if call.cancelled then 0 else 1

def State.remains (s : State V E) : Nat :=
  (s.callers.map fun c => (s.calls c).elim 0 Call.remains).sum

def State.left (s : State V E) : Nat :=
  (s.callers.map fun c => (s.calls c).elim 0 (Call.left s.futures)).sum

/-- A caller ends, or comes nearer to its end while the others are where they were. -/
structure Nearer (s s' : State V E) (c : Nat) (call call' : Call V E) : Prop where
  before : s.calls c = some call
  open_ : call.phase.isEnded = false
  callers : s'.callers = s.callers
  calls : s'.calls = Function.update s.calls c (some call')
  nearer : call'.phase.isEnded = true ∨ call'.phase.isEnded = false ∧
    call'.left s'.futures < call.left s.futures ∧ ∀ c' other, c' ≠ c → s.calls c' = some other →
      other.left s'.futures = other.left s.futures

/-- What is left grows less as those that have not ended stay the same, or these do. -/
theorem measure_lt (h : Nearer s s' c call call') (hlisted : Listed s) :
    s'.remains < s.remains ∨ s'.remains = s.remains ∧ s'.left < s.left := by
  have hmem := hlisted c call h.before
  have hself : s'.calls c = some call' := by
    rw [h.calls, Function.update_self]
  have hother : ∀ c', c' ≠ c → s'.calls c' = s.calls c' := by
    intro c' hne
    rw [h.calls, Function.update_of_ne hne]
  unfold State.remains State.left
  rw [h.callers]
  rcases h.nearer with hended | ⟨hopen', hleft, hothers⟩
  · refine .inl (List.sum_lt_sum _ _ (fun c' _ => ?_) ⟨c, hmem, ?_⟩)
    · by_cases hc : c' = c
      · rw [hc, hself, h.before]
        simp [Call.remains, hended]
      · rw [hother c' hc]
    · rw [hself, h.before]
      simp [Call.remains, hended, h.open_]
  · refine .inr ⟨?_, List.sum_lt_sum _ _ (fun c' _ => ?_) ⟨c, hmem, ?_⟩⟩
    · refine congrArg List.sum (List.map_congr_left fun c' _ => ?_)
      by_cases hc : c' = c
      · rw [hc, hself, h.before]
        simp [Call.remains, hopen', h.open_]
      · rw [hother c' hc]
    · by_cases hc : c' = c
      · rw [hc, hself, h.before]
        exact hleft.le
      · rw [hother c' hc]
        cases hcall : s.calls c' with
        | none => exact le_refl _
        | some other => exact (hothers c' other hc hcall).le
    · rw [hself, h.before]
      exact hleft

theorem left_waiting {futures : Nat → Option (Future V E)} {f : Nat}
    (hphase : call.phase = .waiting f) :
    call.left futures = (match (futures f).bind (·.outcome) with
      | some (.cancelledError, _) => 2
      | _ => 1) + if call.cancelled then 0 else 1 := by
  rw [Call.left, hphase]

/-- Only what one waits for matters. -/
theorem left_congr {futures futures' : Nat → Option (Future V E)}
    (h : ∀ f, call.phase = .waiting f → futures' f = futures f) :
    call.left futures' = call.left futures := by
  unfold Call.left
  split
  · next f hphase => rw [h f hphase]
  · rfl

/-- A caller that takes over from a cancelled run is nearer to its end. -/
theorem nearer_enter (h : Inv s) (hcall : s.calls c = some call) {f t : Nat}
    (hphase : call.phase = .waiting f) (hcancelled : call.cancelled = false)
    (hout : (s.futures f).bind (·.outcome) = some (.cancelledError, t)) :
    ∃ call', Nearer s (s.enter maxInFlight c call.key call.calledAt) c call call' := by
  have htwo : call.left s.futures = 3 := by
    rw [left_waiting hphase, hout, hcancelled]
    rfl
  have hopen : call.phase.isEnded = false := by
    rw [hphase]
    rfl
  unfold State.enter
  cases hget : s.inFlight.get? call.key with
  | some f' =>
      rcases h.mapped call.key f' hget with ⟨future, leader, hf, _, hl, hp⟩
      rcases h.leading _ leader f' hl hp with ⟨future', hf', _, _, ho, _, _⟩
      refine ⟨_, hcall, hopen, rfl, rfl, .inr ⟨rfl, ?_, fun _ _ _ _ => rfl⟩⟩
      rw [htwo]
      change Call.left s.futures ⟨call.key, call.calledAt, false, .waiting f'⟩ < 3
      rw [left_waiting rfl, hf', Option.bind_some, ho]
      change 1 + 1 < 3
      decide
  | none =>
      dsimp only
      split
      · refine ⟨_, hcall, hopen, rfl, rfl, .inr ⟨rfl, ?_, fun _ _ _ _ => rfl⟩⟩
        rw [htwo]
        change 0 + 1 < 3
        decide
      · refine ⟨_, hcall, hopen, rfl, rfl, .inr ⟨rfl, ?_, fun c' other _ hother => ?_⟩⟩
        · rw [htwo]
          change 0 + 1 < 3
          decide
        · refine left_congr fun f' hwaiting => Function.update_of_ne ?_ _ _
          rcases h.waiting c' other f' hother hwaiting with ⟨future, hf, _⟩
          have hlt := lt_next h hf
          omega

/-- Every step that is not a new call brings a caller nearer to its end. -/
theorem nearer_of_later (h : Inv s) (hlater : Later maxInFlight s' s) :
    ∃ c call call', Nearer s s' c call call' := by
  rcases hlater with ⟨a, hnot, _, hstep⟩
  cases a with
  | call c key => exact absurd rfl (hnot c key)
  | resume c =>
      rcases Option.bind_eq_some_iff.mp hstep with ⟨call, hcall, hresume⟩
      split at hresume
      · next f hphase =>
          have hopen : call.phase.isEnded = false := by
            rw [hphase]
            rfl
          unfold resume at hresume
          split at hresume
          · rw [← Option.some.inj hresume]
            exact ⟨c, call, _, hcall, hopen, rfl, rfl, .inl rfl⟩
          · next hflag =>
              split at hresume
              · exact absurd hresume (by simp only [reduceCtorEq, not_false_eq_true])
              · next t hout =>
                  rw [← Option.some.inj hresume]
                  exact ⟨c, call, nearer_enter h hcall hphase (Bool.not_eq_true _ ▸ hflag) hout⟩
              · rw [← Option.some.inj hresume]
                exact ⟨c, call, _, hcall, hopen, rfl, rfl, .inl rfl⟩
              · rw [← Option.some.inj hresume]
                exact ⟨c, call, _, hcall, hopen, rfl, rfl, .inl rfl⟩
      · exact absurd hresume (by simp only [reduceCtorEq, not_false_eq_true])
  | finish c o =>
      rcases Option.bind_eq_some_iff.mp hstep with ⟨call, hcall, hfinish⟩
      split at hfinish
      · next f hphase =>
          rw [← Option.some.inj hfinish]
          exact ⟨c, call, _, hcall, by rw [hphase]; rfl, rfl, rfl, .inl rfl⟩
      · next hphase =>
          rw [← Option.some.inj hfinish]
          exact ⟨c, call, _, hcall, by rw [hphase]; rfl, rfl, rfl, .inl rfl⟩
      · exact absurd hfinish (by simp only [reduceCtorEq, not_false_eq_true])
  | cancel c =>
      rcases Option.bind_eq_some_iff.mp hstep with ⟨call, hcall, hcancel⟩
      split at hcancel
      · exact absurd hcancel (by simp only [reduceCtorEq, not_false_eq_true])
      · next hnot =>
          rw [← Option.some.inj hcancel]
          rw [Bool.or_eq_true, not_or, Bool.not_eq_true, Bool.not_eq_true] at hnot
          refine ⟨c, call, _, hcall, hnot.1, rfl, rfl, .inr ⟨hnot.1, ?_, fun _ _ _ _ => rfl⟩⟩
          rw [Call.left, Call.left, hnot.2]
          exact Nat.lt_succ_self _

theorem listed_of_nearer (h : Listed s) (hnearer : Nearer s s' c call call') : Listed s' := by
  intro c' other hc'
  rw [hnearer.callers]
  rw [hnearer.calls] at hc'
  by_cases hc : c' = c
  · rw [hc]
    exact h c call hnearer.before
  · rw [Function.update_of_ne hc] at hc'
    exact h c' other hc'

theorem enter_spec (key : Text) (calledAt : Nat) :
    (s.enter maxInFlight c key calledAt).callers = s.callers ∧
      ∀ c', c' ≠ c → (s.enter maxInFlight c key calledAt).calls c' = s.calls c' := by
  unfold State.enter
  split
  · exact ⟨rfl, fun _ hne => put_of_ne hne⟩
  · split
    · exact ⟨rfl, fun _ hne => put_of_ne hne⟩
    · exact ⟨rfl, fun _ hne => put_of_ne hne⟩

theorem listed_step (h : Inv s) (hlisted : Listed s) {a : Action V E}
    (hfull : NotFull maxInFlight s a) (hstep : step maxInFlight s a = some s') : Listed s' := by
  by_cases hcall : ∃ c key, a = .call c key
  · rcases hcall with ⟨c, key, rfl⟩
    rw [step] at hstep
    split at hstep
    · rw [← Option.some.inj hstep]
      intro c' call hc'
      rw [(enter_spec key s.now).1]
      by_cases hc : c' = c
      · rw [hc]
        exact List.mem_cons_self
      · rw [(enter_spec key s.now).2 c' hc] at hc'
        exact List.mem_cons_of_mem c (hlisted c' call hc')
    · exact absurd hstep (by simp only [reduceCtorEq, not_false_eq_true])
  · have hlater : Later maxInFlight s' s :=
      ⟨a, fun c key he => hcall ⟨c, key, he⟩, hfull, hstep⟩
    rcases nearer_of_later h hlater with ⟨c, call, call', hnearer⟩
    exact listed_of_nearer hlisted hnearer

/-- Without new callers, only finitely many steps are left. -/
theorem acc_later (h : Inv s) (hlisted : Listed s) : Acc (Later maxInFlight) s := by
  -- Those that have not ended grow fewer, and while they do not, less is left before them.
  induction hn : s.remains using Nat.strong_induction_on generalizing s with
  | _ n ihn =>
      induction hm : s.left using Nat.strong_induction_on generalizing s with
      | _ m ihm =>
          refine Acc.intro s fun s' hlater => ?_
          rcases nearer_of_later h hlater with ⟨c, call, call', hnearer⟩
          have hinv : Inv s' := by
            rcases hlater with ⟨a, _, hfull, hstep⟩
            exact inv_step h hfull hstep
          have hlisted' := listed_of_nearer hlisted hnearer
          rcases measure_lt hnearer hlisted with hlt | ⟨heq, hlt⟩
          · exact ihn _ (by omega) hinv hlisted' rfl
          · exact ihm _ (by omega) hinv hlisted' (heq.trans hn) rfl

/-! ## The law, from the invariant -/

theorem single_of_inv (h : Inv s) {c' : Nat} (hcall : s.calls c = some call)
    (hcall' : s.calls c' = some call') (hkey : call.key = call'.key)
    (hrun : call.phase.running = true) (hrun' : call'.phase.running = true) : c = c' := by
  have hleading : ∀ {c : Nat} {call : Call V E}, s.calls c = some call →
      call.phase.running = true → ∃ f, call.phase = .leading f := by
    intro c call hc hr
    cases hp : call.phase with
    | leading f => exact ⟨f, rfl⟩
    | alone => exact absurd hp (h.coalesced c call hc)
    | waiting f =>
        rw [hp] at hr
        exact absurd hr Bool.false_ne_true
    | ended o t =>
        rw [hp] at hr
        exact absurd hr Bool.false_ne_true
  rcases hleading hcall hrun with ⟨f, hp⟩
  rcases hleading hcall' hrun' with ⟨f', hp'⟩
  rcases h.leading c call f hcall hp with ⟨future, hf, _, hl, _, _, hm⟩
  rcases h.leading c' call' f' hcall' hp' with ⟨future', hf', _, hl', _, _, hm'⟩
  -- Both are in the map under the key.
  rw [hkey, hm'] at hm
  rw [← Option.some.inj hm, hf'] at hf
  rw [← hl, ← hl', Option.some.inj hf]

theorem isolated_of_inv (h : Inv s) {a : Action V E} (ha : a = .cancel c ∨ ∃ o, a = .finish c o)
    (hstep : step maxInFlight s a = some s') {c' : Nat} (hne : c' ≠ c) :
    s'.calls c' = s.calls c' ∧
      ∀ f future, s.futures f = some future → future.leader = c' → s'.futures f = some future := by
  rcases ha with rfl | ⟨o, rfl⟩
  · rcases Option.bind_eq_some_iff.mp hstep with ⟨call, _, hcancel⟩
    split at hcancel
    · exact absurd hcancel (by simp only [reduceCtorEq, not_false_eq_true])
    · rw [← Option.some.inj hcancel]
      exact ⟨put_of_ne hne, fun _ _ hf _ => hf⟩
  · rcases Option.bind_eq_some_iff.mp hstep with ⟨call, hcall, hfinish⟩
    split at hfinish
    · next f hphase =>
        rw [← Option.some.inj hfinish]
        refine ⟨put_of_ne hne, fun f' future' hf' hl' => ?_⟩
        rcases h.leading c call f hcall hphase with ⟨future, hf, _, hl, _⟩
        refine (Function.update_of_ne ?_ _ _).trans hf'
        intro he
        rw [he, hf] at hf'
        rw [← Option.some.inj hf', hl] at hl'
        exact hne hl'.symm
    · rw [← Option.some.inj hfinish]
      exact ⟨put_of_ne hne, fun _ _ hf _ => hf⟩
    · exact absurd hfinish (by simp only [reduceCtorEq, not_false_eq_true])

theorem finish_isSome (hcall : s.calls c = some call) (hrun : call.phase.running = true)
    (o : Outcome V E) : (step maxInFlight s (.finish c o)).isSome = true := by
  rw [step, hcall, Option.bind_some]
  cases hp : call.phase with
  | leading f => rfl
  | alone => rfl
  | waiting f =>
      rw [hp] at hrun
      exact absurd hrun Bool.false_ne_true
  | ended o t =>
      rw [hp] at hrun
      exact absurd hrun Bool.false_ne_true

/-- A caller that waits is resumed, unless the run goes on. -/
theorem progress_of_inv (h : Inv s) (hcall : s.calls c = some call)
    (hopen : call.phase.isEnded = false) :
    (step maxInFlight s (.resume c)).isSome = true ∨
      ∃ c' call', s.calls c' = some call' ∧ call'.key = call.key ∧ call'.phase.running = true ∧
        ∀ o, (step maxInFlight s (.finish c' o)).isSome = true := by
  cases hp : call.phase with
  | leading f =>
      have hrun : call.phase.running = true := by
        rw [hp]
        rfl
      exact .inr ⟨c, call, hcall, rfl, hrun, finish_isSome hcall hrun⟩
  | alone => exact absurd hp (h.coalesced c call hcall)
  | ended o t =>
      rw [hp] at hopen
      exact absurd hopen.symm Bool.false_ne_true
  | waiting f =>
      rcases h.waiting c call f hcall hp with ⟨future, hf, _, _, hm, _⟩
      cases hout : future.outcome with
      | none =>
          right
          rcases h.mapped call.key f (hm hout) with ⟨future', leader, hf', hk', hl', hp'⟩
          have hrun : leader.phase.running = true := by
            rw [hp']
            rfl
          rcases h.leading _ leader f hl' hp' with ⟨future'', hf'', hk'', _⟩
          rw [hf'] at hf''
          refine ⟨future'.leader, leader, hl', ?_, hrun, finish_isSome hl' hrun⟩
          rw [← hk'', ← Option.some.inj hf'', hk']
      | some x =>
          left
          rw [step, hcall, Option.bind_some, hp]
          dsimp only
          rw [resume, hf, Option.bind_some, hout]
          split
          · rfl
          · rcases x with ⟨o, t⟩
            cases o <;> rfl

theorem coalesced_of_inv (h : Inv s) (hlisted : Listed s) : Coalesced maxInFlight s where
  single _ _ _ _ hcall hcall' hkey hrun hrun' := single_of_inv h hcall hcall' hkey hrun hrun'
  overlapped := h.overlapped
  isolated _ _ _ ha hstep _ hne := isolated_of_inv h ha hstep hne
  cleared key hall := by
    rw [Option.eq_none_iff_forall_ne_some]
    intro f hf
    rcases h.mapped key f hf with ⟨future, leader, hfuture, hk, hl, hp⟩
    rcases h.leading _ leader f hl hp with ⟨future', hf', hk', _⟩
    rw [hfuture] at hf'
    have hended := hall _ leader hl (by rw [← hk', ← Option.some.inj hf', hk])
    rw [hp] at hended
    exact absurd hended Bool.false_ne_true
  progress _ _ hcall hopen := progress_of_inv h hcall hopen
  finite := acc_later h hlisted

end Steps

/-- **Callers of a key share one run.** In every order of calls, resumptions, ends of
    runs and cancellations in which the map is never full: one run of a key is in
    progress at most; a caller that was not cancelled ends with the outcome of a
    run that overlapped its call; no cancellation touches another caller; nothing
    is left in the map for a key whose callers have ended; and a caller that has
    not ended can go on, or a run of its key is in progress, and the steps that
    are left without new callers are finitely many. -/
theorem coalesced {maxInFlight : Nat} {s : State V E}
    (h : (machine V E maxInFlight).ReachesWhen (NotFull maxInFlight) s) :
    Coalesced maxInFlight s := by
  have hboth : Inv s ∧ Listed s := by
    refine Machine.reachesWhen_invariant (P := fun s => Inv s ∧ Listed s) ?_ ?_ h
    · intro s hs
      refine ⟨inv_start hs, fun c call hc => ?_⟩
      rw [show s = ⟨0, .empty, 0, fun _ => none, [], fun _ => none⟩ from hs] at hc
      exact absurd hc (by simp only [reduceCtorEq, not_false_eq_true])
    · intro s a s' ⟨hinv, hlisted⟩ hfull hstep
      exact ⟨inv_step hinv hfull hstep, listed_step hinv hlisted hfull hstep⟩
  exact coalesced_of_inv hboth.1 hboth.2

/-- A leader is cancelled, one of the two that wait takes over, and both end with
    its result. -/
def takeOver : List (Action Nat Nat) :=
  [.call 0 "k".toList, .call 1 "k".toList, .call 2 "k".toList, .cancel 0,
    .finish 0 .cancelledError, .resume 2, .resume 1, .finish 2 (.result 7), .resume 1]

def notFull (maxInFlight : Nat) (s : State Nat Nat) (_ : Action Nat Nat) : Bool :=
  decide (s.inFlight.items.length < maxInFlight)

theorem coalesced_takeOver :
    ∃ s, (machine Nat Nat 5).runWhen (notFull 5) ⟨0, .empty, 0, fun _ => none, [], fun _ => none⟩
        takeOver = some s ∧
      (s.calls 1).map (·.phase) = some (.ended (.result 7) 8) ∧ Coalesced 5 s := by
  have hrun : (machine Nat Nat 5).runWhen (notFull 5)
      ⟨0, .empty, 0, fun _ => none, [], fun _ => none⟩ takeOver = some _ := rfl
  have hfull : ∀ s a, notFull 5 s a = true → NotFull 5 s a :=
    fun s _ h => (of_decide_eq_true h : s.inFlight.items.length < 5)
  exact ⟨_, hrun, rfl, coalesced (Machine.reachesWhen_runWhen hfull (.start _ rfl) hrun)⟩

end Model

end SingleFlight

end Broker

end JenticOne
