import JenticOne.Library.Machine

/-!
# What a Store of Expiring Entries Promises

A key/value store whose entries carry deadlines, as the sequence of events a
client can see: reads and what they returned, writes and the deadlines they
set, and attempts to take a key that must be absent. The machine below accepts
exactly the sequences such a store may show. It remembers for each key what was
written last, and never forgets it: an entry past its deadline is one that
reads no longer see, and whether an implementation has dropped it by then is
its own affair.

An increment is the one write that may depend on what it overwrites. While its
key is live it keeps the deadline, and a key that is not live gets a new one.

Nothing is said about capacity: a store may refuse a write whenever it likes,
and an attempt to take a key that was refused is a `claimRefused`.

## Main definitions

* `Event`: What a client sees.
* `State`: The last write of every key, and the latest time seen.
* `spec`: The machine of permitted sequences.
* `Event.writes`: The write an event makes to a key.

## Theorems

* `read_after_write`: Reads and claims between a write and the next.
* `kept_step`: What keeps a key's time.
* `claims_are_apart`: Two claims of one key that both succeed.
-/

namespace TtlStore

variable {κ ν T : Type*}

/-- What a client sees of the store. -/
inductive Event (κ ν T : Type*)
  | read (key : κ) (time : T) (observed : Option ν)
  | claimLost (key : κ) (time : T)
  | claimRefused (key : κ) (time : T)
  | claimWon (key : κ) (time now : T) (value : ν) (ttl : T)
  | set (key : κ) (value : ν) (deadline : T)
  | incr (key : κ) (time : T) (value : ν) (deadline : T)
deriving DecidableEq, Repr

/-- The last write of every key, and the latest time seen. -/
structure State (κ ν T : Type*) where
  store : κ → Option (ν × T)
  clock : T

variable [DecidableEq κ] [DecidableEq ν] [LinearOrder T] [Add T]

omit [DecidableEq κ] [DecidableEq ν] [Add T] in
/-- What a key holds at a time: its last write, before the deadline. -/
def State.live (s : State κ ν T) (k : κ) (t : T) : Option (ν × T) :=
  (s.store k).filter (fun x => t < x.2)

omit [DecidableEq ν] [LinearOrder T] [Add T] in
def State.write (s : State κ ν T) (k : κ) (v : ν) (d : T) : State κ ν T :=
  { s with store := Function.update s.store k (some (v, d)) }

omit [DecidableEq ν] [LinearOrder T] in
/-- The write an event makes to a key. -/
def Event.writes (k : κ) : Event κ ν T → Option (ν × T)
  | .claimWon key _ now value ttl => if key = k then some (value, now + ttl) else none
  | .set key value deadline => if key = k then some (value, deadline) else none
  | .incr key _ value deadline => if key = k then some (value, deadline) else none
  | _ => none

/-- One event, where the store may show it. -/
def step (s : State κ ν T) : Event κ ν T → Option (State κ ν T)
  | .read k t observed =>
      if s.clock ≤ t ∧ observed = (s.live k t).map Prod.fst then some { s with clock := t } else none
  | .claimLost k t =>
      if s.clock ≤ t ∧ (s.live k t).isSome then some { s with clock := t } else none
  | .claimRefused k t =>
      if s.clock ≤ t ∧ (s.live k t).isNone then some { s with clock := t } else none
  | .claimWon k t now v ttl =>
      if s.clock ≤ t ∧ t ≤ now ∧ (s.live k t).isNone then
        some { s.write k v (now + ttl) with clock := now }
      else none
  | .set k v d => some (s.write k v d)
  | .incr k t v d =>
      if s.clock ≤ t ∧ (s.live k t).all (fun x => d = x.2) then
        some { s.write k v d with clock := t }
      else none

/-- The sequences of events a store may show, from the empty store on. -/
def spec (κ ν T : Type*) [DecidableEq κ] [DecidableEq ν] [LinearOrder T] [Add T] :
    Machine (State κ ν T) (Event κ ν T) where
  start s := s.store = fun _ => none
  step := step

section Enabled

variable {s : State κ ν T} {k : κ} {t now : T}

theorem step_read (hclock : s.clock ≤ t) :
    step s (.read k t ((s.live k t).map Prod.fst)) = some { s with clock := t } :=
  if_pos ⟨hclock, rfl⟩

theorem step_claimLost (hclock : s.clock ≤ t) (hlive : (s.live k t).isSome) :
    step s (.claimLost k t) = some { s with clock := t } :=
  if_pos ⟨hclock, hlive⟩

theorem step_claimRefused (hclock : s.clock ≤ t) (hdead : (s.live k t).isNone) :
    step s (.claimRefused k t) = some { s with clock := t } :=
  if_pos ⟨hclock, hdead⟩

theorem step_claimWon (hclock : s.clock ≤ t) (hnow : t ≤ now) (hdead : (s.live k t).isNone)
    (v : ν) (ttl : T) : step s (.claimWon k t now v ttl) =
      some { s.write k v (now + ttl) with clock := now } :=
  if_pos ⟨hclock, hnow, hdead⟩

theorem step_incr (hclock : s.clock ≤ t) {d : T} (hkeep : ∀ x ∈ s.live k t, d = x.2) (v : ν) :
    step s (.incr k t v d) = some { s.write k v d with clock := t } :=
  if_pos ⟨hclock, by
    rw [Option.all_eq_true]
    exact fun x hx => decide_eq_true (hkeep x hx)⟩

end Enabled

/-- What an event may do to the last write of a key. -/
theorem step_store {s s' : State κ ν T} {e : Event κ ν T} (h : step s e = some s') (k : κ) :
    s'.store k = (e.writes k).or (s.store k) := by
  cases e with
  | read key t observed | claimLost key t | claimRefused key t =>
      simp only [step, Option.ite_none_right_eq_some, Option.some.injEq] at h
      rw [← h.2]
      rfl
  | claimWon key t now v ttl =>
      simp only [step, Option.ite_none_right_eq_some, Option.some.injEq] at h
      rw [← h.2]
      simp only [State.write, Event.writes, Function.update_apply, eq_comm (a := k)]
      split <;> rfl
  | incr key t v d =>
      simp only [step, Option.ite_none_right_eq_some, Option.some.injEq] at h
      rw [← h.2]
      simp only [State.write, Event.writes, Function.update_apply, eq_comm (a := k)]
      split <;> rfl
  | set key v d =>
      simp only [step, Option.some.injEq] at h
      rw [← h]
      simp only [State.write, Event.writes, Function.update_apply, eq_comm (a := k)]
      split <;> rfl

theorem step_clock {s s' : State κ ν T} {e : Event κ ν T} (h : step s e = some s') :
    s.clock ≤ s'.clock := by
  cases e with
  | read key t observed | claimLost key t | claimRefused key t | incr key t v d =>
      simp only [step, Option.ite_none_right_eq_some, Option.some.injEq] at h
      rw [← h.2]
      exact h.1.1
  | claimWon key t now v ttl =>
      simp only [step, Option.ite_none_right_eq_some, Option.some.injEq] at h
      rw [← h.2]
      exact le_trans h.1.1 h.1.2.1
  | set key v d =>
      simp only [step, Option.some.injEq] at h
      rw [← h]
      exact le_refl _

/-- Events that do not write a key leave its last write. -/
theorem runActions_store {s s' : State κ ν T} {mid : List (Event κ ν T)} {k : κ}
    (hmid : ∀ e ∈ mid, e.writes k = none) (h : (spec κ ν T).runActions s mid = some s') :
    s'.store k = s.store k := by
  refine Machine.runActions_invariant (P := fun s₁ => s₁.store k = s.store k) ?_ rfl h
  intro e he s₁ s₂ hs₁ hstep
  rw [step_store hstep k, hmid e he, Option.none_or]
  exact hs₁

/-- Split a permitted sequence at an event. -/
theorem runActions_at {s s' : State κ ν T} {pre post : List (Event κ ν T)} {e : Event κ ν T}
    (h : (spec κ ν T).runActions s (pre ++ e :: post) = some s') :
    ∃ s₁ s₂, (spec κ ν T).runActions s pre = some s₁ ∧ step s₁ e = some s₂ ∧
      (spec κ ν T).runActions s₂ post = some s' := by
  rw [Machine.runActions_append, Option.bind_eq_some_iff] at h
  rcases h with ⟨s₁, hpre, hrest⟩
  rw [Machine.runActions_cons, Option.bind_eq_some_iff] at hrest
  rcases hrest with ⟨s₂, hstep, hpost⟩
  exact ⟨s₁, s₂, hpre, hstep, hpost⟩

omit [DecidableEq κ] [DecidableEq ν] [Add T] in
theorem live_of_store {s : State κ ν T} {k : κ} {v : ν} {d : T} (h : s.store k = some (v, d))
    (t : T) : s.live k t = if t < d then some (v, d) else none := by
  unfold State.live
  rw [h, Option.filter_some]
  simp only [decide_eq_true_eq]

omit [DecidableEq κ] [DecidableEq ν] [Add T] in
theorem le_of_not_live {s : State κ ν T} {k : κ} {v : ν} {d t : T} (h : s.store k = some (v, d))
    (hlive : (s.live k t).isNone) : d ≤ t := by
  rw [live_of_store h] at hlive
  by_contra ht
  rw [if_pos (not_le.mp ht)] at hlive
  exact absurd hlive Bool.false_ne_true

/-- Between a write of a key and the next, what is seen of the key is that
    write until its deadline and nothing from the deadline on: a read returns
    its value or nothing, and an attempt to take the key fails exactly before
    the deadline. -/
theorem read_after_write {s s' : State κ ν T} {pre mid post : List (Event κ ν T)}
    {w e : Event κ ν T} {k : κ} {v : ν} {d : T}
    (h : (spec κ ν T).runActions s (pre ++ w :: (mid ++ e :: post)) = some s')
    (hw : w.writes k = some (v, d)) (hmid : ∀ e ∈ mid, e.writes k = none) :
    (∀ t observed, e = .read k t observed → observed = if t < d then some v else none) ∧
    (∀ t, e = .claimLost k t → t < d) ∧ (∀ t, e = .claimRefused k t → d ≤ t) ∧
    (∀ t now v' ttl, e = .claimWon k t now v' ttl → d ≤ t) ∧
    (∀ t v' d', e = .incr k t v' d' → t < d → d' = d) := by
  rcases runActions_at h with ⟨s₁, s₂, _, hwrite, hrest⟩
  rcases runActions_at hrest with ⟨s₃, s₄, hkeep, hstep, _⟩
  have hstore : s₃.store k = some (v, d) := by
    rw [runActions_store hmid hkeep, step_store hwrite k, hw, Option.some_or]
  have hlive := live_of_store hstore
  refine ⟨?_, ?_, ?_, ?_, ?_⟩
  · rintro t observed rfl
    simp only [step, Option.ite_none_right_eq_some] at hstep
    rw [hstep.1.2, hlive]
    split <;> rfl
  · rintro t rfl
    simp only [step, Option.ite_none_right_eq_some] at hstep
    rw [hlive] at hstep
    by_contra ht
    rw [if_neg ht] at hstep
    exact absurd hstep.1.2 Bool.false_ne_true
  · rintro t rfl
    simp only [step, Option.ite_none_right_eq_some] at hstep
    exact le_of_not_live hstore hstep.1.2
  · rintro t now v' ttl rfl
    simp only [step, Option.ite_none_right_eq_some] at hstep
    exact le_of_not_live hstore hstep.1.2.2
  · rintro t v' d' rfl ht
    simp only [step, Option.ite_none_right_eq_some] at hstep
    rw [hlive, if_pos ht, Option.all_some, decide_eq_true_eq] at hstep
    exact hstep.1.2

omit [DecidableEq κ] [DecidableEq ν] [LinearOrder T] [Add T] in
/-- The event is a plain overwrite of a key. -/
def Event.isSetOf (k : κ) : Event κ ν T → Prop
  | .set key _ _ => key = k
  | _ => False

omit [DecidableEq κ] [DecidableEq ν] [Add T] in
/-- The event is a plain overwrite of a key with an earlier deadline. -/
def Event.cutsShort (k : κ) (deadline : T) : Event κ ν T → Prop
  | .set key _ d => key = k ∧ d < deadline
  | _ => False

omit [DecidableEq κ] [DecidableEq ν] [Add T] in
/-- A key keeps its entry until a time at least, or that time has come. -/
def State.Kept (s : State κ ν T) (k : κ) (deadline : T) : Prop :=
  (∃ v d, s.store k = some (v, d) ∧ deadline ≤ d) ∨ deadline ≤ s.clock

/-- Only a plain overwrite cuts a key's time short. -/
theorem kept_step {s s' : State κ ν T} {e : Event κ ν T} {k : κ} {deadline : T}
    (hkept : s.Kept k deadline) (hcut : ¬ e.cutsShort k deadline) (h : step s e = some s') :
    s'.Kept k deadline := by
  rcases hkept with ⟨v, d, hstore, hle⟩ | hpast
  · have hnext := step_store h k
    cases hwrite : e.writes k with
    | none =>
        rw [hwrite, Option.none_or, hstore] at hnext
        exact Or.inl ⟨v, d, hnext, hle⟩
    | some y =>
        rw [hwrite, Option.some_or] at hnext
        cases e with
        | read key t observed | claimLost key t | claimRefused key t =>
            exact absurd hwrite (by simp only [Event.writes, reduceCtorEq, not_false_eq_true])
        | set key w dl =>
            simp only [Event.writes, Option.ite_none_right_eq_some, Option.some.injEq] at hwrite
            rw [← hwrite.2] at hnext
            exact Or.inl ⟨w, dl, hnext, not_lt.mp fun hlt => hcut ⟨hwrite.1, hlt⟩⟩
        | claimWon key t now w ttl =>
            -- A key is taken only once its entry has expired.
            simp only [Event.writes, Option.ite_none_right_eq_some] at hwrite
            simp only [step, Option.ite_none_right_eq_some, Option.some.injEq] at h
            rcases h with ⟨⟨_, htnow, hdead⟩, rfl⟩
            rw [hwrite.1] at hdead
            exact Or.inr (le_trans hle (le_trans (le_of_not_live hstore hdead) htnow))
        | incr key t w dl =>
            -- An increment keeps the deadline of a live entry.
            simp only [Event.writes, Option.ite_none_right_eq_some, Option.some.injEq] at hwrite
            simp only [step, Option.ite_none_right_eq_some, Option.some.injEq] at h
            rcases h with ⟨⟨_, hkeep⟩, rfl⟩
            rw [hwrite.1, live_of_store hstore] at hkeep
            by_cases ht : t < d
            · rw [if_pos ht, Option.all_some, decide_eq_true_eq] at hkeep
              rw [← hwrite.2, show dl = d from hkeep] at hnext
              exact Or.inl ⟨w, d, by rw [show dl = d from hkeep]; exact hnext, hle⟩
            · exact Or.inr (le_trans hle (not_lt.mp ht))
  · exact Or.inr (le_trans hpast (step_clock h))

theorem kept_runActions {s s' : State κ ν T} {mid : List (Event κ ν T)} {k : κ} {deadline : T}
    (hkept : s.Kept k deadline) (hcut : ∀ e ∈ mid, ¬ e.cutsShort k deadline)
    (h : (spec κ ν T).runActions s mid = some s') : s'.Kept k deadline := by
  refine Machine.runActions_invariant (P := fun s₁ => s₁.Kept k deadline) ?_ hkept h
  intro e he s₁ s₂ hs₁ hstep
  exact kept_step hs₁ (hcut e he) hstep

omit [DecidableEq κ] [DecidableEq ν] [Add T] in
/-- A key whose time is not up is live. -/
theorem le_of_kept {s : State κ ν T} {k : κ} {deadline t : T} (hkept : s.Kept k deadline)
    (hclock : s.clock ≤ t) (hdead : (s.live k t).isNone) : deadline ≤ t := by
  rcases hkept with ⟨v, d, hstore, hle⟩ | hpast
  · exact le_trans hle (le_of_not_live hstore hdead)
  · exact le_trans hpast hclock

/-- Two claims of one key that both succeed, with no plain overwrite of it in
    between, are apart by at least what the first one asked for. -/
theorem claims_are_apart {s s' : State κ ν T} {pre mid post : List (Event κ ν T)} {k : κ}
    {t now ttl t' now' ttl' : T} {v v' : ν}
    (h : (spec κ ν T).runActions s (pre ++ .claimWon k t now v ttl ::
      (mid ++ .claimWon k t' now' v' ttl' :: post)) = some s')
    (hmid : ∀ e ∈ mid, ¬ e.isSetOf k) : now + ttl ≤ t' := by
  rcases runActions_at h with ⟨s₁, s₂, _, hfirst, hrest⟩
  rcases runActions_at hrest with ⟨s₃, s₄, hkeep, hsecond, _⟩
  have hstart : s₂.Kept k (now + ttl) := by
    refine Or.inl ⟨v, now + ttl, ?_, le_refl _⟩
    rw [step_store hfirst k]
    simp only [Event.writes, if_true, Option.some_or]
  have hkept := kept_runActions hstart (fun e he hcut => hmid e he (by
    cases e with
    | set key v d => exact hcut.1
    | _ => exact hcut.elim)) hkeep
  simp only [step, Option.ite_none_right_eq_some] at hsecond
  exact le_of_kept hkept hsecond.1.1 hsecond.1.2.2

end TtlStore
