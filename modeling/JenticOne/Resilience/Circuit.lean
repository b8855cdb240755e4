import JenticOne.Events.GateKeys

/-!
# The Circuit Breaker

`CircuitBreaker.record`: a call to a host is counted, a failed one in a second
counter as well, and the circuit opens when enough calls have been counted and
the second count is a large enough part of the first.

The two counters are entries of a shared store with one time to live, which each
has from its own first increment on. So the second may be older than the first.
It then counts failures of calls that the first has forgotten, and what is
divided is the failures of one window by the calls of another: a circuit opens
on one failure among any number of calls. Where no window of calls begins while
the failures of an earlier one are still counted, every failure that is counted
is one of the calls.

The division is any one that respects the order of what is divided, the exact
one or one with rounding.

## Main definitions

* `CircuitBreaker`, `Record`, `State`: The configuration, a call, and the store
  with what has been recorded in the current window.
* `record`: One call recorded.
* `Opening.Sound`: What has to be true when a circuit opens.
* `FreshFailures`: A window begins with no failures counted.

## Theorems

* `counted_step`: What the counters have to do with the window.
* `sound_of_freshFailures`: The law, in runs whose windows begin so.
* `not_sound`: It does not hold in every run.
-/

namespace JenticOne

namespace Resilience

open Events (Store incr incr_spec)

/-! ## The model -/

structure CircuitBreaker where
  failureRatio : ℚ
  minCalls : Int
  windowS : Int
  cooldownS : Int

/-- The division of two counts. -/
structure Division where
  quotient : Nat → Nat → ℚ
  mono : ∀ {a b : Nat} (n : Nat), a ≤ b → quotient a n ≤ quotient b n

/-- Division without rounding. -/
def Division.exact : Division where
  quotient a n := (a : ℚ) / n
  mono _ h := div_le_div_of_nonneg_right (Nat.cast_le.mpr h) (Nat.cast_nonneg _)

def openKey (host : Text) : Text := "cb:open:".toList ++ host

def totalKey (host : Text) : Text := "cb:total:".toList ++ host

def failKey (host : Text) : Text := "cb:fail:".toList ++ host

/-- A recorded call, with what the store reads on its clock at each step. -/
structure Record where
  host : Text
  ok : Bool
  atTotal : ℚ
  atFail : ℚ
  atLatch : ℚ

/-- A circuit that has opened: the two counts that were divided, and the outcomes
    recorded since the counter of the calls began, the last one first. -/
structure Opening where
  failures : Nat
  total : Nat
  window : List Bool
  deriving DecidableEq

/-- The store, the outcomes recorded for a host since its counter of the calls
    began, and the circuits that have opened. -/
structure State where
  store : Store
  window : Text → List Bool
  openings : List Opening

/-- The store when its clock reads a time. -/
def Store.at (st : Store) (now : ℚ) : Store := { st with clock := now }

/-- `set_if_absent` of the latch. -/
def latch (b : CircuitBreaker) (s : State) (r : Record) (opening : Opening) : State :=
  let st := Store.at s.store r.atLatch
  if (st.live (openKey r.host) r.atLatch).isSome then { s with store := st }
  else
    { s with
      store := st.write (openKey r.host) 1 (r.atLatch + b.cooldownS)
      openings := opening :: s.openings }

/-- The outcomes in the window with the call. -/
def windowWith (s : State) (r : Record) : List Bool :=
  if (s.store.live (totalKey r.host) r.atTotal).isSome then r.ok :: s.window r.host else [r.ok]

def record (b : CircuitBreaker) (d : Division) (s : State) (r : Record) : State :=
  let window := windowWith s r
  let counted := incr (Store.at s.store r.atTotal) b.windowS (totalKey r.host)
  let s : State :=
    { s with store := counted.2, window := Function.update s.window r.host window }
  if r.ok then s
  else
    let failed := incr (Store.at counted.2 r.atFail) b.windowS (failKey r.host)
    let s : State := { s with store := failed.2 }
    if (counted.1 : Int) < b.minCalls then s
    else if b.failureRatio ≤ d.quotient failed.1 counted.1 then
      latch b s r ⟨failed.1, counted.1, window⟩
    else s

/-- A call is recorded when the clock has not gone back. -/
def step (b : CircuitBreaker) (d : Division) (s : State) (r : Record) : Option State :=
  if s.store.clock ≤ r.atTotal ∧ r.atTotal ≤ r.atFail ∧ r.atFail ≤ r.atLatch then
    some (record b d s r)
  else none

/-- Runs from a store without entries. -/
def machine (b : CircuitBreaker) (d : Division) : Machine State Record where
  start s := (∀ key, s.store.store key = none) ∧ s.openings = []
  step := step b d

/-! ## The law -/

/-- The failed calls of a window. -/
def failed (window : List Bool) : Nat := window.count false

/-- Enough calls were recorded in the window, the failed ones are a large enough
    part of them, and no more failures than calls were counted. -/
structure Opening.Sound (b : CircuitBreaker) (d : Division) (o : Opening) : Prop where
  calls : b.minCalls ≤ o.window.length
  ratio : b.failureRatio ≤ d.quotient (failed o.window) o.window.length
  within : o.failures ≤ o.total

/-- A call with which a window begins finds no failures counted. -/
def FreshFailures (s : State) (r : Record) : Prop :=
  s.store.live (totalKey r.host) r.atTotal = none →
    s.store.live (failKey r.host) r.atTotal = none

/-- What the counters have to do with the window: the calls are counted exactly,
    and while they are counted, the failures counted are among them. -/
structure Counted (s : State) : Prop where
  total : ∀ host n deadline, s.store.store (totalKey host) = some (n, deadline) →
    n = (s.window host).length
  failures : ∀ host n deadline f deadline', s.store.store (totalKey host) = some (n, deadline) →
    s.store.store (failKey host) = some (f, deadline') → s.store.clock < deadline →
    s.store.clock < deadline' → f ≤ failed (s.window host)

/-! ## Keys -/

theorem totalKey_inj {host host' : Text} : totalKey host = totalKey host' ↔ host = host' :=
  List.append_right_inj _

theorem failKey_inj {host host' : Text} : failKey host = failKey host' ↔ host = host' :=
  List.append_right_inj _

/-- The letter by which the keys are told apart. -/
theorem keys_fourth (host : Text) :
    (openKey host)[3]? = some 'o' ∧ (totalKey host)[3]? = some 't' ∧
      (failKey host)[3]? = some 'f' :=
  ⟨rfl, rfl, rfl⟩

theorem totalKey_ne_failKey (host host' : Text) : totalKey host ≠ failKey host' := by
  intro h
  have hfourth := (keys_fourth host).2.1
  rw [h, (keys_fourth host').2.2] at hfourth
  exact absurd hfourth (by decide)

theorem openKey_ne_totalKey (host host' : Text) : openKey host ≠ totalKey host' := by
  intro h
  have hfourth := (keys_fourth host).1
  rw [h, (keys_fourth host').2.1] at hfourth
  exact absurd hfourth (by decide)

theorem openKey_ne_failKey (host host' : Text) : openKey host ≠ failKey host' := by
  intro h
  have hfourth := (keys_fourth host).1
  rw [h, (keys_fourth host').2.2] at hfourth
  exact absurd hfourth (by decide)

/-! ## Counting a call -/

section Count

variable {b : CircuitBreaker} {d : Division} {s s' : State} {r : Record}

/-- The counter of the calls comes to the outcomes in the window. -/
theorem incr_total (h : Counted s) (ttl : ℚ) :
    ∃ deadline, incr (Store.at s.store r.atTotal) ttl (totalKey r.host) =
      ((windowWith s r).length, (Store.at s.store r.atTotal).write (totalKey r.host)
        (windowWith s r).length deadline) := by
  rcases incr_spec (Store.at s.store r.atTotal) ttl (totalKey r.host) with
    ⟨n, deadline, heq, ⟨hdead, hn, _⟩ | hlive⟩
  · refine ⟨deadline, ?_⟩
    have hdead : s.store.live (totalKey r.host) r.atTotal = none := hdead
    have hwindow : windowWith s r = [r.ok] := by
      unfold windowWith
      rw [hdead]
      rfl
    rw [hwindow, heq, hn]
    rfl
  · refine ⟨deadline, ?_⟩
    have hlive : s.store.live (totalKey r.host) r.atTotal = some (n, deadline) := hlive
    have hwindow : windowWith s r = r.ok :: s.window r.host := by
      unfold windowWith
      rw [hlive]
      rfl
    have hn := h.total _ _ _ (Option.filter_eq_some_iff.mp hlive).1
    rw [hwindow, heq, List.length_cons, ← hn]

/-- The failures that are still counted are among the outcomes in the window, and
    do not include the call. -/
theorem counted_before (h : Counted s) (hclock : s.store.clock ≤ r.atTotal)
    (hfresh : FreshFailures s r) {f : Nat} {deadline : ℚ}
    (hstore : s.store.store (failKey r.host) = some (f, deadline)) (hlive : r.atTotal < deadline) :
    f + [r.ok].count false ≤ failed (windowWith s r) := by
  unfold windowWith
  cases htotal : s.store.live (totalKey r.host) r.atTotal with
  | none =>
      have hdead := hfresh htotal
      rw [TtlStore.live_of_store hstore, if_pos hlive] at hdead
      exact absurd hdead (by simp only [reduceCtorEq, not_false_eq_true])
  | some x =>
      rcases Option.filter_eq_some_iff.mp htotal with ⟨hentry, hbefore⟩
      have hle := h.failures r.host x.1 x.2 f deadline hentry hstore
        (lt_of_le_of_lt hclock (of_decide_eq_true hbefore)) (lt_of_le_of_lt hclock hlive)
      rw [Option.isSome_some, if_pos rfl]
      unfold failed at hle ⊢
      cases hok : r.ok <;> simp <;> omega

/-- What a call leaves of the counters of its host, where those of the others are
    as they were. -/
theorem counted_of (h : Counted s) (hclock : s.store.clock ≤ s'.store.clock)
    (hother : ∀ host, host ≠ r.host → s'.window host = s.window host ∧
      s'.store.store (totalKey host) = s.store.store (totalKey host) ∧
      s'.store.store (failKey host) = s.store.store (failKey host))
    (htotal : ∀ n deadline, s'.store.store (totalKey r.host) = some (n, deadline) →
      n = (s'.window r.host).length)
    (hfail : ∀ f deadline, s'.store.store (failKey r.host) = some (f, deadline) →
      s'.store.clock < deadline → f ≤ failed (s'.window r.host)) : Counted s' := by
  constructor
  · intro host n deadline hstore
    by_cases hhost : host = r.host
    · rw [hhost] at hstore ⊢
      exact htotal n deadline hstore
    · rw [(hother host hhost).1]
      rw [(hother host hhost).2.1] at hstore
      exact h.total host n deadline hstore
  · intro host n deadline f deadline' hstore hstore' hlive hlive'
    by_cases hhost : host = r.host
    · rw [hhost] at hstore' ⊢
      exact hfail f deadline' hstore' hlive'
    · rw [(hother host hhost).1]
      rw [(hother host hhost).2.1] at hstore
      rw [(hother host hhost).2.2] at hstore'
      exact h.failures host n deadline f deadline' hstore hstore' (lt_of_le_of_lt hclock hlive)
        (lt_of_le_of_lt hclock hlive')

theorem store_write (st : Store) (key : Text) (n : Nat) (deadline : ℚ) :
    (st.write key n deadline).store = Function.update st.store key (some (n, deadline)) := rfl

/-- Opening the latch changes no counter. -/
theorem latch_spec (o : Opening) :
    (latch b s r o).window = s.window ∧ (latch b s r o).store.clock = r.atLatch ∧
      (∀ key, key ≠ openKey r.host → (latch b s r o).store.store key = s.store.store key) ∧
      ((latch b s r o).openings = s.openings ∨ (latch b s r o).openings = o :: s.openings) := by
  unfold latch
  dsimp only
  split
  · exact ⟨rfl, rfl, fun _ _ => rfl, .inl rfl⟩
  · exact ⟨rfl, rfl, fun _ hkey => Function.update_of_ne hkey _ _, .inr rfl⟩

/-- The counters after a call that has gone well. -/
theorem counted_ok (h : Counted s) (hclock : s.store.clock ≤ r.atTotal)
    (hfresh : FreshFailures s r) (hok : r.ok = true) :
    Counted (record b d s r) ∧ (record b d s r).openings = s.openings := by
  rcases incr_total (r := r) h b.windowS with ⟨deadline, hincr⟩
  have hrecord : record b d s r =
      { s with
        store := (Store.at s.store r.atTotal).write (totalKey r.host) (windowWith s r).length
          deadline
        window := Function.update s.window r.host (windowWith s r) } := by
    unfold record
    dsimp only
    rw [hincr, if_pos hok]
  rw [hrecord]
  refine ⟨counted_of (r := r) h hclock ?_ ?_ ?_, rfl⟩
  · intro host hhost
    refine ⟨Function.update_of_ne hhost _ _, ?_, ?_⟩
    · rw [store_write, Function.update_of_ne fun he => hhost (totalKey_inj.mp he)]
      rfl
    · rw [store_write, Function.update_of_ne (totalKey_ne_failKey _ _).symm]
      rfl
  · intro n deadline' hstore
    rw [store_write, Function.update_self, Option.some.injEq, Prod.mk.injEq] at hstore
    dsimp only
    rw [Function.update_self, ← hstore.1]
  · intro f deadline' hstore hlive
    rw [store_write, Function.update_of_ne (totalKey_ne_failKey _ _).symm] at hstore
    have hle := counted_before h hclock hfresh hstore hlive
    dsimp only
    rw [Function.update_self]
    omega

/-- A failed call is counted twice, and what is counted of the failures is in the
    window. -/
theorem record_failed (h : Counted s) (hclock : s.store.clock ≤ r.atTotal)
    (horder : r.atTotal ≤ r.atFail) (hfresh : FreshFailures s r) (hok : r.ok = false) :
    ∃ (st : Store) (f : Nat) (deadline deadline' : ℚ), st.clock = r.atFail ∧
      st.store = Function.update (Function.update s.store.store (totalKey r.host)
        (some ((windowWith s r).length, deadline))) (failKey r.host) (some (f, deadline')) ∧
      f ≤ failed (windowWith s r) ∧
      record b d s r =
        let s₁ : State := ⟨st, Function.update s.window r.host (windowWith s r), s.openings⟩
        if ((windowWith s r).length : Int) < b.minCalls then s₁
        else if b.failureRatio ≤ d.quotient f (windowWith s r).length then
          latch b s₁ r ⟨f, (windowWith s r).length, windowWith s r⟩
        else s₁ := by
  rcases incr_total (r := r) h b.windowS with ⟨deadline, hincr⟩
  obtain ⟨st₁, hst₁⟩ : ∃ st₁ : Store, st₁ = (Store.at s.store r.atTotal).write (totalKey r.host)
    (windowWith s r).length deadline := ⟨_, rfl⟩
  rcases incr_spec (Store.at st₁ r.atFail) b.windowS (failKey r.host) with
    ⟨f, deadline', heq, hcount⟩
  refine ⟨(Store.at st₁ r.atFail).write (failKey r.host) (f + 1) deadline', f + 1, deadline,
    deadline', rfl, by rw [hst₁]; rfl, ?_, ?_⟩
  · rcases hcount with ⟨_, hzero, _⟩ | hlive
    · -- The only failure counted is the call.
      rw [hzero]
      unfold windowWith failed
      rw [hok]
      split <;> simp
    · rcases Option.filter_eq_some_iff.mp hlive with ⟨hentry, hbefore⟩
      have hentry : s.store.store (failKey r.host) = some (f, deadline') := by
        rw [Store.at, hst₁, store_write, Function.update_of_ne (totalKey_ne_failKey _ _).symm]
          at hentry
        exact hentry
      have hbefore : r.atFail < deadline' := of_decide_eq_true hbefore
      have hle := counted_before h hclock hfresh hentry (lt_of_le_of_lt horder hbefore)
      rw [hok] at hle
      simpa using hle
  · unfold record
    dsimp only
    rw [hincr, if_neg (by rw [hok]; exact Bool.false_ne_true)]
    dsimp only
    rw [← hst₁, heq]

/-- One call keeps what the counters have to do with the window, and a circuit
    that opens on it opens rightly. -/
theorem counted_step (h : Counted s) (hclock : s.store.clock ≤ r.atTotal)
    (hfail : r.atTotal ≤ r.atFail) (hlatch : r.atFail ≤ r.atLatch) (hfresh : FreshFailures s r) :
    Counted (record b d s r) ∧ ∀ o ∈ (record b d s r).openings, o ∈ s.openings ∨ o.Sound b d := by
  cases hok : r.ok with
  | true =>
      rcases counted_ok (b := b) (d := d) h hclock hfresh hok with ⟨hcounted, hopenings⟩
      rw [hopenings]
      exact ⟨hcounted, fun o ho => .inl ho⟩
  | false =>
      rcases record_failed (b := b) (d := d) h hclock hfail hfresh hok with
        ⟨st, f, deadline, deadline', hst, hstore, hf, hrecord⟩
      -- Whether the circuit opens or not, the counters are those of `st`.
      have hcounted : ∀ s' : State, s'.window = Function.update s.window r.host (windowWith s r) →
          r.atFail ≤ s'.store.clock →
          (∀ key, key ≠ openKey r.host → s'.store.store key = st.store key) → Counted s' := by
        intro s' hwindow hclock' hkeys
        have htotal : ∀ host, s'.store.store (totalKey host) = Function.update s.store.store
            (totalKey r.host) (some ((windowWith s r).length, deadline)) (totalKey host) := by
          intro host
          rw [hkeys _ (openKey_ne_totalKey _ _).symm, hstore,
            Function.update_of_ne (totalKey_ne_failKey _ _)]
        refine counted_of (r := r) h (hclock.trans (hfail.trans hclock')) ?_ ?_ ?_
        · intro host hhost
          refine ⟨by rw [hwindow, Function.update_of_ne hhost], ?_, ?_⟩
          · rw [htotal, Function.update_of_ne fun he => hhost (totalKey_inj.mp he)]
          · rw [hkeys _ (openKey_ne_failKey _ _).symm, hstore,
              Function.update_of_ne fun he => hhost (failKey_inj.mp he),
              Function.update_of_ne (totalKey_ne_failKey _ _).symm]
        · intro n deadline₁ hentry
          rw [htotal, Function.update_self, Option.some.injEq, Prod.mk.injEq] at hentry
          rw [hwindow, Function.update_self, ← hentry.1]
        · intro f₁ deadline₁ hentry _
          rw [hkeys _ (openKey_ne_failKey _ _).symm, hstore, Function.update_self,
            Option.some.injEq, Prod.mk.injEq] at hentry
          rw [hwindow, Function.update_self, ← hentry.1]
          exact hf
      dsimp only at hrecord
      split at hrecord
      · rw [hrecord]
        exact ⟨hcounted _ rfl hst.ge fun _ _ => rfl, fun o ho => .inl ho⟩
      · next hcalls =>
          split at hrecord
          · next hratio =>
              rw [hrecord]
              rcases latch_spec (b := b)
                (s := ⟨st, Function.update s.window r.host (windowWith s r), s.openings⟩) (r := r)
                ⟨f, (windowWith s r).length, windowWith s r⟩ with
                ⟨hwindow, hclock', hkeys, hopenings⟩
              refine ⟨hcounted _ hwindow (hlatch.trans hclock'.ge) hkeys, fun o ho => ?_⟩
              rcases hopenings with hsame | hmore
              · rw [hsame] at ho
                exact .inl ho
              · rw [hmore] at ho
                rcases List.mem_cons.mp ho with rfl | hbefore
                · exact .inr ⟨not_lt.mp hcalls, hratio.trans (d.mono _ hf),
                    hf.trans List.count_le_length⟩
                · exact .inl hbefore
          · rw [hrecord]
            exact ⟨hcounted _ rfl hst.ge fun _ _ => rfl, fun o ho => .inl ho⟩

end Count

/-! ## Runs -/

variable {b : CircuitBreaker} {d : Division} {s : State}

/-- **The circuit opens on the ratio of one window.** In every run in which no
    window of calls begins with failures counted, each time the circuit opens
    enough calls were recorded in the window and the failed ones among them are
    a large enough part. -/
theorem sound_of_freshFailures (h : (machine b d).ReachesWhen FreshFailures s) :
    ∀ o ∈ s.openings, o.Sound b d := by
  refine (Machine.reachesWhen_invariant
    (P := fun s => Counted s ∧ ∀ o ∈ s.openings, o.Sound b d) ?_ ?_ h).2
  · rintro s ⟨hstore, hopenings⟩
    have hnone : ∀ {key n deadline}, s.store.store key ≠ some (n, deadline) := by
      intro key n deadline hentry
      rw [hstore key] at hentry
      exact absurd hentry (by simp only [reduceCtorEq, not_false_eq_true])
    refine ⟨⟨fun _ _ _ hentry => absurd hentry hnone,
      fun _ _ _ _ _ hentry => absurd hentry hnone⟩, fun o ho => ?_⟩
    rw [hopenings] at ho
    exact absurd ho List.not_mem_nil
  · intro s r s' ⟨hcounted, hsound⟩ hfresh hstep
    change (if _ then some (record b d s r) else none) = some s' at hstep
    split at hstep
    · next hclock =>
        rw [← Option.some.inj hstep]
        rcases counted_step (b := b) (d := d) hcounted hclock.1 hclock.2.1 hclock.2.2 hfresh with
          ⟨hcounted', hopenings⟩
        exact ⟨hcounted', fun o ho => (hopenings o ho).elim (hsound o) id⟩
    · exact absurd hstep (by simp only [reduceCtorEq, not_false_eq_true])

/-- Half of three calls or more, in a minute. -/
def halfOfThree : CircuitBreaker := ⟨1 / 2, 3, 60, 15⟩

/-- No entries, at time zero. -/
def State.fresh : State := ⟨⟨fun _ => none, 0⟩, fun _ => [], []⟩

/-- Calls to one host, by their outcomes and times. -/
def calls (host : Text) (outcomes : List (Bool × ℚ)) : List Record :=
  outcomes.map fun x => ⟨host, x.1, x.2, x.2, x.2⟩

/-- A call that does not begin a window with failures counted. -/
def beginsFresh (s : State) (r : Record) : Bool :=
  (s.store.live (totalKey r.host) r.atTotal).isSome ||
    (s.store.live (failKey r.host) r.atTotal).isNone

theorem freshFailures_of_beginsFresh {s : State} {r : Record} (h : beginsFresh s r = true) :
    FreshFailures s r := by
  intro hdead
  rw [beginsFresh, hdead, Bool.or_eq_true] at h
  rcases h with h | h
  · exact absurd h Bool.false_ne_true
  · exact Option.isNone_iff_eq_none.mp h

/-- Two failures among three calls open the circuit. -/
theorem sound_of_freshFailures_half :
    ∃ s, (machine halfOfThree .exact).runWhen beginsFresh .fresh
        (calls "h".toList [(true, 0), (false, 1), (false, 2)]) = some s ∧
      s.openings = [⟨2, 3, [false, false, true]⟩] ∧
      ∀ o ∈ s.openings, o.Sound halfOfThree .exact := by
  have hrun : ((machine halfOfThree .exact).runWhen beginsFresh .fresh
      (calls "h".toList [(true, 0), (false, 1), (false, 2)])).any
        (fun s => s.openings = [⟨2, 3, [false, false, true]⟩]) = true := by decide +kernel
  rcases (Option.any_eq_true _ _).mp hrun with ⟨s, hs, hopenings⟩
  refine ⟨s, hs, of_decide_eq_true hopenings, ?_⟩
  exact sound_of_freshFailures
    (Machine.reachesWhen_runWhen (fun _ _ h => freshFailures_of_beginsFresh h)
      (.start _ ⟨fun _ => rfl, rfl⟩) hs)

/-- A failure at 50 is counted until 110, the call at 61 begins a window, and the
    failure in it at 63 opens the circuit, as two failures among three calls. -/
theorem not_sound :
    ¬ ∀ s, (machine halfOfThree .exact).Reachable s →
      ∀ o ∈ s.openings, o.Sound halfOfThree .exact := by
  intro h
  have hrun : ((machine halfOfThree .exact).runActions .fresh
      (calls "h".toList [(true, 0), (false, 50), (true, 61), (true, 62), (false, 63)])).any
        (fun s => s.openings = [⟨2, 3, [false, true, true]⟩]) = true := by decide +kernel
  rcases (Option.any_eq_true _ _).mp hrun with ⟨s, hs, hopenings⟩
  have hsound := h s (Machine.reachable_runActions (.start _ ⟨fun _ => rfl, rfl⟩) hs)
    ⟨2, 3, [false, true, true]⟩ (by
      rw [of_decide_eq_true hopenings]
      exact List.mem_singleton_self _)
  have hratio : (1 / 2 : ℚ) ≤ ((1 : Nat) : ℚ) / (3 : Nat) := hsound.ratio
  norm_num at hratio

end Resilience

end JenticOne
