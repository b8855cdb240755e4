import JenticOne.Library.TtlStore
import JenticOne.State.Store

/-!
# Runs of the Memory State Backend

The machine whose runs are the sequences of calls on one `MemoryStateBackend`,
with the readings of its clock. An operation carries the readings it makes, and
is enabled where they do not go back. What a client sees of it is written to a
log, as the events of an expiring store.

The law of the log is refinement: every log is a sequence the abstract store of
`TtlStore` permits. The relation behind it is `Holds`. What was written last
under a key is stored, with its deadline, unless that deadline has passed; the
abstract store remembers it either way.

## Main definitions

* `World`: A backend, the last reading of its clock, and the log.
* `World.get`, `World.set`, `World.setIfAbsent`, `World.incrWithTtl`,
  `World.incrAndRead`, `World.tokenBucket`: The operations.
* `memory`: The machine.
* `Holds`: The stored entries and the abstract store agree.

## Theorems

* `run_rule`, `reachable_rule`: What the three operations on a backend keep.
* `refines_step`: Every operation extends the log by permitted events.
* `refines_of_reachable`: Every log of a run is permitted.
-/

namespace JenticOne

namespace State

abbrev Event := TtlStore.Event String Bytes ℚ

/-- A backend, the last reading of its clock, and what clients have seen. -/
structure World where
  backend : Backend
  clock : ℚ
  log : List Event

namespace World

/-- The state after an operation whose last reading was `now`. -/
def note (w : World) (b : Backend) (now : ℚ) (events : List Event) : World :=
  ⟨b, now, w.log ++ events⟩

def get (cfg : MemoryConfig) (w : World) (key : String) (now : ℚ) : Option Bytes × World :=
  let (entry, b) := w.backend.liveEntry cfg key now
  let value := entry.map Entry.value
  (value, w.note b now [.read key now value])

def set (cfg : MemoryConfig) (w : World) (key : String) (value : Bytes) (ttl now : ℚ) :
    Except StateError Unit × World :=
  match w.backend.store cfg key value (now + ttl) now with
  | (.ok (), b) => (.ok (), w.note b now [.set key value (now + ttl)])
  | (.error err, b) => (.error err, w.note b now [])

/-- `set_if_absent`: the entry is looked for at one reading and written at a
    later one. -/
def setIfAbsent (cfg : MemoryConfig) (w : World) (key : String) (value : Bytes)
    (ttl seen now : ℚ) : Except StateError Bool × World :=
  match w.backend.liveEntry cfg key seen with
  | (some _, b) => (.ok false, w.note b seen [.claimLost key seen])
  | (none, b) =>
      match b.store cfg key value (now + ttl) now with
      | (.ok (), b) => (.ok true, w.note b now [.claimWon key seen now value ttl])
      | (.error err, b) => (.error err, w.note b now [.claimRefused key seen])

/-- `_incr`: the first reading stamps a fresh window, the second is that of the
    read. -/
def incr (cfg : MemoryConfig) (w : World) (key : String) (ttl : ℚ) (amount : Int) (now seen : ℚ) :
    Except StateError Int × World :=
  let (entry, b) := w.backend.liveEntry cfg key seen
  let read : Event := .read key seen (entry.map Entry.value)
  match entry.elim (some 0) (fun e => parseInt e.value) with
  | none => (.error .invalidInteger, w.note b seen [read])
  | some current =>
      match formatInt (current + amount) with
      | none => (.error .invalidInteger, w.note b seen [read])
      | some text =>
          let expiresAt := entry.elim (now + ttl) Entry.expiresAt
          match b.store cfg key text expiresAt now with
          | (.ok (), b) =>
              (.ok (current + amount), w.note b seen [read, .incr key seen text expiresAt])
          | (.error err, b) => (.error err, w.note b seen [read])

def incrWithTtl (cfg : MemoryConfig) (w : World) (key : String) (ttl : ℚ) (amount : Int)
    (now seen : ℚ) : Except StateError Int × World :=
  if amount ≤ 0 then (.error (.amountNotPositive amount), w) else w.incr cfg key ttl amount now seen

/-- The increments of a batch, each with its two readings, up to one that
    raises. -/
def incrAll (cfg : MemoryConfig) (ttl : ℚ) :
    List (String × ℚ × ℚ) → World → Except StateError (List Int) × World
  | [], w => (.ok [], w)
  | (key, now, seen) :: rest, w =>
      match w.incr cfg key ttl 1 now seen with
      | (.error err, w) => (.error err, w)
      | (.ok count, w) =>
          let (counts, w) := incrAll cfg ttl rest w
          (counts.map (count :: ·), w)

/-- The reads of a batch. -/
def readAll (cfg : MemoryConfig) : List (String × ℚ) → World → List (Option Bytes) × World
  | [], w => ([], w)
  | (key, now) :: rest, w =>
      let (value, w) := w.get cfg key now
      let (values, w) := readAll cfg rest w
      (value :: values, w)

def incrAndRead (cfg : MemoryConfig) (w : World) (incrs : List (String × ℚ × ℚ))
    (reads : List (String × ℚ)) (ttl : ℚ) :
    Except StateError (List Int × List (Option Bytes)) × World :=
  match w.incrAll cfg ttl incrs with
  | (.error err, w) => (.error err, w)
  | (.ok counts, w) =>
      let (values, w) := w.readAll cfg reads
      (.ok (counts, values), w)

def tokenBucket (cfg : MemoryConfig) (w : World) (key : String) (rate : ℚ) (burst cost : Int)
    (now : ℚ) : RateLimitDecision × World :=
  let (decision, b) := w.backend.tokenBucket cfg key rate burst cost now
  (decision, w.note b now [])

end World

/-- A `set` is a store, noted. -/
theorem set_spec (cfg : MemoryConfig) (w : World) (key : String) (value : Bytes) (ttl now : ℚ) :
    (w.set cfg key value ttl now).1 = (w.backend.store cfg key value (now + ttl) now).1 ∧
      (w.set cfg key value ttl now).2.backend =
        (w.backend.store cfg key value (now + ttl) now).2 ∧
      (w.set cfg key value ttl now).2.clock = now := by
  unfold World.set
  split
  · rename_i b hok
    rw [hok]
    exact ⟨rfl, rfl, rfl⟩
  · rename_i err b herr
    rw [herr]
    exact ⟨rfl, rfl, rfl⟩

theorem clock_setIfAbsent (cfg : MemoryConfig) (w : World) (key : String) (value : Bytes)
    (ttl : ℚ) {seen now : ℚ} (h : seen ≤ now) :
    (w.setIfAbsent cfg key value ttl seen now).2.clock ≤ now := by
  unfold World.setIfAbsent
  split
  · exact h
  · split <;> exact le_refl _

/-- A call on the backend, with the clock readings it makes. -/
inductive Op
  | get (key : String) (now : ℚ)
  | set (key : String) (value : Bytes) (ttl now : ℚ)
  | setIfAbsent (key : String) (value : Bytes) (ttl seen now : ℚ)
  | incrWithTtl (key : String) (ttl : ℚ) (amount : Int) (now seen : ℚ)
  | incrAndRead (incrs : List (String × ℚ × ℚ)) (reads : List (String × ℚ)) (ttl : ℚ)
  | tokenBucket (key : String) (rate : ℚ) (burst cost : Int) (now : ℚ)

/-- The readings of a call, in the order they are made. -/
def Op.readings : Op → List ℚ
  | .get _ now | .set _ _ _ now | .tokenBucket _ _ _ _ now => [now]
  | .setIfAbsent _ _ _ seen now => [seen, now]
  | .incrWithTtl _ _ _ now seen => [now, seen]
  | .incrAndRead incrs reads _ => incrs.flatMap (fun x => [x.2.1, x.2.2]) ++ reads.map Prod.snd

/-- The state a call leaves. -/
def Op.run (cfg : MemoryConfig) (w : World) : Op → World
  | .get key now => (w.get cfg key now).2
  | .set key value ttl now => (w.set cfg key value ttl now).2
  | .setIfAbsent key value ttl seen now => (w.setIfAbsent cfg key value ttl seen now).2
  | .incrWithTtl key ttl amount now seen => (w.incrWithTtl cfg key ttl amount now seen).2
  | .incrAndRead incrs reads ttl => (w.incrAndRead cfg incrs reads ttl).2
  | .tokenBucket key rate burst cost now => (w.tokenBucket cfg key rate burst cost now).2

/-- A call, where the clock does not go back. -/
def step (cfg : MemoryConfig) (w : World) (op : Op) : Option World :=
  if (w.clock :: op.readings).Pairwise (· ≤ ·) then some (op.run cfg w) else none

/-- Sequences of calls on a backend constructed at any reading of its clock. -/
def memory (cfg : MemoryConfig) : Machine World Op where
  start w := ∃ now, w = ⟨Backend.new cfg now, now, []⟩
  step := step cfg

/-! ## What every call keeps -/

section Rule

variable {cfg : MemoryConfig} {P : Backend → Prop} {T : ℚ → Prop}

theorem incr_rule (hlive : ∀ b key now, T now → P b → P (b.liveEntry cfg key now).2)
    (hstore : ∀ b key value expiresAt now, T now → P b →
      P (b.store cfg key value expiresAt now).2)
    {w : World} (h : P w.backend) (key : String) (ttl : ℚ) (amount : Int) {now seen : ℚ}
    (hnow : T now) (hseen : T seen) : P (w.incr cfg key ttl amount now seen).2.backend := by
  have hlooked := hlive w.backend key seen hseen h
  unfold World.incr
  dsimp only
  generalize w.backend.liveEntry cfg key seen = looked at *
  split
  · exact hlooked
  · split
    · exact hlooked
    · rename_i text _
      have hstored := hstore looked.2 key text (looked.1.elim (now + ttl) Entry.expiresAt) now
        hnow hlooked
      split
      · rename_i b hok
        rw [hok] at hstored
        exact hstored
      · rename_i err b herr
        rw [herr] at hstored
        exact hstored

theorem incrAll_rule (hlive : ∀ b key now, T now → P b → P (b.liveEntry cfg key now).2)
    (hstore : ∀ b key value expiresAt now, T now → P b →
      P (b.store cfg key value expiresAt now).2)
    (ttl : ℚ) {incrs : List (String × ℚ × ℚ)} {w : World} (h : P w.backend)
    (hok : ∀ t ∈ incrs.flatMap (fun x => [x.2.1, x.2.2]), T t) :
    P (w.incrAll cfg ttl incrs).2.backend := by
  induction incrs generalizing w with
  | nil => exact h
  | cons x rest ih =>
      rcases x with ⟨key, now, seen⟩
      rw [List.flatMap_cons] at hok
      have hone := incr_rule hlive hstore h key ttl 1 (hok now List.mem_cons_self)
        (hok seen (List.mem_cons_of_mem now List.mem_cons_self))
      have hrest := fun t ht => hok t (List.mem_append_right _ ht)
      unfold World.incrAll
      split
      · rename_i err w' herr
        rw [herr] at hone
        exact hone
      · rename_i count w' hcount
        rw [hcount] at hone
        exact ih hone hrest

theorem readAll_rule (hlive : ∀ b key now, T now → P b → P (b.liveEntry cfg key now).2)
    {reads : List (String × ℚ)} {w : World} (h : P w.backend)
    (hok : ∀ t ∈ reads.map Prod.snd, T t) : P (w.readAll cfg reads).2.backend := by
  induction reads generalizing w with
  | nil => exact h
  | cons x rest ih =>
      rw [List.map_cons] at hok
      exact ih (w := (w.get cfg x.1 x.2).2)
        (hlive w.backend x.1 x.2 (hok _ List.mem_cons_self) h)
        (fun t ht => hok t (List.mem_cons_of_mem _ ht))

/-- Calls reach the backend through three operations; what these keep at the
    readings of a call is kept by the call. -/
theorem run_rule (hlive : ∀ b key now, T now → P b → P (b.liveEntry cfg key now).2)
    (hstore : ∀ b key value expiresAt now, T now → P b →
      P (b.store cfg key value expiresAt now).2) {op : Op}
    (hbucket : ∀ b key rate burst cost now, op = .tokenBucket key rate burst cost now → T now →
      P b → P (b.tokenBucket cfg key rate burst cost now).2)
    {w : World} (h : P w.backend) (hok : ∀ t ∈ op.readings, T t) :
    P (op.run cfg w).backend := by
  cases op with
  | get key now => exact hlive w.backend key now (hok now List.mem_cons_self) h
  | set key value ttl now =>
      have hset := set_spec cfg w key value ttl now
      change P (w.set cfg key value ttl now).2.backend
      rw [hset.2.1]
      exact hstore _ _ _ _ _ (hok now List.mem_cons_self) h
  | setIfAbsent key value ttl seen now =>
      have hlooked := hlive w.backend key seen (hok seen List.mem_cons_self) h
      simp only [Op.run, World.setIfAbsent]
      split
      · rename_i e b hentry
        rw [hentry] at hlooked
        exact hlooked
      · rename_i b hentry
        rw [hentry] at hlooked
        have hstored := hstore b key value (now + ttl) now
          (hok now (List.mem_cons_of_mem seen List.mem_cons_self)) hlooked
        split
        · rename_i b' hdone
          rw [hdone] at hstored
          exact hstored
        · rename_i err b' herr
          rw [herr] at hstored
          exact hstored
  | incrWithTtl key ttl amount now seen =>
      simp only [Op.run, World.incrWithTtl]
      split
      · exact h
      · exact incr_rule hlive hstore h key ttl amount (hok now List.mem_cons_self)
          (hok seen (List.mem_cons_of_mem now List.mem_cons_self))
  | incrAndRead incrs reads ttl =>
      have hincrs := incrAll_rule hlive hstore ttl h
        (fun t ht => hok t (List.mem_append_left _ ht))
      simp only [Op.run, World.incrAndRead]
      split
      · rename_i err w₁ herr
        rw [herr] at hincrs
        exact hincrs
      · rename_i counts w₁ hcounts
        rw [hcounts] at hincrs
        exact readAll_rule hlive hincrs (fun t ht => hok t (List.mem_append_right _ ht))
  | tokenBucket key rate burst cost now =>
      exact hbucket w.backend key rate burst cost now rfl (hok now List.mem_cons_self) h

/-- What a constructed backend has and the three operations keep holds of every
    state of a run. -/
theorem reachable_rule (hnew : ∀ now, P (Backend.new cfg now))
    (hlive : ∀ b key now, P b → P (b.liveEntry cfg key now).2)
    (hstore : ∀ b key value expiresAt now, P b → P (b.store cfg key value expiresAt now).2)
    (hbucket : ∀ b key rate burst cost now, P b →
      P (b.tokenBucket cfg key rate burst cost now).2)
    {w : World} (h : (memory cfg).Reachable w) : P w.backend := by
  refine Machine.reachable_invariant (P := fun w => P w.backend) ?_ ?_ h
  · rintro w ⟨now, rfl⟩
    exact hnew now
  · intro w op w' hw hstep
    change step cfg w op = some w' at hstep
    unfold step at hstep
    split at hstep
    · rw [Option.some.injEq] at hstep
      rw [← hstep]
      exact run_rule (T := fun _ => True) (fun b key now _ => hlive b key now)
        (fun b key value expiresAt now _ => hstore b key value expiresAt now)
        (fun b key rate burst cost now _ _ => hbucket b key rate burst cost now) hw
        (fun _ _ => trivial)
    · exact absurd hstep (by simp only [reduceCtorEq, not_false_eq_true])

end Rule

/-! ## The refinement -/

abbrev SpecState := TtlStore.State String Bytes ℚ

abbrev spec : Machine SpecState Event := TtlStore.spec String Bytes ℚ

/-- What was last written under a key is stored, unless its deadline passed. -/
def Holds (b : Backend) (s : SpecState) (clock : ℚ) : Prop :=
  ∀ k, match s.store k with
    | none => b.kv.get? k = none
    | some (v, d) => (∃ e, b.kv.get? k = some e ∧ e.value = v ∧ e.expiresAt = d) ∨
        (b.kv.get? k = none ∧ d ≤ clock)

theorem holds_drops {may : String → Prop} {b b' : Backend} {s : SpecState} {now clock clock' : ℚ}
    (h : Holds b s clock) (hdrops : Drops may now b b') (hnow : now ≤ clock')
    (hclock : clock ≤ clock') : Holds b' s clock' := by
  intro k
  have hk := h k
  cases hs : s.store k with
  | none =>
      rw [hs] at hk
      rcases hdrops.get k with hsame | ⟨_, hnone, _⟩
      · rw [hsame]
        exact hk
      · exact hnone
  | some x =>
      rw [hs] at hk
      rcases hdrops.get k with hsame | ⟨_, hnone, e, he, hexp⟩
      · rw [hsame]
        exact hk.imp_right (fun hgone => ⟨hgone.1, le_trans hgone.2 hclock⟩)
      · rcases hk with ⟨e', he', _, hd⟩ | ⟨hgone, _⟩
        · rw [he, Option.some.injEq] at he'
          rw [← he'] at hd
          exact Or.inr ⟨hnone, by rw [← hd]; exact le_trans hexp hnow⟩
        · rw [he] at hgone
          exact absurd hgone (by simp only [reduceCtorEq, not_false_eq_true])

theorem holds_write {b : Backend} {s : SpecState} {clock : ℚ} (h : Holds b s clock)
    (cfg : MemoryConfig) (key : String) (value : Bytes) (expiresAt : ℚ) :
    Holds (b.write cfg key value expiresAt) (s.write key value expiresAt) clock := by
  rcases get?_write cfg b key value expiresAt with ⟨e, hvalue, hexp, _, hget⟩
  intro k
  unfold TtlStore.State.write
  dsimp only
  rw [Function.update_apply, hget]
  by_cases hk : k = key
  · rw [if_pos hk, if_pos hk.symm]
    exact Or.inl ⟨e, rfl, hvalue, hexp⟩
  · rw [if_neg hk, if_neg (fun hc => hk hc.symm)]
    exact h k

/-- A live entry is what the abstract store holds at that time. -/
theorem liveEntry_spec {cfg : MemoryConfig} {b : Backend} {s : SpecState} {clock now : ℚ}
    (inv : Inv cfg noKey b) (h : Holds b s clock) (hclock : clock ≤ now) (key : String) :
    (b.liveEntry cfg key now).1.map (fun e => (e.value, e.expiresAt)) = s.live key now ∧
      Inv cfg noKey (b.liveEntry cfg key now).2 ∧
      Drops anyKey now b (b.liveEntry cfg key now).2 := by
  have hk := h key
  unfold Backend.liveEntry TtlStore.State.live
  cases hget : b.kv.get? key with
  | none =>
      refine ⟨?_, inv, drops_refl _ _ _⟩
      rw [hget] at hk
      cases hs : s.store key with
      | none => rfl
      | some x =>
          rw [hs] at hk
          rcases hk with ⟨e, he, _⟩ | ⟨_, hd⟩
          · exact absurd he (by simp only [reduceCtorEq, not_false_eq_true])
          · rw [Option.filter_some, if_neg (by
              rw [decide_eq_true_eq]
              exact not_lt.mpr (le_trans hd hclock))]
            rfl
  | some e =>
      have hx : s.store key = some (e.value, e.expiresAt) := by
        rw [hget] at hk
        cases hs : s.store key with
        | none =>
            rw [hs] at hk
            exact absurd hk (by simp only [reduceCtorEq, not_false_eq_true])
        | some x =>
            rw [hs] at hk
            rcases hk with ⟨e', he', hv, hd⟩ | ⟨hgone, _⟩
            · rw [Option.some.injEq] at he'
              rw [he', hv, hd]
            · exact absurd hgone (by simp only [reduceCtorEq, not_false_eq_true])
      rw [hx, Option.filter_some]
      dsimp only
      by_cases hexp : e.expiresAt ≤ now
      · rw [if_pos hexp, if_neg (by rw [decide_eq_true_eq]; exact not_lt.mpr hexp)]
        exact ⟨rfl, inv_delete inv hget (fun _ hc => hc.elim), drops_delete hget trivial hexp⟩
      · rw [if_neg hexp, if_pos (by rw [decide_eq_true_eq]; exact not_le.mp hexp)]
        exact ⟨rfl, inv, drops_refl _ _ _⟩

/-- A store that raises leaves what is held as it is; one that does not writes
    what it was given. -/
theorem store_holds {cfg : MemoryConfig} {b : Backend} {s : SpecState} {clock now clock' : ℚ}
    (inv : Inv cfg noKey b) (h : Holds b s clock) (hnow : now ≤ clock') (hclock : clock ≤ clock')
    (key : String) (value : Bytes) (expiresAt : ℚ) :
    Inv cfg noKey (b.store cfg key value expiresAt now).2 ∧
      Holds (b.store cfg key value expiresAt now).2
        (match (b.store cfg key value expiresAt now).1 with
          | .ok () => s.write key value expiresAt
          | .error _ => s) clock' := by
  rcases store_spec inv key value expiresAt now with ⟨b₁, inv₁, hdrops, ⟨hok, hfits⟩ | ⟨err, herr⟩⟩
  · rw [hok]
    exact ⟨inv_write inv₁ hfits expiresAt, holds_write (holds_drops h hdrops hnow hclock) _ _ _ _⟩
  · rw [herr]
    exact ⟨inv₁, holds_drops h hdrops hnow hclock⟩

/-- The backend and the abstract store after the same events. -/
structure Agrees (cfg : MemoryConfig) (w : World) (s : SpecState) : Prop where
  inv : Inv cfg noKey w.backend
  clock : s.clock ≤ w.clock
  holds : Holds w.backend s w.clock

/-- An operation extends the log by events the abstract store permits, all of
    them in `may`. -/
def Extends (cfg : MemoryConfig) (may : Event → Prop) (w : World) (s : SpecState) (w' : World) :
    Prop :=
  ∃ events s', w'.log = w.log ++ events ∧ spec.runActions s events = some s' ∧
    Agrees cfg w' s' ∧ w.clock ≤ w'.clock ∧ ∀ e ∈ events, may e

/-- Any event but a plain overwrite. -/
def notSet : Event → Prop
  | .set _ _ _ => False
  | _ => True

/-- What a call may write to the log. -/
def Op.may : Op → Event → Prop
  | .set key value ttl now => fun e => e = .set key value (now + ttl)
  | _ => notSet

section Operations

variable {cfg : MemoryConfig} {may : Event → Prop} {w : World} {s : SpecState}

theorem extends_refl (h : Agrees cfg w s) : Extends cfg may w s w :=
  ⟨[], s, (List.append_nil _).symm, rfl, h, le_refl _, fun _ he => absurd he List.not_mem_nil⟩

/-- No event. -/
theorem extends_quiet {b : Backend} {now : ℚ} (h : Agrees cfg w s) (inv : Inv cfg noKey b)
    (hnow : w.clock ≤ now) (hholds : Holds b s now) : Extends cfg may w s (w.note b now []) :=
  ⟨[], s, rfl, rfl, ⟨inv, le_trans h.clock hnow, hholds⟩, hnow,
    fun _ he => absurd he List.not_mem_nil⟩

/-- One event the abstract store permits. -/
theorem extends_event {b : Backend} {now : ℚ} {event : Event} {s' : SpecState}
    (hstep : TtlStore.step s event = some s') (hmay : may event) (inv : Inv cfg noKey b)
    (hclock : s'.clock ≤ now) (hnow : w.clock ≤ now) (hholds : Holds b s' now) :
    Extends cfg may w s (w.note b now [event]) := by
  refine ⟨[event], s', rfl, ?_, ⟨inv, hclock, hholds⟩, hnow, fun e he => ?_⟩
  · rw [Machine.runActions_cons, show spec.step s event = some s' from hstep]
    rfl
  · rw [List.mem_singleton] at he
    rw [he]
    exact hmay

/-- One operation after another. -/
theorem extends_trans {w' w'' : World} (h : Extends cfg may w s w')
    (h' : ∀ s', Agrees cfg w' s' → Extends cfg may w' s' w'') : Extends cfg may w s w'' := by
  rcases h with ⟨events, s', hlog, hrun, hagrees, hclock, hmay⟩
  rcases h' s' hagrees with ⟨events', s'', hlog', hrun', hagrees', hclock', hmay'⟩
  refine ⟨events ++ events', s'', by rw [hlog', hlog, List.append_assoc], ?_, hagrees',
    le_trans hclock hclock', fun e he => ?_⟩
  · rw [Machine.runActions_append, hrun, Option.bind_some]
    exact hrun'
  · rcases List.mem_append.mp he with he | he
    · exact hmay e he
    · exact hmay' e he

theorem extends_mono {may' : Event → Prop} {w' : World} (hle : ∀ e, may e → may' e)
    (h : Extends cfg may w s w') : Extends cfg may' w s w' := by
  rcases h with ⟨events, s', hlog, hrun, hagrees, hclock, hmay⟩
  exact ⟨events, s', hlog, hrun, hagrees, hclock, fun e he => hle e (hmay e he)⟩

theorem extends_get (h : Agrees cfg w s) {now : ℚ} (hnow : w.clock ≤ now) (key : String) :
    Extends cfg notSet w s (w.get cfg key now).2 := by
  rcases liveEntry_spec h.inv h.holds hnow key with ⟨hlive, inv, hdrops⟩
  have hstep := TtlStore.step_read (k := key) (le_trans h.clock hnow)
  rw [← hlive, Option.map_map] at hstep
  exact extends_event hstep trivial inv (le_refl _) hnow
    (holds_drops h.holds hdrops (le_refl _) hnow)

theorem extends_set (h : Agrees cfg w s) {now : ℚ} (hnow : w.clock ≤ now) (key : String)
    (value : Bytes) (ttl : ℚ) :
    Extends cfg (fun e => e = .set key value (now + ttl)) w s (w.set cfg key value ttl now).2 := by
  rcases store_holds h.inv h.holds (le_refl now) hnow key value (now + ttl) with ⟨inv, hholds⟩
  unfold World.set
  split
  · rename_i b hok
    rw [hok] at inv hholds
    exact extends_event rfl rfl inv (le_trans h.clock hnow) hnow hholds
  · rename_i err b herr
    rw [herr] at inv hholds
    exact extends_quiet h inv hnow hholds

theorem extends_setIfAbsent (h : Agrees cfg w s) {seen now : ℚ} (hseen : w.clock ≤ seen)
    (hnow : seen ≤ now) (key : String) (value : Bytes) (ttl : ℚ) :
    Extends cfg notSet w s (w.setIfAbsent cfg key value ttl seen now).2 := by
  rcases liveEntry_spec h.inv h.holds hseen key with ⟨hlive, inv, hdrops⟩
  have hclock := le_trans h.clock hseen
  have hheld := holds_drops h.holds hdrops (le_refl _) hseen
  unfold World.setIfAbsent
  split
  · rename_i e b hentry
    rw [hentry] at hlive inv hheld
    refine extends_event (TtlStore.step_claimLost hclock ?_) trivial inv (le_refl _) hseen hheld
    rw [← hlive]
    rfl
  · rename_i b hentry
    rw [hentry] at hlive inv hheld
    have hdead : (s.live key seen).isNone := by
      rw [← hlive]
      rfl
    rcases store_holds inv hheld (le_refl now) hnow key value (now + ttl) with ⟨inv', hholds⟩
    split
    · rename_i b' hok
      rw [hok] at inv' hholds
      exact extends_event (TtlStore.step_claimWon hclock hnow hdead value ttl) trivial inv'
        (le_refl _) (le_trans hseen hnow) hholds
    · rename_i err b' herr
      rw [herr] at inv' hholds
      exact extends_event (TtlStore.step_claimRefused hclock hdead) trivial inv' hnow
        (le_trans hseen hnow) hholds

theorem extends_incr (h : Agrees cfg w s) {now seen : ℚ} (hnow : now ≤ seen)
    (hclock : w.clock ≤ now) (key : String) (ttl : ℚ) (amount : Int) :
    Extends cfg notSet w s (w.incr cfg key ttl amount now seen).2 := by
  have hseen := le_trans hclock hnow
  rcases liveEntry_spec h.inv h.holds hseen key with ⟨hlive, inv, hdrops⟩
  have hheld := holds_drops h.holds hdrops (le_refl _) hseen
  have hread := TtlStore.step_read (k := key) (le_trans h.clock hseen)
  rw [← hlive, Option.map_map] at hread
  unfold World.incr
  dsimp only
  generalize w.backend.liveEntry cfg key seen = looked at *
  have hquiet : Extends cfg notSet w s
      (w.note looked.2 seen [.read key seen (looked.1.map Entry.value)]) :=
    extends_event hread trivial inv (le_refl _) hseen hheld
  split
  · exact hquiet
  · split
    · exact hquiet
    · rename_i text _
      rcases store_holds inv hheld hnow (le_refl _) key text
        (looked.1.elim (now + ttl) Entry.expiresAt) with ⟨inv', hholds⟩
      split
      · rename_i b' hok
        rw [hok] at inv' hholds
        -- The read first, then a write that keeps the deadline of what it read.
        have hkeep : ∀ x ∈ TtlStore.State.live { s with clock := seen } key seen,
            looked.1.elim (now + ttl) Entry.expiresAt = x.2 := by
          intro x hx
          change s.live key seen = some x at hx
          rw [← hlive, Option.map_eq_some_iff] at hx
          rcases hx with ⟨e, he, rfl⟩
          rw [he]
          rfl
        have hincr : spec.step { s with clock := seen }
            (.incr key seen text (looked.1.elim (now + ttl) Entry.expiresAt)) =
            some { s.write key text (looked.1.elim (now + ttl) Entry.expiresAt) with
              clock := seen } := TtlStore.step_incr (le_refl seen) hkeep text
        refine ⟨_, { s.write key text (looked.1.elim (now + ttl) Entry.expiresAt) with
          clock := seen }, rfl, ?_, ⟨inv', le_refl _, hholds⟩, hseen, fun e he => ?_⟩
        · have hfirst : spec.step s (.read key seen (looked.1.map Entry.value)) =
              some { s with clock := seen } := hread
          rw [Machine.runActions_cons, hfirst, Option.bind_some, Machine.runActions_cons,
            hincr]
          rfl
        · rcases List.mem_cons.mp he with rfl | he
          · trivial
          · rw [List.mem_singleton] at he
            rw [he]
            trivial
      · rename_i err b' herr
        rw [herr] at inv' hholds
        exact extends_event hread trivial inv' (le_refl _) hseen hholds

theorem clock_incr (cfg : MemoryConfig) (w : World) (key : String) (ttl : ℚ) (amount : Int)
    (now seen : ℚ) : (w.incr cfg key ttl amount now seen).2.clock = seen := by
  unfold World.incr
  dsimp only
  split
  · rfl
  · split
    · rfl
    · split <;> rfl

/-- The readings that come after a batch of increments are not before it. -/
theorem extends_incrAll {ttl : ℚ} {incrs : List (String × ℚ × ℚ)} {later : List ℚ}
    (h : Agrees cfg w s) (hreadings :
      (w.clock :: (incrs.flatMap (fun x => [x.2.1, x.2.2]) ++ later)).Pairwise (· ≤ ·)) :
    Extends cfg notSet w s (w.incrAll cfg ttl incrs).2 ∧
      ((w.incrAll cfg ttl incrs).2.clock :: later).Pairwise (· ≤ ·) := by
  induction incrs generalizing w s with
  | nil => exact ⟨extends_refl h, hreadings⟩
  | cons x rest ih =>
      rcases x with ⟨key, now, seen⟩
      rw [List.flatMap_cons, List.append_assoc] at hreadings
      change (w.clock :: now :: seen :: (rest.flatMap (fun x => [x.2.1, x.2.2]) ++ later)).Pairwise
        (· ≤ ·) at hreadings
      have hclock : w.clock ≤ now := List.rel_of_pairwise_cons hreadings List.mem_cons_self
      have hnow : now ≤ seen := List.rel_of_pairwise_cons hreadings.of_cons List.mem_cons_self
      have hrest := hreadings.of_cons.of_cons
      have hone := extends_incr h hnow hclock key ttl 1
      have hseen := clock_incr cfg w key ttl 1 now seen
      unfold World.incrAll
      split
      · rename_i err w' herr
        rw [herr] at hone hseen
        refine ⟨hone, ?_⟩
        rw [show w'.clock = seen from hseen]
        exact hrest.sublist ((List.sublist_append_right _ _).cons_cons seen)
      · rename_i count w' hok
        rw [hok] at hone hseen
        rw [← show w'.clock = seen from hseen] at hrest
        have hagrees : ∃ s', Agrees cfg w' s' := by
          rcases hone with ⟨_, s', _, _, hs', _⟩
          exact ⟨s', hs'⟩
        rcases hagrees with ⟨s', hs'⟩
        exact ⟨extends_trans hone fun s'' hs'' => (ih hs'' hrest).1, (ih hs' hrest).2⟩

theorem extends_readAll {reads : List (String × ℚ)} (h : Agrees cfg w s)
    (hreadings : (w.clock :: reads.map Prod.snd).Pairwise (· ≤ ·)) :
    Extends cfg notSet w s (w.readAll cfg reads).2 := by
  induction reads generalizing w s with
  | nil => exact extends_refl h
  | cons x rest ih =>
      rcases x with ⟨key, now⟩
      rw [List.map_cons] at hreadings
      have hclock : w.clock ≤ now := List.rel_of_pairwise_cons hreadings List.mem_cons_self
      exact extends_trans (extends_get h hclock key) fun s' hs' => ih hs' hreadings.of_cons

theorem extends_tokenBucket (h : Agrees cfg w s) {now : ℚ} (hnow : w.clock ≤ now) (key : String)
    (rate : ℚ) (burst cost : Int) :
    Extends cfg notSet w s (w.tokenBucket cfg key rate burst cost now).2 := by
  have hswept : Inv cfg noKey (w.backend.maybeSweep cfg now) ∧
      Drops anyKey now w.backend (w.backend.maybeSweep cfg now) := by
    rcases maybeSweep_spec h.inv now with ⟨_, hsame⟩ | ⟨_, hswept⟩
    · rw [hsame]
      exact ⟨h.inv, drops_refl _ _ _⟩
    · exact ⟨hswept.inv, hswept.drops⟩
  have hheld := holds_drops h.holds hswept.2 (le_refl now) hnow
  unfold World.tokenBucket Backend.tokenBucket
  dsimp only
  rcases reindexBucket_same (w.backend.maybeSweep cfg now) key _ _ with ⟨hkv, husage, htotal, hseq⟩
  refine extends_quiet h (inv_congr hswept.1 hkv husage htotal hseq) hnow fun k => ?_
  rw [hkv]
  exact hheld k

end Operations

/-- Every call extends the log by events the abstract store permits. -/
theorem refines_step {cfg : MemoryConfig} {w w' : World} {s : SpecState} {op : Op}
    (h : Agrees cfg w s) (hstep : step cfg w op = some w') : Extends cfg op.may w s w' := by
  unfold step at hstep
  split at hstep
  · rename_i hreadings
    rw [Option.some.injEq] at hstep
    rw [← hstep]
    cases op with
    | get key now => exact extends_get h (List.rel_of_pairwise_cons hreadings List.mem_cons_self) key
    | set key value ttl now =>
        exact extends_set h (List.rel_of_pairwise_cons hreadings List.mem_cons_self) key value ttl
    | setIfAbsent key value ttl seen now =>
        exact extends_setIfAbsent h (List.rel_of_pairwise_cons hreadings List.mem_cons_self)
          (List.rel_of_pairwise_cons hreadings.of_cons List.mem_cons_self) key value ttl
    | incrWithTtl key ttl amount now seen =>
        simp only [Op.run, World.incrWithTtl]
        split
        · exact extends_refl h
        · exact extends_incr h (List.rel_of_pairwise_cons hreadings.of_cons List.mem_cons_self)
            (List.rel_of_pairwise_cons hreadings List.mem_cons_self) key ttl amount
    | incrAndRead incrs reads ttl =>
        have hincrs := @extends_incrAll _ _ _ ttl _ _ h hreadings
        simp only [Op.run, World.incrAndRead]
        split
        · rename_i err w₁ herr
          rw [herr] at hincrs
          exact hincrs.1
        · rename_i counts w₁ hok
          rw [hok] at hincrs
          exact extends_trans hincrs.1 fun s' hs' => extends_readAll hs' hincrs.2
    | tokenBucket key rate burst cost now =>
        exact extends_tokenBucket h (List.rel_of_pairwise_cons hreadings List.mem_cons_self) key
          rate burst cost
  · exact absurd hstep (by simp only [reduceCtorEq, not_false_eq_true])

/-- Every log of a run is a sequence the abstract store permits, from its start
    to a state that agrees with the backend. -/
theorem refines_of_reachable {cfg : MemoryConfig} {w : World} (h : (memory cfg).Reachable w) :
    ∃ s₀ s, spec.start s₀ ∧ spec.runActions s₀ w.log = some s ∧ Agrees cfg w s := by
  refine Machine.reachable_invariant (P := fun w => ∃ s₀ s, spec.start s₀ ∧
    spec.runActions s₀ w.log = some s ∧ Agrees cfg w s) ?_ ?_ h
  · rintro w ⟨now, rfl⟩
    exact ⟨⟨fun _ => none, now⟩, ⟨fun _ => none, now⟩, rfl, rfl, inv_new cfg now, le_refl _,
      fun _ => rfl⟩
  · rintro w op w' ⟨s₀, s, hstart, hrun, hagrees⟩ hstep
    rcases refines_step hagrees hstep with ⟨events, s', hlog, hrun', hagrees', _, _⟩
    refine ⟨s₀, s', hstart, ?_, hagrees'⟩
    rw [hlog, Machine.runActions_append, hrun, Option.bind_some]
    exact hrun'

end State

end JenticOne
