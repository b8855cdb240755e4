import JenticOne.Library.Dict
import JenticOne.Library.Machine
import JenticOne.Library.Text

/-!
# Exchange of Assertions

An agent signs an assertion and exchanges it for a token pair. The exchange
verifies it in a transaction of the admin database, and in the same transaction
records the identifier of the assertion as used for its issuer. The record is
the replay check: it is one statement that inserts the record or, where there is
one that has expired, takes that one over, and it has no effect on a record that
has not.

Three clocks meet. The expiry of an assertion is compared with the clock of the
process. A record lives for a grace longer, on the clock of the database, and
what the database answers for the time is the start of the transaction. After
its claim an exchange deletes a batch of expired records, of any issuer, and
skips the ones that another transaction holds.

The agent's row is locked from the first statement to the end of the
transaction, so that exchanges of one issuer come one after the other. Times are
in microseconds.

## Main definitions

* `Exchange`, `State`: Open transactions, and what is committed.
* `step`: One statement of an exchange, or the passing of time.
* `Claimable`, `PruneBatch`: The record's insert, and what is deleted.

## Theorems

* `step_begin`, `step_lock`, `step_validate`, `step_claim`, `step_prune`,
  `step_commit`: What a statement can do.
-/

namespace JenticOne

namespace Auth

namespace Assertions

/-- `JTI_CLOCK_SKEW_GRACE_S`, in microseconds. -/
def jtiClockSkewGrace : Int := 120 * 1000000

/-- `JTI_PRUNE_BATCH`. -/
def jtiPruneBatch : Nat := 50

/-- A signed assertion, by the claims that its exchange reads. -/
structure Assertion where
  issuer : Text
  jti : Text
  exp : Int
  deriving DecidableEq

/-- What the code is configured with: the digest that a record stores, and
    `assertion_max_ttl_seconds`, in microseconds. -/
structure Config where
  jtiDigest : Text → Text
  maxTtl : Int

/-- The unique key of a record. -/
abbrev Key : Type := Text × Text

/-- How far a transaction has come. -/
inductive Phase
  /-- Begun; its first statement waits for the agent's row. -/
  | began
  /-- The agent's row is locked. -/
  | locked
  /-- The assertion has been found valid. -/
  | validated
  /-- The record has been written. -/
  | claimed
  /-- The batch of these records has been deleted. -/
  | pruned (keys : List Key)
  deriving DecidableEq

/-- The agent's row is locked. -/
def Phase.locks : Phase → Bool
  | .began => false
  | _ => true

/-- The record is written. -/
def Phase.records : Phase → Bool
  | .claimed => true
  | .pruned _ => true
  | _ => false

/-- What the transaction has deleted. -/
def Phase.deleted : Phase → List Key
  | .pruned keys => keys
  | _ => []

/-- An open transaction. `start` is what the database answers for the time. -/
structure Exchange where
  assertion : Assertion
  start : Int
  phase : Phase
  deriving DecidableEq

structure State where
  /-- The clock of the database. -/
  now : Int
  /-- The committed records, by when they expire. -/
  records : Dict Key Int
  exchanges : Dict Nat Exchange
  /-- The assertions of committed exchanges. -/
  passed : List Assertion

section Config

variable (c : Config)

def Assertion.key (a : Assertion) : Key := (a.issuer, c.jtiDigest a.jti)

/-- When the record of an assertion expires. -/
def Assertion.expiresAt (a : Assertion) : Int := a.exp + jtiClockSkewGrace

/-- The record of the transaction is under the key, or one that it has deleted. -/
def Exchange.holds (x : Exchange) (k : Key) : Bool :=
  x.phase.records && (x.assertion.key c = k || k ∈ x.phase.deleted)

/-- Another transaction holds the record of a key. -/
def State.heldByOther (s : State) (tx : Nat) (k : Key) : Bool :=
  s.exchanges.items.any fun item => item.1 ≠ tx && item.2.holds c k

/-- The row of the agent is locked. -/
def State.agentLocked (s : State) (issuer : Text) : Bool :=
  s.exchanges.items.any fun item => item.2.phase.locks && item.2.assertion.issuer = issuer

/-- No record is in the way of the transaction's claim, or one that has expired. -/
def Claimable (s : State) (x : Exchange) : Bool :=
  (s.records.get? (x.assertion.key c)).all (· ≤ x.start)

/-- When a record expires, as the transaction sees it: its own is written. -/
def State.visible (s : State) (x : Exchange) (k : Key) : Option Int :=
  if x.assertion.key c = k then some x.assertion.expiresAt else s.records.get? k

/-- The record is one that a prune deletes. -/
def State.prunable (s : State) (tx : Nat) (x : Exchange) (k : Key) : Bool :=
  (s.visible c x k).any (· ≤ x.start) && !s.heldByOther c tx k

/-- A batch of `delete_expired`: expired records that no other transaction holds,
    the oldest first, as many as there are up to the bound. -/
def PruneBatch (s : State) (tx : Nat) (x : Exchange) (keys : List Key) : Prop :=
  keys.Nodup ∧ keys.length ≤ jtiPruneBatch ∧ (∀ k ∈ keys, s.prunable c tx x k = true) ∧
    ∀ k ∈ s.records.items.map Prod.fst, s.prunable c tx x k = true → k ∉ keys →
      keys.length = jtiPruneBatch ∧
        ∀ k' ∈ keys, (s.visible c x k').getD 0 ≤ (s.visible c x k).getD 0

instance (s : State) (tx : Nat) (x : Exchange) (keys : List Key) :
    Decidable (PruneBatch c s tx x keys) :=
  inferInstanceAs (Decidable (_ ∧ _ ∧ _ ∧ _))

/-! ## Steps -/

/-- A statement of a transaction, its end, or the passing of time. -/
inductive Action
  | tick (d : Nat)
  | «begin» (tx : Nat) (a : Assertion)
  | lockAgent (tx : Nat)
  /-- With the clock of the process. -/
  | validate (tx : Nat) (clock : Int)
  | claimJti (tx : Nat)
  | deleteExpired (tx : Nat) (keys : List Key)
  | commit (tx : Nat)
  | rollback (tx : Nat)

/-- `_validate_timing`. -/
def validTiming (a : Assertion) (clock : Int) : Bool :=
  clock < a.exp && a.exp ≤ clock + c.maxTtl

/-- The transaction is in a new phase. -/
def State.advance (s : State) (tx : Nat) (x : Exchange) (phase : Phase) : State :=
  { s with exchanges := s.exchanges.set tx { x with phase := phase } }

/-- The transaction has ended, and nothing of it is left. -/
def State.drop (s : State) (tx : Nat) : State := { s with exchanges := s.exchanges.erase tx }

/-- One step. An exchange that is refused is rolled back, and any other may be at
    any point. A statement that waits for another transaction is no step. -/
def step (s : State) : Action → Option State
  | .tick d => some { s with now := s.now + d }
  | .begin tx a =>
    if s.exchanges.get? tx = none then
      some { s with exchanges := s.exchanges.set tx ⟨a, s.now, .began⟩ }
    else none
  | .lockAgent tx => do
    let x ← s.exchanges.get? tx
    if x.phase = .began ∧ s.agentLocked x.assertion.issuer = false then
      some (s.advance tx x .locked)
    else none
  | .validate tx clock => do
    let x ← s.exchanges.get? tx
    -- the process is not further behind the database than the grace
    if x.phase = .locked ∧ s.now - jtiClockSkewGrace ≤ clock ∧
        validTiming c x.assertion clock = true then
      some (s.advance tx x .validated)
    else none
  | .claimJti tx => do
    let x ← s.exchanges.get? tx
    if x.phase = .validated ∧ s.heldByOther c tx (x.assertion.key c) = false then
      if Claimable c s x then some (s.advance tx x .claimed) else some (s.drop tx)
    else none
  | .deleteExpired tx keys => do
    let x ← s.exchanges.get? tx
    if x.phase = .claimed ∧ PruneBatch c s tx x keys then
      some (s.advance tx x (.pruned keys))
    else none
  | .commit tx => do
    let x ← s.exchanges.get? tx
    match x.phase with
    | .pruned keys =>
      some
        { now := s.now
          records := keys.foldl Dict.erase
            (s.records.set (x.assertion.key c) x.assertion.expiresAt)
          exchanges := s.exchanges.erase tx
          passed := x.assertion :: s.passed }
    | _ => none
  | .rollback tx => some (s.drop tx)

/-- The exchanges of any processes, from an empty table on. -/
def machine : Machine State Action where
  start s := ∃ now, s = ⟨now, Dict.empty, Dict.empty, []⟩
  step := step c

/-! ## What a step does -/

variable {c} {s s' : State} {tx : Nat}

theorem step_begin {a : Assertion} (h : step c s (.begin tx a) = some s') :
    s.exchanges.get? tx = none ∧
      s' = { s with exchanges := s.exchanges.set tx ⟨a, s.now, .began⟩ } := by
  rw [step] at h
  by_cases hnew : s.exchanges.get? tx = none
  · rw [if_pos hnew] at h
    exact ⟨hnew, (Option.some.inj h).symm⟩
  · rw [if_neg hnew] at h
    exact absurd h (by simp only [reduceCtorEq, not_false_eq_true])

theorem step_lock (h : step c s (.lockAgent tx) = some s') :
    ∃ x, s.exchanges.get? tx = some x ∧ x.phase = .began ∧
      s.agentLocked x.assertion.issuer = false ∧ s' = s.advance tx x .locked := by
  obtain ⟨x, hx, h⟩ := Option.bind_eq_some_iff.mp h
  obtain ⟨hif, h⟩ := Option.ite_none_right_eq_some.mp h
  exact ⟨x, hx, hif.1, hif.2, (Option.some.inj h).symm⟩

theorem step_validate {clock : Int} (h : step c s (.validate tx clock) = some s') :
    ∃ x, s.exchanges.get? tx = some x ∧ x.phase = .locked ∧
      s.now < x.assertion.expiresAt ∧ s' = s.advance tx x .validated := by
  obtain ⟨x, hx, h⟩ := Option.bind_eq_some_iff.mp h
  obtain ⟨⟨hphase, hclock, hvalid⟩, h⟩ := Option.ite_none_right_eq_some.mp h
  refine ⟨x, hx, hphase, ?_, (Option.some.inj h).symm⟩
  rw [validTiming, Bool.and_eq_true, decide_eq_true_eq] at hvalid
  rw [Assertion.expiresAt]
  omega

theorem step_claim (h : step c s (.claimJti tx) = some s') :
    ∃ x, s.exchanges.get? tx = some x ∧ x.phase = .validated ∧
      s.heldByOther c tx (x.assertion.key c) = false ∧
      (Claimable c s x = true ∧ s' = s.advance tx x .claimed ∨ s' = s.drop tx) := by
  obtain ⟨x, hx, h⟩ := Option.bind_eq_some_iff.mp h
  obtain ⟨hif, h⟩ := Option.ite_none_right_eq_some.mp h
  refine ⟨x, hx, hif.1, hif.2, ?_⟩
  by_cases hc : Claimable c s x = true
  · rw [if_pos hc] at h
    exact .inl ⟨hc, (Option.some.inj h).symm⟩
  · rw [if_neg hc] at h
    exact .inr (Option.some.inj h).symm

theorem step_prune {keys : List Key} (h : step c s (.deleteExpired tx keys) = some s') :
    ∃ x, s.exchanges.get? tx = some x ∧ x.phase = .claimed ∧
      (∀ k ∈ keys, s.prunable c tx x k = true) ∧ s' = s.advance tx x (.pruned keys) := by
  obtain ⟨x, hx, h⟩ := Option.bind_eq_some_iff.mp h
  obtain ⟨hif, h⟩ := Option.ite_none_right_eq_some.mp h
  exact ⟨x, hx, hif.1, hif.2.2.2.1, (Option.some.inj h).symm⟩

theorem step_commit (h : step c s (.commit tx) = some s') :
    ∃ x keys, s.exchanges.get? tx = some x ∧ x.phase = .pruned keys ∧
      s' =
        { now := s.now
          records := keys.foldl Dict.erase
            (s.records.set (x.assertion.key c) x.assertion.expiresAt)
          exchanges := s.exchanges.erase tx
          passed := x.assertion :: s.passed } := by
  obtain ⟨x, hx, h⟩ := Option.bind_eq_some_iff.mp h
  split at h
  · next keys hphase => exact ⟨x, keys, hx, hphase, (Option.some.inj h).symm⟩
  · exact absurd h (by simp only [reduceCtorEq, not_false_eq_true])

end Config

end Assertions

end Auth

end JenticOne
