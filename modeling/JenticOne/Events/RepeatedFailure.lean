import JenticOne.Library.Text
import JenticOne.Library.TtlStore

/-!
# The Repeated-Failure Gate

`RepeatedFailureCounter` and `maybe_emit_repeated_failure`. A failed execution is
first counted in the shared-state store, in a time bucket of its key; the
database is scanned only if what the store holds leaves room for an event. The
scan counts the failed records of the key inside the window, picks a severity
and looks for an event that stands for it already; when it finds one it leaves
markers in the store that last as long as that event counts.

The store is the one of `TtlStore`: an entry is read until its deadline, and an
increment keeps the deadline of a live entry. Its clock is the clock of the
counter. A value is the number that its bytes spell. A call that raises has
either taken effect or not, and in `note_dedup_hit` some of the markers may have
been set by then.

Clock readings are rational seconds. What the database keeps are whole
microseconds, so the scan's own reading of the clock is rounded, to the even
neighbour where it lies halfway.

The machine runs any number of failed executions side by side. Each first passes
the gate, then scans at a later time, then sets its markers or writes its event,
which becomes visible when the transaction commits, if ever. A scan sees some of
the records that have been counted, and the committed events. Events are never
deleted. What only feeds the log, and the texts of the event, are left out.

## Main definitions

* `AxisKey.digest`, `bucketKey`, `markerKey`: The keys of the store.
* `shouldScan`, `noteDedupHit`: The counter.
* `scan`: The statements behind the gate.
* `machine`: Failed executions, side by side.
-/

namespace JenticOne

namespace Events

/-- The thresholds and the window, as the configuration permits them. -/
structure SecurityConfig where
  threshold : Nat
  windowS : Nat
  criticalThreshold : Nat
  threshold_pos : 1 ≤ threshold
  windowS_pos : 1 ≤ windowS
  criticalThreshold_pos : 1 ≤ criticalThreshold

def spanWindows : Nat := 2

def SecurityConfig.spanS (cfg : SecurityConfig) : ℚ := (spanWindows * cfg.windowS : Nat)

/-- The severities of an `execution.repeated_failure` event. -/
inductive EventSeverity
  | error
  | critical
  deriving DecidableEq, Repr

def EventSeverity.value : EventSeverity → Text
  | .error => "error".toList
  | .critical => "critical".toList

/-- Which existing severities deduplicate an emission. -/
def EventSeverity.dedupedBy : EventSeverity → List EventSeverity
  | .error => [.error, .critical]
  | .critical => [.critical]

/-- Which markers an existing event sets. -/
def EventSeverity.dedupCovers : EventSeverity → List EventSeverity
  | .error => [.error]
  | .critical => [.critical, .error]

/-! ## Keys -/

def separator : Char := '\x1f'

/-- An identifier that the server mints: a prefix and hexadecimal digits. -/
@[ext]
structure MintedId where
  text : Text
  plain : separator ∉ text
  deriving DecidableEq

/-- One aggregation key of the scan. -/
@[ext]
structure AxisKey where
  actorId : Text
  credentialId : MintedId
  operationId : MintedId
  deriving DecidableEq

/-- What is hashed. The axis of a gate's key is the credential. -/
def AxisKey.raw (k : AxisKey) : Text :=
  k.actorId ++ separator :: ("credential".toList ++
    separator :: (k.credentialId.text ++ separator :: k.operationId.text))

/-- The first half of the hexadecimal digest. -/
def AxisKey.digest (sha256 : Text → Text) (k : AxisKey) : Text := (sha256 k.raw).take 32

def keyPrefix (window : Nat) : Text :=
  "repeated_failure:".toList ++ (Nat.repr window).toList

def bucketKey (sha256 : Text → Text) (k : AxisKey) (window : Nat) (bucket : Int) : Text :=
  keyPrefix window ++ (":n:".toList ++ ((Int.repr bucket).toList ++ ':' :: k.digest sha256))

def markerKey (sha256 : Text → Text) (k : AxisKey) (window : Nat) (severity : EventSeverity) :
    Text :=
  keyPrefix window ++ (":seen:".toList ++ (severity.value ++ ':' :: k.digest sha256))

/-! ## The store -/

abbrev Store : Type := TtlStore.State Text Nat ℚ

/-- One increment. The deadline is set only when the counter is created. -/
def incr (st : Store) (ttl : ℚ) (key : Text) : Nat × Store :=
  match st.live key st.clock with
  | none => (1, st.write key 1 (st.clock + ttl))
  | some (count, deadline) => (count + 1, st.write key (count + 1) deadline)

def incrAll (ttl : ℚ) : Store → List Text → List Nat × Store
  | st, [] => ([], st)
  | st, key :: rest =>
      let next := incrAll ttl (incr st ttl key).2 rest
      ((incr st ttl key).1 :: next.1, next.2)

/-- What a key reads as. -/
def read (st : Store) (key : Text) : Option Nat := (st.live key st.clock).map Prod.fst

/-- Several increments, then several reads, in one atomic step. -/
def incrAndRead (st : Store) (incrKeys readKeys : List Text) (ttl : ℚ) :
    (List Nat × List (Option Nat)) × Store :=
  let done := incrAll ttl st incrKeys
  ((done.1, readKeys.map (read done.2)), done.2)

/-! ## The counter -/

/-- How a call of the store ends. -/
inductive Answer
  | served
  | raised (applied : Bool)
  deriving DecidableEq, Repr

/-- Severities the scan could pick, given an upper bound on its count. -/
def possibleSeverities (estimate : Nat) (cfg : SecurityConfig) : List EventSeverity :=
  (if cfg.threshold < cfg.criticalThreshold then [.error] else []) ++
    (if cfg.criticalThreshold ≤ estimate then [.critical] else [])

/-- The bucket that the clock is in. -/
def bucketOf (cfg : SecurityConfig) (now : ℚ) : Int := ⌊now / cfg.windowS⌋

/-- The counter is still degraded; `none` is the time before all times. -/
def degraded (degradedUntil : Option ℚ) (now : ℚ) : Bool := degradedUntil.any (now < ·)

/-- What the gate decides from the answer of the store. -/
def decideScan (cfg : SecurityConfig) (isDegraded : Bool) (counts : List Nat)
    (reads : List (Option Nat)) : Bool :=
  let previous := (reads.head?.getD none).getD 0
  let estimate := counts.headD 0 + previous
  let marked := ([EventSeverity.error, .critical].zip reads.tail).filterMap
    fun pair => if pair.2.isSome then some pair.1 else none
  if isDegraded then true
  else if estimate < cfg.threshold then false
  else (possibleSeverities estimate cfg).any (· ∉ marked)

/-- Count one failure; whether the scan must run, what the store holds then, and
    until when the counter is degraded. -/
def shouldScan (cfg : SecurityConfig) (sha256 : Text → Text) (st : Store)
    (degradedUntil : Option ℚ) (key : AxisKey) (extraKeys : List AxisKey) (answer : Answer) :
    Bool × Store × Option ℚ :=
  let bucket := bucketOf cfg st.clock
  let called := incrAndRead st
    ((key :: extraKeys).map fun k => bucketKey sha256 k cfg.windowS bucket)
    (bucketKey sha256 key cfg.windowS (bucket - 1) ::
      [EventSeverity.error, .critical].map (markerKey sha256 key cfg.windowS)) cfg.spanS
  match answer with
  | .raised applied =>
      (true, if applied then called.2 else st, some (st.clock + cfg.spanS))
  | .served =>
      (decideScan cfg (degraded degradedUntil st.clock) called.1.1 called.1.2, called.2,
        degradedUntil)

/-- Microseconds since the epoch, as the database keeps them. -/
abbrev DateTime : Type := Int

def DateTime.timestamp (d : DateTime) : ℚ := (d : ℚ) / 1000000

/-- To the nearest integer, halves to the even one. -/
def roundHalfEven (x : ℚ) : Int :=
  if 2 * (x - ⌊x⌋) < 1 then ⌊x⌋
  else if 1 < 2 * (x - ⌊x⌋) then ⌊x⌋ + 1
  else if ⌊x⌋ % 2 = 0 then ⌊x⌋ else ⌊x⌋ + 1

/-- `datetime.fromtimestamp` -/
def fromTimestamp (t : ℚ) : DateTime := roundHalfEven (t * 1000000)

def setMarkers (st : Store) (ttl : ℚ) (keys : List Text) : Store :=
  keys.foldl (fun st key => st.write key 1 (st.clock + ttl)) st

/-- Remember an existing event until it leaves the dedup window. Of the markers
    it sets, `performed` are there when a call raises. -/
def noteDedupHit (cfg : SecurityConfig) (sha256 : Text → Text) (st : Store) (key : AxisKey)
    (severity : EventSeverity) (createdAt : DateTime) (performed : Nat) : Store :=
  let ttl := createdAt.timestamp + cfg.windowS - st.clock
  if ttl ≤ 0 then st
  else setMarkers st ttl ((severity.dedupCovers.take performed).map
    (markerKey sha256 key cfg.windowS))

/-! ## The scan -/

/-- A failed execution record. -/
structure Record where
  actorId : Text
  credentialId : Option MintedId
  operationId : Option MintedId
  startedAt : DateTime
  deriving DecidableEq

/-- The key of a failure that has both an operation and a credential. -/
def Record.key (r : Record) : Option AxisKey :=
  match r.operationId, r.credentialId with
  | some operation, some credential =>
      if operation.text = [] ∨ credential.text = [] then none
      else some ⟨r.actorId, credential, operation⟩
  | _, _ => none

/-- An `execution.repeated_failure` event. -/
structure Event where
  key : AxisKey
  severity : EventSeverity
  createdAt : DateTime
  deriving DecidableEq

inductive Verdict
  | below
  | deduplicated (existing : List Event)
  | emit (severity : EventSeverity) (failureCount : Nat)

def windowStart (cfg : SecurityConfig) (now : ℚ) : DateTime :=
  fromTimestamp now - cfg.windowS * 1000000

/-- The record is one the scan counts. -/
def Record.counts (r : Record) (key : AxisKey) (start : DateTime) : Bool :=
  r.actorId = key.actorId && r.credentialId = some key.credentialId &&
    r.operationId = some key.operationId && decide (start ≤ r.startedAt)

/-- The event stands for an emission of the severity. -/
def Event.dedups (e : Event) (key : AxisKey) (severity : EventSeverity) (start : DateTime) :
    Bool :=
  decide (e.severity ∈ severity.dedupedBy) && decide (start ≤ e.createdAt) && e.key = key

/-- What the scan finds among the records and events that it sees. -/
def scan (cfg : SecurityConfig) (now : ℚ) (key : AxisKey) (records : List Record)
    (events : List Event) : Verdict :=
  let start := windowStart cfg now
  let failureCount := records.countP (·.counts key start)
  if failureCount < cfg.threshold then .below
  else
    let severity : EventSeverity :=
      if cfg.criticalThreshold ≤ failureCount then .critical else .error
    let existing := events.filter (·.dedups key severity start)
    if existing = [] then .emit severity failureCount else .deduplicated existing

/-! ## Failed executions, side by side -/

/-- A failed record with the time at which the counter was told of it, and
    whether the store has answered. -/
structure Counted where
  record : Record
  at_ : ℚ
  lost : Bool
  deriving DecidableEq

structure State where
  store : Store
  degradedUntil : Option ℚ
  /-- The failed records, as they were counted. -/
  failures : List Counted
  /-- The executions that the gate has sent to the scan. -/
  scanning : List AxisKey
  /-- The executions that have found an event. -/
  noting : List (AxisKey × Event)
  /-- The events of transactions that have not been committed. -/
  pending : List Event
  /-- The committed events. -/
  events : List Event

inductive Action
  /-- Time passes. -/
  | tick (time : ℚ)
  /-- An execution has failed and passes the gate. -/
  | fail (record : Record) (answer : Answer)
  /-- A scan that sees these records; of the events it finds it takes one, and
      an event that it emits is created at a time. -/
  | scan (key : AxisKey) (visible : List Record) (choice : Nat) (createdAt : DateTime)
  /-- An event that was found is noted. -/
  | note (key : AxisKey) (event : Event) (performed : Nat)
  /-- A transaction with an event is committed. -/
  | commit (event : Event)

section Machine

variable (cfg : SecurityConfig) (sha256 : Text → Text)

/-- The gate as a failed execution meets it. -/
def gate (s : State) (key : AxisKey) (answer : Answer) : Bool × Store × Option ℚ :=
  shouldScan cfg sha256 s.store s.degradedUntil key [] answer

/-- The state once a failure with a key has passed the gate. -/
def passGate (s : State) (record : Record) (key : AxisKey) (answer : Answer) : State :=
  let result := gate cfg sha256 s key answer
  { s with
    store := result.2.1
    degradedUntil := result.2.2
    failures := s.failures ++ [⟨record, s.store.clock, answer ≠ .served⟩]
    scanning := if result.1 then key :: s.scanning else s.scanning }

/-- A record fails no later than it is counted, so it has started by then. -/
def stepFail (s : State) (record : Record) (answer : Answer) : Option State :=
  if record.startedAt.timestamp ≤ s.store.clock then
    match record.key with
    | some key => some (passGate cfg sha256 s record key answer)
    | none => some { s with failures := s.failures ++ [⟨record, s.store.clock, false⟩] }
  else none

def stepScan (s : State) (key : AxisKey) (visible : List Record) (choice : Nat)
    (createdAt : DateTime) : Option State :=
  if key ∈ s.scanning ∧ visible.Sublist (s.failures.map Counted.record) then
    let rest := s.scanning.erase key
    match scan cfg s.store.clock key visible s.events with
    | .below => some { s with scanning := rest }
    | .deduplicated existing =>
        existing[choice]?.map fun event =>
          { s with scanning := rest, noting := (key, event) :: s.noting }
    | .emit severity _ =>
        some { s with scanning := rest, pending := ⟨key, severity, createdAt⟩ :: s.pending }
  else none

def stepNote (s : State) (key : AxisKey) (event : Event) (performed : Nat) : Option State :=
  if (key, event) ∈ s.noting then
    some { s with
      store := noteDedupHit cfg sha256 s.store key event.severity event.createdAt performed
      noting := s.noting.erase (key, event) }
  else none

def step (s : State) : Action → Option State
  | .tick time =>
      if s.store.clock ≤ time then some { s with store := { s.store with clock := time } }
      else none
  | .fail record answer => stepFail cfg sha256 s record answer
  | .scan key visible choice createdAt => stepScan cfg s key visible choice createdAt
  | .note key event performed => stepNote cfg sha256 s key event performed
  | .commit event =>
      if event ∈ s.pending then
        some { s with pending := s.pending.erase event, events := event :: s.events }
      else none

/-- A new counter over an empty store, with no event in the database. -/
def initial (s : State) : Prop :=
  s.store.store = (fun _ => none) ∧ s.degradedUntil = none ∧ s.failures = [] ∧
    s.scanning = [] ∧ s.noting = [] ∧ s.pending = []

def machine : Machine State Action where
  start := initial
  step := step cfg sha256

end Machine

end Events

end JenticOne
