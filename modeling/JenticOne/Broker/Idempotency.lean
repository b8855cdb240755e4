import JenticOne.Library.Json
import JenticOne.State.Runs

/-!
# The Idempotency Store

`SharedStateIdempotencyStore` over the memory state backend. `begin` claims the
slot of a caller's key or tells what holds it; `complete` overwrites the claim
with the response.

On this backend neither gives way to another task, so each is one step. Both
read the clock several times, and take the readings. The slot of a key and the
slot of its body lie in two namespaces. A record is JSON, and every record that
is written is written by `dumps`.

Two details stop short of the source. Header names are lowered as far as a
comparison with ASCII names can tell, and a stored response keeps its header
values and an inline body as the record spells them.

## Main definitions

* `slot`, `bodySlot`: The keys of a record and of its body.
* `claim`, `tombstone`, `doneRecord`: What is stored under a slot.
* `begin`, `complete`: The two operations.
* `service`: The machine whose runs are calls of the two, and of anything else
  on the same backend.

## Theorems

* `loads_dumps`: A record is read as it was written.
* `slot_ne_bodySlot`: A record and a body never share a key.
-/

namespace JenticOne

namespace Broker

open State (Bytes MemoryConfig World StateError truncate)

/-- The settings of a store. -/
structure IdempotencyConfig where
  pendingTtlS : ℚ
  doneTtlS : ℚ
  maxResponseBytes : Int

def keyPrefix : String := "idem:"

def bodyKeyPrefix : String := "idem-body:"

def bodyFingerprintTagLen : Nat := 16

def maxRecordHeaderBytes : Nat := 512

def maxStatusCode : Int := 999

def priorityHeaders : List String :=
  ["content-type", "location", "etag", "content-location", "retry-after"]

def sensitiveResponseHeaders : List String :=
  ["set-cookie", "authorization", "proxy-authenticate", "www-authenticate", "x-api-key",
    "x-jentic-api-key"]

def perExchangeHeaders : List String := ["server-timing"]

def releasedBodyTtlS : ℚ := 1

/-! ## Headers -/

/-- `str.lower`, where it can give an ASCII name. -/
def lower (s : String) : String :=
  String.ofList (s.toList.map fun c => if c = '\u212A' then 'k' else c.toLower)

/-- `_scrub_headers`. -/
def scrubHeaders (headers : List (String × String)) : List (String × String) :=
  headers.filter fun h =>
    lower h.1 ∉ sensitiveResponseHeaders && lower h.1 ∉ perExchangeHeaders

def headerRank (name : String) : Nat := priorityHeaders.idxOf (lower name)

/-- The loop of `_cap_headers`. -/
def capLoop : List (String × String) → Nat → List (String × String)
  | [], _ => []
  | (name, value) :: rest, used =>
      let cost := (Json.dumps (.obj [(name, .str value)])).length - 1
      if maxRecordHeaderBytes < used + cost then capLoop rest used
      else (name, value) :: capLoop rest (used + cost)

/-- `_cap_headers`. -/
def capHeaders (headers : List (String × String)) : List (String × String) :=
  capLoop (headers.insertionSort (fun a b => headerRank a.1 ≤ headerRank b.1)) 2

/-! ## Records -/

/-- `_dumps`. -/
def dumps (record : Json) : Bytes := (Json.dumps record).map fun c => UInt8.ofNat c.toNat

/-- `json.loads` of ASCII bytes. -/
def loads (bytes : Bytes) : Option Json :=
  if bytes.all (· < 128) then Json.loads (bytes.map fun b => Char.ofNat b.toNat) else none

/-- `_tombstone`. -/
def tombstone (fingerprint : String) (statusCode : Int) : Bytes :=
  dumps (.obj [("phase", .str "done"), ("fp", .str fingerprint), ("status", .int statusCode),
    ("body_omitted", .bool true)])

/-- The claim with a given padding. -/
def pendingRecord (fingerprint pad : String) : Json :=
  .obj [("phase", .str "pending"), ("fp", .str fingerprint), ("pad", .str pad)]

/-- `_claim`: padded to the size of the largest `tombstone`. -/
def claim (fingerprint : String) : Bytes :=
  let pad := (tombstone fingerprint maxStatusCode).length -
    (dumps (pendingRecord fingerprint "")).length
  dumps (pendingRecord fingerprint (String.ofList (List.replicate pad ' ')))

/-- The record `complete` promotes a claim to. -/
def doneRecord (fingerprint : String) (statusCode : Int) (headers : List (String × String))
    (omitted hasBody : Bool) : Bytes :=
  dumps (.obj [("phase", .str "done"), ("fp", .str fingerprint), ("status", .int statusCode),
    ("headers", .obj ((capHeaders (scrubHeaders headers)).map fun h => (h.1, .str h.2))),
    ("body_omitted", .bool omitted), ("body_ref", .bool (hasBody && !omitted))])

/-! ## Slots -/

/-- `str.replace` of one character. -/
def replace (c : Char) (text : List Char) (s : List Char) : List Char :=
  s.flatMap fun x => if x = c then text else [x]

/-- `_caller_segment`. -/
def callerSegment (caller : String) : String :=
  String.ofList (replace ':' ['%', '3', 'A'] (replace '%' ['%', '2', '5'] caller.toList))

/-- `_slot`. -/
def slot (caller key : String) : String := keyPrefix ++ (callerSegment caller ++ ":" ++ key)

/-- `_body_slot`. -/
def bodySlot (caller key fingerprint : String) : String :=
  bodyKeyPrefix ++ (callerSegment caller ++ ":" ++ key ++ ":" ++
    String.ofList (fingerprint.toList.take bodyFingerprintTagLen))

/-! ## Begin -/

/-- The verdict `begin` returns. -/
inductive IdempotencyState
  | fresh
  | replay
  | conflict
  | inProgress
deriving DecidableEq, Repr

/-- A body as a record has it: spelt in base64, or under its own key. -/
inductive StoredBody
  | inline (base64 : String)
  | stored (body : Bytes)
deriving DecidableEq, Repr

/-- A response held for replay. -/
structure StoredResponse where
  statusCode : Int
  headers : List (String × Json)
  body : StoredBody
  bodyOmitted : Bool

structure IdempotencyOutcome where
  state : IdempotencyState
  stored : Option StoredResponse
  retryAfterS : Int

/-- Why `begin` raises. -/
inductive BeginError
  | unavailable (retryAfterS : Int)
  | undecodable
deriving DecidableEq, Repr

/-- `_retry_after`. -/
def retryAfter (cfg : IdempotencyConfig) : Int := max 1 (truncate (cfg.pendingTtlS + 999 / 1000))

/-- `bool(record.get(..))`, where a float is true unless its digits are zero. -/
def truthy : Option Json → Bool
  | none | some .null | some (.bool false) | some (.str "") | some (.arr []) | some (.obj []) =>
      false
  | some (.int n) => n ≠ 0
  | some (.float text) => (text.val.takeWhile (· ∉ ['e', 'E'])).any fun c => '1' ≤ c && c ≤ '9'
  | _ => true

/-- `_decode_response`. -/
def decodeResponse (record : Json) (body : Option Bytes) : StoredResponse where
  statusCode := match record.get? "status" with
    | some (.int n) => n
    | some (.bool true) => 1
    | _ => 0
  headers := match record.get? "headers" with
    | some (.obj members) => members
    | _ => []
  body := match record.get? "body_b64" with
    | some (.str text) => if text ≠ "" then .inline text else .stored (body.getD [])
    | _ => .stored (body.getD [])
  bodyOmitted := truthy (record.get? "body_omitted") ||
    (!(match record.get? "body_b64" with
      | some (.str text) => text ≠ ""
      | _ => false) && truthy (record.get? "body_ref") && body.isNone)

/-- The clock readings of `begin`: the look at the slot, the claim, and the reads
    of the record and the body. -/
structure BeginReadings where
  seen : ℚ
  claimedAt : ℚ
  readAt : ℚ
  bodyReadAt : ℚ

def BeginReadings.toList (r : BeginReadings) : List ℚ := [r.seen, r.claimedAt, r.readAt, r.bodyReadAt]

/-- What `begin` makes of the record it finds. -/
def classify (mem : MemoryConfig) (cfg : IdempotencyConfig) (w : World) (body fingerprint : String)
    (record : Json) (now : ℚ) : Except BeginError IdempotencyOutcome × World :=
  match record with
  | .obj _ =>
      match record.get? "fp" with
      | some (.str fp) =>
          if fp ≠ fingerprint then (.ok ⟨.conflict, none, 0⟩, w)
          else match record.get? "phase" with
            | some (.str "done") =>
                if truthy (record.get? "body_ref") then
                  let (stored, w) := w.get mem body now
                  (.ok ⟨.replay, some (decodeResponse record stored), 0⟩, w)
                else (.ok ⟨.replay, some (decodeResponse record none), 0⟩, w)
            | _ => (.ok ⟨.inProgress, none, retryAfter cfg⟩, w)
      | _ => (.ok ⟨.conflict, none, 0⟩, w)
  | _ => (.error .undecodable, w)

/-- `begin`. -/
def begin (mem : MemoryConfig) (cfg : IdempotencyConfig) (w : World)
    (caller key fingerprint : String) (r : BeginReadings) :
    Except BeginError IdempotencyOutcome × World :=
  match w.setIfAbsent mem (slot caller key) (claim fingerprint) cfg.pendingTtlS r.seen
      r.claimedAt with
  | (.error (.capacity _ retryAfterS _ _), w) => (.error (.unavailable retryAfterS), w)
  | (.error _, w) => (.error .undecodable, w)
  | (.ok true, w) => (.ok ⟨.fresh, none, 0⟩, w)
  | (.ok false, w) =>
      match w.get mem (slot caller key) r.readAt with
      | (none, w) => (.ok ⟨.inProgress, none, retryAfter cfg⟩, w)
      | (some existing, w) =>
          match loads existing with
          | none => (.error .undecodable, w)
          | some record =>
              classify mem cfg w (bodySlot caller key fingerprint) fingerprint record r.bodyReadAt

/-! ## Complete -/

/-- What is to be recorded. -/
structure Response where
  statusCode : Int
  headers : List (String × String)
  body : Bytes

/-- The clock readings of `complete`: of the body's write, the record's, the
    body's release and the tombstone's. -/
structure CompleteReadings where
  bodyAt : ℚ
  recordAt : ℚ
  releaseAt : ℚ
  tombstoneAt : ℚ

def CompleteReadings.toList (r : CompleteReadings) : List ℚ :=
  [r.bodyAt, r.recordAt, r.releaseAt, r.tombstoneAt]

/-- The body's write: whether the body is omitted, whether it was stored. -/
def storeBody (mem : MemoryConfig) (cfg : IdempotencyConfig) (w : World) (key : String)
    (body : Bytes) (now : ℚ) : (Bool × Bool) × World :=
  if cfg.maxResponseBytes < body.length then ((true, false), w)
  else if body = [] then ((false, false), w)
  else match w.set mem key body (cfg.doneTtlS + cfg.pendingTtlS) now with
    | (.ok (), w) => ((false, true), w)
    | (.error _, w) => ((true, false), w)

/-- `_release_body`. -/
def releaseBody (mem : MemoryConfig) (w : World) (key : String) (now : ℚ) : World :=
  (w.set mem key [] releasedBodyTtlS now).2

/-- `complete`. -/
def complete (mem : MemoryConfig) (cfg : IdempotencyConfig) (w : World)
    (caller key fingerprint : String) (response : Response) (r : CompleteReadings) : World :=
  let body := bodySlot caller key fingerprint
  let ((omitted, bodyStored), w) := storeBody mem cfg w body response.body r.bodyAt
  let record := doneRecord fingerprint response.statusCode response.headers omitted
    (response.body ≠ [])
  match w.set mem (slot caller key) record cfg.doneTtlS r.recordAt with
  | (.ok (), w) => w
  | (.error _, w) =>
      let w := if bodyStored then releaseBody mem w body r.releaseAt else w
      (w.set mem (slot caller key) (tombstone fingerprint response.statusCode) cfg.doneTtlS
        r.tombstoneAt).2

/-! ## Runs -/

/-- A call of the store, or of anything else on its backend. -/
inductive Action
  | begin (caller key fingerprint : String) (readings : BeginReadings)
  | complete (caller key fingerprint : String) (response : Response)
      (readings : CompleteReadings)
  | other (op : State.Op)

/-- One call, where the clock does not go back. -/
def step (mem : MemoryConfig) (cfg : IdempotencyConfig) (w : World) : Action → Option World
  | .begin caller key fingerprint r =>
      if (w.clock :: r.toList).Pairwise (· ≤ ·) then
        some (begin mem cfg w caller key fingerprint r).2
      else none
  | .complete caller key fingerprint response r =>
      if (w.clock :: r.toList).Pairwise (· ≤ ·) then
        some (complete mem cfg w caller key fingerprint response r)
      else none
  | .other op => State.step mem w op

/-- The calls on one backend, from its construction on. -/
def service (mem : MemoryConfig) (cfg : IdempotencyConfig) : Machine World Action where
  start := (State.memory mem).start
  step := step mem cfg

/-! ## What is stored and where -/

/-- A record is read as it was written. -/
theorem loads_dumps (record : Json) : loads (dumps record) = some record := by
  have hascii := Json.dumps_ascii record
  have hback : ∀ c ∈ Json.dumps record, (UInt8.ofNat c.toNat).toNat = c.toNat := by
    intro c hc
    have hlt := hascii c hc
    rw [UInt8.toNat_ofNat']
    exact Nat.mod_eq_of_lt (by omega)
  unfold loads dumps
  rw [if_pos, List.map_map]
  · rw [List.map_congr_left (g := id), List.map_id]
    · exact Json.loads_dumps record
    · intro c hc
      rw [Function.comp_apply, hback c hc, Char.ofNat_toNat]
      rfl
  · rw [List.all_map, List.all_eq_true]
    intro c hc
    rw [Function.comp_apply, decide_eq_true_eq, UInt8.lt_iff_toNat_lt, hback c hc]
    exact hascii c hc

/-- A record and a body never share a key. -/
theorem slot_ne_bodySlot (caller key caller' key' fingerprint : String) :
    slot caller key ≠ bodySlot caller' key' fingerprint := by
  intro h
  have hlist := congrArg String.toList h
  unfold slot bodySlot at hlist
  rw [@String.toList_append keyPrefix, @String.toList_append bodyKeyPrefix, show keyPrefix.toList = ['i', 'd', 'e', 'm', ':']
    from rfl, show bodyKeyPrefix.toList = ['i', 'd', 'e', 'm', '-', 'b', 'o', 'd', 'y', ':']
    from rfl] at hlist
  simp only [List.cons_append, List.cons.injEq, true_and] at hlist
  exact absurd hlist.1 (by decide)

end Broker

end JenticOne
