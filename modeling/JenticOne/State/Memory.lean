import JenticOne.Library.Dict
import JenticOne.Library.Heap

/-!
# The Memory State Backend

`MemoryStateBackend`: a key/value store with deadlines, budgeted per key
namespace, per owner of a key and in total, and token buckets beside it.

Clock readings are rational seconds, and every function that reads the clock
takes the reading. A function that reads it twice takes two. Values are byte
strings, keys are strings.

The namespace and the owner share of a key are two accounts of one kind, a
`Scope`, and one dictionary holds the `Usage` of every scope. A key counts
against the scopes `scopesOf` lists, its namespace first. The usage of an owner
is dropped with its last entry; the source's loop over a heap whose usage has
just been dropped goes on over heaps that hold superseded items only, and the
loop here stops.

Expired entries are found through two heaps a scope, `index` and `draining`. An
item is current while its sequence number is that of the entry stored under its
key, and only a current item past its deadline deletes anything.

## Main definitions

* `MemoryConfig`: Budgets, each in its permitted range.
* `Backend`: The state.
* `Backend.earliestLive`, `Backend.sweep`, `Backend.reclaim`: Dropping what has
  expired.
* `Backend.refusingScope`: Which budget refuses a write.
* `Backend.store`: Writing, after room has been made.
* `Backend.liveEntry`, `Backend.incr`, `Backend.tokenBucket`: The rest of the
  operations' work.
-/

namespace JenticOne

namespace State

abbrev Bytes := List UInt8

def entryOverheadBytes : Nat := 750

def indexSlack : Nat := 64

def compactionStep : Nat := 64

def minRetryAfterS : Int := 1

def maxRetryAfterS : Int := 3600

/-- The namespace a key is budgeted under: its prefix up to the first `:`. -/
def keyNamespace (key : String) : String :=
  if ':' ∈ key.toList then String.ofList (key.toList.takeWhile (· ≠ ':')) else ""

/-- The owner a key is shared under: its second `:`-separated segment. -/
def keyOwner (key : String) : String :=
  String.ofList (((key.toList.dropWhile (· ≠ ':')).drop 1).takeWhile (· ≠ ':'))

/-- Entry-count and byte budget for one key namespace, and the fraction of both
    that one owner may hold. -/
structure NamespaceBudget where
  maxEntries : Nat
  maxBytes : Nat
  maxOwnerShare : Option ℚ
  maxEntries_pos : 1 ≤ maxEntries
  maxBytes_pos : 1 ≤ maxBytes
  maxOwnerShare_mem : ∀ share ∈ maxOwnerShare, 0 < share ∧ share ≤ 1

/-- A budget without a share for one owner. -/
def NamespaceBudget.unshared (maxEntries maxBytes : Nat) (hentries : 1 ≤ maxEntries)
    (hbytes : 1 ≤ maxBytes) : NamespaceBudget :=
  ⟨maxEntries, maxBytes, none, hentries, hbytes, fun _ h => absurd h (by
    simp only [Option.mem_def, reduceCtorEq, not_false_eq_true])⟩

/-- What the constructor checks and keeps. `budget` is a namespace's own budget
    or the default. -/
structure MemoryConfig where
  budget : String → NamespaceBudget
  maxTotalBytes : Nat
  sweepIntervalS : ℚ
  maxTotalBytes_pos : 1 ≤ maxTotalBytes

/-- An account keys count against: a namespace, or one owner's share of it. -/
inductive Scope
  | inNamespace (name : String)
  | ownerShare (name owner : String)
deriving DecidableEq, Repr

/-- The scopes a key counts against, in the order they are checked. -/
def scopesOf (cfg : MemoryConfig) (key : String) : List Scope :=
  let name := keyNamespace key
  .inNamespace name ::
    if (cfg.budget name).maxOwnerShare.isSome then [.ownerShare name (keyOwner key)] else []

/-- The most entries and bytes a scope may hold. -/
def limits (cfg : MemoryConfig) : Scope → Int × Int
  | .inNamespace name => ((cfg.budget name).maxEntries, (cfg.budget name).maxBytes)
  | .ownerShare name _ =>
      let share := (cfg.budget name).maxOwnerShare.getD 1
      (max 1 ⌊(cfg.budget name).maxEntries * share⌋, max 1 ⌊(cfg.budget name).maxBytes * share⌋)

/-- A stored value with its deadline, budgeted size and index sequence. -/
structure Entry where
  value : Bytes
  expiresAt : ℚ
  size : Nat
  seq : Nat
deriving DecidableEq, Repr

/-- An item of an expiry index, ordered by deadline, then sequence, then key. -/
structure Item where
  expiresAt : ℚ
  seq : Nat
  key : String
deriving DecidableEq, Repr

instance : LinearOrder Item :=
  LinearOrder.lift' (fun i => toLex (i.expiresAt, toLex (i.seq, i.key))) (by
    rintro ⟨d, s, k⟩ ⟨d', s', k'⟩ h
    simpa only [EmbeddingLike.apply_eq_iff_eq, Prod.mk.injEq, Item.mk.injEq] using h)

theorem Item.expiresAt_le {a b : Item} (h : a ≤ b) : a.expiresAt ≤ b.expiresAt := by
  have hlex : toLex (a.expiresAt, toLex (a.seq, a.key)) ≤
    toLex (b.expiresAt, toLex (b.seq, b.key)) := h
  rcases Prod.Lex.toLex_le_toLex.mp hlex with hlt | ⟨heq, _⟩
  · exact le_of_lt hlt
  · exact le_of_eq heq

/-- Live accounting for one scope, with its two expiry heaps. -/
structure Usage where
  entries : Int
  bytes : Int
  index : List Item
  draining : List Item
deriving DecidableEq, Repr

def Usage.new : Usage := ⟨0, 0, [], []⟩

/-- Token-bucket state. `fullAt` starts below every time and may be never. -/
structure Bucket where
  tokens : ℚ
  updatedAt : ℚ
  fullAt : WithBot (WithTop ℚ)
deriving DecidableEq

/-- An item of the bucket index, ordered by refill time, then key. -/
structure BucketItem where
  fullAt : WithBot (WithTop ℚ)
  key : String
deriving DecidableEq

instance : LinearOrder BucketItem :=
  LinearOrder.lift' (fun i => toLex (i.fullAt, i.key)) (by
    rintro ⟨f, k⟩ ⟨f', k'⟩ h
    simpa only [EmbeddingLike.apply_eq_iff_eq, Prod.mk.injEq, BucketItem.mk.injEq] using h)

/-- The state of a backend, less the times its refusals were last logged. -/
structure Backend where
  kv : Dict String Entry
  usage : Dict Scope Usage
  totalBytes : Int
  seq : Nat
  buckets : Dict String Bucket
  bucketIndex : List BucketItem
  nextSweepAt : ℚ

/-- A backend as constructed at a clock reading. -/
def Backend.new (cfg : MemoryConfig) (now : ℚ) : Backend where
  kv := Dict.empty
  usage := Dict.empty
  totalBytes := 0
  seq := 0
  buckets := Dict.empty
  bucketIndex := []
  nextSweepAt := now + cfg.sweepIntervalS

/-- Why an operation raises. -/
inductive StateError
  | capacity (name : String) (retryAfterS : Int) (owner : Option String) (total : Bool)
  | amountNotPositive (amount : Int)
  | invalidInteger
deriving DecidableEq, Repr

/-- What refuses a write: a scope, or the byte cap over all namespaces. -/
inductive Refusal
  | scope (sc : Scope)
  | total
deriving DecidableEq, Repr

namespace Backend

/-- `_is_current`: the item is the one its key's entry was indexed under. -/
def isCurrent (kv : Dict String Entry) (item : Item) : Bool :=
  (kv.get? item.key).any (fun e => e.seq = item.seq)

/-- Replace the usage of each listed scope by a function of it. -/
def alterUsages (b : Backend) (scs : List Scope) (f : Scope → Option Usage → Option Usage) :
    Backend :=
  { b with usage := scs.foldl (fun usage sc => usage.alter sc (f sc)) b.usage }

/-- `_compact_step`: move up to a number of items from the end of `draining`
    to `index`, dropping those that are superseded. -/
def compactStep (kv : Dict String Entry) : Nat → Usage → Usage
  | 0, u => u
  | n + 1, u =>
      match u.draining.getLast? with
      | none => u
      | some item => compactStep kv n { u with
          draining := u.draining.dropLast
          index := if isCurrent kv item then BinaryHeap.heappush u.index item else u.index }

/-- `_index`: add an item, and start or continue a compaction. -/
def indexItem (kv : Dict String Entry) (u : Usage) (item : Item) : Usage :=
  let u := { u with index := BinaryHeap.heappush u.index item }
  if u.draining ≠ [] then compactStep kv compactionStep u
  else if 2 * u.entries + indexSlack < u.index.length then
    compactStep kv compactionStep { u with draining := u.index, index := [] }
  else u

/-- What is left of a scope's usage without one entry. An owner's usage is
    dropped with its last entry. -/
def release (size : Nat) (sc : Scope) : Option Usage → Option Usage
  | none => none
  | some u =>
      let u := { u with entries := u.entries - 1, bytes := u.bytes - size }
      match sc with
      | .inNamespace _ => some u
      | .ownerShare _ _ => if u.entries = 0 then none else some u

/-- `_delete`. -/
def delete (cfg : MemoryConfig) (b : Backend) (key : String) : Backend :=
  match b.kv.get? key with
  | none => b
  | some entry =>
      { b with kv := b.kv.erase key, totalBytes := b.totalBytes - entry.size }.alterUsages
        (scopesOf cfg key) (release entry.size)

/-- `_live_entry`: the entry under a key unless it has expired, else drop it. -/
def liveEntry (cfg : MemoryConfig) (b : Backend) (key : String) (now : ℚ) :
    Option Entry × Backend :=
  match b.kv.get? key with
  | none => (none, b)
  | some entry => if entry.expiresAt ≤ now then (none, b.delete cfg key) else (some entry, b)

/-- One of the two heaps of a usage. -/
inductive Side
  | index
  | draining
deriving DecidableEq

def Side.heap (u : Usage) : Side → List Item
  | .index => u.index
  | .draining => u.draining

def Side.replace (u : Usage) (heap : List Item) : Side → Usage
  | .index => { u with index := heap }
  | .draining => { u with draining := heap }

/-- Replace one heap of a scope. -/
def setHeap (b : Backend) (sc : Scope) (side : Side) (heap : List Item) : Backend :=
  b.alterUsages [sc] (fun _ => Option.map (fun u => side.replace u heap))

/-- The loop of `_earliest_live` over one heap, for as many rounds as it has
    items: superseded items are popped, expired ones popped and deleted, and
    the first live one ends it. -/
def drainHeap (cfg : MemoryConfig) (sc : Scope) (side : Side) (now : ℚ) :
    Nat → Backend → Option ℚ × Backend
  | 0, b => (none, b)
  | n + 1, b =>
      match (b.usage.get? sc).bind (fun u => BinaryHeap.heappop (side.heap u)) with
      | none => (none, b)
      | some (item, rest) =>
          if isCurrent b.kv item = false then
            drainHeap cfg sc side now n (b.setHeap sc side rest)
          else if item.expiresAt ≤ now then
            drainHeap cfg sc side now n ((b.setHeap sc side rest).delete cfg item.key)
          else (some item.expiresAt, b)

/-- How many items a heap of a scope holds. -/
def heapLength (b : Backend) (sc : Scope) (side : Side) : Nat :=
  ((b.usage.get? sc).map (fun u => (side.heap u).length)).getD 0

/-- The earlier of two deadlines that may be missing. -/
def earlier (a b : Option ℚ) : Option ℚ := Option.merge min a b

/-- `_earliest_live`: drop a scope's expired entries; its earliest live
    deadline. -/
def earliestLive (cfg : MemoryConfig) (b : Backend) (sc : Scope) (now : ℚ) : Option ℚ × Backend :=
  let (first, b) := drainHeap cfg sc .index now (b.heapLength sc .index) b
  let (second, b) := drainHeap cfg sc .draining now (b.heapLength sc .draining) b
  (earlier first second, b)

/-- `_earliest_live` of each listed scope. -/
def earliestLiveOf (cfg : MemoryConfig) (now : ℚ) : List Scope → Backend → Option ℚ × Backend
  | [], b => (none, b)
  | sc :: rest, b =>
      let (first, b) := b.earliestLive cfg sc now
      let (others, b) := earliestLiveOf cfg now rest b
      (earlier first others, b)

/-- The scopes of `_usage.values()`. -/
def namespaces (b : Backend) : List Scope :=
  (b.usage.items.map Prod.fst).filter fun
    | .inNamespace _ => true
    | .ownerShare _ _ => false

/-- `_earliest_live_anywhere`: drop every namespace's expired entries. -/
def earliestLiveAnywhere (cfg : MemoryConfig) (b : Backend) (now : ℚ) : Option ℚ × Backend :=
  earliestLiveOf cfg now b.namespaces b

/-- Drop the buckets that have refilled, for as many rounds as the index has
    items. -/
def sweepBuckets (now : ℚ) : Nat → Backend → Backend
  | 0, b => b
  | n + 1, b =>
      match BinaryHeap.heappop b.bucketIndex with
      | none => b
      | some (item, rest) =>
          if item.fullAt ≤ ((now : WithTop ℚ) : WithBot (WithTop ℚ)) then
            let refilled := (b.buckets.get? item.key).any (fun bucket => bucket.fullAt = item.fullAt)
            sweepBuckets now n { b with
              bucketIndex := rest
              buckets := if refilled then b.buckets.erase item.key else b.buckets }
          else b

/-- `_sweep`. -/
def sweep (cfg : MemoryConfig) (b : Backend) (now : ℚ) : Backend :=
  let b := (b.earliestLiveAnywhere cfg now).2
  { sweepBuckets now b.bucketIndex.length b with nextSweepAt := now + cfg.sweepIntervalS }

/-- `_maybe_sweep`. -/
def maybeSweep (cfg : MemoryConfig) (b : Backend) (now : ℚ) : Backend :=
  if b.nextSweepAt ≤ now then b.sweep cfg now else b

/-- `_fits`: a write of a size within limits of entries and bytes, where an
    overwrite is charged the difference. -/
def fits (usage : Option Usage) (existing : Option Entry) (size : Nat) (limit : Int × Int) : Bool :=
  let entries := (usage.map Usage.entries).getD 0 + if existing.isSome then 0 else 1
  let used := (usage.map Usage.bytes).getD 0 - ((existing.map Entry.size).getD 0 : Nat)
  entries ≤ limit.1 && used + size ≤ limit.2

/-- `_refusing_scope`: the first budget a write would go past, the total last. -/
def refusingScope (cfg : MemoryConfig) (b : Backend) (key : String) (size : Nat) :
    Option Refusal :=
  let existing := b.kv.get? key
  match (scopesOf cfg key).find?
      (fun sc => !fits (b.usage.get? sc) existing size (limits cfg sc)) with
  | some sc => some (.scope sc)
  | none =>
      if cfg.maxTotalBytes < b.totalBytes - ((existing.map Entry.size).getD 0 : Nat) + size then
        some .total
      else none

/-- `_reclaim`: drop the refusing scope's expired entries. -/
def reclaim (cfg : MemoryConfig) (b : Backend) (refusal : Refusal) (now : ℚ) :
    Option ℚ × Backend :=
  match refusal with
  | .total => b.earliestLiveAnywhere cfg now
  | .scope sc => b.earliestLive cfg sc now

/-- `_clamp_retry_after`. -/
def clampRetryAfter (seconds : ℚ) : Int :=
  max minRetryAfterS (min maxRetryAfterS ⌈seconds⌉)

/-- `_refuse`: the error a refused write raises. -/
def refuse (name : String) (refusal : Refusal) (earliest : Option ℚ) (now : ℚ) : StateError :=
  .capacity name
    (clampRetryAfter (match earliest with
      | some deadline => deadline - now
      | none => maxRetryAfterS))
    (match refusal with
      | .scope (.ownerShare _ owner) => some owner
      | _ => none)
    (refusal = .total)

/-- The budgeted size of an entry. -/
def entrySize (key : String) (value : Bytes) : Nat :=
  key.length + value.length + entryOverheadBytes

/-- `_store` of a new entry, where the key holds none. -/
def insertEntry (cfg : MemoryConfig) (b : Backend) (key : String) (value : Bytes) (expiresAt : ℚ)
    (size : Nat) : Backend :=
  let entry : Entry := ⟨value, expiresAt, size, b.seq + 1⟩
  let kv := b.kv.set key entry
  { b with seq := b.seq + 1, kv := kv, totalBytes := b.totalBytes + size }.alterUsages
    (scopesOf cfg key) fun _ usage =>
      let u := usage.getD Usage.new
      some (indexItem kv { u with entries := u.entries + 1, bytes := u.bytes + size }
        ⟨expiresAt, b.seq + 1, key⟩)

/-- The in-place update of `_store`, with its `_resize`. -/
def updateEntry (cfg : MemoryConfig) (b : Backend) (key : String) (existing : Entry) (value : Bytes)
    (size : Nat) : Backend :=
  let delta : Int := size - existing.size
  { b with
    kv := b.kv.set key { existing with value := value, size := size }
    totalBytes := b.totalBytes + delta }.alterUsages (scopesOf cfg key)
      fun _ => Option.map (fun u => { u with bytes := u.bytes + delta })

/-- `_store` past its checks. An entry that keeps its deadline keeps its place
    in the index. -/
def write (cfg : MemoryConfig) (b : Backend) (key : String) (value : Bytes) (expiresAt : ℚ) :
    Backend :=
  let size := entrySize key value
  match b.kv.get? key with
  | some existing =>
      if existing.expiresAt = expiresAt then b.updateEntry cfg key existing value size
      else (b.delete cfg key).insertEntry cfg key value expiresAt size
  | none => b.insertEntry cfg key value expiresAt size

/-- `_store`: a write that does not fit first drops the expired entries of what
    refuses it. -/
def store (cfg : MemoryConfig) (b : Backend) (key : String) (value : Bytes) (expiresAt now : ℚ) :
    Except StateError Unit × Backend :=
  let b := b.maybeSweep cfg now
  match b.refusingScope cfg key (entrySize key value) with
  | none => (.ok (), b.write cfg key value expiresAt)
  | some refusal =>
      let b := (b.reclaim cfg refusal now).2
      match b.refusingScope cfg key (entrySize key value) with
      | none => (.ok (), b.write cfg key value expiresAt)
      | some refusal =>
          let (earliest, b) := b.reclaim cfg refusal now
          (.error (refuse (keyNamespace key) refusal earliest now), b)

end Backend

/-! ## Integers as bytes -/

def maxStrDigits : Nat := 4300

def isSpace (c : UInt8) : Bool := c = 32 || (9 ≤ c && c ≤ 13)

/-- Decimal digits with single underscores between them, most significant
    first; `some` accumulator once a digit has been read. -/
def parseDigits : Option Nat → Bytes → Option Nat
  | acc, [] => acc
  | acc, c :: rest =>
      if 48 ≤ c && c ≤ 57 then parseDigits (some (acc.getD 0 * 10 + (c.toNat - 48))) rest
      else if c = 95 && acc.isSome && rest.head?.any (fun d => 48 ≤ d && d ≤ 57) then
        parseDigits acc rest
      else none

/-- `int(value)` of bytes. -/
def parseInt (value : Bytes) : Option Int :=
  let body := ((value.dropWhile isSpace).reverse.dropWhile isSpace).reverse
  let (negative, digits) := match body with
    | 43 :: rest => (false, rest)
    | 45 :: rest => (true, rest)
    | _ => (false, body)
  if maxStrDigits < (digits.filter (· ≠ 95)).length then none
  else (parseDigits none digits).map fun n => if negative then -n else n

/-- `str(n).encode()`. -/
def formatInt (n : Int) : Option Bytes :=
  let digits := Nat.toDigits 10 n.natAbs
  if maxStrDigits < digits.length then none
  else some ((if n < 0 then [45] else []) ++ digits.map (fun c => c.toNat.toUInt8))

/-! ## Token buckets -/

/-- Outcome of a single token-bucket evaluation. -/
structure RateLimitDecision where
  allowed : Bool
  remaining : Int
  retryAfterS : WithTop ℚ
  limit : Int
deriving DecidableEq

/-- `_full_at`: when a bucket will have refilled. -/
def fullAt (tokens updatedAt rate : ℚ) (burst : Int) : WithTop ℚ :=
  let missing := burst - tokens
  if missing ≤ 0 then updatedAt
  else if 0 < rate then ((updatedAt + missing / rate : ℚ) : WithTop ℚ) else ⊤

/-- `int(x)` of a float. -/
def truncate (x : ℚ) : Int := if 0 ≤ x then ⌊x⌋ else ⌈x⌉

namespace Backend

/-- `_reindex_bucket`, which rebuilds an index of mostly superseded items. -/
def reindexBucket (b : Backend) (key : String) (bucket : Bucket) (full : WithBot (WithTop ℚ)) :
    Backend :=
  if full = bucket.fullAt then { b with buckets := b.buckets.set key bucket }
  else
    let buckets := b.buckets.set key { bucket with fullAt := full }
    let index := BinaryHeap.heappush b.bucketIndex ⟨full, key⟩
    { b with
      buckets := buckets
      bucketIndex := if 2 * buckets.items.length + indexSlack < index.length then
          (buckets.items.map fun (k, bucket) => BucketItem.mk bucket.fullAt k).foldl
            BinaryHeap.heappush []
        else index }

/-- `token_bucket`. -/
def tokenBucket (cfg : MemoryConfig) (b : Backend) (key : String) (rate : ℚ) (burst cost : Int)
    (now : ℚ) : RateLimitDecision × Backend :=
  let b := b.maybeSweep cfg now
  let bucket := (b.buckets.get? key).getD ⟨burst, now, ⊥⟩
  let elapsed := max 0 (now - bucket.updatedAt)
  let refilled := min (burst : ℚ) (bucket.tokens + elapsed * rate)
  let allowed : Bool := cost ≤ refilled
  let tokens := if allowed then refilled - cost else refilled
  let b := b.reindexBucket key { bucket with tokens := tokens, updatedAt := now }
    (fullAt tokens now rate burst)
  let retryAfter : WithTop ℚ :=
    if allowed then 0 else if 0 < rate then (((cost - tokens) / rate : ℚ) : WithTop ℚ) else ⊤
  (⟨allowed, truncate tokens, retryAfter, burst⟩, b)

end Backend

end State

end JenticOne
