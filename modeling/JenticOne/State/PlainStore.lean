import JenticOne.State.Buckets
import JenticOne.State.ExactAccounts
import JenticOne.State.Batch

/-!
# The Backend as a Plain Store

What the backend returns to its clients, told without its counters, its heaps and
its bounded loops. A `PlainStore` has the entries, the time of the next sweep, and
every bucket as its last call left it. It looks through all entries for what is
expired, for the room there is and for the earliest deadline, and it never drops a
bucket.

Every call on a backend returns what the same call on the plain store returns, and
a write that is refused raises the same error with the same time to retry. A
bucket has one rate and one burst here: a refilled one is dropped by a sweep, and
with it what it was called with.

## Main definitions

* `PlainStore`: The state of a plain store.
* `PlainStore.call`: What a call on it returns and leaves.
* `Op.reply`, `replies`: What a call on the backend returns, and those of a run.

## Theorems

* `backed_store`: A store is decided, reported and left as by the entries alone.
* `call_simulates`: One call.
* `replies_eq_plainReplies`: Whole runs.
-/

namespace JenticOne

namespace State

/-! ## The plain store -/

namespace Ledger

/-- Whether what refuses a write counts the entry of a key. -/
def counts (cfg : MemoryConfig) : Refusal → String → Bool
  | .scope sc, key => sc ∈ scopesOf cfg key
  | .total, _ => true

/-- What is left when the expired entries of what refuses are dropped. -/
def evict (cfg : MemoryConfig) (l : Ledger) (refusal : Refusal) (now : ℚ) : Ledger :=
  { l with kv := match refusal with
      | .scope sc => withoutExpiredIn cfg sc l.kv now
      | .total => unexpired l.kv now }

/-- What refuses a write of a size. -/
def refusing (cfg : MemoryConfig) (l : Ledger) (key : String) (size : Nat) : Option Refusal :=
  match firstFull cfg l.kv key size with
  | some sc => some (.scope sc)
  | none => if TotalRoom cfg (l.kv.erase key) size then none else some .total

/-- The earliest deadline of what refuses. -/
def soonest (cfg : MemoryConfig) (l : Ledger) (refusal : Refusal) : Option ℚ :=
  ((l.kv.filter fun key _ => counts cfg refusal key).items.map fun x => x.2.expiresAt).min?

/-- A write: a second look is taken once what refuses it has lost its expired
    entries. -/
def store (cfg : MemoryConfig) (l : Ledger) (key : String) (value : Bytes) (expiresAt now : ℚ) :
    Except StateError Unit × Ledger :=
  let l := l.swept cfg now
  match l.refusing cfg key (Backend.entrySize key value) with
  | none => (.ok (), l.put key value expiresAt)
  | some refusal =>
      let l := l.evict cfg refusal now
      match l.refusing cfg key (Backend.entrySize key value) with
      | none => (.ok (), l.put key value expiresAt)
      | some refusal =>
          let l := l.evict cfg refusal now
          (.error (Backend.refuse (keyNamespace key) refusal (l.soonest cfg refusal) now), l)

def get (l : Ledger) (key : String) (now : ℚ) : Option Bytes × Ledger :=
  (((l.look key now).kv.get? key).map Entry.value, l.look key now)

def setIfAbsent (cfg : MemoryConfig) (l : Ledger) (key : String) (value : Bytes)
    (ttl seen now : ℚ) : Except StateError Bool × Ledger :=
  match (l.look key seen).kv.get? key with
  | some _ => (.ok false, l.look key seen)
  | none =>
      let (result, l) := (l.look key seen).store cfg key value (now + ttl) now
      (result.map fun _ => true, l)

def incr (cfg : MemoryConfig) (l : Ledger) (key : String) (ttl : ℚ) (amount : Int)
    (now seen : ℚ) : Except StateError Int × Ledger :=
  let entry := (l.look key seen).kv.get? key
  match entry.elim (some 0) (fun e => parseInt e.value) with
  | none => (.error .invalidInteger, l.look key seen)
  | some current =>
      match formatInt (current + amount) with
      | none => (.error .invalidInteger, l.look key seen)
      | some text =>
          let (result, l) := (l.look key seen).store cfg key text
            (entry.elim (now + ttl) Entry.expiresAt) now
          (result.map fun _ => current + amount, l)

def incrAll (cfg : MemoryConfig) (ttl : ℚ) :
    List (String × ℚ × ℚ) → Ledger → Except StateError (List Int) × Ledger
  | [], l => (.ok [], l)
  | (key, now, seen) :: rest, l =>
      match l.incr cfg key ttl 1 now seen with
      | (.error err, l) => (.error err, l)
      | (.ok count, l) =>
          let (counts, l) := incrAll cfg ttl rest l
          (counts.map (count :: ·), l)

def readAll : List (String × ℚ) → Ledger → List (Option Bytes) × Ledger
  | [], l => ([], l)
  | (key, now) :: rest, l =>
      let (value, l) := l.get key now
      let (values, l) := readAll rest l
      (value :: values, l)

def incrAndRead (cfg : MemoryConfig) (l : Ledger) (incrs : List (String × ℚ × ℚ))
    (reads : List (String × ℚ)) (ttl : ℚ) :
    Except StateError (List Int × List (Option Bytes)) × Ledger :=
  match l.incrAll cfg ttl incrs with
  | (.error err, l) => (.error err, l)
  | (.ok counts, l) =>
      let (values, l) := l.readAll reads
      (.ok (counts, values), l)

end Ledger

/-- What a call returns to its client. -/
inductive Reply
  | value (value : Option Bytes)
  | set (result : Except StateError Unit)
  | setIfAbsent (result : Except StateError Bool)
  | count (result : Except StateError Int)
  | batch (result : Except StateError (List Int × List (Option Bytes)))
  | decision (decision : RateLimitDecision)

/-- What a call on the backend returns. -/
def Op.reply (cfg : MemoryConfig) (w : World) : Op → Reply
  | .get key now => .value (w.get cfg key now).1
  | .set key value ttl now => .set (w.set cfg key value ttl now).1
  | .setIfAbsent key value ttl seen now => .setIfAbsent (w.setIfAbsent cfg key value ttl seen now).1
  | .incrWithTtl key ttl amount now seen => .count (w.incrWithTtl cfg key ttl amount now seen).1
  | .incrAndRead incrs reads ttl => .batch (w.incrAndRead cfg incrs reads ttl).1
  | .tokenBucket key rate burst cost now =>
      .decision (w.tokenBucket cfg key rate burst cost now).1

/-- What the calls of a run return. -/
def replies (cfg : MemoryConfig) : World → List Op → List Reply
  | _, [] => []
  | w, op :: rest => op.reply cfg w :: replies cfg (op.run cfg w) rest

/-- The entries, the next sweep, and every bucket as its last call left it. -/
structure PlainStore where
  ledger : Ledger
  buckets : String → Option (TokenBucket ℚ)

namespace PlainStore

/-- A plain store at the time it is made. -/
def new (cfg : MemoryConfig) (now : ℚ) : PlainStore :=
  ⟨⟨Dict.empty, 0, now + cfg.sweepIntervalS⟩, fun _ => none⟩

/-- A call on the plain store, where only buckets do not go by the entries. -/
def call (cfg : MemoryConfig) (p : PlainStore) : Op → Reply × PlainStore
  | .get key now =>
      let (value, l) := p.ledger.get key now
      (.value value, { p with ledger := l })
  | .set key value ttl now =>
      let (result, l) := p.ledger.store cfg key value (now + ttl) now
      (.set result, { p with ledger := l })
  | .setIfAbsent key value ttl seen now =>
      let (result, l) := p.ledger.setIfAbsent cfg key value ttl seen now
      (.setIfAbsent result, { p with ledger := l })
  | .incrWithTtl key ttl amount now seen =>
      if amount ≤ 0 then (.count (.error (.amountNotPositive amount)), p)
      else
        let (result, l) := p.ledger.incr cfg key ttl amount now seen
        (.count result, { p with ledger := l })
  | .incrAndRead incrs reads ttl =>
      let (result, l) := p.ledger.incrAndRead cfg incrs reads ttl
      (.batch result, { p with ledger := l })
  | .tokenBucket key rate burst cost now =>
      let (decision, bucket) := decisionOf rate burst cost now (p.buckets key)
      (.decision decision,
        ⟨p.ledger.swept cfg now, Function.update p.buckets key (some bucket)⟩)

/-- What the calls of a run on the plain store return. -/
def replies (cfg : MemoryConfig) : PlainStore → List Op → List Reply
  | _, [] => []
  | p, op :: rest => (p.call cfg op).1 :: replies cfg (p.call cfg op).2 rest

end PlainStore

/-! ## A store -/

section Store

variable {cfg : MemoryConfig} {l : Ledger} {b : Backend} {key : String} {now : ℚ}

theorem refusing_of_backed (inv : Inv cfg noKey b) (h : Backed l b) (size : Nat) :
    b.refusingScope cfg key size = l.refusing cfg key size := by
  rw [refusingScope_eq inv, Ledger.refusing, firstFull_congr h.get]
  cases firstFull cfg b.kv key size with
  | some sc => rfl
  | none => simp only [totalRoom_congr (get?_erase_congr h.get key)]

/-- The deadline a reclaim reports is the earliest that is left. -/
theorem soonest_of_reports {refusal : Refusal} {d : Option ℚ} (h : Backed l b)
    (hreports : Reports (refusal.covers cfg) b d) : l.soonest cfg refusal = d := by
  have hcounts : ∀ k, Ledger.counts cfg refusal k = true ↔ refusal.covers cfg k := by
    intro k
    cases refusal with
    | scope sc => exact decide_eq_true_iff
    | total => exact ⟨fun _ => trivial, fun _ => rfl⟩
  have hmem : ∀ m, m ∈ ((l.kv.filter fun k _ => Ledger.counts cfg refusal k).items.map
      fun x => x.2.expiresAt) ↔ ∃ k e, b.kv.get? k = some e ∧ refusal.covers cfg k ∧
        e.expiresAt = m := by
    intro m
    rw [List.mem_map]
    constructor
    · rintro ⟨⟨k, e⟩, hx, hm⟩
      rw [← Dict.get?_eq_some_iff, Dict.get?_filter, Option.filter_eq_some_iff] at hx
      exact ⟨k, e, h.get k ▸ hx.1, (hcounts k).mp hx.2, hm⟩
    · rintro ⟨k, e, he, hcovers, hm⟩
      refine ⟨(k, e), ?_, hm⟩
      rw [← Dict.get?_eq_some_iff, Dict.get?_filter, Option.filter_eq_some_iff, h.get]
      exact ⟨he, (hcounts k).mpr hcovers⟩
  rw [Ledger.soonest]
  cases d with
  | none =>
      rw [List.min?_eq_none_iff, List.eq_nil_iff_forall_not_mem]
      intro m hm
      rcases (hmem m).mp hm with ⟨k, e, he, hcovers, _⟩
      rcases hreports.least k e he hcovers with ⟨m', hm', _⟩
      exact absurd hm' (Option.not_mem_none m')
  | some d =>
      rw [List.min?_eq_some_iff]
      refine ⟨(hmem d).mpr (hreports.stored d rfl), fun m hm => ?_⟩
      rcases (hmem m).mp hm with ⟨k, e, he, hcovers, rfl⟩
      rcases hreports.least k e he hcovers with ⟨m', hm', hle⟩
      rw [Option.mem_some_iff] at hm'
      rwa [hm']

/-- A store is decided, reported and left as by the entries alone. -/
theorem backed_store (inv : Inv cfg noKey b) (h : Backed l b) (key : String) (value : Bytes)
    (expiresAt now : ℚ) :
    (b.store cfg key value expiresAt now).1 = (l.store cfg key value expiresAt now).1 ∧
      Backed (l.store cfg key value expiresAt now).2 (b.store cfg key value expiresAt now).2 := by
  have hinv := inv_maybeSweep inv now
  have hswept := backed_swept inv h now
  unfold Backend.store Ledger.store
  dsimp only
  generalize b.maybeSweep cfg now = b₀ at *
  generalize l.swept cfg now = l₀ at *
  rw [refusing_of_backed hinv hswept]
  cases l₀.refusing cfg key (Backend.entrySize key value) with
  | none => exact ⟨rfl, backed_write hswept value expiresAt⟩
  | some refusal =>
      have hinv₁ := (reclaims_reclaim hinv refusal now).inv
      have hbacked₁ : Backed (l₀.evict cfg refusal now) (b₀.reclaim cfg refusal now).2 :=
        backed_reclaim hinv hswept refusal now
      dsimp only
      generalize (b₀.reclaim cfg refusal now).2 = b₁ at *
      generalize l₀.evict cfg refusal now = l₁ at *
      rw [refusing_of_backed hinv₁ hbacked₁]
      cases l₁.refusing cfg key (Backend.entrySize key value) with
      | none => exact ⟨rfl, backed_write hbacked₁ value expiresAt⟩
      | some refusal =>
          have hbacked₂ : Backed (l₁.evict cfg refusal now) (b₁.reclaim cfg refusal now).2 :=
            backed_reclaim hinv₁ hbacked₁ refusal now
          dsimp only
          refine ⟨?_, hbacked₂⟩
          rw [soonest_of_reports hbacked₂ (reports_reclaim hinv₁ refusal now)]

end Store

/-! ## One call -/

/-- A call that left the backend returned what a call on a ledger did, which left the
ledger of that backend. -/
structure Follows {α : Type} (cfg : MemoryConfig) (result : α) (b : Backend) (s : α × Ledger) :
    Prop where
  result : result = s.1
  backed : Backed s.2 b
  inv : Inv cfg noKey b

section Calls

variable {cfg : MemoryConfig} {l : Ledger} {w : World} {key : String} {ttl now seen : ℚ}

theorem follows_store {b : Backend} (inv : Inv cfg noKey b) (h : Backed l b) (key : String)
    (value : Bytes) (expiresAt now : ℚ) :
    Follows cfg (b.store cfg key value expiresAt now).1 (b.store cfg key value expiresAt now).2
      (l.store cfg key value expiresAt now) := by
  rcases backed_store inv h key value expiresAt now with ⟨hresult, hbacked⟩
  refine ⟨hresult, hbacked, ?_⟩
  rcases store_spec inv key value expiresAt now with ⟨b₁, inv₁, _, ⟨hwrite, hfits⟩ | ⟨err, hraise⟩⟩
  · rw [hwrite]
    exact inv_write inv₁ hfits expiresAt
  · rw [hraise]
    exact inv₁

/-- What a call returns of a write that it makes. -/
theorem Follows.map {α β : Type} {result : Except StateError α} {b : Backend}
    {s : Except StateError α × Ledger} (h : Follows cfg result b s) (f : α → β) :
    Follows cfg (result.map f) b (s.1.map f, s.2) :=
  ⟨congrArg (Except.map f) h.result, h.backed, h.inv⟩

theorem follows_get (inv : Inv cfg noKey w.backend) (h : Backed l w.backend) (key : String)
    (now : ℚ) : Follows cfg (w.get cfg key now).1 (w.get cfg key now).2.backend
      (l.get key now) := by
  have hlooked : Backed (l.look key now) (w.backend.liveEntry cfg key now).2 :=
    backed_liveEntry h now
  refine ⟨?_, hlooked, (liveEntry_live inv).2.1⟩
  rw [Ledger.get, hlooked.get, liveEntry_get]
  rfl

theorem follows_set (inv : Inv cfg noKey w.backend) (h : Backed l w.backend) (key : String)
    (value : Bytes) (ttl now : ℚ) :
    Follows cfg (w.set cfg key value ttl now).1 (w.set cfg key value ttl now).2.backend
      (l.store cfg key value (now + ttl) now) := by
  rcases set_spec cfg w key value ttl now with ⟨hresult, hbackend, _⟩
  rw [hresult, hbackend]
  exact follows_store inv h key value (now + ttl) now

theorem follows_setIfAbsent (inv : Inv cfg noKey w.backend) (h : Backed l w.backend)
    (key : String) (value : Bytes) (ttl seen now : ℚ) :
    Follows cfg (w.setIfAbsent cfg key value ttl seen now).1
      (w.setIfAbsent cfg key value ttl seen now).2.backend
      (l.setIfAbsent cfg key value ttl seen now) := by
  have hlooked : Backed (l.look key seen) (w.backend.liveEntry cfg key seen).2 :=
    backed_liveEntry h seen
  have hinv := (@liveEntry_live cfg w.backend key seen inv).2.1
  unfold World.setIfAbsent Ledger.setIfAbsent
  rw [hlooked.get, liveEntry_get]
  generalize w.backend.liveEntry cfg key seen = looked at *
  rcases looked with ⟨_ | entry, b⟩
  · have hstored := (follows_store hinv hlooked key value (now + ttl) now).map fun _ => true
    dsimp only at hstored ⊢
    rcases hwrite : b.store cfg key value (now + ttl) now with ⟨_ | _, b'⟩ <;>
      (rw [hwrite] at hstored; exact hstored)
  · exact ⟨rfl, hlooked, hinv⟩

theorem follows_incr (inv : Inv cfg noKey w.backend) (h : Backed l w.backend) (key : String)
    (ttl : ℚ) (amount : Int) (now seen : ℚ) :
    Follows cfg (w.incr cfg key ttl amount now seen).1
      (w.incr cfg key ttl amount now seen).2.backend (l.incr cfg key ttl amount now seen) := by
  have hlooked : Backed (l.look key seen) (w.backend.liveEntry cfg key seen).2 :=
    backed_liveEntry h seen
  have hinv := (@liveEntry_live cfg w.backend key seen inv).2.1
  unfold World.incr Ledger.incr
  dsimp only
  rw [hlooked.get, liveEntry_get]
  generalize w.backend.liveEntry cfg key seen = looked at *
  rcases looked with ⟨entry, b⟩
  dsimp only at hlooked hinv ⊢
  cases entry.elim (some 0) fun e => parseInt e.value with
  | none => exact ⟨rfl, hlooked, hinv⟩
  | some current =>
      dsimp only
      cases formatInt (current + amount) with
      | none => exact ⟨rfl, hlooked, hinv⟩
      | some text =>
          generalize entry.elim (now + ttl) Entry.expiresAt = expiresAt
          have hstored := (follows_store hinv hlooked key text expiresAt now).map
            fun _ => current + amount
          dsimp only at hstored ⊢
          rcases hwrite : b.store cfg key text expiresAt now with ⟨_ | _, b'⟩ <;>
            (rw [hwrite] at hstored; exact hstored)

/-- The increments of a batch, up to one that raises. -/
theorem follows_incrAll (incrs : List (String × ℚ × ℚ)) (inv : Inv cfg noKey w.backend)
    (h : Backed l w.backend) :
    Follows cfg (w.incrAll cfg ttl incrs).1 (w.incrAll cfg ttl incrs).2.backend
      (l.incrAll cfg ttl incrs) := by
  induction incrs generalizing w l with
  | nil => exact ⟨rfl, h, inv⟩
  | cons x rest ih =>
      rcases x with ⟨key, now, seen⟩
      have hone := follows_incr inv h key ttl 1 now seen
      unfold World.incrAll Ledger.incrAll
      generalize w.incr cfg key ttl 1 now seen = r at *
      generalize l.incr cfg key ttl 1 now seen = s at *
      rcases r with ⟨result, w'⟩
      rcases s with ⟨result', l'⟩
      have hresult : result = result' := hone.result
      subst hresult
      cases result with
      | error err => exact ⟨rfl, hone.backed, hone.inv⟩
      | ok count =>
          have hrest := ih hone.inv hone.backed
          refine ⟨?_, hrest.backed, hrest.inv⟩
          dsimp only
          rw [hrest.result]

theorem follows_readAll (reads : List (String × ℚ)) (inv : Inv cfg noKey w.backend)
    (h : Backed l w.backend) :
    Follows cfg (w.readAll cfg reads).1 (w.readAll cfg reads).2.backend (l.readAll reads) := by
  induction reads generalizing w l with
  | nil => exact ⟨rfl, h, inv⟩
  | cons x rest ih =>
      rcases x with ⟨key, now⟩
      have hone := follows_get inv h key now
      have hrest := ih hone.inv hone.backed
      refine ⟨?_, hrest.backed, hrest.inv⟩
      change (w.get cfg key now).1 :: ((w.get cfg key now).2.readAll cfg rest).1 = _
      rw [hone.result, hrest.result]
      rfl

theorem follows_incrAndRead (incrs : List (String × ℚ × ℚ)) (reads : List (String × ℚ)) (ttl : ℚ)
    (inv : Inv cfg noKey w.backend) (h : Backed l w.backend) :
    Follows cfg (w.incrAndRead cfg incrs reads ttl).1 (w.incrAndRead cfg incrs reads ttl).2.backend
      (l.incrAndRead cfg incrs reads ttl) := by
  have hincrs := @follows_incrAll cfg l w ttl incrs inv h
  unfold World.incrAndRead Ledger.incrAndRead
  generalize w.incrAll cfg ttl incrs = r at *
  generalize l.incrAll cfg ttl incrs = s at *
  rcases r with ⟨result, w'⟩
  rcases s with ⟨result', l'⟩
  have hresult : result = result' := hincrs.result
  subst hresult
  cases result with
  | error err => exact ⟨rfl, hincrs.backed, hincrs.inv⟩
  | ok counts =>
      have hreads := follows_readAll reads hincrs.inv hincrs.backed
      refine ⟨?_, hreads.backed, hreads.inv⟩
      dsimp only
      rw [hreads.result]

theorem nextSweepAt_reindexBucket (b : Backend) (key : String) (bucket : Bucket)
    (full : WithBot (WithTop ℚ)) : (b.reindexBucket key bucket full).nextSweepAt = b.nextSweepAt := by
  unfold Backend.reindexBucket
  split <;> rfl

/-- A call on a bucket sweeps, where that is due, and leaves the entries. -/
theorem backed_tokenBucket (inv : Inv cfg noKey w.backend) (h : Backed l w.backend) (key : String)
    (rate : ℚ) (burst cost : Int) (now : ℚ) :
    Backed (l.swept cfg now) (w.tokenBucket cfg key rate burst cost now).2.backend ∧
      Inv cfg noKey (w.tokenBucket cfg key rate burst cost now).2.backend := by
  have hinv := inv_maybeSweep inv now
  have hswept := backed_swept inv h now
  unfold World.tokenBucket Backend.tokenBucket
  dsimp only
  rcases reindexBucket_same (w.backend.maybeSweep cfg now) key _ _ with ⟨hkv, husage, htotal, hseq⟩
  have hsweep := nextSweepAt_reindexBucket (w.backend.maybeSweep cfg now) key
  exact ⟨⟨hswept.seq.trans hseq.symm, hswept.nextSweepAt.trans (hsweep _ _).symm,
    fun k => (hswept.get k).trans (congrArg (fun d => d.get? k) hkv.symm)⟩,
    inv_congr hinv hkv husage htotal hseq⟩

end Calls

/-! ## Runs -/

section Runs

variable {cfg : MemoryConfig} {p : PlainStore} {w : World} {rates : String → ℚ × Int}
  {later : List ℚ}

/-- The entries of the backend are those of the plain store, and each bucket is kept
or full. -/
structure Simulates (cfg : MemoryConfig) (rates : String → ℚ × Int) (later : List ℚ) (w : World)
    (p : PlainStore) : Prop where
  backed : Backed p.ledger w.backend
  inv : Inv cfg noKey w.backend
  buckets : ∀ key, Tracks key (rates key).1 (rates key).2 later w.backend (p.buckets key)

/-- One call returns what it does on the plain store, and both go on alike. -/
theorem call_simulates (hrates : ∀ key, 0 ≤ (rates key).1) {op : Op}
    (hconst : ∀ key, op.constantOn key (rates key).1 (rates key).2)
    (hlater : ∀ a ∈ op.readings, ∀ t ∈ later, a ≤ t)
    (h : Simulates cfg rates (op.readings ++ later) w p) :
    op.reply cfg w = (p.call cfg op).1 ∧
      Simulates cfg rates later (op.run cfg w) (p.call cfg op).2 := by
  have hmono : ∀ key, Tracks key (rates key).1 (rates key).2 later w.backend (p.buckets key) :=
    fun key => tracks_mono (h.buckets key) fun t ht => List.mem_append_right _ ht
  have hother : ∀ key, op.callOn key = none →
      Tracks key (rates key).1 (rates key).2 later (op.run cfg w).backend (p.buckets key) :=
    fun key hkey => tracks_run (hrates key) hkey hlater (hmono key)
  cases op with
  | get key now =>
      have hget := follows_get h.inv h.backed key now
      exact ⟨congrArg Reply.value hget.result, hget.backed, hget.inv, fun k => hother k rfl⟩
  | set key value ttl now =>
      have hset := follows_set h.inv h.backed key value ttl now
      exact ⟨congrArg Reply.set hset.result, hset.backed, hset.inv, fun k => hother k rfl⟩
  | setIfAbsent key value ttl seen now =>
      have hset := follows_setIfAbsent h.inv h.backed key value ttl seen now
      exact ⟨congrArg Reply.setIfAbsent hset.result, hset.backed, hset.inv, fun k => hother k rfl⟩
  | incrWithTtl key ttl amount now seen =>
      by_cases hamount : amount ≤ 0
      · have hsame : w.incrWithTtl cfg key ttl amount now seen =
            (.error (.amountNotPositive amount), w) := if_pos hamount
        rw [PlainStore.call, if_pos hamount, Op.reply, Op.run, hsame]
        exact ⟨rfl, h.backed, h.inv, hmono⟩
      · have hsame : w.incrWithTtl cfg key ttl amount now seen = w.incr cfg key ttl amount now seen :=
          if_neg hamount
        have hincr := follows_incr h.inv h.backed key ttl amount now seen
        rw [PlainStore.call, if_neg hamount, Op.reply, Op.run, hsame]
        refine ⟨congrArg Reply.count hincr.result, hincr.backed, hincr.inv, fun k => ?_⟩
        rw [← hsame]
        exact hother k rfl
  | incrAndRead incrs reads ttl =>
      have hbatch := follows_incrAndRead incrs reads ttl h.inv h.backed
      exact ⟨congrArg Reply.batch hbatch.result, hbatch.backed, hbatch.inv, fun k => hother k rfl⟩
  | tokenBucket key rate burst cost now =>
      rcases hconst key rfl with ⟨hrate, hburst⟩
      subst hrate hburst
      rcases tracks_tokenBucket (hrates key) cost
        (hlater now List.mem_cons_self) (h.buckets key) with ⟨hdecision, htracks⟩
      rcases backed_tokenBucket h.inv h.backed key (rates key).1 (rates key).2 cost now with
        ⟨hbacked, hinv⟩
      refine ⟨congrArg Reply.decision hdecision, hbacked, hinv, fun k => ?_⟩
      change Tracks k _ _ later _ (Function.update p.buckets key _ k)
      by_cases hk : k = key
      · rw [hk, Function.update_self]
        exact htracks
      · rw [Function.update_of_ne hk]
        exact hother k (if_neg (Ne.symm hk))

/-- Every call of a run on a backend returns what it does on the plain store. The clock
does not go back, and each bucket has a rate and a burst. -/
theorem replies_eq_plainReplies {start : ℚ} {ops : List Op} (hrates : ∀ key, 0 ≤ (rates key).1)
    (hconst : ∀ op ∈ ops, ∀ key, op.constantOn key (rates key).1 (rates key).2)
    (hclock : (ops.flatMap Op.readings).Pairwise (· ≤ ·)) :
    replies cfg (fresh cfg start) ops = (PlainStore.new cfg start).replies cfg ops := by
  have hrun : ∀ ops w p, (∀ op ∈ ops, ∀ key, op.constantOn key (rates key).1 (rates key).2) →
      (ops.flatMap Op.readings).Pairwise (· ≤ ·) →
      Simulates cfg rates (ops.flatMap Op.readings) w p →
      replies cfg w ops = p.replies cfg ops := by
    intro ops
    induction ops with
    | nil => exact fun _ _ _ _ _ => rfl
    | cons op rest ih =>
        intro w p hconst hclock h
        rw [List.forall_mem_cons] at hconst
        rw [List.flatMap_cons] at hclock h
        rcases List.pairwise_append.mp hclock with ⟨_, hclock', hlater⟩
        rcases call_simulates hrates hconst.1 hlater h with ⟨hreply, hnext⟩
        rw [replies, PlainStore.replies, hreply, ih _ _ hconst.2 hclock' hnext]
  refine hrun ops _ _ hconst hclock ⟨⟨rfl, rfl, fun k => rfl⟩, inv_new cfg start, fun key => ?_⟩
  exact tracks_fresh cfg start _

/-- Two entries fill a namespace, a third is refused, and a bucket is called twice with
a sweep in between. -/
def fullRun : List Op :=
  [.set "a:x" [1] 10 0, .set "a:y" [2] 20 1, .set "a:z" [3] 5 2, .tokenBucket "c" 1 5 2 3,
    .get "a:x" 11, .tokenBucket "c" 1 5 5 40, .incrWithTtl "a:n" 5 1 41 41]

theorem replies_eq_plainReplies_fullRun :
    replies exampleConfig (fresh exampleConfig 0) fullRun =
      (PlainStore.new exampleConfig 0).replies exampleConfig fullRun := by
  refine @replies_eq_plainReplies exampleConfig (fun _ => (1, 5)) 0 fullRun
    (fun _ => zero_le_one) ?_ (by decide)
  intro op hop key
  simp only [fullRun, List.mem_cons, List.not_mem_nil, or_false] at hop
  rcases hop with rfl | rfl | rfl | rfl | rfl | rfl | rfl
  all_goals first | exact trivial | exact fun _ => ⟨rfl, rfl⟩

end Runs

end State

end JenticOne
