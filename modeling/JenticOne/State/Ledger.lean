import JenticOne.State.Refusal

/-!
# Admission by the Entries Alone

Whether a write is admitted, and what it leaves, can be told from the entries
that are stored and the time of the next sweep. The counters, the heaps and the
loops over them do not come into it.

A `Ledger` is just that. `makeRoom` drops what a write drops before it is
checked, and `put` stores. `store_ledger` says that a store admits a write
exactly where the ledger has room for it after `makeRoom`, and leaves what `put`
leaves then.

## Main definitions

* `Ledger`: The entries, and what the next sequence number and sweep are.
* `Ledger.look`, `Ledger.makeRoom`, `Ledger.put`: What a lookup, a check and a
  write change.
* `Backed`: A ledger is that of a backend.

## Theorems

* `backed_liveEntry`, `backed_checked`, `backed_write`: What a lookup, a check and
  a write keep to.
* `store_ledger`: A store is decided by the ledger.
-/

namespace JenticOne

namespace State

/-- The entries of a backend, the last sequence number and the next sweep. -/
structure Ledger where
  kv : Dict String Entry
  seq : Nat
  nextSweepAt : ℚ

namespace Ledger

/-- What is left after a lookup. -/
def look (l : Ledger) (key : String) (now : ℚ) : Ledger :=
  if (l.kv.get? key).any fun e => e.expiresAt ≤ now then { l with kv := l.kv.erase key } else l

/-- What is left after a sweep, where one is due. -/
def swept (cfg : MemoryConfig) (l : Ledger) (now : ℚ) : Ledger :=
  if l.nextSweepAt ≤ now then
    { l with kv := unexpired l.kv now, nextSweepAt := now + cfg.sweepIntervalS }
  else l

/-- What is left when a write of a size is checked: the expired entries of what
    refuses it at first are dropped. -/
def makeRoom (cfg : MemoryConfig) (l : Ledger) (key : String) (size : Nat) (now : ℚ) : Ledger :=
  let l := l.swept cfg now
  match firstFull cfg l.kv key size with
  | some sc => { l with kv := withoutExpiredIn cfg sc l.kv now }
  | none =>
      if TotalRoom cfg (l.kv.erase key) size then l else { l with kv := unexpired l.kv now }

/-- The ledger with a value written. An entry that keeps its deadline keeps its
    sequence number. -/
def put (l : Ledger) (key : String) (value : Bytes) (expiresAt : ℚ) : Ledger :=
  let size := Backend.entrySize key value
  match (l.kv.get? key).filter fun e => e.expiresAt = expiresAt with
  | some e => { l with kv := l.kv.set key { e with value := value, size := size } }
  | none => { l with
      kv := l.kv.set key ⟨value, expiresAt, size, l.seq + 1⟩
      seq := l.seq + 1 }

end Ledger

/-- The ledger of a backend. -/
def Backend.ledger (b : Backend) : Ledger := ⟨b.kv, b.seq, b.nextSweepAt⟩

/-- A ledger is that of a backend. -/
structure Backed (l : Ledger) (b : Backend) : Prop where
  seq : l.seq = b.seq
  nextSweepAt : l.nextSweepAt = b.nextSweepAt
  get : ∀ k, l.kv.get? k = b.kv.get? k

theorem backed_ledger (b : Backend) : Backed b.ledger b := ⟨rfl, rfl, fun _ => rfl⟩

/-! ## The next sweep -/

section NextSweep

variable (cfg : MemoryConfig)

theorem nextSweepAt_delete (b : Backend) (key : String) :
    (b.delete cfg key).nextSweepAt = b.nextSweepAt := by
  unfold Backend.delete
  split <;> rfl

theorem nextSweepAt_drainHeap (sc : Scope) (side : Backend.Side) (now : ℚ) (n : Nat)
    (b : Backend) : (Backend.drainHeap cfg sc side now n b).2.nextSweepAt = b.nextSweepAt := by
  induction n generalizing b with
  | zero => rfl
  | succ n ih =>
      unfold Backend.drainHeap
      split
      · rfl
      · split
        · exact ih _
        · split
          · exact (ih _).trans (nextSweepAt_delete cfg _ _)
          · rfl

theorem nextSweepAt_earliestLive (b : Backend) (sc : Scope) (now : ℚ) :
    (b.earliestLive cfg sc now).2.nextSweepAt = b.nextSweepAt :=
  (nextSweepAt_drainHeap cfg sc .draining now _ _).trans
    (nextSweepAt_drainHeap cfg sc .index now _ b)

theorem nextSweepAt_earliestLiveOf (now : ℚ) (scs : List Scope) (b : Backend) :
    (Backend.earliestLiveOf cfg now scs b).2.nextSweepAt = b.nextSweepAt := by
  induction scs generalizing b with
  | nil => rfl
  | cons sc rest ih => exact (ih _).trans (nextSweepAt_earliestLive cfg b sc now)

theorem nextSweepAt_reclaim (b : Backend) (refusal : Refusal) (now : ℚ) :
    (b.reclaim cfg refusal now).2.nextSweepAt = b.nextSweepAt := by
  cases refusal with
  | scope sc => exact nextSweepAt_earliestLive cfg b sc now
  | total => exact nextSweepAt_earliestLiveOf cfg now b.namespaces b

theorem nextSweepAt_sweep (b : Backend) (now : ℚ) :
    (b.sweep cfg now).nextSweepAt = now + cfg.sweepIntervalS := rfl

end NextSweep

/-! ## What keeps to the ledger -/

section Keeps

variable {cfg : MemoryConfig} {l : Ledger} {b : Backend} {key : String}

theorem firstFull_congr {d d' : Dict String Entry} (h : ∀ k, d'.get? k = d.get? k)
    (size : Nat) : firstFull cfg d' key size = firstFull cfg d key size := by
  unfold firstFull
  rw [← List.head?_filter, ← List.head?_filter]
  refine congrArg List.head? (List.filter_congr fun sc _ => ?_)
  rw [decide_eq_decide, scopeRoom_congr (get?_erase_congr h key)]

theorem get?_unexpired_congr {d d' : Dict String Entry} (h : ∀ k, d'.get? k = d.get? k)
    (now : ℚ) (k : String) : (unexpired d' now).get? k = (unexpired d now).get? k := by
  unfold unexpired
  rw [Dict.get?_filter, Dict.get?_filter, h]

theorem get?_withoutExpiredIn_congr {d d' : Dict String Entry} (h : ∀ k, d'.get? k = d.get? k)
    (sc : Scope) (now : ℚ) (k : String) :
    (withoutExpiredIn cfg sc d' now).get? k = (withoutExpiredIn cfg sc d now).get? k := by
  unfold withoutExpiredIn
  rw [Dict.get?_filter, Dict.get?_filter, h]

theorem backed_liveEntry (h : Backed l b) (now : ℚ) :
    Backed (l.look key now) (b.liveEntry cfg key now).2 := by
  unfold Ledger.look Backend.liveEntry
  rw [h.get key]
  cases hget : b.kv.get? key with
  | none =>
      rw [if_neg (by simp only [Option.any_none, Bool.false_eq_true, not_false_eq_true])]
      exact h
  | some e =>
      dsimp only
      rw [Option.any_some]
      by_cases hexp : e.expiresAt ≤ now
      · rw [if_pos (decide_eq_true hexp), if_pos hexp]
        refine ⟨h.seq.trans (delete_seq cfg b key).symm,
          h.nextSweepAt.trans (nextSweepAt_delete cfg b key).symm, fun k => ?_⟩
        rw [delete_kv hget, Dict.get?_erase, Dict.get?_erase, h.get]
      · rw [if_neg (by rwa [decide_eq_true_eq]), if_neg hexp]
        exact h

theorem backed_swept (inv : Inv cfg noKey b) (h : Backed l b) (now : ℚ) :
    Backed (l.swept cfg now) (b.maybeSweep cfg now) := by
  unfold Ledger.swept
  rcases maybeSweep_spec inv now with ⟨hearly, hidle⟩ | ⟨hdue, hswept⟩
  · rw [hidle, if_neg (by rw [h.nextSweepAt]; exact not_le.mpr hearly)]
    exact h
  · rw [if_pos (by rw [h.nextSweepAt]; exact hdue)]
    refine ⟨h.seq.trans hswept.drops.seq.symm, ?_, fun k => ?_⟩
    · unfold Backend.maybeSweep
      rw [if_pos hdue]
      exact (nextSweepAt_sweep cfg b now).symm
    · rw [get?_of_reclaims_any hswept]
      exact get?_unexpired_congr h.get now k

/-- What a reclaim drops is what the ledger drops for it. -/
theorem backed_reclaim (inv : Inv cfg noKey b) (h : Backed l b) (refusal : Refusal) (now : ℚ) :
    Backed { l with kv := match refusal with
      | .scope sc => withoutExpiredIn cfg sc l.kv now
      | .total => unexpired l.kv now } (b.reclaim cfg refusal now).2 := by
  have hdrops := (reclaims_reclaim inv refusal now).drops
  refine ⟨h.seq.trans hdrops.seq.symm, h.nextSweepAt.trans (nextSweepAt_reclaim cfg b _ now).symm,
    fun k => ?_⟩
  cases refusal with
  | scope sc =>
      have hreclaimed : Reclaims cfg (inScope cfg sc) now b (b.reclaim cfg (.scope sc) now).2 :=
        reclaims_reclaim inv (.scope sc) now
      rw [get?_of_reclaims_scope hreclaimed]
      exact get?_withoutExpiredIn_congr h.get sc now k
  | total =>
      have hreclaimed : Reclaims cfg anyKey now b (b.reclaim cfg .total now).2 :=
        reclaims_reclaim inv .total now
      rw [get?_of_reclaims_any hreclaimed]
      exact get?_unexpired_congr h.get now k

theorem backed_write (h : Backed l b) (value : Bytes) (expiresAt : ℚ) :
    Backed (l.put key value expiresAt) (b.write cfg key value expiresAt) := by
  have hset : ∀ (d : Dict String Entry) (e : Entry) (k : String), (∀ k, k ≠ key →
      d.get? k = b.kv.get? k) → (l.kv.set key e).get? k = (d.set key e).get? k := by
    intro d e k hd
    rw [Dict.get?_set, Dict.get?_set]
    by_cases hk : key = k
    · rw [if_pos hk, if_pos hk]
    · rw [if_neg hk, if_neg hk, h.get, hd k (Ne.symm hk)]
  unfold Ledger.put Backend.write
  dsimp only
  rw [h.get key]
  cases hget : b.kv.get? key with
  | none =>
      refine ⟨congrArg (· + 1) h.seq, h.nextSweepAt, fun k => ?_⟩
      change (l.kv.set key ⟨value, expiresAt, _, l.seq + 1⟩).get? k = _
      rw [h.seq]
      exact hset b.kv _ k (fun _ _ => rfl)
  | some e =>
      dsimp only
      rw [Option.filter_some]
      by_cases hsame : e.expiresAt = expiresAt
      · rw [if_pos (decide_eq_true hsame), if_pos hsame]
        exact ⟨h.seq, h.nextSweepAt, fun k => hset b.kv _ k (fun _ _ => rfl)⟩
      · rw [if_neg (by rwa [decide_eq_true_eq]), if_neg hsame]
        refine ⟨?_, h.nextSweepAt.trans (nextSweepAt_delete cfg b key).symm, fun k => ?_⟩
        · change l.seq + 1 = (b.delete cfg key).seq + 1
          rw [delete_seq, h.seq]
        · change (l.kv.set key ⟨value, expiresAt, _, l.seq + 1⟩).get? k =
            ((b.delete cfg key).kv.set key ⟨value, expiresAt, _, (b.delete cfg key).seq + 1⟩).get? k
          rw [h.seq, delete_seq]
          refine hset _ _ k (fun k hk => ?_)
          rw [delete_kv hget, Dict.get?_erase, if_neg (Ne.symm hk)]

end Keeps

/-! ## A store -/

section Store

variable {cfg : MemoryConfig} {l : Ledger} {b : Backend} {key : String} {size : Nat} {now : ℚ}

/-- What is left when a write is checked for the last time. -/
def Backend.checked (cfg : MemoryConfig) (b : Backend) (key : String) (size : Nat) (now : ℚ) :
    Backend :=
  match (b.maybeSweep cfg now).refusingScope cfg key size with
  | none => b.maybeSweep cfg now
  | some refusal => ((b.maybeSweep cfg now).reclaim cfg refusal now).2

theorem inv_maybeSweep (inv : Inv cfg noKey b) (now : ℚ) :
    Inv cfg noKey (b.maybeSweep cfg now) := by
  rcases maybeSweep_spec inv now with ⟨_, hidle⟩ | ⟨_, hswept⟩
  · rw [hidle]
    exact inv
  · exact hswept.inv

theorem inv_checked (inv : Inv cfg noKey b) (key : String) (size : Nat) (now : ℚ) :
    Inv cfg noKey (b.checked cfg key size now) := by
  unfold Backend.checked
  split
  · exact inv_maybeSweep inv now
  · exact (reclaims_reclaim (inv_maybeSweep inv now) _ now).inv

/-- The ledger makes the room a store makes. -/
theorem backed_checked (inv : Inv cfg noKey b) (h : Backed l b) :
    Backed (l.makeRoom cfg key size now) (b.checked cfg key size now) := by
  have hinv := inv_maybeSweep inv now
  have hbacked := backed_swept inv h now
  unfold Backend.checked Ledger.makeRoom
  generalize b.maybeSweep cfg now = b₀ at *
  generalize l.swept cfg now = l₀ at *
  dsimp only
  rw [refusingScope_eq hinv key size, firstFull_congr hbacked.get]
  cases firstFull cfg b₀.kv key size with
  | some sc => exact backed_reclaim hinv hbacked (.scope sc) now
  | none =>
      have hcongr := @totalRoom_congr cfg _ _ (get?_erase_congr hbacked.get key) size
      dsimp only
      by_cases hroom : TotalRoom cfg (b₀.kv.erase key) size
      · rw [if_pos hroom, if_pos (hcongr.mpr hroom)]
        exact hbacked
      · rw [if_neg hroom, if_neg (fun hc => hroom (hcongr.mp hc))]
        exact backed_reclaim hinv hbacked .total now

/-- A store writes where the last check passes, and raises where it does not. -/
theorem store_checked (b : Backend) (key : String) (value : Bytes) (expiresAt now : ℚ) :
    (∀ (_ : (b.checked cfg key (Backend.entrySize key value) now).refusingScope cfg key
        (Backend.entrySize key value) = none), b.store cfg key value expiresAt now =
          (.ok (), (b.checked cfg key (Backend.entrySize key value) now).write cfg key value
            expiresAt)) ∧
    ∀ refusal, (b.checked cfg key (Backend.entrySize key value) now).refusingScope cfg key
        (Backend.entrySize key value) = some refusal →
      ∃ err, (b.store cfg key value expiresAt now).1 = .error err := by
  unfold Backend.store Backend.checked
  dsimp only
  generalize b.maybeSweep cfg now = b₀
  cases hfirst : b₀.refusingScope cfg key (Backend.entrySize key value) with
  | none =>
      refine ⟨fun _ => rfl, fun refusal hsome => ?_⟩
      rw [hfirst] at hsome
      exact absurd hsome (by simp only [reduceCtorEq, not_false_eq_true])
  | some refusal =>
      dsimp only
      refine ⟨fun hnone => ?_, fun refusal' hsome => ?_⟩
      · rw [hnone]
      · rw [hsome]
        exact ⟨_, rfl⟩

/-- A store admits a write exactly where the ledger has room for it, and leaves
    what the ledger leaves then. -/
theorem store_ledger (inv : Inv cfg noKey b) (h : Backed l b) (key : String) (value : Bytes)
    (expiresAt now : ℚ) :
    (Room cfg ((l.makeRoom cfg key (Backend.entrySize key value) now).kv.erase key) key
        (Backend.entrySize key value) →
      (b.store cfg key value expiresAt now).1 = .ok () ∧
        Backed ((l.makeRoom cfg key (Backend.entrySize key value) now).put key value expiresAt)
          (b.store cfg key value expiresAt now).2) ∧
    (¬ Room cfg ((l.makeRoom cfg key (Backend.entrySize key value) now).kv.erase key) key
        (Backend.entrySize key value) →
      ∃ err, (b.store cfg key value expiresAt now).1 = .error err) := by
  have hbacked : Backed (l.makeRoom cfg key (Backend.entrySize key value) now)
      (b.checked cfg key (Backend.entrySize key value) now) := backed_checked inv h
  have hdecides : (b.checked cfg key (Backend.entrySize key value) now).refusingScope cfg key
      (Backend.entrySize key value) = none ↔
      Room cfg ((l.makeRoom cfg key (Backend.entrySize key value) now).kv.erase key) key
        (Backend.entrySize key value) := by
    rw [refusingScope_eq_none_iff, fits_iff_room (inv_checked inv key _ now),
      room_congr (get?_erase_congr hbacked.get key)]
  rcases @store_checked cfg b key value expiresAt now with ⟨hwrites, hraises⟩
  constructor
  · intro hroom
    rw [hwrites (hdecides.mpr hroom)]
    exact ⟨rfl, backed_write hbacked value expiresAt⟩
  · intro hroom
    rcases Option.ne_none_iff_exists'.mp (fun hnone => hroom (hdecides.mp hnone)) with
      ⟨refusal, hsome⟩
    exact hraises refusal hsome

end Store

end State

end JenticOne
