import JenticOne.Library.TokenBucket
import JenticOne.State.NoLostEntry

/-!
# Token Buckets and Sweeps

The buckets of a backend, call by call, are the buckets of the library: the
decisions on a key are a function of the calls on it, whatever else is called
in between and whichever buckets a sweep drops.

A sweep takes the bucket of an item off the index where the bucket's own refill
time is the item's. An item left behind by an earlier call has another refill
time, so a bucket that is refilling stays. One that goes has refilled at the
time of the sweep, and stays full from then on: a later call finds what a new
bucket would hold. `Tracks` says this between the backend and a bucket that is
never dropped.

All of it is for a rate that is not negative. Where tokens drain away, a full
bucket does not stay full, and an interval grants more than its bound.

## Main definitions

* `takes`: The calls of a run on one bucket, with their decisions.
* `BucketLaw`: What the documentation promises of them.
* `decisionOf`: The decisions of a bucket that is never dropped.
* `Tracks`: The backend has such a bucket, or could have dropped it.

## Theorems

* `takes_eq`: The decisions of a run.
* `bucketLaw`: The law, for rates and bursts that are not negative.
* `drainingBucket_breaks`: A negative rate.
-/

namespace JenticOne

namespace State

/-- A call on a bucket, with the time it was made and its decision. -/
structure Take where
  cost : Int
  time : ℚ
  decision : RateLimitDecision

/-- What a call does with the bucket of a key. -/
def Op.takeOn (cfg : MemoryConfig) (key : String) (w : World) : Op → Option Take
  | .tokenBucket k rate burst cost now =>
      if k = key then some ⟨cost, now, (w.tokenBucket cfg k rate burst cost now).1⟩ else none
  | _ => none

/-- The calls of a sequence on the bucket of a key, in order. -/
def takes (cfg : MemoryConfig) (key : String) : World → List Op → List Take
  | _, [] => []
  | w, op :: rest => (op.takeOn cfg key w).toList ++ takes cfg key (op.run cfg w) rest

/-- A call on the bucket of a key is at a rate and a burst. -/
def Op.constantOn (key : String) (rate : ℚ) (burst : Int) : Op → Prop
  | .tokenBucket k rate' burst' _ _ => k = key → rate' = rate ∧ burst' = burst
  | _ => True

/-- What the allowed calls between two times cost. -/
def allowedCost (lo hi : ℚ) (ts : List Take) : ℚ :=
  ((ts.filter (fun t => t.decision.allowed ∧ lo ≤ t.time ∧ t.time ≤ hi)).map
    (fun t => (t.cost : ℚ))).sum

/-- A backend as constructed, with nothing seen of it. -/
def fresh (cfg : MemoryConfig) (start : ℚ) : World := ⟨Backend.new cfg start, start, []⟩

/-- A backend constructed at a time whose first sweep is due after every
    reading of a sequence of calls. -/
def NeverSweeps (cfg : MemoryConfig) (start : ℚ) (ops : List Op) : Prop :=
  ∀ op ∈ ops, ∀ t ∈ op.readings, t < start + cfg.sweepIntervalS

/-- Over every interval the allowed calls on a key cost the burst and what the
    rate adds, at most, and every call is decided as on a backend that never
    sweeps. -/
def BucketLaw (cfg : MemoryConfig) (start : ℚ) (key : String) (rate : ℚ) (burst : Int)
    (ops : List Op) : Prop :=
  (∀ lo length, 0 ≤ length →
    allowedCost lo (lo + length) (takes cfg key (fresh cfg start) ops) ≤
      burst + rate * length) ∧
  ∀ cfg' start', NeverSweeps cfg' start' ops →
    takes cfg' key (fresh cfg' start') ops = takes cfg key (fresh cfg start) ops

/-! ## What leaves the buckets alone -/

section Buckets

variable {cfg : MemoryConfig} {b : Backend}

theorem buckets_delete (b : Backend) (key : String) : (b.delete cfg key).buckets = b.buckets := by
  unfold Backend.delete
  split <;> rfl

theorem buckets_drainHeap {sc : Scope} {side : Backend.Side} {n : Nat} (now : ℚ)
    (hn : ∀ u, b.usage.get? sc = some u → (side.heap u).length ≤ n) :
    (Backend.drainHeap cfg sc side now n b).2.buckets = b.buckets :=
  (drainHeap_rule cfg (P := fun b' => b'.buckets = b.buckets) (fun _ _ _ _ h _ _ _ => h)
    (fun _ _ _ _ h _ _ _ _ => (buckets_delete _ _).trans h) rfl hn).1

theorem buckets_earliestLive (sc : Scope) (now : ℚ) :
    (b.earliestLive cfg sc now).2.buckets = b.buckets :=
  (buckets_drainHeap now (fun _ hu => heapLength_le hu)).trans
    (buckets_drainHeap now (fun _ hu => heapLength_le hu))

theorem buckets_earliestLiveOf {now : ℚ} {scs : List Scope} :
    (Backend.earliestLiveOf cfg now scs b).2.buckets = b.buckets := by
  induction scs generalizing b with
  | nil => rfl
  | cons sc rest ih => exact ih.trans (buckets_earliestLive sc now)

theorem buckets_reclaim (b : Backend) (refusal : Refusal) (now : ℚ) :
    (b.reclaim cfg refusal now).2.buckets = b.buckets := by
  cases refusal with
  | scope sc => exact buckets_earliestLive sc now
  | total => exact buckets_earliestLiveOf

theorem buckets_liveEntry (b : Backend) (key : String) (now : ℚ) :
    (b.liveEntry cfg key now).2.buckets = b.buckets := by
  unfold Backend.liveEntry
  split
  · rfl
  · split
    · exact buckets_delete b key
    · rfl

theorem buckets_write (b : Backend) (key : String) (value : Bytes) (expiresAt : ℚ) :
    (b.write cfg key value expiresAt).buckets = b.buckets := by
  unfold Backend.write
  dsimp only
  split
  · split
    · rfl
    · exact buckets_delete b key
  · rfl

end Buckets

/-! ## A bucket that is never dropped -/

/-- A call on a bucket that is never dropped. -/
def decisionOf (rate : ℚ) (burst cost : Int) (now : ℚ) (s : Option (TokenBucket ℚ)) :
    RateLimitDecision × TokenBucket ℚ :=
  let (allowed, bucket) := TokenBucket.take rate burst s ⟨cost, now⟩
  (⟨allowed, truncate bucket.tokens,
    if allowed then 0
    else if 0 < rate then (((cost - bucket.tokens) / rate : ℚ) : WithTop ℚ) else ⊤, burst⟩,
    bucket)

/-- The backend has the bucket of a key as one that is never dropped would be,
    or it has dropped it and that one is full from now on. -/
structure Tracks (key : String) (rate : ℚ) (burst : Int) (later : List ℚ) (b : Backend)
    (s : Option (TokenBucket ℚ)) : Prop where
  kept : ∀ bucket, b.buckets.get? key = some bucket →
    s = some ⟨bucket.tokens, bucket.updatedAt⟩ ∧
      bucket.fullAt = (fullAt bucket.tokens bucket.updatedAt rate burst : WithTop ℚ)
  dropped : b.buckets.get? key = none → ∀ t ∈ later, TokenBucket.level rate burst t s = burst

/-- A bucket is full from its refill time on. -/
theorem level_of_fullAt {tokens updatedAt rate : ℚ} {burst : Int} (hrate : 0 ≤ rate) {now t : ℚ}
    (h : ((fullAt tokens updatedAt rate burst : WithTop ℚ) : WithBot (WithTop ℚ)) ≤
      ((now : WithTop ℚ) : WithBot (WithTop ℚ))) (hle : now ≤ t) :
    TokenBucket.level rate burst t (some ⟨tokens, updatedAt⟩) = burst := by
  refine min_eq_left ?_
  dsimp only
  rw [WithBot.coe_le_coe] at h
  unfold fullAt at h
  dsimp only at h
  have helapsed : 0 ≤ max 0 (t - updatedAt) * rate := mul_nonneg (le_max_left 0 _) hrate
  split at h
  · rename_i hmissing
    linarith
  · split at h
    · rename_i hmissing hpos
      rw [WithTop.coe_le_coe] at h
      have hquot : (burst - tokens) / rate ≤ t - updatedAt := by linarith
      rw [div_le_iff₀ hpos] at hquot
      have hmax : (t - updatedAt) * rate ≤ max 0 (t - updatedAt) * rate :=
        mul_le_mul_of_nonneg_right (le_max_right 0 _) hrate
      linarith
    · exact absurd h (not_le.mpr (WithTop.coe_lt_top now))

section Tracking

variable {cfg : MemoryConfig} {key : String} {rate : ℚ} {burst : Int} {later : List ℚ}
  {b b' : Backend} {s : Option (TokenBucket ℚ)}

theorem tracks_congr (h : Tracks key rate burst later b s)
    (hbuckets : b'.buckets.get? key = b.buckets.get? key) : Tracks key rate burst later b' s :=
  ⟨fun bucket hb => h.kept bucket (by rw [← hbuckets]; exact hb),
    fun hnone => h.dropped (by rw [← hbuckets]; exact hnone)⟩

theorem tracks_mono {later' : List ℚ} (h : Tracks key rate burst later b s)
    (hsub : ∀ t ∈ later', t ∈ later) : Tracks key rate burst later' b s :=
  ⟨h.kept, fun hnone t ht => h.dropped hnone t (hsub t ht)⟩

/-- A sweep drops the bucket only where it has refilled. -/
theorem tracks_sweepBuckets (hrate : 0 ≤ rate) {now : ℚ} (hlater : ∀ t ∈ later, now ≤ t)
    (n : Nat) (h : Tracks key rate burst later b s) :
    Tracks key rate burst later (Backend.sweepBuckets now n b) s := by
  induction n generalizing b with
  | zero => exact h
  | succ n ih =>
      unfold Backend.sweepBuckets
      split
      · exact h
      · rename_i item rest hpop
        split
        · rename_i hdue
          dsimp only
          split
          · rename_i hrefilled
            refine ih ⟨fun bucket hb => ?_, fun hnone t ht => ?_⟩
            · dsimp only at hb
              rw [Dict.get?_erase] at hb
              split at hb
              · exact absurd hb (by simp only [reduceCtorEq, not_false_eq_true])
              · exact h.kept bucket hb
            · dsimp only at hnone
              rw [Dict.get?_erase] at hnone
              split at hnone
              · -- The bucket of the key is the one that goes.
                rename_i hkey
                rcases (Option.any_eq_true _ _).mp hrefilled with ⟨bucket, hb, hfull⟩
                rw [hkey] at hb
                rcases h.kept bucket hb with ⟨hs, hat⟩
                rw [hs]
                refine level_of_fullAt hrate ?_ (hlater t ht)
                rw [← hat, of_decide_eq_true hfull]
                exact hdue
              · exact h.dropped hnone t ht
          · exact ih (tracks_congr h rfl)
        · exact h

theorem tracks_maybeSweep (cfg : MemoryConfig) (hrate : 0 ≤ rate) {now : ℚ} (hlater : ∀ t ∈ later, now ≤ t)
    (h : Tracks key rate burst later b s) :
    Tracks key rate burst later (b.maybeSweep cfg now) s := by
  unfold Backend.maybeSweep
  split
  · unfold Backend.sweep
    dsimp only
    have hdrained : Tracks key rate burst later (b.earliestLiveAnywhere cfg now).2 s :=
      tracks_congr h (by
        rw [show (b.earliestLiveAnywhere cfg now).2.buckets = b.buckets from
          buckets_earliestLiveOf])
    exact tracks_congr (tracks_sweepBuckets hrate hlater _ hdrained) rfl
  · exact h

theorem tracks_store (hrate : 0 ≤ rate) (k : String) (value : Bytes) (expiresAt : ℚ) {now : ℚ}
    (hlater : ∀ t ∈ later, now ≤ t) (h : Tracks key rate burst later b s) :
    Tracks key rate burst later (b.store cfg k value expiresAt now).2 s := by
  rcases store_rule (P := fun b' => Tracks key rate burst later b' s)
    (tracks_maybeSweep cfg hrate hlater h)
    (fun b₁ refusal h₁ => tracks_congr h₁ (by rw [buckets_reclaim])) k value expiresAt with
    ⟨b₁, h₁, ⟨hok, _⟩ | ⟨err, herr⟩⟩
  · rw [hok]
    exact tracks_congr h₁ (by rw [buckets_write])
  · rw [herr]
    exact h₁

theorem get?_reindexBucket (b : Backend) (k : String) (bucket : Bucket)
    (full : WithBot (WithTop ℚ)) (k' : String) :
    (b.reindexBucket k bucket full).buckets.get? k' =
      if k = k' then some { bucket with fullAt := full } else b.buckets.get? k' := by
  unfold Backend.reindexBucket
  split
  · rename_i hsame
    dsimp only
    rw [Dict.get?_set, hsame]
  · dsimp only
    rw [Dict.get?_set]

/-- A call on another bucket. -/
theorem tracks_tokenBucket_of_ne (hrate : 0 ≤ rate) {k : String} (hne : k ≠ key) (rate' : ℚ)
    (burst' cost : Int) {now : ℚ} (hlater : ∀ t ∈ later, now ≤ t)
    (h : Tracks key rate burst later b s) :
    Tracks key rate burst later (b.tokenBucket cfg k rate' burst' cost now).2 s := by
  refine tracks_congr (tracks_maybeSweep cfg hrate hlater h) ?_
  unfold Backend.tokenBucket
  dsimp only
  rw [get?_reindexBucket, if_neg hne]

/-- A call on the bucket decides as one that is never dropped would. -/
theorem tracks_tokenBucket (hrate : 0 ≤ rate) (cost : Int) {now : ℚ}
    (hlater : ∀ t ∈ later, now ≤ t) (h : Tracks key rate burst (now :: later) b s) :
    (b.tokenBucket cfg key rate burst cost now).1 = (decisionOf rate burst cost now s).1 ∧
      Tracks key rate burst later (b.tokenBucket cfg key rate burst cost now).2
        (some (decisionOf rate burst cost now s).2) := by
  have hswept : Tracks key rate burst (now :: later) (b.maybeSweep cfg now) s := by
    refine tracks_maybeSweep cfg hrate (fun t ht => ?_) h
    rcases List.mem_cons.mp ht with rfl | ht
    · exact le_refl t
    · exact hlater t ht
  unfold Backend.tokenBucket
  dsimp only
  generalize b.maybeSweep cfg now = b₀ at *
  have hlevel : min (burst : ℚ) (((b₀.buckets.get? key).getD ⟨burst, now, ⊥⟩).tokens +
      max 0 (now - ((b₀.buckets.get? key).getD ⟨burst, now, ⊥⟩).updatedAt) * rate) =
      TokenBucket.level rate burst now s := by
    cases hget : b₀.buckets.get? key with
    | none =>
        rw [hswept.dropped hget now List.mem_cons_self]
        dsimp only [Option.getD_none]
        rw [sub_self, max_self, zero_mul, add_zero, min_self]
    | some bucket =>
        rw [(hswept.kept bucket hget).1]
        rfl
  rw [hlevel]
  unfold decisionOf TokenBucket.take
  dsimp only
  simp only [decide_eq_true_eq]
  refine ⟨trivial, fun bucket hb => ?_, fun hnone => ?_⟩
  · rw [get?_reindexBucket, if_pos rfl, Option.some.injEq] at hb
    rw [← hb]
    exact ⟨rfl, rfl⟩
  · rw [get?_reindexBucket, if_pos rfl] at hnone
    exact absurd hnone (by simp only [reduceCtorEq, not_false_eq_true])

end Tracking

/-! ## Runs -/

/-- The cost and the time of a call on the bucket of a key. -/
def Op.callOn (key : String) : Op → Option (Int × ℚ)
  | .tokenBucket k _ _ cost now => if k = key then some (cost, now) else none
  | _ => none

/-- Calls on a bucket that is never dropped. -/
def unswept (rate : ℚ) (burst : Int) : Option (TokenBucket ℚ) → List (Int × ℚ) → List Take
  | _, [] => []
  | s, (cost, now) :: rest =>
      ⟨cost, now, (decisionOf rate burst cost now s).1⟩ ::
        unswept rate burst (some (decisionOf rate burst cost now s).2) rest

theorem unswept_cons (rate : ℚ) (burst cost : Int) (now : ℚ) (s : Option (TokenBucket ℚ))
    (rest : List (Int × ℚ)) : unswept rate burst s ((cost, now) :: rest) =
      ⟨cost, now, (decisionOf rate burst cost now s).1⟩ ::
        unswept rate burst (some (decisionOf rate burst cost now s).2) rest := rfl

theorem callOn_tokenBucket (key k : String) (rate : ℚ) (burst cost : Int) (now : ℚ) :
    (Op.tokenBucket k rate burst cost now).callOn key =
      if k = key then some (cost, now) else none := rfl

theorem takeOn_tokenBucket (cfg : MemoryConfig) (key : String) (w : World) (k : String) (rate : ℚ)
    (burst cost : Int) (now : ℚ) : (Op.tokenBucket k rate burst cost now).takeOn cfg key w =
      if k = key then some ⟨cost, now, (w.tokenBucket cfg k rate burst cost now).1⟩ else none := rfl

section Runs

variable {cfg : MemoryConfig} {key : String} {rate : ℚ} {burst : Int}

/-- A call that is not on the bucket leaves it tracked. -/
theorem tracks_run (hrate : 0 ≤ rate) {later : List ℚ} {w : World}
    {s : Option (TokenBucket ℚ)} {op : Op} (hother : op.callOn key = none)
    (hlater : ∀ a ∈ op.readings, ∀ t ∈ later, a ≤ t)
    (h : Tracks key rate burst later w.backend s) :
    Tracks key rate burst later (op.run cfg w).backend s := by
  refine run_rule (P := fun b => Tracks key rate burst later b s)
    (T := fun now => ∀ t ∈ later, now ≤ t)
    (fun b k now _ hb => tracks_congr hb (by rw [buckets_liveEntry]))
    (fun b k value expiresAt now hnow hb => tracks_store hrate k value expiresAt hnow hb)
    (fun b k rate' burst' cost now hop hnow hb => ?_) h hlater
  refine tracks_tokenBucket_of_ne hrate (fun hkey => ?_) rate' burst' cost hnow hb
  rw [hop, hkey] at hother
  rw [callOn_tokenBucket, if_pos rfl] at hother
  exact absurd hother (by simp only [reduceCtorEq, not_false_eq_true])

theorem takeOn_of_callOn_eq_none {w : World} {op : Op} (h : op.callOn key = none) :
    op.takeOn cfg key w = none := by
  cases op with
  | tokenBucket k rate' burst' cost now =>
      rw [callOn_tokenBucket] at h
      rw [takeOn_tokenBucket]
      split at h
      · exact absurd h (by simp only [reduceCtorEq, not_false_eq_true])
      · rename_i hne
        exact if_neg hne
  | _ => rfl

theorem eq_of_callOn {op : Op} {cost : Int} {now : ℚ} (h : op.callOn key = some (cost, now))
    (hconst : op.constantOn key rate burst) : op = .tokenBucket key rate burst cost now := by
  cases op with
  | tokenBucket k rate' burst' cost' now' =>
      rw [callOn_tokenBucket] at h
      split at h
      · rename_i hkey
        rcases hconst hkey with ⟨hr, hb⟩
        rw [Option.some.injEq, Prod.mk.injEq] at h
        rw [hkey, hr, hb, h.1, h.2]
      · exact absurd h (by simp only [reduceCtorEq, not_false_eq_true])
  | _ => exact absurd h (by simp only [Op.callOn, reduceCtorEq, not_false_eq_true])

/-- The decisions of a run are those of a bucket that is never dropped. -/
theorem takes_eq (hrate : 0 ≤ rate) {ops : List Op} {w : World} {s : Option (TokenBucket ℚ)}
    (hconst : ∀ op ∈ ops, op.constantOn key rate burst)
    (hclock : (ops.flatMap Op.readings).Pairwise (· ≤ ·))
    (h : Tracks key rate burst (ops.flatMap Op.readings) w.backend s) :
    takes cfg key w ops = unswept rate burst s (ops.filterMap (Op.callOn key)) := by
  induction ops generalizing w s with
  | nil => rfl
  | cons op rest ih =>
      rw [List.flatMap_cons] at hclock h
      rcases List.pairwise_append.mp hclock with ⟨_, hclock', hlater⟩
      have hconst' := fun op' hop' => hconst op' (List.mem_cons_of_mem op hop')
      unfold takes
      cases hcall : op.callOn key with
      | none =>
          rw [List.filterMap_cons_none hcall, takeOn_of_callOn_eq_none hcall]
          exact ih hconst' hclock' (tracks_run hrate hcall hlater
            (tracks_mono h (fun t ht => List.mem_append_right _ ht)))
      | some call =>
          rcases call with ⟨cost, now⟩
          rw [List.filterMap_cons_some hcall]
          have hop := eq_of_callOn hcall (hconst op List.mem_cons_self)
          rw [hop] at hlater h ⊢
          rcases tracks_tokenBucket hrate cost (hlater now List.mem_cons_self) h with
            ⟨hdecision, htracks⟩
          have hrest := ih hconst' hclock' (w := (Op.tokenBucket key rate burst cost now).run cfg w)
            htracks
          rw [hrest, unswept_cons, takeOn_tokenBucket, if_pos rfl]
          change Take.mk cost now (w.backend.tokenBucket cfg key rate burst cost now).1 :: _ = _
          rw [hdecision]
          rfl

theorem tracks_fresh (cfg : MemoryConfig) (start : ℚ) (later : List ℚ) :
    Tracks key rate burst later (fresh cfg start).backend none :=
  ⟨fun _ hb => absurd hb (by
    simp only [fresh, Backend.new, Dict.get?_empty, reduceCtorEq, not_false_eq_true]),
    fun _ _ _ => rfl⟩

/-- What the allowed calls cost is what the granted requests take. -/
theorem allowedCost_unswept (lo hi : ℚ) (s : Option (TokenBucket ℚ)) (calls : List (Int × ℚ)) :
    allowedCost lo hi (unswept rate burst s calls) =
      TokenBucket.spent lo hi (TokenBucket.serve rate burst s
        (calls.map (fun c => ⟨(c.1 : ℚ), c.2⟩))) := by
  induction calls generalizing s with
  | nil => rfl
  | cons call rest ih =>
      rcases call with ⟨cost, now⟩
      have hrest := ih (some (decisionOf rate burst cost now s).2)
      rw [unswept_cons, List.map_cons]
      unfold TokenBucket.serve
      by_cases hin : (decisionOf rate burst cost now s).1.allowed = true ∧ lo ≤ now ∧ now ≤ hi
      · rw [TokenBucket.spent_cons_of_inside _ hin]
        unfold allowedCost at hrest ⊢
        rw [List.filter_cons_of_pos (by rw [decide_eq_true_eq]; exact hin), List.map_cons,
          List.sum_cons, hrest]
        rfl
      · rw [TokenBucket.spent_cons_of_outside _ hin]
        unfold allowedCost at hrest ⊢
        rw [List.filter_cons_of_neg (by rw [decide_eq_true_eq]; exact hin), hrest]
        rfl

/-- The calls on a bucket are made at readings of the clock, in their order. -/
theorem times_sublist (key : String) (ops : List Op) :
    ((ops.filterMap (Op.callOn key)).map Prod.snd).Sublist (ops.flatMap Op.readings) := by
  induction ops with
  | nil => exact List.Sublist.refl _
  | cons op rest ih =>
      rw [List.flatMap_cons]
      cases hcall : op.callOn key with
      | none =>
          rw [List.filterMap_cons_none hcall]
          exact ih.trans (List.sublist_append_right _ _)
      | some call =>
          rw [List.filterMap_cons_some hcall, List.map_cons]
          have hread : op.readings = [call.2] := by
            cases op with
            | tokenBucket k rate' burst' cost now =>
                rw [callOn_tokenBucket] at hcall
                split at hcall
                · rw [Option.some.injEq] at hcall
                  rw [← hcall]
                  rfl
                · exact absurd hcall (by simp only [reduceCtorEq, not_false_eq_true])
            | _ => exact absurd hcall (by simp only [Op.callOn, reduceCtorEq, not_false_eq_true])
          rw [hread]
          exact ih.cons_cons call.2

end Runs

/-- For a rate and a burst that are not negative the law holds of every sequence
    of calls. -/
theorem bucketLaw {cfg : MemoryConfig} {start : ℚ} {key : String} {rate : ℚ} {burst : Int}
    {ops : List Op} (hrate : 0 ≤ rate) (hburst : 0 ≤ burst)
    (hconst : ∀ op ∈ ops, op.constantOn key rate burst)
    (hclock : (ops.flatMap Op.readings).Pairwise (· ≤ ·)) :
    BucketLaw cfg start key rate burst ops := by
  have hrun : ∀ cfg' start', takes cfg' key (fresh cfg' start') ops =
      unswept rate burst none (ops.filterMap (Op.callOn key)) := fun cfg' start' =>
    takes_eq hrate hconst hclock (tracks_fresh cfg' start' _)
  refine ⟨fun lo length hlength => ?_, fun cfg' start' _ => ?_⟩
  · rw [hrun, allowedCost_unswept]
    have hsorted : (((ops.filterMap (Op.callOn key)).map
        (fun c => (⟨(c.1 : ℚ), c.2⟩ : TokenBucket.Request ℚ))).map
          TokenBucket.Request.time).Pairwise (· ≤ ·) := by
      rw [List.map_map]
      exact hclock.sublist (times_sublist key ops)
    have hle : lo ≤ lo + length := le_add_of_nonneg_right hlength
    have hbound := TokenBucket.spent_le hrate (Int.cast_nonneg hburst) hle (b := none)
      (fun _ hx => absurd hx (Option.not_mem_none _)) hsorted
    rw [add_sub_cancel_left] at hbound
    exact hbound
  · rw [hrun, hrun]

/-- Two requests at once and one after the bucket has been swept. -/
def sweptBucketOps : List Op :=
  [.tokenBucket "a" 1 2 1 0, .tokenBucket "a" 1 2 2 0, .set "k" [1] 10 40,
    .tokenBucket "a" 1 2 2 41]

theorem bucketLaw_swept : BucketLaw exampleConfig 0 "a" 1 2 sweptBucketOps :=
  bucketLaw (by norm_num) (by norm_num)
    (by
      intro op hop
      simp only [sweptBucketOps, List.mem_cons, List.not_mem_nil, or_false] at hop
      rcases hop with rfl | rfl | rfl | rfl
      · exact fun _ => ⟨rfl, rfl⟩
      · exact fun _ => ⟨rfl, rfl⟩
      · trivial
      · exact fun _ => ⟨rfl, rfl⟩)
    (by
      change [(0 : ℚ), 0, 40, 41].Pairwise (· ≤ ·)
      norm_num)

/-- A rate that takes tokens away: one call spends the burst, which is more than
    the bound of an interval of a second. -/
theorem drainingBucket_breaks :
    ¬ ∀ (cfg : MemoryConfig) (start : ℚ) (key : String) (rate : ℚ) (burst : Int) (ops : List Op),
      (∀ op ∈ ops, op.constantOn key rate burst) →
      (ops.flatMap Op.readings).Pairwise (· ≤ ·) → BucketLaw cfg start key rate burst ops := by
  intro h
  have hlaw := h exampleConfig 0 "a" (-1) 1 [.tokenBucket "a" (-1) 1 1 0]
    (fun op hop => by
      rw [List.mem_singleton] at hop
      rw [hop]
      exact fun _ => ⟨rfl, rfl⟩)
    (List.pairwise_singleton _ _)
  have hbound := hlaw.1 0 1 zero_le_one
  have hcost : allowedCost 0 (0 + 1)
      (takes exampleConfig "a" (fresh exampleConfig 0) [.tokenBucket "a" (-1) 1 1 0]) = 1 := by
    decide +kernel
  rw [hcost] at hbound
  norm_num at hbound

end State

end JenticOne
