import JenticOne.Events.GateKeys

/-!
# The Gate Hides No Event

The two buckets that the gate adds up cover the window of the scan, and an entry
of the store outlives the second of them, so the estimate is at least what a scan
could count. A failure whose increment may have been lost keeps the gate open
for longer than its record is in the window. A marker ends with an event that
was found, which stays in the database, so while the marker is there the scan
finds that event. A severity the scan could pick is a possible one of the
estimate; if all of these are marked, the scan finds an event.

The digest of a key is half of a SHA-256 digest. `TellsApart` says that it does
not collide on what a run has hashed.

## Main definitions

* `Known`: A failure has had the key.
* `TellsApart`: No collision in a run.
* `Inv`: The invariant.

## Theorems

* `inv_passGate`, `inv_stepScan`, `inv_stepNote`: What the steps keep.
* `inv_step`: A step keeps the invariant.
* `count_le_estimate`: The estimate bounds the scan's count.
* `skipped_scan_emits_nothing`: Where the gate skips the scan, it emits nothing.
-/

namespace JenticOne

namespace Events

variable {cfg : SecurityConfig} {sha256 : Text → Text} {s s' : State}

/-- A failure has had the key. -/
def Known (s : State) (key : AxisKey) : Prop := ∃ c ∈ s.failures, c.record.key = some key

/-- The digests of the keys that have failed differ where what is hashed does. -/
def TellsApart (sha256 : Text → Text) (s : State) : Prop :=
  ∀ key key', Known s key → Known s key' → (sha256 key.raw).take 32 = (sha256 key'.raw).take 32 →
    key.raw = key'.raw

theorem eq_of_digest_eq {key key' : AxisKey} (h : TellsApart sha256 s) (hkey : Known s key)
    (hkey' : Known s key') (he : key.digest sha256 = key'.digest sha256) : key = key' :=
  raw_injective (h key key' hkey hkey' he)

/-- The store has answered a failure of the key in the bucket. -/
def Counted.isIn (cfg : SecurityConfig) (key : AxisKey) (bucket : Int) (c : Counted) : Bool :=
  c.record.key = some key && !c.lost && bucketOf cfg c.at_ = bucket

/-- The last value written under a key. -/
def value (st : Store) (key : Text) : Nat := ((st.store key).map Prod.fst).getD 0

section Invariant

variable (cfg sha256)

structure Inv (s : State) : Prop where
  /-- A bucket counts at least the failures that were counted in it. -/
  counted : ∀ key b, s.failures.countP (Counted.isIn cfg key b) ≤
    value s.store (bucketKey sha256 key cfg.windowS b)
  /-- A bucket lives to the end of the next one. -/
  lasting : ∀ key b v d, s.store.store (bucketKey sha256 key cfg.windowS b) = some (v, d) →
    ((b : ℚ) + 2) * cfg.windowS ≤ d
  lost : ∀ c ∈ s.failures, c.lost = true →
    ∃ d, s.degradedUntil = some d ∧ c.at_ + cfg.spanS ≤ d
  past : ∀ c ∈ s.failures, c.at_ ≤ s.store.clock
  started : ∀ c ∈ s.failures, c.record.startedAt.timestamp ≤ c.at_
  /-- A marker stands for an event and ends with its time in the window. -/
  marker : ∀ key severity v d,
    s.store.store (markerKey sha256 key cfg.windowS severity) = some (v, d) →
    ∃ e ∈ s.events, e.key.digest sha256 = key.digest sha256 ∧ Known s e.key ∧
      severity ∈ e.severity.dedupCovers ∧ d ≤ e.createdAt.timestamp + cfg.windowS
  scanning : ∀ key ∈ s.scanning, Known s key
  noting : ∀ p ∈ s.noting, p.2 ∈ s.events ∧ p.2.key = p.1 ∧ Known s p.1

end Invariant

/-! ## The gate -/

section Gate

variable {record : Record} {key : AxisKey} {answer : Answer}

/-- The increment of a bucket adds one to what was written last: an entry of the
    current bucket has not expired. -/
theorem incr_bucket (h : Inv cfg sha256 s) (key : AxisKey) :
    ∃ d, ((bucketOf cfg s.store.clock : ℚ) + 2) * cfg.windowS ≤ d ∧
      incr s.store cfg.spanS (bucketKey sha256 key cfg.windowS (bucketOf cfg s.store.clock)) =
        (value s.store (bucketKey sha256 key cfg.windowS (bucketOf cfg s.store.clock)) + 1,
          s.store.write (bucketKey sha256 key cfg.windowS (bucketOf cfg s.store.clock))
            (value s.store (bucketKey sha256 key cfg.windowS (bucketOf cfg s.store.clock)) + 1)
            d) := by
  have hclock := bucketOf_mul_le cfg s.store.clock
  have hnext := lt_bucketOf_mul cfg s.store.clock
  have hwindow := windowS_pos cfg
  rcases incr_spec s.store cfg.spanS
    (bucketKey sha256 key cfg.windowS (bucketOf cfg s.store.clock)) with
    ⟨count, d, hincr, ⟨hdead, rfl, rfl⟩ | hlive⟩
  · have hvalue : value s.store
        (bucketKey sha256 key cfg.windowS (bucketOf cfg s.store.clock)) = 0 := by
      unfold value
      cases hstore : s.store.store
        (bucketKey sha256 key cfg.windowS (bucketOf cfg s.store.clock)) with
      | none => rfl
      | some entry =>
          have hlasting := h.lasting key _ entry.1 entry.2 hstore
          rw [TtlStore.live_of_store hstore, if_pos (by linarith)] at hdead
          exact absurd hdead (by simp only [reduceCtorEq, not_false_eq_true])
    refine ⟨s.store.clock + cfg.spanS, ?_, by rw [hvalue]; exact hincr⟩
    rw [spanS_eq]
    linarith
  · have hstore : s.store.store (bucketKey sha256 key cfg.windowS
        (bucketOf cfg s.store.clock)) = some (count, d) :=
      (Option.filter_eq_some_iff.mp hlive).1
    have hvalue : value s.store
        (bucketKey sha256 key cfg.windowS (bucketOf cfg s.store.clock)) = count := by
      rw [value, hstore]
      rfl
    exact ⟨d, h.lasting key _ count d hstore, by rw [hvalue]; exact hincr⟩

/-- What the gate leaves in the store: nothing new, or one more in the bucket. -/
theorem gate_store (h : Inv cfg sha256 s) (key : AxisKey) (answer : Answer) :
    (gate cfg sha256 s key answer).2.1 = s.store ∧ answer ≠ .served ∨
    ∃ d, ((bucketOf cfg s.store.clock : ℚ) + 2) * cfg.windowS ≤ d ∧
      (gate cfg sha256 s key answer).2.1 =
        s.store.write (bucketKey sha256 key cfg.windowS (bucketOf cfg s.store.clock))
          (value s.store (bucketKey sha256 key cfg.windowS (bucketOf cfg s.store.clock)) + 1)
          d := by
  rcases incr_bucket h key with ⟨d, hd, hincr⟩
  have hcalled : (incrAll cfg.spanS s.store
      [bucketKey sha256 key cfg.windowS (bucketOf cfg s.store.clock)]).2 =
        s.store.write (bucketKey sha256 key cfg.windowS (bucketOf cfg s.store.clock))
          (value s.store (bucketKey sha256 key cfg.windowS (bucketOf cfg s.store.clock)) + 1)
          d := by
    rw [incrAll, incrAll, hincr]
  cases answer with
  | served => exact .inr ⟨d, hd, hcalled⟩
  | raised applied =>
      cases applied with
      | true => exact .inr ⟨d, hd, hcalled⟩
      | false => exact .inl ⟨rfl, by simp only [ne_eq, reduceCtorEq, not_false_eq_true]⟩

theorem gate_clock (h : Inv cfg sha256 s) (key : AxisKey) (answer : Answer) :
    (gate cfg sha256 s key answer).2.1.clock = s.store.clock := by
  rcases gate_store h key answer with ⟨hstore, _⟩ | ⟨d, _, hstore⟩
  · rw [hstore]
  · rw [hstore]
    rfl

theorem gate_degradedUntil (key : AxisKey) (answer : Answer) :
    (gate cfg sha256 s key answer).2.2 =
      if answer = .served then s.degradedUntil else some (s.store.clock + cfg.spanS) := by
  cases answer with
  | served => rfl
  | raised applied => rfl

variable (hkey : record.key = some key)

theorem known_passGate {k : AxisKey} (h : Known s k) :
    Known (passGate cfg sha256 s record key answer) k := by
  rcases h with ⟨c, hc, hk⟩
  exact ⟨c, List.mem_append_left _ hc, hk⟩

include hkey in
theorem known_passGate_self : Known (passGate cfg sha256 s record key answer) key :=
  ⟨_, List.mem_append_right _ List.mem_cons_self, hkey⟩

include hkey in
/-- The buckets keep up with the failure that has been counted. -/
theorem counted_passGate (h : Inv cfg sha256 s) (k : AxisKey) (b : Int) :
    (passGate cfg sha256 s record key answer).failures.countP (Counted.isIn cfg k b) ≤
      value (passGate cfg sha256 s record key answer).store
        (bucketKey sha256 k cfg.windowS b) := by
  have hold := h.counted k b
  have hcount : (passGate cfg sha256 s record key answer).failures.countP
      (Counted.isIn cfg k b) = s.failures.countP (Counted.isIn cfg k b) +
        if Counted.isIn cfg k b ⟨record, s.store.clock, answer ≠ .served⟩ then 1 else 0 := by
    rw [passGate, List.countP_append, List.countP_singleton]
  rw [hcount]
  change _ ≤ value (gate cfg sha256 s key answer).2.1 _
  rcases gate_store h key answer with ⟨hstore, hanswer⟩ | ⟨d, _, hstore⟩
  · rw [hstore, if_neg]
    · exact hold
    · simp only [Counted.isIn, hanswer, ne_eq, not_false_eq_true, decide_true, Bool.not_true,
        Bool.and_false, Bool.false_and, Bool.false_eq_true]
  · rw [hstore]
    by_cases hsame : bucketKey sha256 k cfg.windowS b =
      bucketKey sha256 key cfg.windowS (bucketOf cfg s.store.clock)
    · -- The bucket that was incremented, maybe through another key of its digest.
      have hnew : value (s.store.write
          (bucketKey sha256 key cfg.windowS (bucketOf cfg s.store.clock))
          (value s.store (bucketKey sha256 key cfg.windowS (bucketOf cfg s.store.clock)) + 1) d)
          (bucketKey sha256 k cfg.windowS b) =
          value s.store (bucketKey sha256 k cfg.windowS b) + 1 := by
        rw [value, store_write, if_pos hsame, hsame]
        rfl
      rw [hnew]
      split <;> omega
    · have hnew : value (s.store.write
          (bucketKey sha256 key cfg.windowS (bucketOf cfg s.store.clock))
          (value s.store (bucketKey sha256 key cfg.windowS (bucketOf cfg s.store.clock)) + 1) d)
          (bucketKey sha256 k cfg.windowS b) =
          value s.store (bucketKey sha256 k cfg.windowS b) := by
        rw [value, store_write, if_neg hsame]
        rfl
      rw [hnew, if_neg]
      · exact hold
      · intro hin
        unfold Counted.isIn at hin
        rw [Bool.and_eq_true, Bool.and_eq_true, decide_eq_true_eq, decide_eq_true_eq, hkey] at hin
        apply hsame
        rw [Option.some.inj hin.1.1, ← hin.2]

include hkey in
/-- A failure that passes the gate keeps the invariant. -/
theorem inv_passGate (h : Inv cfg sha256 s)
    (hstart : record.startedAt.timestamp ≤ s.store.clock) :
    Inv cfg sha256 (passGate cfg sha256 s record key answer) where
  counted := counted_passGate hkey h
  lasting k b v d hstore := by
    change (gate cfg sha256 s key answer).2.1.store _ = _ at hstore
    rcases gate_store h key answer with ⟨hgate, _⟩ | ⟨d', hd', hgate⟩
    · rw [hgate] at hstore
      exact h.lasting k b v d hstore
    · rw [hgate, store_write] at hstore
      split at hstore
      · rename_i hsame
        rw [(bucketKey_inj hsame).1]
        simp only [Option.some.injEq, Prod.mk.injEq] at hstore
        rw [← hstore.2]
        exact hd'
      · exact h.lasting k b v d hstore
  lost c hc hlost := by
    change ∃ d, (gate cfg sha256 s key answer).2.2 = some d ∧ _
    rw [gate_degradedUntil]
    rcases List.mem_append.mp hc with hc | hc
    · split
      · exact h.lost c hc hlost
      · exact ⟨_, rfl, by linarith [h.past c hc]⟩
    · rw [List.mem_singleton] at hc
      rw [hc, decide_eq_true_eq] at hlost
      rw [if_neg hlost]
      exact ⟨_, rfl, by rw [hc]⟩
  past c hc := by
    change _ ≤ (gate cfg sha256 s key answer).2.1.clock
    rw [gate_clock h]
    rcases List.mem_append.mp hc with hc | hc
    · exact h.past c hc
    · rw [List.mem_singleton.mp hc]
  started c hc := by
    rcases List.mem_append.mp hc with hc | hc
    · exact h.started c hc
    · rw [List.mem_singleton.mp hc]
      exact hstart
  marker k severity v d hstore := by
    change (gate cfg sha256 s key answer).2.1.store _ = _ at hstore
    have hkept : s.store.store (markerKey sha256 k cfg.windowS severity) = some (v, d) := by
      rcases gate_store h key answer with ⟨hgate, _⟩ | ⟨d', _, hgate⟩
      · rw [hgate] at hstore
        exact hstore
      · rw [hgate, store_write, if_neg (markerKey_ne_bucketKey severity _)] at hstore
        exact hstore
    rcases h.marker k severity v d hkept with ⟨e, he, hdigest, hknown, hrest⟩
    exact ⟨e, he, hdigest, known_passGate hknown, hrest⟩
  scanning k hk := by
    change k ∈ (if (gate cfg sha256 s key answer).1 then key :: s.scanning else s.scanning) at hk
    split at hk
    · rcases List.mem_cons.mp hk with rfl | hk
      · exact known_passGate_self hkey
      · exact known_passGate (h.scanning k hk)
    · exact known_passGate (h.scanning k hk)
  noting p hp :=
    ⟨(h.noting p hp).1, (h.noting p hp).2.1, known_passGate (h.noting p hp).2.2⟩

end Gate

/-! ## The scan -/

section Scan

variable {now : ℚ} {key : AxisKey} {records : List Record} {events : List Event}

/-- The events that a scan finds. -/
theorem mem_of_scan {existing : List Event} {e : Event}
    (h : scan cfg now key records events = .deduplicated existing) (he : e ∈ existing) :
    e ∈ events ∧ e.key = key := by
  unfold scan at h
  dsimp only at h
  generalize (if cfg.criticalThreshold ≤ records.countP (·.counts key (windowStart cfg now))
    then EventSeverity.critical else EventSeverity.error) = severity at h
  split at h
  · exact absurd h (by simp only [reduceCtorEq, not_false_eq_true])
  · split at h
    · exact absurd h (by simp only [reduceCtorEq, not_false_eq_true])
    · rw [← Verdict.deduplicated.inj h, List.mem_filter, Event.dedups, Bool.and_eq_true,
        decide_eq_true_eq] at he
      exact ⟨he.1, he.2.2⟩

/-- What a scan that emits has seen. -/
theorem scan_emit {severity : EventSeverity} {count : Nat}
    (h : scan cfg now key records events = .emit severity count) :
    count = records.countP (·.counts key (windowStart cfg now)) ∧ cfg.threshold ≤ count ∧
      severity = (if cfg.criticalThreshold ≤ count then .critical else .error) ∧
      ∀ e ∈ events, e.dedups key severity (windowStart cfg now) = false := by
  unfold scan at h
  dsimp only at h
  generalize hseverity : (if cfg.criticalThreshold ≤
    records.countP (·.counts key (windowStart cfg now)) then EventSeverity.critical
    else EventSeverity.error) = chosen at h
  split at h
  · exact absurd h (by simp only [reduceCtorEq, not_false_eq_true])
  · rename_i hcount
    split at h
    · rename_i hnone
      rcases Verdict.emit.inj h with ⟨rfl, rfl⟩
      refine ⟨rfl, not_lt.mp hcount, hseverity.symm, fun e he => ?_⟩
      rw [List.filter_eq_nil_iff] at hnone
      exact Bool.eq_false_iff.mpr (hnone e he)
    · exact absurd h (by simp only [reduceCtorEq, not_false_eq_true])

end Scan

/-! ## The other steps -/

/-- A failure without a key is none that a scan counts, and is not counted. -/
theorem inv_uncounted {record : Record} (h : Inv cfg sha256 s) (hkey : record.key = none)
    (hstart : record.startedAt.timestamp ≤ s.store.clock) :
    Inv cfg sha256 { s with failures := s.failures ++ [⟨record, s.store.clock, false⟩] } := by
  have hknown : ∀ {k}, Known s k →
      Known { s with failures := s.failures ++ [⟨record, s.store.clock, false⟩] } k :=
    fun ⟨c, hc, hk⟩ => ⟨c, List.mem_append_left _ hc, hk⟩
  have hmem : ∀ {c}, c ∈ s.failures ++ [⟨record, s.store.clock, false⟩] →
      c ∈ s.failures ∨ c = ⟨record, s.store.clock, false⟩ := by
    intro c hc
    rw [List.mem_append, List.mem_singleton] at hc
    exact hc
  exact {
    counted := by
      intro k b
      have hnot : Counted.isIn cfg k b ⟨record, s.store.clock, false⟩ = false := by
        simp only [Counted.isIn, hkey, reduceCtorEq, decide_false, Bool.false_and]
      rw [List.countP_append, List.countP_singleton, hnot, if_neg Bool.false_ne_true]
      exact h.counted k b
    lasting := h.lasting
    lost := by
      intro c hc hlost
      rcases hmem hc with hc | rfl
      · exact h.lost c hc hlost
      · exact absurd hlost Bool.false_ne_true
    past := by
      intro c hc
      rcases hmem hc with hc | rfl
      · exact h.past c hc
      · exact le_refl _
    started := by
      intro c hc
      rcases hmem hc with hc | rfl
      · exact h.started c hc
      · exact hstart
    marker := by
      intro k severity v d hstore
      rcases h.marker k severity v d hstore with ⟨e, he, hdigest, hk, hrest⟩
      exact ⟨e, he, hdigest, hknown hk, hrest⟩
    scanning := fun k hk => hknown (h.scanning k hk)
    noting := fun p hp => ⟨(h.noting p hp).1, (h.noting p hp).2.1, hknown (h.noting p hp).2.2⟩ }

theorem inv_tick (h : Inv cfg sha256 s) {time : ℚ} (htime : s.store.clock ≤ time) :
    Inv cfg sha256 { s with store := { s.store with clock := time } } :=
  { h with past := fun c hc => le_trans (h.past c hc) htime }

theorem inv_stepScan (h : Inv cfg sha256 s) {key : AxisKey} {visible : List Record}
    {choice : Nat} {createdAt : DateTime}
    (hstep : stepScan cfg s key visible choice createdAt = some s') : Inv cfg sha256 s' := by
  unfold stepScan at hstep
  split at hstep
  · rename_i henabled
    have hrest : ∀ k ∈ s.scanning.erase key, Known s k :=
      fun k hk => h.scanning k (List.mem_of_mem_erase hk)
    dsimp only at hstep
    split at hstep
    · rw [← Option.some.inj hstep]
      exact { h with scanning := hrest }
    · rename_i existing hscan
      rw [Option.map_eq_some_iff] at hstep
      rcases hstep with ⟨event, hevent, rfl⟩
      have hfound := mem_of_scan hscan (List.mem_of_getElem? hevent)
      refine { h with scanning := hrest, noting := ?_ }
      intro p hp
      rcases List.mem_cons.mp hp with rfl | hp
      · exact ⟨hfound.1, hfound.2, h.scanning key henabled.1⟩
      · exact h.noting p hp
    · rw [← Option.some.inj hstep]
      exact { h with scanning := hrest }
  · exact absurd hstep (by simp only [reduceCtorEq, not_false_eq_true])

theorem inv_stepNote (h : Inv cfg sha256 s) {key : AxisKey} {event : Event} {performed : Nat}
    (hstep : stepNote cfg sha256 s key event performed = some s') : Inv cfg sha256 s' := by
  unfold stepNote at hstep
  split at hstep
  · rename_i hnoting
    rcases h.noting _ hnoting with ⟨hevent, hkey, hknown⟩
    rw [← Option.some.inj hstep]
    exact { h with
      counted := by
        intro k b
        dsimp only
        unfold value
        rw [noteDedupHit_bucket]
        exact h.counted k b
      lasting := by
        intro k b v d hstore
        dsimp only at hstore
        rw [noteDedupHit_bucket] at hstore
        exact h.lasting k b v d hstore
      past := by
        intro c hc
        dsimp only
        rw [noteDedupHit_clock]
        exact h.past c hc
      marker := by
        intro k severity v d hstore
        rcases noteDedupHit_store hstore with hold | ⟨hd, covered, hcovered, hsame⟩
        · exact h.marker k severity v d hold
        · rcases markerKey_inj hsame with ⟨hseverity, hdigest⟩
          refine ⟨event, hevent, ?_, ?_, ?_, le_of_eq hd⟩
          · rw [hkey, hdigest]
          · rw [hkey]
            exact hknown
          · rw [hseverity]
            exact hcovered
      noting := fun p hp => h.noting p (List.mem_of_mem_erase hp) }
  · exact absurd hstep (by simp only [reduceCtorEq, not_false_eq_true])

theorem inv_commit (h : Inv cfg sha256 s) (event : Event) :
    Inv cfg sha256 { s with
      pending := s.pending.erase event, events := event :: s.events } :=
  { h with
    marker := fun k severity v d hstore =>
      (h.marker k severity v d hstore).imp fun _ he => ⟨List.mem_cons_of_mem _ he.1, he.2⟩
    noting := fun p hp => ⟨List.mem_cons_of_mem _ (h.noting p hp).1, (h.noting p hp).2⟩ }

/-- A step keeps the invariant. -/
theorem inv_step {a : Action} (h : Inv cfg sha256 s) (hstep : step cfg sha256 s a = some s') :
    Inv cfg sha256 s' := by
  cases a with
  | tick time =>
      simp only [step, Option.ite_none_right_eq_some, Option.some.injEq] at hstep
      rw [← hstep.2]
      exact inv_tick h hstep.1
  | fail record answer =>
      rw [step, stepFail] at hstep
      split at hstep
      · rename_i hstart
        split at hstep
        · rename_i key hkey
          rw [← Option.some.inj hstep]
          exact inv_passGate hkey h hstart
        · rename_i hkey
          rw [← Option.some.inj hstep]
          exact inv_uncounted h hkey hstart
      · exact absurd hstep (by simp only [reduceCtorEq, not_false_eq_true])
  | scan key visible choice createdAt => exact inv_stepScan h hstep
  | note key event performed => exact inv_stepNote h hstep
  | commit event =>
      simp only [step, Option.ite_none_right_eq_some, Option.some.injEq] at hstep
      rw [← hstep.2]
      exact inv_commit h event

theorem inv_start (h : initial s) : Inv cfg sha256 s := by
  rcases h with ⟨hstore, _, hfailures, hscanning, hnoting, _⟩
  exact {
    counted := by
      intro key b
      rw [hfailures]
      exact Nat.zero_le _
    lasting := by
      intro key b v d h
      rw [hstore] at h
      exact absurd h (by simp only [reduceCtorEq, not_false_eq_true])
    lost := by
      intro c hc
      rw [hfailures] at hc
      exact absurd hc List.not_mem_nil
    past := by
      intro c hc
      rw [hfailures] at hc
      exact absurd hc List.not_mem_nil
    started := by
      intro c hc
      rw [hfailures] at hc
      exact absurd hc List.not_mem_nil
    marker := by
      intro key severity v d h
      rw [hstore] at h
      exact absurd h (by simp only [reduceCtorEq, not_false_eq_true])
    scanning := by
      intro key hkey
      rw [hscanning] at hkey
      exact absurd hkey List.not_mem_nil
    noting := by
      intro p hp
      rw [hnoting] at hp
      exact absurd hp List.not_mem_nil }

theorem inv_of_reachable (h : (machine cfg sha256).Reachable s) : Inv cfg sha256 s :=
  Machine.reachable_invariant (P := Inv cfg sha256) (fun _ hs => inv_start hs)
    (fun _ _ _ hs hstep => inv_step hs hstep) h

/-! ## The estimate -/

section Estimate

variable {record : Record} {key : AxisKey} {answer : Answer}

/-- What the store answers to a gate that has not raised. -/
theorem gate_served (h : Inv cfg sha256 s) (key : AxisKey) :
    (gate cfg sha256 s key .served).1 =
      decideScan cfg (degraded s.degradedUntil s.store.clock)
        [value (gate cfg sha256 s key .served).2.1
          (bucketKey sha256 key cfg.windowS (bucketOf cfg s.store.clock))]
        (read (gate cfg sha256 s key .served).2.1
            (bucketKey sha256 key cfg.windowS (bucketOf cfg s.store.clock - 1)) ::
          [EventSeverity.error, .critical].map fun severity =>
            read (gate cfg sha256 s key .served).2.1
              (markerKey sha256 key cfg.windowS severity)) := by
  have hgate : (gate cfg sha256 s key .served).2.1 = (incr s.store cfg.spanS
      (bucketKey sha256 key cfg.windowS (bucketOf cfg s.store.clock))).2 := rfl
  have hcount : (incr s.store cfg.spanS
      (bucketKey sha256 key cfg.windowS (bucketOf cfg s.store.clock))).1 =
      value (gate cfg sha256 s key .served).2.1
        (bucketKey sha256 key cfg.windowS (bucketOf cfg s.store.clock)) := by
    rcases incr_bucket h key with ⟨d, _, hincr⟩
    rw [hgate, hincr]
    change _ = ((TtlStore.State.store _ _).map Prod.fst).getD 0
    rw [store_write, if_pos rfl]
    rfl
  rw [← hcount]
  rfl

/-- What it takes for the gate to skip the scan. -/
theorem of_decideScan_eq_false {isDegraded : Bool} {count : Nat} {previous error critical :
    Option Nat} (h : decideScan cfg isDegraded [count] [previous, error, critical] = false) :
    isDegraded = false ∧ (count + previous.getD 0 < cfg.threshold ∨
      (cfg.threshold < cfg.criticalThreshold → error.isSome) ∧
        (cfg.criticalThreshold ≤ count + previous.getD 0 → critical.isSome)) := by
  have h' : (if isDegraded then true
      else if count + previous.getD 0 < cfg.threshold then false
      else (possibleSeverities (count + previous.getD 0) cfg).any fun severity =>
        severity ∉ ([EventSeverity.error, .critical].zip [error, critical]).filterMap
          fun pair => if pair.2.isSome then some pair.1 else none) = false := h
  cases isDegraded with
  | true => exact absurd h' (by simp only [if_true, Bool.true_eq_false, not_false_eq_true])
  | false =>
      refine ⟨rfl, ?_⟩
      rw [if_neg Bool.false_ne_true] at h'
      by_cases hlow : count + previous.getD 0 < cfg.threshold
      · exact .inl hlow
      · rw [if_neg hlow, List.any_eq_false] at h'
        refine .inr ⟨fun herror => ?_, fun hcritical => ?_⟩
        · have hmarked := h' .error (by
            rw [possibleSeverities, if_pos herror]
            exact List.mem_cons_self)
          cases error with
          | some v => rfl
          | none => cases critical <;> exact absurd rfl hmarked
        · have hmarked := h' .critical (by
            rw [possibleSeverities, if_pos hcritical]
            exact List.mem_append_right _ List.mem_cons_self)
          cases critical with
          | some v => rfl
          | none => cases error <;> exact absurd rfl hmarked

/-- The records that a scan counts have its key. -/
theorem key_of_counts {r : Record} {start : DateTime} (hkey : record.key = some key)
    (h : r.counts key start = true) : r.key = some key ∧ start ≤ r.startedAt := by
  unfold Record.counts at h
  rw [Bool.and_eq_true, Bool.and_eq_true, Bool.and_eq_true, decide_eq_true_eq, decide_eq_true_eq,
    decide_eq_true_eq, decide_eq_true_eq] at h
  rcases h with ⟨⟨⟨hactor, hcredential⟩, hoperation⟩, hstart⟩
  refine ⟨?_, hstart⟩
  unfold Record.key at hkey
  split at hkey
  · rename_i operation credential _ _
    split at hkey
    · exact absurd hkey (by simp only [reduceCtorEq, not_false_eq_true])
    · rename_i hplain
      rw [← Option.some.inj hkey] at hcredential hoperation
      unfold Record.key
      rw [hcredential, hoperation]
      dsimp only
      rw [if_neg hplain, hactor, ← Option.some.inj hkey]
  · exact absurd hkey (by simp only [reduceCtorEq, not_false_eq_true])

/-- A record that a scan counts is one whose failure was counted in the current
    bucket or the one before, unless the store has failed lately. -/
theorem isIn_of_counts (h : Inv cfg sha256 s) (hkey : record.key = some key)
    (hhealthy : degraded s.degradedUntil s.store.clock = false) {c : Counted}
    (hc : c ∈ s.failures)
    (hcounts : c.record.counts key (windowStart cfg s.store.clock) = true) :
    c.isIn cfg key (bucketOf cfg s.store.clock) = true ∨
      c.isIn cfg key (bucketOf cfg s.store.clock - 1) = true := by
  rcases key_of_counts hkey hcounts with ⟨hc_key, hstart⟩
  have hanswered : c.lost = false := by
    by_contra hlost
    rw [Bool.not_eq_false] at hlost
    rcases h.lost c hc hlost with ⟨d, hd, hle⟩
    have hrecent := lt_add_spanS hstart (h.started c hc)
    rw [hd, degraded, Option.any_some, decide_eq_false_iff_not] at hhealthy
    exact hhealthy (lt_of_lt_of_le hrecent hle)
  have hin : ∀ b, bucketOf cfg c.at_ = b → c.isIn cfg key b = true := by
    intro b hb
    unfold Counted.isIn
    rw [hc_key, hanswered, hb]
    simp only [decide_true, Bool.not_false, Bool.and_self]
  exact (bucket_of_windowStart hstart (h.started c hc) (h.past c hc)).imp (hin _) (hin _)

/-- The counters of the current bucket and the one before bound what a scan can
    count, unless the store has failed lately. -/
theorem count_le_estimate (h : Inv cfg sha256 s) (hkey : record.key = some key)
    {visible : List Record} (hvisible : visible.Sublist (s.failures.map Counted.record))
    (hhealthy : degraded s.degradedUntil s.store.clock = false) :
    visible.countP (·.counts key (windowStart cfg s.store.clock)) ≤
      value s.store (bucketKey sha256 key cfg.windowS (bucketOf cfg s.store.clock)) +
        (read s.store
          (bucketKey sha256 key cfg.windowS (bucketOf cfg s.store.clock - 1))).getD 0 := by
  have hprevious : s.failures.countP (Counted.isIn cfg key (bucketOf cfg s.store.clock - 1)) ≤
      (read s.store
        (bucketKey sha256 key cfg.windowS (bucketOf cfg s.store.clock - 1))).getD 0 := by
    refine le_trans (h.counted key _) ?_
    cases hstore : s.store.store
      (bucketKey sha256 key cfg.windowS (bucketOf cfg s.store.clock - 1)) with
    | none =>
        rw [value, hstore]
        exact Nat.zero_le _
    | some entry =>
        have hlasting := h.lasting key _ entry.1 entry.2 hstore
        have hnext := lt_bucketOf_mul cfg s.store.clock
        push_cast at hlasting
        rw [value, read, TtlStore.live_of_store hstore, if_pos (by linarith), hstore]
  calc visible.countP (·.counts key (windowStart cfg s.store.clock))
      ≤ (s.failures.map Counted.record).countP
          (·.counts key (windowStart cfg s.store.clock)) := hvisible.countP_le
    _ = s.failures.countP fun c => c.record.counts key (windowStart cfg s.store.clock) :=
        List.countP_map
    _ ≤ s.failures.countP fun c => c.isIn cfg key (bucketOf cfg s.store.clock) ||
          c.isIn cfg key (bucketOf cfg s.store.clock - 1) := by
        refine List.countP_mono_left fun c hc hcounts => ?_
        rw [Bool.or_eq_true]
        exact isIn_of_counts h hkey hhealthy hc hcounts
    _ ≤ s.failures.countP (Counted.isIn cfg key (bucketOf cfg s.store.clock)) +
          s.failures.countP (Counted.isIn cfg key (bucketOf cfg s.store.clock - 1)) := by
        induction s.failures with
        | nil => exact le_refl _
        | cons c cs ih =>
            rw [List.countP_cons, List.countP_cons, List.countP_cons]
            cases c.isIn cfg key (bucketOf cfg s.store.clock) <;>
              cases c.isIn cfg key (bucketOf cfg s.store.clock - 1) <;>
              simp only [Bool.or_self, Bool.or_true, Bool.or_false, if_true, Bool.false_eq_true,
                if_false] <;> omega
    _ ≤ _ := Nat.add_le_add (h.counted key _) hprevious

/-- An event sets the markers of the severities that it deduplicates. -/
theorem dedupedBy_of_covers {severity found : EventSeverity}
    (h : severity ∈ found.dedupCovers) : found ∈ severity.dedupedBy := by
  cases severity <;> cases found <;> first | decide | exact absurd h (by decide)

/-- A marker that is read stands for an event that the scan finds. -/
theorem dedups_of_marker (h : Inv cfg sha256 s) (happart : TellsApart sha256 s)
    (hknown : Known s key) {severity : EventSeverity}
    (hread : (read s.store (markerKey sha256 key cfg.windowS severity)).isSome) :
    ∃ e ∈ s.events, e.dedups key severity (windowStart cfg s.store.clock) = true := by
  rcases Option.isSome_iff_exists.mp hread with ⟨v, hv⟩
  rw [read, Option.map_eq_some_iff] at hv
  rcases hv with ⟨entry, hlive, -⟩
  rcases Option.filter_eq_some_iff.mp hlive with ⟨hstore, hbefore⟩
  rw [decide_eq_true_eq] at hbefore
  rcases h.marker key severity entry.1 entry.2 hstore with
    ⟨e, he, hdigest, heknown, hcovered, hdeadline⟩
  refine ⟨e, he, ?_⟩
  have hstart : windowStart cfg s.store.clock ≤ e.createdAt := by
    have hle : fromTimestamp s.store.clock ≤ e.createdAt + cfg.windowS * 1000000 := by
      refine fromTimestamp_le (le_of_lt (lt_of_lt_of_le hbefore (le_trans hdeadline ?_)))
      rw [DateTime.timestamp, DateTime.timestamp]
      push_cast
      exact le_of_eq (by ring)
    unfold windowStart
    exact sub_le_iff_le_add.mpr hle
  unfold Event.dedups
  rw [Bool.and_eq_true, Bool.and_eq_true, decide_eq_true_eq, decide_eq_true_eq,
    decide_eq_true_eq]
  exact ⟨⟨dedupedBy_of_covers hcovered, hstart⟩, eq_of_digest_eq happart heknown hknown hdigest⟩

end Estimate

/-- **The gate hides no event.** In every run, where the gate tells a failure to
    skip the scan, a scan at that moment would emit nothing, whichever of the
    counted records it saw beside the committed events. -/
theorem skipped_scan_emits_nothing (hreach : (machine cfg sha256).Reachable s) {record : Record}
    {key : AxisKey} {answer : Answer} (hkey : record.key = some key)
    (hstart : record.startedAt.timestamp ≤ s.store.clock)
    (happart : TellsApart sha256 (passGate cfg sha256 s record key answer))
    (hskip : (gate cfg sha256 s key answer).1 = false) {visible : List Record}
    (hvisible : visible.Sublist
      ((passGate cfg sha256 s record key answer).failures.map Counted.record))
    {events : List Event} (hevents : s.events ⊆ events) (severity : EventSeverity) (count : Nat) :
    scan cfg s.store.clock key visible events ≠ .emit severity count := by
  intro hemit
  have h := inv_of_reachable hreach
  have hpassed : Inv cfg sha256 (passGate cfg sha256 s record key answer) :=
    inv_passGate hkey h hstart
  have hclock : (passGate cfg sha256 s record key answer).store.clock = s.store.clock :=
    gate_clock h key answer
  cases answer with
  | raised applied => exact absurd hskip Bool.true_eq_false.mp
  | served =>
      rw [gate_served h] at hskip
      rcases of_decideScan_eq_false hskip with ⟨hhealthy, hestimate⟩
      have hcount := count_le_estimate hpassed hkey hvisible (by rw [hclock]; exact hhealthy)
      rw [hclock] at hcount
      rcases scan_emit hemit with ⟨hcounted, hthreshold, hseverity, hnone⟩
      rw [← hcounted] at hcount
      rcases hestimate with hlow | ⟨herror, hcritical⟩
      · exact absurd (le_trans hthreshold hcount) (not_le.mpr hlow)
      · have hfound : ∃ e ∈ s.events, e.dedups key severity (windowStart cfg s.store.clock) =
            true := by
          have hknown : Known (passGate cfg sha256 s record key .served) key :=
            known_passGate_self hkey
          rw [← hclock]
          by_cases hhigh : cfg.criticalThreshold ≤ count
          · rw [hseverity, if_pos hhigh]
            exact dedups_of_marker hpassed happart hknown (hcritical (le_trans hhigh hcount))
          · rw [hseverity, if_neg hhigh]
            exact dedups_of_marker hpassed happart hknown
              (herror (lt_of_le_of_lt hthreshold (not_le.mp hhigh)))
        rcases hfound with ⟨e, he, hdedups⟩
        rw [hnone e (hevents he)] at hdedups
        exact Bool.false_ne_true hdedups

/-- A counter that has just been built. -/
def fresh (time : ℚ) : State := ⟨⟨fun _ => none, time⟩, none, [], [], [], [], []⟩

/-- The first failure of a key, five seconds after its execution began. -/
theorem skipped_scan_emits_nothing_first :
    let cfg : SecurityConfig := ⟨5, 300, 20, by decide, by decide, by decide⟩
    let key : AxisKey :=
      ⟨"agnt_0a1b".toList, ⟨"cred_2c3d".toList, by decide⟩, ⟨"op_4e5f".toList, by decide⟩⟩
    let record : Record :=
      ⟨key.actorId, some key.credentialId, some key.operationId, 1700000000000000⟩
    scan cfg 1700000005 key [record] [] ≠ .emit .error 5 :=
  @skipped_scan_emits_nothing _
    (fun _ => "307055a8a6d6b0ccec7d95b63542daaf392bca2e19de2379d737c87587da4991".toList)
    (fresh 1700000005) (Machine.ReachesWhen.start _ ⟨rfl, rfl, rfl, rfl, rfl, rfl⟩) _ _ .served
    (by decide)
    (by norm_num [DateTime.timestamp, fresh])
    (by
      intro key key' hkey hkey' _
      rcases hkey with ⟨c, hc, hck⟩
      rcases hkey' with ⟨c', hc', hck'⟩
      rw [List.mem_singleton.mp hc] at hck
      rw [List.mem_singleton.mp hc'] at hck'
      rw [Option.some.inj (hck.symm.trans hck')])
    (by decide +kernel) _ (List.Sublist.refl _) _ (List.Subset.refl _) .error 5

end Events

end JenticOne
