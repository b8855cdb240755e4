import JenticOne.Broker.Idempotency

/-!
# A Claim Always Becomes a Record

Once the upstream call has run, something must be recorded, whatever else fills
the backend. A claim is padded to the size of the largest tombstone, so a
tombstone overwrites it with no more bytes, and such an overwrite is never
refused while the claim is live. The writes that come first, of the body and of
the full record, may be refused or may take the last of a budget; neither
touches the claim unless it succeeds in replacing it.

From then on the slot is taken until the record expires. Only a plain overwrite
could cut its time short. `complete` is one, for a late completion of the same
key, but it gives the slot the whole replay window again.

## Main definitions

* `IsDone`: A stored value is a finished record of a fingerprint and a status.
* `TakenUntil`: No later `begin` is fresh before a time.

## Theorems

* `length_tombstone_le`: The padding is enough.
* `complete_records`: `complete` on a live claim.
* `claim_becomes_record`: The same, and what follows for every later `begin`.
* `begin_replays`: What `begin` makes of a finished record.
-/

namespace JenticOne

namespace Broker

open State (Bytes MemoryConfig World Agrees Extends Event SpecState Inv noKey Entry)

/-! ## The padding -/

theorem length_dumps (record : Json) : (dumps record).length = (Json.dumps record).length := by
  unfold dumps
  rw [List.length_map]

theorem length_tombstone (fingerprint : String) (statusCode : Int) :
    (tombstone fingerprint statusCode).length =
      52 + (Json.quote fingerprint).length + (Json.intText statusCode).length := by
  have hphase : (Json.quote "phase").length = 7 := rfl
  have hdone : (Json.quote "done").length = 6 := rfl
  have hfp : (Json.quote "fp").length = 4 := rfl
  have hstatus : (Json.quote "status").length = 8 := rfl
  have homitted : (Json.quote "body_omitted").length = 14 := rfl
  have htrue : "true".toList.length = 4 := rfl
  unfold tombstone
  rw [length_dumps]
  simp only [Json.dumps, Json.dumpsMembers, List.isEmpty_cons, List.isEmpty_nil, if_true,
    Bool.false_eq_true, if_false, List.length_cons, List.length_append, List.length_nil, hphase,
    hdone, hfp, hstatus, homitted, htrue]
  omega

theorem length_pendingRecord (fingerprint pad : String) :
    (dumps (pendingRecord fingerprint pad)).length =
      32 + (Json.quote fingerprint).length + (Json.quote pad).length := by
  have hphase : (Json.quote "phase").length = 7 := rfl
  have hpending : (Json.quote "pending").length = 9 := rfl
  have hfp : (Json.quote "fp").length = 4 := rfl
  have hpad : (Json.quote "pad").length = 5 := rfl
  unfold pendingRecord
  rw [length_dumps]
  simp only [Json.dumps, Json.dumpsMembers, List.isEmpty_cons, List.isEmpty_nil, if_true,
    Bool.false_eq_true, if_false, List.length_cons, List.length_append, List.length_nil, hphase,
    hpending, hfp, hpad]
  omega

theorem length_quote_spaces (n : Nat) :
    (Json.quote (String.ofList (List.replicate n ' '))).length = n + 2 := by
  have hspace : Json.escape ' ' = [' '] := rfl
  unfold Json.quote
  rw [String.toList_ofList, List.flatMap_replicate, hspace]
  simp only [List.length_cons, List.length_append, List.length_nil, List.length_flatten,
    List.map_replicate, List.sum_replicate, smul_eq_mul]
  omega

theorem length_intText_le {n : Int} (h : 0 ≤ n ∧ n ≤ maxStatusCode) :
    (Json.intText n).length ≤ (Json.intText maxStatusCode).length := by
  have hmax : (Json.intText maxStatusCode).length = 3 := rfl
  have hdigits : (Nat.toDigits 10 n.natAbs).length ≤ 3 := by
    rw [Nat.length_toDigits_le_iff (by decide) (by decide)]
    unfold maxStatusCode at h
    omega
  unfold Json.intText at hmax ⊢
  rw [hmax, if_neg (by omega), List.nil_append]
  exact hdigits

/-- A tombstone is never larger than the claim it overwrites. -/
theorem length_tombstone_le (fingerprint : String) {statusCode : Int}
    (h : 0 ≤ statusCode ∧ statusCode ≤ maxStatusCode) :
    (tombstone fingerprint statusCode).length ≤ (claim fingerprint).length := by
  have hdigits := length_intText_le h
  have hempty : (Json.quote "").length = 2 := rfl
  unfold claim
  dsimp only
  rw [length_pendingRecord, length_quote_spaces, length_tombstone, length_tombstone,
    length_pendingRecord, hempty]
  omega

/-! ## The record -/

/-- A stored value is a finished record of a fingerprint and a status. -/
def IsDone (value : Bytes) (fingerprint : String) (statusCode : Int) : Prop :=
  ∃ members, loads value = some (.obj members) ∧
    (Json.obj members).get? "phase" = some (.str "done") ∧
    (Json.obj members).get? "fp" = some (.str fingerprint) ∧
    (Json.obj members).get? "status" = some (.int statusCode)

theorem isDone_tombstone (fingerprint : String) (statusCode : Int) :
    IsDone (tombstone fingerprint statusCode) fingerprint statusCode :=
  ⟨_, loads_dumps _, rfl, rfl, rfl⟩

theorem isDone_doneRecord (fingerprint : String) (statusCode : Int)
    (headers : List (String × String)) (omitted hasBody : Bool) :
    IsDone (doneRecord fingerprint statusCode headers omitted hasBody) fingerprint statusCode :=
  ⟨_, loads_dumps _, rfl, rfl, rfl⟩

section Complete

variable {mem : MemoryConfig} {cfg : IdempotencyConfig} {w : World} {s : SpecState}
  {caller key fingerprint : String}

/-- A live entry outlasts a write under another key, and one that raises. -/
theorem get?_set_of_live {k k' : String} {e : Entry} {value : Bytes} {ttl now : ℚ}
    (inv : Inv mem noKey w.backend) (h : w.backend.kv.get? k = some e) (hlive : now < e.expiresAt)
    (hother : k' ≠ k ∨ ∃ err, (w.set mem k' value ttl now).1 = .error err) :
    (w.set mem k' value ttl now).2.backend.kv.get? k = some e := by
  rcases State.set_spec mem w k' value ttl now with ⟨hresult, hbackend, _⟩
  rw [hbackend]
  rw [hresult] at hother
  exact State.get?_store_of_live inv h hlive hother

theorem inv_set (h : Agrees mem w s) {k : String} {now : ℚ} (hnow : w.clock ≤ now)
    (value : Bytes) (ttl : ℚ) : ∃ s', Agrees mem (w.set mem k value ttl now).2 s' := by
  rcases State.extends_set h hnow k value ttl with ⟨_, s', _, _, hagrees, _⟩
  exact ⟨s', hagrees⟩

/-- A `set` that does not raise stores what it was given. -/
theorem get?_set_of_ok {k : String} {value : Bytes} {ttl now : ℚ} (inv : Inv mem noKey w.backend)
    (hok : (w.set mem k value ttl now).1 = .ok ()) :
    ∃ e, (w.set mem k value ttl now).2.backend.kv.get? k = some e ∧ e.value = value ∧
      e.expiresAt = (w.set mem k value ttl now).2.clock + ttl := by
  rcases State.set_spec mem w k value ttl now with ⟨hresult, hbackend, hclock⟩
  rw [hresult] at hok
  rw [hbackend, hclock]
  rcases State.store_spec inv k value (now + ttl) now with ⟨b₁, _, _, ⟨hstored, _⟩ | ⟨err, herr⟩⟩
  · rcases State.get?_write mem b₁ k value (now + ttl) with ⟨e, hvalue, hexp, _, hget⟩
    rw [hstored, hget, if_pos rfl]
    exact ⟨e, rfl, hvalue, hexp⟩
  · rw [herr] at hok
    exact absurd hok (by simp only [reduceCtorEq, not_false_eq_true])

/-- The body's write is a `set` of the body's key, or nothing. -/
theorem storeBody_world (mem : MemoryConfig) (cfg : IdempotencyConfig) (w : World) (k : String)
    (body : Bytes) (now : ℚ) : (storeBody mem cfg w k body now).2 = w ∨
      (storeBody mem cfg w k body now).2 =
        (w.set mem k body (cfg.doneTtlS + cfg.pendingTtlS) now).2 := by
  unfold storeBody
  split
  · exact Or.inl rfl
  · split
    · exact Or.inl rfl
    · split
      · rename_i w' hok
        rw [hok]
        exact Or.inr rfl
      · rename_i err w' herr
        rw [herr]
        exact Or.inr rfl

/-- What `complete` may write to the log: bodies, and records for the whole
    replay window. -/
def sparesSlots (cfg : IdempotencyConfig) (clock : ℚ) : Event → Prop
  | .set k _ deadline => (∀ caller key, k ≠ slot caller key) ∨ clock + cfg.doneTtlS ≤ deadline
  | _ => True

theorem extends_body (h : Agrees mem w s) {clock now ttl : ℚ} (hnow : w.clock ≤ now)
    (body : Bytes) : Extends mem (sparesSlots cfg clock) w s
      (w.set mem (bodySlot caller key fingerprint) body ttl now).2 := by
  refine State.extends_mono ?_ (State.extends_set h hnow _ body ttl)
  rintro e rfl
  exact Or.inl fun caller' key' hc => slot_ne_bodySlot caller' key' _ _ _ hc.symm

theorem extends_record (h : Agrees mem w s) {clock now : ℚ} (hclock : clock ≤ now)
    (hnow : w.clock ≤ now) (record : Bytes) : Extends mem (sparesSlots cfg clock) w s
      (w.set mem (slot caller key) record cfg.doneTtlS now).2 := by
  refine State.extends_mono ?_ (State.extends_set h hnow _ record cfg.doneTtlS)
  rintro e rfl
  exact Or.inr (add_le_add hclock (le_refl _))

theorem completeReadings_sorted {clock : ℚ} {r : CompleteReadings}
    (h : (clock :: r.toList).Pairwise (· ≤ ·)) : clock ≤ r.bodyAt ∧ r.bodyAt ≤ r.recordAt ∧
      r.recordAt ≤ r.releaseAt ∧ r.releaseAt ≤ r.tombstoneAt :=
  ⟨List.rel_of_pairwise_cons h List.mem_cons_self,
    List.rel_of_pairwise_cons h.of_cons List.mem_cons_self,
    List.rel_of_pairwise_cons h.of_cons.of_cons List.mem_cons_self,
    List.rel_of_pairwise_cons h.of_cons.of_cons.of_cons List.mem_cons_self⟩

/-- After the body's write. -/
theorem extends_storeBody (h : Agrees mem w s) {now : ℚ} (hnow : w.clock ≤ now) (body : Bytes) :
    Extends mem (sparesSlots cfg w.clock) w s
        (storeBody mem cfg w (bodySlot caller key fingerprint) body now).2 ∧
      (storeBody mem cfg w (bodySlot caller key fingerprint) body now).2.clock ≤ now := by
  rcases storeBody_world mem cfg w (bodySlot caller key fingerprint) body now with hsame | hset
  · rw [hsame]
    exact ⟨State.extends_refl h, hnow⟩
  · rw [hset]
    exact ⟨extends_body h hnow body, le_of_eq (State.set_spec mem w _ body _ now).2.2⟩

/-- `complete` writes records for the whole replay window, and bodies. -/
theorem extends_complete (h : Agrees mem w s) (response : Response) {r : CompleteReadings}
    (hreadings : (w.clock :: r.toList).Pairwise (· ≤ ·)) :
    Extends mem (sparesSlots cfg w.clock) w s
      (complete mem cfg w caller key fingerprint response r) := by
  rcases completeReadings_sorted hreadings with ⟨hbody, hrecord, hrelease, htombstone⟩
  have hwindow : w.clock ≤ r.tombstoneAt :=
    le_trans hbody (le_trans hrecord (le_trans hrelease htombstone))
  have hstored : Extends mem (sparesSlots cfg w.clock) w s
      (storeBody mem cfg w (bodySlot caller key fingerprint) response.body r.bodyAt).2 ∧ _ :=
    extends_storeBody h hbody response.body
  unfold complete
  dsimp only
  generalize storeBody mem cfg w (bodySlot caller key fingerprint) response.body r.bodyAt = stored
    at *
  rcases stored with ⟨⟨omitted, bodyStored⟩, w₁⟩
  rcases hstored with ⟨hstored, hclock₁⟩
  dsimp only at *
  refine State.extends_trans hstored fun s₁ h₁ => ?_
  generalize doneRecord fingerprint response.statusCode response.headers omitted
    (decide (response.body ≠ [])) = record
  have hrecorded : Extends mem (sparesSlots cfg w.clock) w₁ s₁
      (w₁.set mem (slot caller key) record cfg.doneTtlS r.recordAt).2 :=
    extends_record h₁ (le_trans hbody hrecord) (le_trans hclock₁ hrecord) record
  have hclock₂ := (State.set_spec mem w₁ (slot caller key) record cfg.doneTtlS r.recordAt).2.2
  split
  · rename_i w₂ hok
    rw [hok] at hrecorded
    exact hrecorded
  · rename_i err w₂ herr
    rw [herr] at hrecorded hclock₂
    dsimp only at hrecorded hclock₂
    refine State.extends_trans hrecorded fun s₂ h₂ => ?_
    have hreleaseClock : w₂.clock ≤ r.releaseAt := by
      rw [hclock₂]
      exact hrelease
    split
    · have hreleased : Extends mem (sparesSlots cfg w.clock) w₂ s₂
          (releaseBody mem w₂ (bodySlot caller key fingerprint) r.releaseAt) :=
        extends_body h₂ hreleaseClock []
      refine State.extends_trans hreleased fun s₃ h₃ => ?_
      have hclock₃ : (releaseBody mem w₂ (bodySlot caller key fingerprint) r.releaseAt).clock =
          r.releaseAt := (State.set_spec mem w₂ _ [] releasedBodyTtlS r.releaseAt).2.2
      exact extends_record h₃ hwindow (le_trans (le_of_eq hclock₃) htombstone) _
    · exact extends_record h₂ hwindow (le_trans hreleaseClock htombstone) _

/-- On a live claim, `complete` leaves a finished record of the replay window. -/
theorem complete_records (h : Agrees mem w s) {response : Response} {r : CompleteReadings}
    (hstatus : 0 ≤ response.statusCode ∧ response.statusCode ≤ maxStatusCode)
    (hreadings : (w.clock :: r.toList).Pairwise (· ≤ ·)) {e : Entry}
    (hclaim : w.backend.kv.get? (slot caller key) = some e) (hvalue : e.value = claim fingerprint)
    (hlive : r.tombstoneAt < e.expiresAt) :
    ∃ e', (complete mem cfg w caller key fingerprint response r).backend.kv.get? (slot caller key)
        = some e' ∧ IsDone e'.value fingerprint response.statusCode ∧
      e'.expiresAt =
        (complete mem cfg w caller key fingerprint response r).clock + cfg.doneTtlS := by
  rcases completeReadings_sorted hreadings with ⟨hbody, hrecord, hrelease, htombstone⟩
  have hne : bodySlot caller key fingerprint ≠ slot caller key :=
    (slot_ne_bodySlot caller key caller key fingerprint).symm
  have hreleaseLive : r.releaseAt < e.expiresAt := lt_of_le_of_lt htombstone hlive
  have hrecordLive : r.recordAt < e.expiresAt := lt_of_le_of_lt hrelease hreleaseLive
  -- The body's write leaves the claim, stored or not.
  have hafterBody : (∃ s₁, Agrees mem (storeBody mem cfg w (bodySlot caller key fingerprint)
        response.body r.bodyAt).2 s₁) ∧
      (storeBody mem cfg w (bodySlot caller key fingerprint) response.body r.bodyAt).2.clock
        ≤ r.bodyAt ∧
      (storeBody mem cfg w (bodySlot caller key fingerprint) response.body
        r.bodyAt).2.backend.kv.get? (slot caller key) = some e := by
    rcases storeBody_world mem cfg w (bodySlot caller key fingerprint) response.body r.bodyAt with
      hsame | hset
    · rw [hsame]
      exact ⟨⟨s, h⟩, hbody, hclaim⟩
    · rw [hset]
      exact ⟨inv_set h hbody _ _, le_of_eq (State.set_spec mem w _ _ _ _).2.2,
        get?_set_of_live h.inv hclaim (lt_of_le_of_lt hrecord hrecordLive) (Or.inl hne)⟩
  unfold complete
  dsimp only
  generalize storeBody mem cfg w (bodySlot caller key fingerprint) response.body r.bodyAt = stored
    at *
  rcases stored with ⟨⟨omitted, bodyStored⟩, w₁⟩
  rcases hafterBody with ⟨⟨s₁, h₁⟩, hclock₁, hclaim₁⟩
  dsimp only at *
  split
  · -- The full record is stored.
    rename_i w₂ hok
    rcases get?_set_of_ok h₁.inv (by rw [hok]) with ⟨e', he', hv', hd'⟩
    rw [hok] at he' hd'
    refine ⟨e', he', ?_, hd'⟩
    rw [hv']
    exact isDone_doneRecord _ _ _ _ _
  · -- It is refused, and so is not in the claim's place.
    rename_i err w₂ herr
    have hclaim₂ : w₂.backend.kv.get? (slot caller key) = some e := by
      have hkept := get?_set_of_live h₁.inv hclaim₁ hrecordLive
        (Or.inr ⟨err, congrArg Prod.fst herr⟩)
      rw [herr] at hkept
      exact hkept
    have hagrees₂ : ∃ s₂, Agrees mem w₂ s₂ := by
      have hset := inv_set h₁ (le_trans hclock₁ hrecord) (k := slot caller key)
        (doneRecord fingerprint response.statusCode response.headers omitted
          (decide (response.body ≠ []))) cfg.doneTtlS
      rw [herr] at hset
      exact hset
    have hclock₂ : w₂.clock ≤ r.releaseAt := by
      have hset := (State.set_spec mem w₁ (slot caller key)
        (doneRecord fingerprint response.statusCode response.headers omitted
          (decide (response.body ≠ []))) cfg.doneTtlS r.recordAt).2.2
      rw [herr] at hset
      exact le_trans (le_of_eq hset) hrelease
    rcases hagrees₂ with ⟨s₂, h₂⟩
    -- Nor is it touched by the release of the body.
    have hafterRelease : (∃ s₃, Agrees mem (if bodyStored = true then
          releaseBody mem w₂ (bodySlot caller key fingerprint) r.releaseAt else w₂) s₃) ∧
        (if bodyStored = true then
          releaseBody mem w₂ (bodySlot caller key fingerprint) r.releaseAt
          else w₂).backend.kv.get? (slot caller key) = some e := by
      split
      · exact ⟨inv_set h₂ hclock₂ _ _,
          get?_set_of_live h₂.inv hclaim₂ hreleaseLive (Or.inl hne)⟩
      · exact ⟨⟨s₂, h₂⟩, hclaim₂⟩
    rcases hafterRelease with ⟨⟨s₃, h₃⟩, hclaim₃⟩
    generalize (if bodyStored = true then
      releaseBody mem w₂ (bodySlot caller key fingerprint) r.releaseAt else w₂) = w₃ at *
    have hok : (w₃.set mem (slot caller key) (tombstone fingerprint response.statusCode)
        cfg.doneTtlS r.tombstoneAt).1 = .ok () := by
      rw [(State.set_spec mem w₃ _ _ _ _).1]
      refine State.store_overwrite h₃.inv hclaim₃ hlive ?_ _
      rw [hvalue]
      exact length_tombstone_le fingerprint hstatus
    rcases get?_set_of_ok h₃.inv hok with ⟨e', he', hv', hd'⟩
    refine ⟨e', he', ?_, hd'⟩
    rw [hv']
    exact isDone_tombstone _ _

end Complete

/-! ## Later attempts -/

/-- `begin` returned `FRESH`. -/
def IsFresh (result : Except BeginError IdempotencyOutcome) : Prop :=
  ∃ outcome, result = .ok outcome ∧ outcome.state = .fresh

theorem isFresh_ok {outcome : IdempotencyOutcome} :
    IsFresh (.ok outcome) ↔ outcome.state = .fresh := by
  unfold IsFresh
  simp only [Except.ok.injEq, exists_eq_left']

theorem not_isFresh_error (err : BeginError) : ¬ IsFresh (.error err) := by
  rintro ⟨outcome, hok, _⟩
  exact absurd hok (by simp only [reduceCtorEq, not_false_eq_true])

section Begin

variable {mem : MemoryConfig} {cfg : IdempotencyConfig} {w : World} {s : SpecState}
  {caller key fingerprint : String} {r : BeginReadings}

theorem beginReadings_sorted {clock : ℚ} (h : (clock :: r.toList).Pairwise (· ≤ ·)) :
    clock ≤ r.seen ∧ r.seen ≤ r.claimedAt ∧ r.claimedAt ≤ r.readAt ∧ r.readAt ≤ r.bodyReadAt :=
  ⟨List.rel_of_pairwise_cons h List.mem_cons_self,
    List.rel_of_pairwise_cons h.of_cons List.mem_cons_self,
    List.rel_of_pairwise_cons h.of_cons.of_cons List.mem_cons_self,
    List.rel_of_pairwise_cons h.of_cons.of_cons.of_cons List.mem_cons_self⟩

theorem classify_not_fresh (body : String) (record : Json) (now : ℚ) :
    ¬ IsFresh (classify mem cfg w body fingerprint record now).1 := by
  unfold classify
  split
  · split
    · split
      · simp only [isFresh_ok, reduceCtorEq, not_false_eq_true]
      · split
        · split <;> simp only [isFresh_ok, reduceCtorEq, not_false_eq_true]
        · simp only [isFresh_ok, reduceCtorEq, not_false_eq_true]
    · simp only [isFresh_ok, reduceCtorEq, not_false_eq_true]
  · exact not_isFresh_error _

/-- `begin` is fresh only where it finds no live entry. -/
theorem dead_of_fresh (h : IsFresh (begin mem cfg w caller key fingerprint r).1) :
    (w.backend.liveEntry mem (slot caller key) r.seen).1 = none := by
  rcases hlook : w.backend.liveEntry mem (slot caller key) r.seen with ⟨_ | e, b⟩
  · rfl
  · exfalso
    have hlost : w.setIfAbsent mem (slot caller key) (claim fingerprint) cfg.pendingTtlS r.seen
        r.claimedAt = (.ok false, w.note b r.seen [.claimLost (slot caller key) r.seen]) := by
      unfold World.setIfAbsent
      rw [hlook]
    unfold begin at h
    rw [hlost] at h
    dsimp only at h
    split at h
    · simp only [isFresh_ok, reduceCtorEq] at h
    · split at h
      · exact not_isFresh_error _ h
      · exact classify_not_fresh _ _ _ h

theorem extends_classify (h : Agrees mem w s) {now : ℚ} (hnow : w.clock ≤ now) (body : String)
    (record : Json) :
    Extends mem State.notSet w s (classify mem cfg w body fingerprint record now).2 := by
  unfold classify
  split
  · split
    · split
      · exact State.extends_refl h
      · split
        · split
          · exact State.extends_get h hnow body
          · exact State.extends_refl h
        · exact State.extends_refl h
    · exact State.extends_refl h
  · exact State.extends_refl h

/-- `begin` overwrites nothing. -/
theorem extends_begin (h : Agrees mem w s) (hreadings : (w.clock :: r.toList).Pairwise (· ≤ ·)) :
    Extends mem State.notSet w s (begin mem cfg w caller key fingerprint r).2 := by
  rcases beginReadings_sorted hreadings with ⟨hseen, hclaimed, hread, hbody⟩
  have hset := State.extends_setIfAbsent h hseen hclaimed (slot caller key) (claim fingerprint)
    cfg.pendingTtlS
  have hclock := State.clock_setIfAbsent mem w (slot caller key) (claim fingerprint)
    cfg.pendingTtlS hclaimed
  unfold begin
  generalize w.setIfAbsent mem (slot caller key) (claim fingerprint) cfg.pendingTtlS r.seen
    r.claimedAt = result at *
  split
  · exact hset
  · exact hset
  · exact hset
  · rename_i w₁
    dsimp only at hset hclock
    refine State.extends_trans hset fun s₁ h₁ => ?_
    have hget := State.extends_get h₁ (le_trans hclock hread) (slot caller key)
    have hclock' : (w₁.get mem (slot caller key) r.readAt).2.clock = r.readAt := rfl
    generalize w₁.get mem (slot caller key) r.readAt = looked at *
    rcases looked with ⟨_ | existing, w₂⟩
    · exact hget
    · dsimp only at hget hclock' ⊢
      split
      · exact hget
      · exact State.extends_trans hget fun s₂ h₂ =>
          extends_classify h₂ (le_trans (le_of_eq hclock') hbody) _ _

end Begin

/-- The call is a plain overwrite of a key. -/
def Action.overwrites (k : String) : Action → Prop
  | .other (.set key _ _ _) => key = k
  | _ => False

/-- Whatever else is called, short of a plain overwrite of the slot by someone
    else, no `begin` of the key is fresh before a time. -/
def TakenUntil (mem : MemoryConfig) (cfg : IdempotencyConfig) (w : World) (caller key : String)
    (time : ℚ) : Prop :=
  ∀ acts w', (service mem cfg).runActions w acts = some w' →
    (∀ a ∈ acts, ¬ a.overwrites (slot caller key)) →
    ∀ fingerprint (r : BeginReadings), (w'.clock :: r.toList).Pairwise (· ≤ ·) → r.seen < time →
      ¬ IsFresh (begin mem cfg w' caller key fingerprint r).1

/-- The slot is kept until a time within the replay window. -/
def Guarded (mem : MemoryConfig) (cfg : IdempotencyConfig) (k : String) (time : ℚ) (w : World) :
    Prop :=
  ∃ s, Agrees mem w s ∧ s.Kept k time ∧ time ≤ w.clock + cfg.doneTtlS

section Guarded

variable {mem : MemoryConfig} {cfg : IdempotencyConfig} {w w' : World} {k : String} {time : ℚ}

/-- Events that do not cut the slot's time short keep it guarded. -/
theorem guarded_extends {may : Event → Prop}
    (hspare : ∀ e, may e → ¬ e.cutsShort k time) {s : SpecState} (hkept : s.Kept k time)
    (hwindow : time ≤ w.clock + cfg.doneTtlS) (h : Extends mem may w s w') :
    Guarded mem cfg k time w' := by
  rcases h with ⟨events, s', _, hrun, hagrees, hclock, hmay⟩
  refine ⟨s', hagrees, ?_, le_trans hwindow (add_le_add hclock (le_refl _))⟩
  exact TtlStore.kept_runActions hkept (fun e he => hspare e (hmay e he)) hrun

theorem notSet_not_cutsShort {e : Event} (h : State.notSet e) : ¬ e.cutsShort k time := by
  intro hcut
  cases e with
  | set key v d => exact h
  | _ => exact hcut

theorem guarded_step {caller key : String} {a : Action}
    (hover : ¬ a.overwrites (slot caller key))
    (hguard : Guarded mem cfg (slot caller key) time w) (h : step mem cfg w a = some w') :
    Guarded mem cfg (slot caller key) time w' := by
  rcases hguard with ⟨s, hagrees, hkept, hwindow⟩
  cases a with
  | begin caller' key' fingerprint r =>
      simp only [step, Option.ite_none_right_eq_some, Option.some.injEq] at h
      rcases h with ⟨hreadings, rfl⟩
      exact guarded_extends (fun e => notSet_not_cutsShort) hkept hwindow
        (extends_begin hagrees hreadings)
  | complete caller' key' fingerprint response r =>
      simp only [step, Option.ite_none_right_eq_some, Option.some.injEq] at h
      rcases h with ⟨hreadings, rfl⟩
      refine guarded_extends (fun e hspares hcut => ?_) hkept hwindow
        (extends_complete hagrees response hreadings)
      -- A record of this slot lasts a replay window from now on.
      cases e with
      | set k' v d =>
          rcases hspares with hother | hlong
          · exact hother caller key hcut.1
          · exact absurd hcut.2 (not_lt.mpr (le_trans hwindow hlong))
      | _ => exact hcut
  | other op =>
      refine guarded_extends (fun e hmay hcut => ?_) hkept hwindow (State.refines_step hagrees h)
      cases op with
      | set k' v ttl now =>
          rw [show e = .set k' v (now + ttl) from hmay] at hcut
          exact hover hcut.1
      | _ => exact notSet_not_cutsShort hmay hcut

/-- A stored entry guards its key until its deadline. -/
theorem kept_of_entry {s : SpecState} (h : Agrees mem w s) {e : Entry}
    (he : w.backend.kv.get? k = some e) : s.Kept k e.expiresAt := by
  have hk := h.holds k
  rw [he] at hk
  cases hs : s.store k with
  | none =>
      rw [hs] at hk
      exact absurd hk (by simp only [reduceCtorEq, not_false_eq_true])
  | some x =>
      rw [hs] at hk
      rcases hk with ⟨e', he', _, hd⟩ | ⟨hgone, _⟩
      · rw [Option.some.injEq] at he'
        exact Or.inl ⟨x.1, x.2, hs, by rw [he', hd]⟩
      · exact absurd hgone (by simp only [reduceCtorEq, not_false_eq_true])

theorem takenUntil_of_guarded {caller key : String}
    (h : Guarded mem cfg (slot caller key) time w) : TakenUntil mem cfg w caller key time := by
  intro acts w' hrun hover fingerprint r hreadings hseen hfresh
  have hguard : Guarded mem cfg (slot caller key) time w' := by
    refine Machine.runActions_invariant (P := Guarded mem cfg (slot caller key) time) ?_ h hrun
    intro a ha w₁ w₂ h₁ hstep
    exact guarded_step (hover a ha) h₁ hstep
  rcases hguard with ⟨s, hagrees, hkept, _⟩
  have hclock := (beginReadings_sorted hreadings).1
  have hlive := (State.liveEntry_spec hagrees.inv hagrees.holds hclock (slot caller key)).1
  rw [dead_of_fresh hfresh] at hlive
  have hdead : (s.live (slot caller key) r.seen).isNone := by
    rw [← hlive]
    rfl
  exact absurd hseen
    (not_lt.mpr (TtlStore.le_of_kept hkept (le_trans hagrees.clock hclock) hdead))

end Guarded

/-- While the claim `begin` wrote is live, `complete` always leaves a finished
    record of the fingerprint and the status in the slot, and until that expires
    no `begin` of the key is fresh. -/
theorem claim_becomes_record {mem : MemoryConfig} {cfg : IdempotencyConfig} {w : World}
    (h : (State.memory mem).Reachable w) (caller key fingerprint : String) {response : Response}
    (hstatus : 0 ≤ response.statusCode ∧ response.statusCode ≤ maxStatusCode)
    {r : CompleteReadings} (hreadings : (w.clock :: r.toList).Pairwise (· ≤ ·)) {e : Entry}
    (hclaim : w.backend.kv.get? (slot caller key) = some e) (hvalue : e.value = claim fingerprint)
    (hlive : r.tombstoneAt < e.expiresAt) :
    ∃ e', (complete mem cfg w caller key fingerprint response r).backend.kv.get? (slot caller key)
        = some e' ∧ IsDone e'.value fingerprint response.statusCode ∧
      TakenUntil mem cfg (complete mem cfg w caller key fingerprint response r) caller key
        e'.expiresAt := by
  rcases State.refines_of_reachable h with ⟨_, s, _, _, hagrees⟩
  rcases complete_records hagrees hstatus hreadings hclaim hvalue hlive with
    ⟨e', he', hdone, hdeadline⟩
  refine ⟨e', he', hdone, takenUntil_of_guarded ?_⟩
  rcases extends_complete hagrees response hreadings with ⟨_, s', _, _, hagrees', _⟩
  exact ⟨s', hagrees', kept_of_entry hagrees' he', le_of_eq hdeadline⟩

/-- Bytes for a claim, but for no record with headers. -/
def tightConfig : MemoryConfig where
  budget := fun _ => .unshared 3 850 (by decide) (by decide)
  maxTotalBytes := 1700
  sweepIntervalS := 30
  maxTotalBytes_pos := by decide

def exampleStore : IdempotencyConfig := ⟨30, 86400, 1000⟩

/-- A response whose record does not fit where its claim does. -/
def exampleResponse : Response :=
  ⟨201, [("ETag", "0123456789012345678901234567890123456789")], [1, 2, 3]⟩

/-- The claim is in place when the response arrives; its body is stored, its
    record refused, its tombstone recorded. -/
theorem claim_becomes_record_tombstone :
    ∃ w, (State.memory tightConfig).runActions ⟨State.Backend.new tightConfig 0, 0, []⟩
        [.setIfAbsent (slot "c" "k") (claim "f") 30 0 0] = some w ∧
      (complete tightConfig exampleStore w "c" "k" "f" exampleResponse
        ⟨5, 5, 5, 5⟩).log.length = 4 ∧
      ∃ e', (complete tightConfig exampleStore w "c" "k" "f" exampleResponse
          ⟨5, 5, 5, 5⟩).backend.kv.get? (slot "c" "k") = some e' ∧
        IsDone e'.value "f" 201 ∧
        TakenUntil tightConfig exampleStore (complete tightConfig exampleStore w "c" "k" "f"
          exampleResponse ⟨5, 5, 5, 5⟩) "c" "k" e'.expiresAt := by
  have hrun : ((State.memory tightConfig).runActions ⟨State.Backend.new tightConfig 0, 0, []⟩
      [.setIfAbsent (slot "c" "k") (claim "f") 30 0 0]).any (fun w =>
        w.clock = 0 ∧ (w.backend.kv.get? (slot "c" "k")).any (fun e =>
          e.value = claim "f" ∧ 5 < e.expiresAt) ∧
        (complete tightConfig exampleStore w "c" "k" "f" exampleResponse
          ⟨5, 5, 5, 5⟩).log.length = 4) := by
    decide +kernel
  rcases (Option.any_eq_true _ _).mp hrun with ⟨w, hw, hfacts⟩
  rw [decide_eq_true_eq] at hfacts
  rcases hfacts with ⟨hclock, hentry, hlog⟩
  rcases (Option.any_eq_true _ _).mp hentry with ⟨e, he, hclaim⟩
  rw [decide_eq_true_eq] at hclaim
  have hreach : (State.memory tightConfig).Reachable w :=
    Machine.reachable_runActions (Machine.ReachesWhen.start _ ⟨0, rfl⟩) hw
  refine ⟨w, hw, hlog, claim_becomes_record hreach "c" "k" "f" (by decide) ?_ he hclaim.1 hclaim.2⟩
  rw [hclock]
  decide +kernel

/-- Right after, `begin` replays the status. -/
theorem begin_replays {mem : MemoryConfig} {cfg : IdempotencyConfig} {w : World}
    {caller key fingerprint : String} {statusCode : Int} {r : BeginReadings} {e : Entry}
    (he : w.backend.kv.get? (slot caller key) = some e)
    (hdone : IsDone e.value fingerprint statusCode) (hseen : r.seen ≤ r.readAt)
    (hlive : r.readAt < e.expiresAt) :
    ∃ stored, (begin mem cfg w caller key fingerprint r).1 = .ok ⟨.replay, some stored, 0⟩ ∧
      stored.statusCode = statusCode := by
  rcases hdone with ⟨members, hloads, hphase, hfp, hstatus⟩
  have hlook : ∀ b : State.Backend, b.kv.get? (slot caller key) = some e →
      ∀ t ≤ r.readAt, b.liveEntry mem (slot caller key) t = (some e, b) := by
    intro b hb t ht
    unfold State.Backend.liveEntry
    rw [hb]
    dsimp only
    rw [if_neg (not_le.mpr (lt_of_le_of_lt ht hlive))]
  have hlost : w.setIfAbsent mem (slot caller key) (claim fingerprint) cfg.pendingTtlS r.seen
      r.claimedAt = (.ok false, w.note w.backend r.seen [.claimLost (slot caller key) r.seen]) := by
    unfold World.setIfAbsent
    rw [hlook w.backend he r.seen hseen]
  unfold begin
  rw [hlost]
  dsimp only
  unfold World.get
  rw [show (w.note w.backend r.seen [.claimLost (slot caller key) r.seen]).backend = w.backend
    from rfl, hlook w.backend he r.readAt (le_refl _)]
  dsimp only [Option.map_some]
  rw [hloads]
  dsimp only
  have hcode : ∀ body, (decodeResponse (.obj members) body).statusCode = statusCode := by
    intro body
    unfold decodeResponse
    rw [hstatus]
  unfold classify
  dsimp only
  rw [hfp, hphase]
  dsimp only
  rw [if_neg (not_not.mpr rfl)]
  split
  · split
    · exact ⟨_, rfl, hcode _⟩
    · exact ⟨_, rfl, hcode _⟩
  · rename_i hne
    exact absurd rfl hne

end Broker

end JenticOne
