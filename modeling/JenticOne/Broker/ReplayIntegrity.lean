import JenticOne.Broker.FreshClaim

/-!
# One Response in a Replay

A replay takes status and headers from the record, and the body from a key of its
own that the record only refers to. The two are one response as long as nobody
writes under that key whom the record, or someone who has read it, or someone who is
about to write it, cannot have meant.

Another `complete` of the same request may: when a claim expires while its request
still runs, two requests with one fingerprint run at once, and each writes its body
before its record. The key of a body also has the first characters of a fingerprint
only.

## Main definitions

* `ReplayOf`: A stored response is what one completion leaves.
* `InUse`: The body of a completion may still be read for its record.
* `SparesBodies`: A write under a body's key suits whoever may still read it.
* `ReplayInv`: What is stored and what has been read, in runs of such writes.

## Theorems

* `verdict_doneJson`: What `begin` makes of a record.
* `inv_step`: A step that spares the bodies in use keeps the invariant.
* `replay_of_one_response`: Then every replay is one completion's.
* `overlappingCompletions_mixed`: Two completions that overlap leave the status of
  one with the body of the other.
-/

namespace JenticOne

namespace Broker

namespace Suspended

open State (Bytes)

variable {cfg : IdempotencyConfig} {w w' : World}

/-! ## Records -/

/-- The headers of a record. -/
def recorded (headers : List (String × String)) : List (String × Json) :=
  (capHeaders (scrubHeaders headers)).map fun h => (h.1, .str h.2)

/-- The record `complete` writes. -/
def doneJson (fingerprint : String) (statusCode : Int) (headers : List (String × String))
    (omitted hasBody : Bool) : Json :=
  .obj [("phase", .str "done"), ("fp", .str fingerprint), ("status", .int statusCode),
    ("headers", .obj (recorded headers)), ("body_omitted", .bool omitted),
    ("body_ref", .bool (hasBody && !omitted))]

def tombstoneJson (fingerprint : String) (statusCode : Int) : Json :=
  .obj [("phase", .str "done"), ("fp", .str fingerprint), ("status", .int statusCode),
    ("body_omitted", .bool true)]

theorem doneRecord_eq (fingerprint : String) (statusCode : Int)
    (headers : List (String × String)) (omitted hasBody : Bool) :
    doneRecord fingerprint statusCode headers omitted hasBody =
      dumps (doneJson fingerprint statusCode headers omitted hasBody) := rfl

theorem tombstone_eq (fingerprint : String) (statusCode : Int) :
    tombstone fingerprint statusCode = dumps (tombstoneJson fingerprint statusCode) := rfl

theorem dumps_inj {j j' : Json} (h : dumps j = dumps j') : j = j' := by
  have hloads := loads_dumps j
  rw [h, loads_dumps, Option.some.injEq] at hloads
  exact hloads.symm

/-- `begin` on a record. -/
theorem verdict_doneJson (fp fingerprint : String) (statusCode : Int)
    (headers : List (String × String)) (omitted hasBody : Bool) :
    verdict cfg fingerprint (doneJson fp statusCode headers omitted hasBody) =
      if fp ≠ fingerprint then .returned ⟨.conflict, none, 0⟩
      else if (hasBody && !omitted) = true then
        .readingBody (doneJson fp statusCode headers omitted hasBody)
      else .returned ⟨.replay, some (decodeResponse
        (doneJson fp statusCode headers omitted hasBody) none), 0⟩ := by
  cases omitted with
  | true => cases hasBody <;> rfl
  | false => cases hasBody <;> rfl

/-- `begin` on a tombstone. -/
theorem verdict_tombstoneJson (fp fingerprint : String) (statusCode : Int) :
    verdict cfg fingerprint (tombstoneJson fp statusCode) =
      if fp ≠ fingerprint then .returned ⟨.conflict, none, 0⟩
      else .returned ⟨.replay, some (decodeResponse (tombstoneJson fp statusCode) none), 0⟩ := rfl

/-- `begin` on a claim. -/
theorem verdict_pendingRecord (fp pad fingerprint : String) :
    verdict cfg fingerprint (pendingRecord fp pad) =
      if fp ≠ fingerprint then .returned ⟨.conflict, none, 0⟩
      else .returned ⟨.inProgress, none, retryAfter cfg⟩ := rfl

theorem decodeResponse_doneJson (fp : String) (statusCode : Int)
    (headers : List (String × String)) (omitted hasBody : Bool) (body : Option Bytes) :
    decodeResponse (doneJson fp statusCode headers omitted hasBody) body =
      ⟨statusCode, recorded headers, .stored (body.getD []),
        omitted || (hasBody && !omitted && body.isNone)⟩ := by
  cases omitted with
  | true => cases hasBody <;> rfl
  | false => cases hasBody <;> rfl

theorem decodeResponse_tombstoneJson (fp : String) (statusCode : Int) :
    decodeResponse (tombstoneJson fp statusCode) none = ⟨statusCode, [], .stored [], true⟩ := rfl

/-! ## Completions -/

/-- What the calls of `complete` were called with. -/
def completions (w : World) : List Completion := w.completes.map CompleteCall.toCompletion

/-- The record of a completion whose body was stored. -/
def Completion.record (x : Completion) : Json :=
  doneJson x.fingerprint x.response.statusCode x.response.headers false true

def Completion.bodySlot (x : Completion) : String :=
  Broker.bodySlot x.caller x.key x.fingerprint

def Completion.slot (x : Completion) : String := Broker.slot x.caller x.key

/-- The request of the `begin` is the one of the completion. -/
def OfRequest (b : BeginCall) (x : Completion) : Prop :=
  x.caller = b.caller ∧ x.key = b.key ∧ x.fingerprint = b.fingerprint

/-- A stored response is what the completion leaves: its status, its headers after
    scrubbing and capping, and its body, complete or omitted. A tombstone has neither
    headers nor body. -/
structure ReplayOf (x : Completion) (r : StoredResponse) : Prop where
  statusCode : r.statusCode = x.response.statusCode
  headers : r.headers = recorded x.response.headers ∨ r.headers = [] ∧ r.bodyOmitted = true
  body : r.bodyOmitted = true ∧ r.body = .stored [] ∨
    r.bodyOmitted = false ∧ r.body = .stored x.response.body

/-- Every replay is one completion's of its request. -/
def ReplayIntegrity (w : World) : Prop :=
  ∀ b ∈ w.begins, ∀ outcome, b.phase = .returned outcome → outcome.state = .replay →
    ∃ r, outcome.stored = some r ∧ ∃ x ∈ completions w, OfRequest b x ∧ ReplayOf x r

/-- The body of a completion may still be read for its record: the record is there,
    or has been read, or is about to be written by a call other than `i`. -/
inductive InUse (w : World) (i : Option Nat) (now : ℚ) (x : Completion) : Prop
  | stored (d : ℚ) : w.store.live x.slot now = some (dumps x.record, d) → InUse w i now x
  | read (b : BeginCall) : b ∈ w.begins → OfRequest b x → b.phase = .readingBody x.record →
      InUse w i now x
  | recording (j : Nat) (c : CompleteCall) : w.completes[j]? = some c → i ≠ some j →
      c.toCompletion = x → c.phase = .recording false true → InUse w i now x

/-- Some completion of the same request with the same record has the body. -/
def HasBody (w : World) (x : Completion) (body : Bytes) : Prop :=
  ∃ y ∈ completions w, y.caller = x.caller ∧ y.key = x.key ∧ y.record = x.record ∧
    y.response.body = body

/-- What the next operation of the call writes under the key of its body. -/
def CompleteCall.writesBody (c : CompleteCall) : Option Bytes :=
  match c.phase with
  | .storing => some c.response.body
  | .releasing => some []
  | _ => none

/-- The action writes under a body's key only what suits every completion whose body
    may still be read from there. -/
def SparesBodies (w : World) : Action → Prop
  | .resumeComplete i now false => ∀ c, w.completes[i]? = some c →
      ∀ body, c.writesBody = some body → ∀ x ∈ completions w, x.bodySlot = c.bodySlot →
        InUse w (some i) now x → HasBody w x body
  | _ => True

/-! ## The invariant -/

/-- What may lie under a slot. -/
inductive SlotValue (w : World) (caller key : String) (v : Bytes) : Prop
  | claim (fingerprint : String) : v = claim fingerprint → SlotValue w caller key v
  | tombstone (x : Completion) : x ∈ completions w → x.caller = caller → x.key = key →
      v = dumps (tombstoneJson x.fingerprint x.response.statusCode) → SlotValue w caller key v
  | done (x : Completion) (omitted : Bool) : x ∈ completions w → x.caller = caller → x.key = key →
      v = dumps (doneJson x.fingerprint x.response.statusCode x.response.headers omitted
        (decide (x.response.body ≠ []))) → SlotValue w caller key v

/-- What a phase of `complete` says of its body. -/
def PhaseOk (body : Bytes) : CompletePhase → Prop
  | .storing => body ≠ []
  | .recording omitted bodyStored =>
      omitted = false → (bodyStored = true ↔ body ≠ [])
  | _ => True

structure ReplayInv (w : World) : Prop where
  slots : ∀ caller key v d, w.store.store (slot caller key) = some (v, d) →
    SlotValue w caller key v
  phases : ∀ c ∈ w.completes, PhaseOk c.response.body c.phase
  /-- A record that was read is the one of some completion of the request. -/
  readers : ∀ b ∈ w.begins, ∀ record, b.phase = .readingBody record →
    ∃ x ∈ completions w, OfRequest b x ∧ record = x.record
  /-- A body that may be read suits the record. -/
  bodies : ∀ x ∈ completions w, InUse w none w.store.clock x → ∀ v d,
    w.store.live x.bodySlot w.store.clock = some (v, d) → HasBody w x v
  replays : ReplayIntegrity w

theorem inv_initial : ReplayInv World.initial where
  slots caller key v d h := absurd h (by simp [World.initial])
  phases c hc := absurd hc List.not_mem_nil
  readers b hb := absurd hb List.not_mem_nil
  bodies x hx := absurd hx List.not_mem_nil
  replays b hb := absurd hb List.not_mem_nil

theorem slotValue_mono (h : ∀ x ∈ completions w, x ∈ completions w') {caller key : String}
    {v : Bytes} (hv : SlotValue w caller key v) : SlotValue w' caller key v := by
  cases hv with
  | claim fingerprint hv => exact .claim fingerprint hv
  | tombstone x hx hcaller hkey hv => exact .tombstone x (h x hx) hcaller hkey hv
  | done x omitted hx hcaller hkey hv => exact .done x omitted (h x hx) hcaller hkey hv

theorem hasBody_mono (h : ∀ x ∈ completions w, x ∈ completions w') {x : Completion} {v : Bytes}
    (hbody : HasBody w x v) : HasBody w' x v := by
  rcases hbody with ⟨y, hy, hrest⟩
  exact ⟨y, h y hy, hrest⟩

/-- What is there later has been there. -/
theorem live_of_later {s : Store} {k : String} {t t' : ℚ} (hle : t ≤ t') {x : Bytes × ℚ}
    (h : s.live k t' = some x) : s.live k t = some x := by
  unfold TtlStore.State.live at h ⊢
  rw [Option.filter_eq_some_iff, decide_eq_true_eq] at h ⊢
  exact ⟨h.1, lt_of_le_of_lt hle h.2⟩

theorem store_of_live {s : Store} {k : String} {t : ℚ} {x : Bytes × ℚ}
    (h : s.live k t = some x) : s.store k = some x := by
  unfold TtlStore.State.live at h
  exact (Option.filter_eq_some_iff.mp h).1

/-- A record that refers to a body is neither a claim nor a tombstone. -/
theorem record_ne_claim (x : Completion) (fingerprint : String) :
    dumps x.record ≠ Broker.claim fingerprint := by
  intro h
  have hphase := congrArg (Json.get? "phase") (dumps_inj h)
  exact absurd (Json.str.inj (Option.some.inj hphase)) (by decide)

theorem record_ne_tombstone (x : Completion) (fingerprint : String) (statusCode : Int) :
    dumps x.record ≠ dumps (tombstoneJson fingerprint statusCode) := by
  intro h
  have hheaders := congrArg (Json.get? "headers") (dumps_inj h)
  exact absurd (show (some _ : Option Json) = none from hheaders) (by
    simp only [reduceCtorEq, not_false_eq_true])

/-- A record that refers to a body has all of the completion in it but the body. -/
theorem record_eq_doneJson {x y : Completion} {omitted hasBody : Bool}
    (h : x.record = doneJson y.fingerprint y.response.statusCode y.response.headers omitted
      hasBody) :
    omitted = false ∧ hasBody = true ∧ x.fingerprint = y.fingerprint ∧ x.record = y.record := by
  have href := congrArg (Json.get? "body_ref") h
  have hfp := congrArg (Json.get? "fp") h
  have hb := Json.bool.inj (Option.some.inj
    (show some (Json.bool true) = some (Json.bool (hasBody && !omitted)) from href))
  have hf := Json.str.inj (Option.some.inj
    (show some (Json.str x.fingerprint) = some (Json.str y.fingerprint) from hfp))
  rw [eq_comm, Bool.and_eq_true, Bool.not_eq_true'] at hb
  rw [hb.1, hb.2] at h
  exact ⟨hb.2, hb.1, hf, h⟩

/-! ## Steps that write no body -/

/-- What a `begin` that was resumed has read is in use, or came from one completion. -/
structure BeginOk (w : World) (b : BeginCall) : Prop where
  reading : ∀ record, b.phase = .readingBody record →
    ∃ y ∈ completions w, OfRequest b y ∧ record = y.record ∧ InUse w none w.store.clock y
  replay : ∀ outcome, b.phase = .returned outcome → outcome.state = .replay →
    ∃ r, outcome.stored = some r ∧ ∃ x ∈ completions w, OfRequest b x ∧ ReplayOf x r

/-- Completions of one request with one record have one another's bodies. -/
theorem hasBody_of_alike {x y : Completion} (hcaller : y.caller = x.caller) (hkey : y.key = x.key)
    (hrecord : y.record = x.record) {v : Bytes} (h : HasBody w y v) : HasBody w x v := by
  rcases h with ⟨z, hz, hc, hk, hr, hbody⟩
  exact ⟨z, hz, hc.trans hcaller, hk.trans hkey, hr.trans hrecord, hbody⟩

theorem bodySlot_of_alike {x y : Completion} (hcaller : y.caller = x.caller)
    (hkey : y.key = x.key) (hfp : y.fingerprint = x.fingerprint) : y.bodySlot = x.bodySlot := by
  unfold Completion.bodySlot
  rw [hcaller, hkey, hfp]

theorem fingerprint_of_record {x y : Completion} (h : y.record = x.record) :
    y.fingerprint = x.fingerprint :=
  (record_eq_doneJson h).2.2.1

/-- A step that writes no body. A record that refers to one must have been in use. -/
theorem inv_quiet (inv : ReplayInv w) (hclock : w.store.clock ≤ w'.store.clock)
    (hcompletions : completions w' = completions w)
    (hbody : ∀ x : Completion, w'.store.store x.bodySlot = w.store.store x.bodySlot)
    (hslots : ∀ caller key v d, w'.store.store (slot caller key) = some (v, d) →
      SlotValue w caller key v)
    (hstored : ∀ x ∈ completions w, ∀ d,
      w'.store.live x.slot w'.store.clock = some (dumps x.record, d) →
        ∃ y ∈ completions w, y.caller = x.caller ∧ y.key = x.key ∧ y.record = x.record ∧
          InUse w none w.store.clock y)
    (hphases : ∀ c ∈ w'.completes, PhaseOk c.response.body c.phase)
    (hrecording : ∀ (j : Nat) (c : CompleteCall), w'.completes[j]? = some c →
      c.phase = .recording false true → w.completes[j]? = some c)
    (hbegins : ∀ b ∈ w'.begins, b ∈ w.begins ∨ BeginOk w b) : ReplayInv w' where
  slots caller key v d h :=
    slotValue_mono (fun x hx => by rw [hcompletions]; exact hx) (hslots caller key v d h)
  phases := hphases
  readers b hb record hphase := by
    rw [hcompletions]
    rcases hbegins b hb with hold | hok
    · exact inv.readers b hold record hphase
    · rcases hok.reading record hphase with ⟨y, hy, hreq, hrecord, -⟩
      exact ⟨y, hy, hreq, hrecord⟩
  bodies x hx huse v d hlive := by
    rw [hcompletions] at hx
    refine hasBody_mono (w := w) (fun y hy => by rw [hcompletions]; exact hy) ?_
    have hbefore : w.store.live x.bodySlot w.store.clock = some (v, d) := by
      refine live_of_later hclock ?_
      unfold TtlStore.State.live at hlive ⊢
      rw [← hbody]
      exact hlive
    -- Whoever uses the body now used it before, or an alike completion's.
    have hused : ∃ y ∈ completions w, y.caller = x.caller ∧ y.key = x.key ∧
        y.record = x.record ∧ InUse w none w.store.clock y := by
      cases huse with
      | stored d' hstore => exact hstored x hx d' hstore
      | read b hb hreq hphase =>
          rcases hbegins b hb with hold | hok
          · exact ⟨x, hx, rfl, rfl, rfl, .read b hold hreq hphase⟩
          · rcases hok.reading x.record hphase with ⟨y, hy, hreq', hrecord, huse'⟩
            exact ⟨y, hy, hreq'.1.trans hreq.1.symm, hreq'.2.1.trans hreq.2.1.symm, hrecord.symm,
              huse'⟩
      | recording j c hc hne hcx hphase =>
          exact ⟨x, hx, rfl, rfl, rfl, .recording j c (hrecording j c hc hphase) hne hcx hphase⟩
    rcases hused with ⟨y, hy, hcaller, hkey, hrecord, huse'⟩
    rw [← bodySlot_of_alike hcaller hkey (fingerprint_of_record hrecord)] at hbefore
    exact hasBody_of_alike hcaller hkey hrecord (inv.bodies y hy huse' v d hbefore)
  replays b hb outcome hphase hstate := by
    rw [hcompletions]
    rcases hbegins b hb with hold | hok
    · exact inv.replays b hold outcome hphase hstate
    · exact hok.replay outcome hphase hstate

/-! ## Begin -/

/-- `begin` on whatever may lie under its slot. -/
theorem verdict_sound (cfg : IdempotencyConfig) {b : BeginCall} {v : Bytes} (hv : SlotValue w b.caller b.key v) :
    ∃ record, loads v = some record ∧
      (∀ r, verdict cfg b.fingerprint record = .readingBody r → ∃ x ∈ completions w,
        OfRequest b x ∧ r = x.record ∧ v = dumps x.record) ∧
      ∀ outcome, verdict cfg b.fingerprint record = .returned outcome → outcome.state = .replay →
        ∃ r, outcome.stored = some r ∧ ∃ x ∈ completions w, OfRequest b x ∧ ReplayOf x r := by
  cases hv with
  | claim fp hv =>
      refine ⟨pendingRecord fp _, by rw [hv]; exact loads_dumps _, ?_, ?_⟩
      · intro r h
        rw [verdict_pendingRecord] at h
        split at h
        · exact absurd h (by simp only [reduceCtorEq, not_false_eq_true])
        · exact absurd h (by simp only [reduceCtorEq, not_false_eq_true])
      · intro outcome h hstate
        rw [verdict_pendingRecord] at h
        split at h
        · rw [BeginPhase.returned.injEq] at h
          rw [← h] at hstate
          exact absurd hstate (by decide)
        · rw [BeginPhase.returned.injEq] at h
          rw [← h] at hstate
          exact absurd hstate (by simp only [reduceCtorEq, not_false_eq_true])
  | tombstone x hx hcaller hkey hv =>
      refine ⟨_, by rw [hv]; exact loads_dumps _, ?_, ?_⟩
      · intro r h
        rw [verdict_tombstoneJson] at h
        split at h
        · exact absurd h (by simp only [reduceCtorEq, not_false_eq_true])
        · exact absurd h (by simp only [reduceCtorEq, not_false_eq_true])
      · intro outcome h hstate
        rw [verdict_tombstoneJson] at h
        split at h
        · rw [BeginPhase.returned.injEq] at h
          rw [← h] at hstate
          exact absurd hstate (by decide)
        · next hfp =>
            rw [BeginPhase.returned.injEq] at h
            rw [← h, decodeResponse_tombstoneJson]
            exact ⟨_, rfl, x, hx, ⟨hcaller, hkey, not_not.mp hfp⟩, rfl, .inr ⟨rfl, rfl⟩,
              .inl ⟨rfl, rfl⟩⟩
  | done x omitted hx hcaller hkey hv =>
      refine ⟨_, by rw [hv]; exact loads_dumps _, ?_, ?_⟩
      · intro r h
        rw [verdict_doneJson] at h
        split at h
        · exact absurd h (by simp only [reduceCtorEq, not_false_eq_true])
        · next hfp =>
            split at h
            · next href =>
                rw [Bool.and_eq_true, Bool.not_eq_true'] at href
                rw [BeginPhase.readingBody.injEq, href.1, href.2] at h
                rw [href.1, href.2] at hv
                exact ⟨x, hx, ⟨hcaller, hkey, not_not.mp hfp⟩, h.symm, hv⟩
            · exact absurd h (by simp only [reduceCtorEq, not_false_eq_true])
      · intro outcome h hstate
        rw [verdict_doneJson] at h
        split at h
        · rw [BeginPhase.returned.injEq] at h
          rw [← h] at hstate
          exact absurd hstate (by decide)
        · next hfp =>
            split at h
            · exact absurd h (by simp only [reduceCtorEq, not_false_eq_true])
            · next href =>
                rw [BeginPhase.returned.injEq] at h
                rw [← h, decodeResponse_doneJson, Bool.eq_false_iff.mpr href]
                refine ⟨_, rfl, x, hx, ⟨hcaller, hkey, not_not.mp hfp⟩, rfl, .inl rfl, ?_⟩
                cases omitted with
                | true => exact .inl ⟨rfl, rfl⟩
                | false =>
                    -- The body is not omitted, so it is empty.
                    rw [Bool.not_false, Bool.and_true, decide_eq_true_eq, not_not] at href
                    exact .inr ⟨rfl, by rw [href]; rfl⟩

/-- What `begin` returns with the body that it found for a record. -/
theorem replay_of_body {b : BeginCall} {x : Completion} (hx : x ∈ completions w)
    (hreq : OfRequest b x) {body : Option Bytes} (hbody : ∀ v, body = some v → HasBody w x v) :
    ∃ y ∈ completions w, OfRequest b y ∧ ReplayOf y (decodeResponse x.record body) := by
  cases body with
  | none =>
      refine ⟨x, hx, hreq, ?_⟩
      rw [Completion.record, decodeResponse_doneJson]
      exact ⟨rfl, .inl rfl, .inl ⟨rfl, rfl⟩⟩
  | some v =>
      rcases hbody v rfl with ⟨y, hy, hcaller, hkey, hrecord, hv⟩
      refine ⟨y, hy, ⟨hcaller.trans hreq.1, hkey.trans hreq.2.1,
        (fingerprint_of_record hrecord).trans hreq.2.2⟩, ?_⟩
      rw [← hrecord, Completion.record, decodeResponse_doneJson]
      exact ⟨rfl, .inl rfl, .inr ⟨rfl, by rw [hv]; rfl⟩⟩

/-- A store operation that writes nothing. -/
theorem inv_look (inv : ReplayInv w) {now : ℚ} (hnow : w.store.clock ≤ now)
    {begins : List BeginCall} {completes : List CompleteCall}
    (hcompletions : completes.map CompleteCall.toCompletion = completions w)
    (hphases : ∀ c ∈ completes, PhaseOk c.response.body c.phase)
    (hrecording : ∀ (j : Nat) (c : CompleteCall), completes[j]? = some c →
      c.phase = .recording false true → w.completes[j]? = some c)
    (hbegins : ∀ b ∈ begins, b ∈ w.begins ∨ BeginOk w b) :
    ReplayInv ⟨look w.store now, begins, completes⟩ :=
  inv_quiet inv hnow hcompletions (fun _ => rfl) inv.slots
    (fun x hx d hlive => ⟨x, hx, rfl, rfl, rfl, .stored d (live_of_later hnow hlive)⟩) hphases
    hrecording hbegins

/-- A write under a slot. -/
theorem inv_put (inv : ReplayInv w) {now ttl : ℚ} (hnow : w.store.clock ≤ now)
    {caller key : String} {v : Bytes} (hv : SlotValue w caller key v)
    (hrecord : ∀ x ∈ completions w, x.caller = caller → x.key = key → dumps x.record = v →
      ∃ y ∈ completions w, y.caller = x.caller ∧ y.key = x.key ∧ y.record = x.record ∧
        InUse w none w.store.clock y)
    {begins : List BeginCall} {completes : List CompleteCall}
    (hcompletions : completes.map CompleteCall.toCompletion = completions w)
    (hphases : ∀ c ∈ completes, PhaseOk c.response.body c.phase)
    (hrecording : ∀ (j : Nat) (c : CompleteCall), completes[j]? = some c →
      c.phase = .recording false true → w.completes[j]? = some c)
    (hbegins : ∀ b ∈ begins, b ∈ w.begins ∨ BeginOk w b) :
    ReplayInv ⟨put w.store (slot caller key) v ttl now, begins, completes⟩ := by
  refine inv_quiet inv hnow hcompletions (fun x => ?_) (fun caller' key' v' d h => ?_)
    (fun x hx d hlive => ?_) hphases hrecording hbegins
  · exact store_put_other _ (slot_ne_bodySlot _ _ _ _ _).symm _ _ _
  · by_cases heq : slot caller' key' = slot caller key
    · rcases slot_inj heq with ⟨hcaller, hkey⟩
      rw [heq, store_put_self, Option.some.injEq, Prod.mk.injEq] at h
      rw [hcaller, hkey, ← h.1]
      exact hv
    · rw [store_put_other _ heq] at h
      exact inv.slots caller' key' v' d h
  · have hstore := store_of_live hlive
    by_cases heq : x.slot = slot caller key
    · rcases slot_inj heq with ⟨hcaller, hkey⟩
      rw [heq, store_put_self, Option.some.injEq, Prod.mk.injEq] at hstore
      exact hrecord x hx hcaller hkey hstore.1.symm
    · refine ⟨x, hx, rfl, rfl, rfl, .stored d (live_of_later hnow ?_)⟩
      unfold TtlStore.State.live at hlive ⊢
      rw [← store_put_other w.store heq v ttl now]
      exact hlive

theorem inv_resumeBegin (inv : ReplayInv w) {i : Nat} {b : BeginCall}
    (hb : w.begins[i]? = some b) {now : ℚ} (hnow : w.store.clock ≤ now) {refused : Bool}
    {store : Store} {phase : BeginPhase}
    (h : resumeBegin cfg w.store b now refused = some (store, phase)) :
    ReplayInv { w with store := store, begins := w.begins.set i { b with phase := phase } } := by
  -- What is left to show is that the call is in order; the others are as they were.
  have hset : BeginOk w { b with phase := phase } →
      ∀ b' ∈ w.begins.set i { b with phase := phase }, b' ∈ w.begins ∨ BeginOk w b' := by
    intro hok b' hb'
    rcases List.mem_or_eq_of_mem_set hb' with hold | rfl
    · exact .inl hold
    · exact .inr hok
  have hmem : b ∈ w.begins := List.mem_iff_getElem?.mpr ⟨i, hb⟩
  unfold resumeBegin at h
  dsimp only at h
  split at h
  · split at h
    · rw [Option.some.injEq, Prod.mk.injEq] at h
      rw [← h.1]
      refine inv_look inv hnow rfl inv.phases (fun j c hc _ => hc) (hset ?_)
      rw [← h.2]
      exact ⟨fun r hr => absurd hr (by simp only [reduceCtorEq, not_false_eq_true]),
        fun o ho => absurd ho (by simp only [reduceCtorEq, not_false_eq_true])⟩
    · split at h
      · rw [Option.some.injEq, Prod.mk.injEq] at h
        rw [← h.1]
        refine inv_look inv hnow rfl inv.phases (fun j c hc _ => hc) (hset ?_)
        rw [← h.2]
        exact ⟨fun r hr => absurd hr (by simp only [reduceCtorEq, not_false_eq_true]),
          fun o ho => absurd ho (by simp only [reduceCtorEq, not_false_eq_true])⟩
      · rw [Option.some.injEq, Prod.mk.injEq] at h
        rw [← h.1]
        refine inv_put inv hnow (.claim b.fingerprint rfl)
          (fun x _ _ _ hx => absurd hx (record_ne_claim x _)) rfl inv.phases
          (fun j c hc _ => hc) (hset ?_)
        rw [← h.2]
        refine ⟨fun r hr => absurd hr (by simp only [reduceCtorEq, not_false_eq_true]),
          fun o ho hstate => ?_⟩
        rw [BeginPhase.returned.injEq] at ho
        rw [← ho] at hstate
        exact absurd hstate (by decide)
  · rw [Option.some.injEq, Prod.mk.injEq] at h
    rw [← h.1]
    refine inv_look inv hnow rfl inv.phases (fun j c hc _ => hc) (hset ?_)
    rw [← h.2]
    cases hfound : found w.store (slot b.caller b.key) now with
    | none =>
        refine ⟨fun r hr => absurd hr (by simp only [reduceCtorEq, not_false_eq_true]),
          fun o ho hstate => ?_⟩
        simp only [BeginPhase.returned.injEq] at ho
        rw [← ho] at hstate
        exact absurd hstate (by simp only [reduceCtorEq, not_false_eq_true])
    | some v =>
        unfold found at hfound
        rcases Option.map_eq_some_iff.mp hfound with ⟨⟨v', d⟩, hlive, hv⟩
        rw [show v' = v from hv] at hlive
        have hvalue := inv.slots b.caller b.key v d (store_of_live hlive)
        rcases verdict_sound cfg hvalue with ⟨record, hloads, hreading, hreplay⟩
        dsimp only
        rw [hloads]
        refine ⟨fun r hr => ?_, fun o ho hstate => hreplay o ho hstate⟩
        rcases hreading r hr with ⟨x, hx, hreq, hrecord, hvx⟩
        refine ⟨x, hx, hreq, hrecord, .stored d (live_of_later hnow ?_)⟩
        rw [Completion.slot, hreq.1, hreq.2.1, ← hvx]
        exact hlive
  · next record hphase =>
      rw [Option.some.injEq, Prod.mk.injEq] at h
      rw [← h.1]
      refine inv_look inv hnow rfl inv.phases (fun j c hc _ => hc) (hset ?_)
      rw [← h.2]
      refine ⟨fun r hr => absurd hr (by simp only [reduceCtorEq, not_false_eq_true]),
        fun o ho _ => ?_⟩
      rw [BeginPhase.returned.injEq] at ho
      rw [← ho]
      rcases inv.readers b hmem record hphase with ⟨x, hx, hreq, hrecord⟩
      rw [hrecord] at hphase ⊢
      refine ⟨_, rfl, replay_of_body (b := { b with phase := phase }) hx hreq fun v hv => ?_⟩
      unfold found at hv
      rcases Option.map_eq_some_iff.mp hv with ⟨⟨v', d⟩, hlive, hv'⟩
      rw [show v' = v from hv', ← hreq.1, ← hreq.2.1, ← hreq.2.2] at hlive
      exact inv.bodies x hx (.read b hmem hreq hphase) v d (live_of_later hnow hlive)
  · exact absurd h (by simp only [reduceCtorEq, not_false_eq_true])
  · exact absurd h (by simp only [reduceCtorEq, not_false_eq_true])

/-! ## Complete -/

/-- A call that was resumed is one of the same completion. -/
theorem completions_set {i : Nat} {c : CompleteCall} (hc : w.completes[i]? = some c)
    (phase : CompletePhase) :
    (w.completes.set i { c with phase := phase }).map CompleteCall.toCompletion =
      completions w := by
  refine List.ext_getElem? fun j => ?_
  rw [completions, List.getElem?_map, List.getElem?_map, List.getElem?_set]
  split
  · next hij =>
      rw [← hij, if_pos (List.getElem?_eq_some_iff.mp hc).1, hc]
      rfl
  · rfl

theorem phases_set (inv : ReplayInv w) {i : Nat} {c : CompleteCall} {phase : CompletePhase}
    (hphase : PhaseOk c.response.body phase) :
    ∀ c' ∈ w.completes.set i { c with phase := phase }, PhaseOk c'.response.body c'.phase := by
  intro c' hc'
  rcases List.mem_or_eq_of_mem_set hc' with hold | rfl
  · exact inv.phases c' hold
  · exact hphase

/-- A write under a body's key that suits whoever may still read it. -/
theorem inv_putBody (inv : ReplayInv w) {now ttl : ℚ} (hnow : w.store.clock ≤ now) {i : Nat}
    {c : CompleteCall} (hc : w.completes[i]? = some c) {v : Bytes} {phase : CompletePhase}
    (hspares : ∀ x ∈ completions w, x.bodySlot = c.bodySlot → InUse w (some i) now x →
      HasBody w x v)
    (hown : phase = .recording false true → v = c.response.body)
    (hphase : PhaseOk c.response.body phase) :
    ReplayInv { w with
      store := put w.store c.bodySlot v ttl now
      completes := w.completes.set i { c with phase := phase } } := by
  have hcompletions := completions_set hc phase
  have hslot : ∀ caller key, (put w.store c.bodySlot v ttl now).store (slot caller key) =
      w.store.store (slot caller key) :=
    fun caller key => store_put_other _ (slot_ne_bodySlot _ _ _ _ _) _ _ _
  refine ⟨fun caller key v' d h => ?_, phases_set inv hphase, fun b hb record hr => ?_,
    fun x hx huse v' d hlive => ?_, fun b hb o ho hstate => ?_⟩
  · refine slotValue_mono (w := w) (fun x hx => ?_) (inv.slots caller key v' d ?_)
    · rw [← hcompletions] at hx
      exact hx
    · rw [← hslot]
      exact h
  · unfold completions
    rw [hcompletions]
    exact inv.readers b hb record hr
  · unfold completions at hx
    rw [hcompletions] at hx
    refine hasBody_mono (w := w) (fun y hy => by rw [← hcompletions] at hy; exact hy) ?_
    -- Who uses the body of `x` now used it before, unless it is the call itself.
    have hused : InUse w (some i) now x ∨ phase = .recording false true ∧ c.toCompletion = x := by
      cases huse with
      | stored d' hstored =>
          refine .inl (.stored d' ?_)
          unfold TtlStore.State.live at hstored ⊢
          rw [Completion.slot, ← hslot]
          exact hstored
      | read b hb hreq hread => exact .inl (.read b hb hreq hread)
      | recording j c' hc' _ hx' hrec =>
          rcases Lists.getElem?_set_cases hc' with ⟨hold, hne⟩ | ⟨rfl, rfl⟩
          · exact .inl (.recording j c' hold (fun h => hne (Option.some.inj h).symm) hx' hrec)
          · exact .inr ⟨hrec, hx'⟩
    by_cases hsame : x.bodySlot = c.bodySlot
    · have hv := store_of_live hlive
      rw [hsame] at hv
      change (put w.store c.bodySlot v ttl now).store c.bodySlot = some (v', d) at hv
      rw [store_put_self, Option.some.injEq, Prod.mk.injEq] at hv
      rw [← hv.1]
      rcases hused with hother | ⟨hrec, hself⟩
      · exact hspares x hx hsame hother
      · exact ⟨x, hx, rfl, rfl, rfl, by rw [← hself, hown hrec]⟩
    · rcases hused with hother | ⟨-, hself⟩
      · have hbefore : w.store.live x.bodySlot now = some (v', d) := by
          unfold TtlStore.State.live at hlive ⊢
          rw [← store_put_other w.store hsame v ttl now]
          exact hlive
        refine inv.bodies x hx ?_ v' d (live_of_later hnow hbefore)
        cases hother with
        | stored d' hstored => exact .stored d' (live_of_later hnow hstored)
        | read b hb hreq hread => exact .read b hb hreq hread
        | recording j c' hc' _ hx' hrec =>
            exact .recording j c' hc' (by simp only [ne_eq, reduceCtorEq, not_false_eq_true]) hx'
              hrec
      · rw [← hself] at hsame
        exact absurd rfl hsame
  · unfold completions
    rw [hcompletions]
    exact inv.replays b hb o ho hstate

theorem inv_resumeComplete (inv : ReplayInv w) {i : Nat} {c : CompleteCall}
    (hc : w.completes[i]? = some c) {now : ℚ} (hnow : w.store.clock ≤ now) {refused : Bool}
    (hspares : SparesBodies w (.resumeComplete i now refused)) {store : Store}
    {phase : CompletePhase} (h : resumeComplete cfg w.store c now refused = some (store, phase)) :
    ReplayInv { w with
      store := store
      completes := w.completes.set i { c with phase := phase } } := by
  have hmem : c ∈ w.completes := List.mem_iff_getElem?.mpr ⟨i, hc⟩
  have hx : c.toCompletion ∈ completions w := List.mem_map_of_mem hmem
  have hok := inv.phases c hmem
  -- A phase that is not the one after a stored body brings no new reader of it.
  have hrecording : phase ≠ .recording false true → ∀ (j : Nat) (c' : CompleteCall),
      (w.completes.set i { c with phase := phase })[j]? = some c' →
      c'.phase = .recording false true → w.completes[j]? = some c' := by
    intro hne j c' hc' hrec
    rcases Lists.getElem?_set_cases hc' with ⟨hold, -⟩ | ⟨-, rfl⟩
    · exact hold
    · exact absurd hrec hne
  have hlook : phase ≠ .recording false true → PhaseOk c.response.body phase →
      ReplayInv { w with
        store := look w.store now
        completes := w.completes.set i { c with phase := phase } } := fun hne hphase =>
    inv_look inv hnow (completions_set hc phase) (phases_set inv hphase) (hrecording hne)
      fun b hb => .inl hb
  unfold resumeComplete at h
  dsimp only at h
  split at h
  · next hstoring =>
      split at h
      · rw [Option.some.injEq, Prod.mk.injEq] at h
        rw [← h.1]
        rw [← h.2] at hlook ⊢
        exact hlook (by decide) fun hf => absurd hf (by decide)
      · next hf =>
          rw [Option.some.injEq, Prod.mk.injEq] at h
          rw [Bool.eq_false_iff.mpr hf] at hspares
          rw [hstoring] at hok
          rw [← h.1, ← h.2]
          refine inv_putBody inv hnow hc (hspares c hc _ ?_) (fun _ => rfl)
            fun _ => ⟨fun _ => hok, fun _ => rfl⟩
          rw [CompleteCall.writesBody, hstoring]
  · next omitted bodyStored hrec =>
      split at h
      · rw [Option.some.injEq, Prod.mk.injEq] at h
        rw [← h.1]
        rw [← h.2] at hlook ⊢
        refine hlook ?_ ?_
        · split <;> decide
        · split <;> exact trivial
      · rw [Option.some.injEq, Prod.mk.injEq] at h
        rw [← h.1]
        refine inv_put inv hnow (.done c.toCompletion omitted hx rfl rfl (doneRecord_eq ..))
          (fun x hx' hcaller hkey hdumps => ?_) (completions_set hc phase)
          (phases_set inv (by rw [← h.2]; exact trivial))
          (hrecording (by rw [← h.2]; decide)) fun b hb => .inl hb
        -- The record refers to a body, so this call has stored it.
        rw [doneRecord_eq] at hdumps
        rcases record_eq_doneJson (dumps_inj hdumps) with ⟨homitted, hbody, hfp, hrecord⟩
        rw [decide_eq_true_eq] at hbody
        rw [hrec] at hok
        have hstored : bodyStored = true := (hok homitted).mpr hbody
        rw [homitted, hstored] at hrec
        exact ⟨c.toCompletion, hx, hcaller.symm, hkey.symm, hrecord.symm,
          .recording i c hc (by simp only [ne_eq, reduceCtorEq, not_false_eq_true]) rfl hrec⟩
  · next hreleasing =>
      split at h
      · rw [Option.some.injEq, Prod.mk.injEq] at h
        rw [← h.1]
        rw [← h.2] at hlook ⊢
        exact hlook (by decide) trivial
      · next hf =>
          rw [Option.some.injEq, Prod.mk.injEq] at h
          rw [Bool.eq_false_iff.mpr hf] at hspares
          rw [← h.1, ← h.2]
          refine inv_putBody inv hnow hc (hspares c hc _ ?_)
            (fun hrec => absurd hrec (by decide)) trivial
          rw [CompleteCall.writesBody, hreleasing]
  · split at h
    · rw [Option.some.injEq, Prod.mk.injEq] at h
      rw [← h.1]
      rw [← h.2] at hlook ⊢
      exact hlook (by decide) trivial
    · rw [Option.some.injEq, Prod.mk.injEq] at h
      rw [← h.1]
      exact inv_put inv hnow (.tombstone c.toCompletion hx rfl rfl (tombstone_eq ..))
        (fun x _ _ _ hdumps => absurd (hdumps.trans (tombstone_eq ..)) (record_ne_tombstone x _ _))
        (completions_set hc phase) (phases_set inv (by rw [← h.2]; exact trivial))
        (hrecording (by rw [← h.2]; decide)) fun b hb => .inl hb
  · exact absurd h (by simp only [reduceCtorEq, not_false_eq_true])

/-! ## Runs -/

theorem phaseOk_firstPhase (cfg : IdempotencyConfig) (body : Bytes) :
    PhaseOk body (firstPhase cfg body) := by
  unfold firstPhase
  split
  · exact fun hf => absurd hf (by decide)
  · split
    · next hempty => exact fun _ => ⟨fun hf => absurd hf (by decide), fun hne => absurd hempty hne⟩
    · next hne => exact hne

theorem firstPhase_ne_recording (cfg : IdempotencyConfig) (body : Bytes) :
    firstPhase cfg body ≠ .recording false true := by
  unfold firstPhase
  split
  · decide
  · split <;> decide

/-- A body that is in use is so for some completion that was called. -/
theorem exists_of_inUse (inv : ReplayInv w) {x : Completion}
    (huse : InUse w none w.store.clock x) :
    ∃ y ∈ completions w, y.caller = x.caller ∧ y.key = x.key ∧ y.record = x.record ∧
      InUse w none w.store.clock y := by
  cases huse with
  | stored d hstored =>
      cases inv.slots x.caller x.key _ d (store_of_live hstored) with
      | claim fingerprint hv => exact absurd hv (record_ne_claim x fingerprint)
      | tombstone y _ _ _ hv => exact absurd hv (record_ne_tombstone x _ _)
      | done y omitted hy hcaller hkey hv =>
          have hrecord := (record_eq_doneJson (dumps_inj hv)).2.2.2
          refine ⟨y, hy, hcaller, hkey, hrecord.symm, .stored d ?_⟩
          rw [Completion.slot, hcaller, hkey, ← hrecord]
          exact hstored
  | read b hb hreq hread =>
      rcases inv.readers b hb x.record hread with ⟨y, hy, hreq', hrecord⟩
      refine ⟨y, hy, hreq'.1.trans hreq.1.symm, hreq'.2.1.trans hreq.2.1.symm, hrecord.symm,
        .read b hb hreq' ?_⟩
      rw [← hrecord]
      exact hread
  | recording j c hc hne hx hrec =>
      refine ⟨x, ?_, rfl, rfl, rfl, .recording j c hc hne hx hrec⟩
      rw [← hx]
      exact List.mem_map_of_mem (List.mem_iff_getElem?.mpr ⟨j, hc⟩)

theorem inv_complete (inv : ReplayInv w) (x : Completion) :
    ReplayInv { w with completes := w.completes ++ [⟨x, firstPhase cfg x.response.body⟩] } := by
  have hmono : ∀ y ∈ completions w,
      y ∈ completions { w with
        completes := w.completes ++ [⟨x, firstPhase cfg x.response.body⟩] } := by
    intro y hy
    unfold completions
    rw [List.map_append]
    exact List.mem_append_left _ hy
  refine {
    slots := fun caller key v d h => slotValue_mono hmono (inv.slots caller key v d h)
    phases := fun c hc => ?_
    readers := fun b hb record hr => ?_
    bodies := fun y _ huse v d hlive => ?_
    replays := fun b hb o ho hstate => ?_ }
  · rcases List.mem_append.mp hc with hc | hc
    · exact inv.phases c hc
    · rw [List.mem_singleton.mp hc]
      exact phaseOk_firstPhase cfg _
  · rcases inv.readers b hb record hr with ⟨y, hy, hrest⟩
    exact ⟨y, hmono y hy, hrest⟩
  · refine hasBody_mono (w := w) hmono ?_
    -- The call that is new has stored nothing yet.
    have huse' : InUse w none w.store.clock y := by
      cases huse with
      | stored d' hstored => exact .stored d' hstored
      | read b hb hreq hread => exact .read b hb hreq hread
      | recording j c hc hne hy' hrec =>
          rcases Lists.getElem?_append_cases hc with ⟨hold, -⟩ | ⟨-, rfl⟩
          · exact .recording j c hold hne hy' hrec
          · exact absurd hrec (firstPhase_ne_recording cfg _)
    rcases exists_of_inUse inv huse' with ⟨z, hz, hcaller, hkey, hrecord, hused⟩
    change w.store.live y.bodySlot w.store.clock = some (v, d) at hlive
    rw [← bodySlot_of_alike hcaller hkey (fingerprint_of_record hrecord)] at hlive
    exact hasBody_of_alike hcaller hkey hrecord (inv.bodies z hz hused v d hlive)
  · rcases inv.replays b hb o ho hstate with ⟨r, hr, y, hy, hrest⟩
    exact ⟨r, hr, y, hmono y hy, hrest⟩

theorem inv_step (inv : ReplayInv w) {a : Action} (hspares : SparesBodies w a)
    (h : step cfg w a = some w') : ReplayInv w' := by
  cases a with
  | begin caller key fingerprint =>
      simp only [step, Option.some.injEq] at h
      rw [← h]
      refine inv_quiet inv (le_refl _) rfl (fun _ => rfl) inv.slots
        (fun x hx d hlive => ⟨x, hx, rfl, rfl, rfl, .stored d hlive⟩) inv.phases
        (fun j c hc _ => hc) fun b hb => ?_
      rcases List.mem_append.mp hb with hb | hb
      · exact .inl hb
      · rw [List.mem_singleton.mp hb]
        exact .inr ⟨fun r hr => absurd hr (by simp only [reduceCtorEq, not_false_eq_true]),
          fun o ho => absurd ho (by simp only [reduceCtorEq, not_false_eq_true])⟩
  | complete caller key fingerprint response =>
      simp only [step, Option.some.injEq] at h
      rw [← h]
      exact inv_complete inv ⟨caller, key, fingerprint, response⟩
  | resumeBegin i now refused =>
      simp only [step, Option.ite_none_right_eq_some] at h
      rcases h with ⟨hnow, h⟩
      rcases Option.bind_eq_some_iff.mp h with ⟨b, hb, h⟩
      rcases Option.map_eq_some_iff.mp h with ⟨⟨store, phase⟩, hresume, h⟩
      rw [← h]
      exact inv_resumeBegin inv hb hnow hresume
  | resumeComplete i now refused =>
      simp only [step, Option.ite_none_right_eq_some] at h
      rcases h with ⟨hnow, h⟩
      rcases Option.bind_eq_some_iff.mp h with ⟨c, hc, h⟩
      rcases Option.map_eq_some_iff.mp h with ⟨⟨store, phase⟩, hresume, h⟩
      rw [← h]
      exact inv_resumeComplete inv hc hnow hspares hresume

/-- In a run whose writes of bodies suit whoever may still read them, every replay is
    one completion's of its request. -/
theorem replay_of_one_response (hw : (service cfg).ReachesWhen SparesBodies w) :
    ReplayIntegrity w := by
  refine (Machine.reachesWhen_invariant (P := ReplayInv) (fun w hw => ?_)
    (fun w a w' inv hspares h => inv_step inv hspares h) hw).replays
  rw [show w = World.initial from hw]
  exact inv_initial

/-! ## Two completions at once -/

/-- The first request outlives its claim and the second one, the same request again,
    is let in. The two write their bodies, the first one its record, and a third
    request is told to replay. -/
def overlappingCompletions : List Action :=
  [.begin "usr_1" "key-1" "fp1", .resumeBegin 0 0 false,
    .begin "usr_1" "key-1" "fp1", .resumeBegin 1 31 false,
    .complete "usr_1" "key-1" "fp1" ⟨201, [], [1]⟩, .complete "usr_1" "key-1" "fp1" ⟨202, [], [2]⟩,
    .resumeComplete 0 40 false, .resumeComplete 1 41 false, .resumeComplete 0 42 false,
    .begin "usr_1" "key-1" "fp1", .resumeBegin 2 43 false, .resumeBegin 2 44 false,
    .resumeBegin 2 45 false]

/-- The replay has the status of the first completion and the body of the second. -/
theorem overlappingCompletions_mixed :
    ¬ ∀ w, (service ⟨30, 86400, 1000⟩).Reachable w → ReplayIntegrity w := by
  intro hall
  have hrun : ((service ⟨30, 86400, 1000⟩).runActions World.initial overlappingCompletions).any
      (fun w => w.completes.map (fun c => (c.response.statusCode, c.response.body)) =
          [((201 : Int), ([1] : Bytes)), (202, [2])] &&
        (w.begins[2]?).any (fun b => b.phase.outcome?.any (fun o => o.state = .replay &&
          o.stored.any (fun r => decide (r.statusCode = 201 ∧ r.bodyOmitted = false ∧
            r.body = .stored [2]))))) := by
    decide +kernel
  rcases (Option.any_eq_true _ _).mp hrun with ⟨w, hw, hcheck⟩
  rw [Bool.and_eq_true, decide_eq_true_eq] at hcheck
  rcases (Option.any_eq_true _ _).mp hcheck.2 with ⟨b, hb, hreplay⟩
  rcases (Option.any_eq_true _ _).mp hreplay with ⟨o, ho, hreplay⟩
  rw [Bool.and_eq_true, decide_eq_true_eq] at hreplay
  rcases (Option.any_eq_true _ _).mp hreplay.2 with ⟨r, hr, hresponse⟩
  rw [decide_eq_true_eq] at hresponse
  rcases hall w (Machine.reachable_runActions (Machine.ReachesWhen.start _ rfl) hw) b
      (List.mem_iff_getElem?.mpr ⟨2, hb⟩) o (BeginPhase.outcome?_eq_some.mp ho) hreplay.1 with
    ⟨r', hr', x, hx, -, hof⟩
  rw [hr, Option.some.injEq] at hr'
  rw [← hr'] at hof
  -- No completion has this status and this body.
  have hbody : x.response.body = [2] := by
    rcases hof.body with ⟨homitted, -⟩ | ⟨-, hbody⟩
    · rw [hresponse.2.1] at homitted
      exact absurd homitted (by decide)
    · rw [hresponse.2.2, StoredBody.stored.injEq] at hbody
      exact hbody.symm
  rcases List.mem_map.mp hx with ⟨c, hc, rfl⟩
  have hmem : (c.response.statusCode, c.response.body) ∈
      [((201 : Int), ([1] : Bytes)), (202, [2])] := by
    rw [← hcheck.1]
    exact List.mem_map.mpr ⟨c, hc, rfl⟩
  rw [hbody, ← hof.statusCode, hresponse.1] at hmem
  exact absurd hmem (by decide)

/-- There is one completion, nobody reads a body, and no record is there. -/
def aloneAt (w : World) (now : ℚ) : Bool :=
  w.completes.length = 1 && w.begins.all (fun b => b.phase.isClaiming || b.phase.told.isSome) &&
    (completions w).all (fun x => found w.store x.slot now ≠ some (dumps x.record))

/-- Each `complete` writes while it is alone. -/
def writesAlone (w : World) : Action → Bool
  | .resumeComplete i now false => i = 0 && aloneAt w now
  | _ => true

theorem sparesBodies_of_alone {a : Action} (h : writesAlone w a = true) : SparesBodies w a := by
  unfold SparesBodies
  split
  · next i now =>
      rw [writesAlone, Bool.and_eq_true, decide_eq_true_eq, aloneAt, Bool.and_eq_true,
        Bool.and_eq_true, decide_eq_true_eq, List.all_eq_true, List.all_eq_true] at h
      rcases h with ⟨rfl, ⟨hlen, hbegins⟩, hstored⟩
      intro c _ body _ x hx _ huse
      cases huse with
      | stored d hlive =>
          have hne := of_decide_eq_true (hstored x hx)
          unfold found at hne
          rw [hlive] at hne
          exact absurd rfl hne
      | read b hb _ hread =>
          have hphase := hbegins b hb
          rw [hread] at hphase
          exact absurd hphase (by
            simp [BeginPhase.isClaiming, BeginPhase.told, BeginPhase.outcome?])
      | recording j c' hc' hne _ _ =>
          have hlt := (List.getElem?_eq_some_iff.mp hc').1
          exact absurd (congrArg some (show 0 = j by omega)) hne
  · exact trivial

/-- A request completes and its retry is replayed. -/
def replayedRequest : List Action :=
  [.begin "usr_1" "key-1" "fp1", .resumeBegin 0 0 false,
    .complete "usr_1" "key-1" "fp1" ⟨201, [], [1]⟩, .resumeComplete 0 5 false,
    .resumeComplete 0 6 false, .begin "usr_1" "key-1" "fp1", .resumeBegin 1 7 false,
    .resumeBegin 1 8 false, .resumeBegin 1 9 false]

theorem replay_of_one_response_replayedRequest :
    ∃ w, (service ⟨30, 86400, 1000⟩).runWhen writesAlone World.initial replayedRequest = some w ∧
      (w.begins[1]?).any (fun b => b.phase.told = some .replay) ∧ ReplayIntegrity w := by
  have hrun : ((service ⟨30, 86400, 1000⟩).runWhen writesAlone World.initial replayedRequest).any
      (fun w => (w.begins[1]?).any (fun b => b.phase.told = some .replay)) := by
    decide +kernel
  rcases (Option.any_eq_true _ _).mp hrun with ⟨w, hw, hcheck⟩
  exact ⟨w, hw, hcheck, replay_of_one_response (Machine.reachesWhen_runWhen
    (fun _ _ h => sparesBodies_of_alone h) (Machine.ReachesWhen.start _ rfl) hw)⟩

end Suspended

end Broker

end JenticOne
