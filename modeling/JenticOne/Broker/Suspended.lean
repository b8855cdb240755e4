import JenticOne.Broker.Idempotency

/-!
# Suspended Calls of the Idempotency Store

`SharedStateIdempotencyStore` over any atomic store. `Broker.Idempotency` has both
operations as single steps, as they are on the memory backend; on another store each
of their operations is awaited, and any other call may go on in the meantime.

A store is a set of entries with deadlines, each of its operations is one step at a
clock reading, and it may refuse any write but a claim that finds an entry. A call
that is not resumed again is one whose task was cancelled or whose process died.

## Main definitions

* `BeginPhase`, `CompletePhase`: What a suspended call waits for.
* `verdict`: What `begin` makes of the record that it read.
* `resumeBegin`, `resumeComplete`: The next store operation of a call.
* `service`: The machine.

## Theorems

* `classify_eq_verdict`: On the memory backend a record is judged the same.
* `slot_inj`: A slot is one caller's, for one key.
-/

namespace JenticOne

namespace Broker

namespace Suspended

open State (Bytes)

abbrev Store := TtlStore.State String Bytes ℚ

/-- A write at a clock reading. -/
def put (s : Store) (k : String) (value : Bytes) (ttl now : ℚ) : Store :=
  { s.write k value (now + ttl) with clock := now }

/-- An operation that leaves the entries. -/
def look (s : Store) (now : ℚ) : Store := { s with clock := now }

/-- What a read finds. -/
def found (s : Store) (k : String) (now : ℚ) : Option Bytes := (s.live k now).map Prod.fst

/-! ## Calls -/

/-- The next operation of a `begin`: the claim, the read of the record, or the read
    of the body that a record refers to. -/
inductive BeginPhase
  | claiming
  | reading
  | readingBody (record : Json)
  | returned (outcome : IdempotencyOutcome)
  | raised

def BeginPhase.outcome? : BeginPhase → Option IdempotencyOutcome
  | .returned outcome => some outcome
  | _ => none

/-- What a `begin` has been told. -/
def BeginPhase.told (phase : BeginPhase) : Option IdempotencyState :=
  phase.outcome?.map IdempotencyOutcome.state

theorem BeginPhase.outcome?_eq_some {phase : BeginPhase} {outcome : IdempotencyOutcome} :
    phase.outcome? = some outcome ↔ phase = .returned outcome := by
  cases phase with
  | returned o => rw [outcome?, Option.some.injEq, BeginPhase.returned.injEq]
  | _ => simp only [outcome?, reduceCtorEq]

def BeginPhase.isClaiming : BeginPhase → Bool
  | .claiming => true
  | _ => false

structure BeginCall where
  caller : String
  key : String
  fingerprint : String
  phase : BeginPhase

/-- The next operation of a `complete`: the write of the body, of the record, of
    what releases the body, or of the tombstone. -/
inductive CompletePhase
  | storing
  | recording (omitted bodyStored : Bool)
  | releasing
  | tombstoning
  | returned
deriving DecidableEq, Repr

/-- What a `complete` was called with. -/
structure Completion where
  caller : String
  key : String
  fingerprint : String
  response : Response

structure CompleteCall extends Completion where
  phase : CompletePhase

structure World where
  store : Store
  begins : List BeginCall
  completes : List CompleteCall

def World.initial : World := ⟨⟨fun _ => none, 0⟩, [], []⟩

/-- What happens next. Whether a write is refused is the store's affair. -/
inductive Action
  | begin (caller key fingerprint : String)
  | complete (caller key fingerprint : String) (response : Response)
  | resumeBegin (i : Nat) (now : ℚ) (refused : Bool)
  | resumeComplete (i : Nat) (now : ℚ) (refused : Bool)

/-! ## Begin -/

/-- `begin` on the record that it has read. -/
def verdict (cfg : IdempotencyConfig) (fingerprint : String) (record : Json) : BeginPhase :=
  match record with
  | .obj _ =>
      match record.get? "fp" with
      | some (.str fp) =>
          if fp ≠ fingerprint then .returned ⟨.conflict, none, 0⟩
          else match record.get? "phase" with
            | some (.str "done") =>
                if truthy (record.get? "body_ref") then .readingBody record
                else .returned ⟨.replay, some (decodeResponse record none), 0⟩
            | _ => .returned ⟨.inProgress, none, retryAfter cfg⟩
      | _ => .returned ⟨.conflict, none, 0⟩
  | _ => .raised

/-- The next store operation of a `begin`, and what follows up to the one after. -/
def resumeBegin (cfg : IdempotencyConfig) (s : Store) (b : BeginCall) (now : ℚ) (refused : Bool) :
    Option (Store × BeginPhase) :=
  let at' := slot b.caller b.key
  match b.phase with
  | .claiming =>
      if (s.live at' now).isSome then some (look s now, .reading)
      else if refused then some (look s now, .raised)
      else some (put s at' (claim b.fingerprint) cfg.pendingTtlS now, .returned ⟨.fresh, none, 0⟩)
  | .reading =>
      some (look s now, match found s at' now with
        | none => .returned ⟨.inProgress, none, retryAfter cfg⟩
        | some existing =>
            match loads existing with
            | none => .raised
            | some record => verdict cfg b.fingerprint record)
  | .readingBody record =>
      some (look s now, .returned ⟨.replay, some (decodeResponse record
        (found s (bodySlot b.caller b.key b.fingerprint) now)), 0⟩)
  | .returned _ | .raised => none

/-! ## Complete -/

/-- `complete` up to its first store operation. -/
def firstPhase (cfg : IdempotencyConfig) (body : Bytes) : CompletePhase :=
  if cfg.maxResponseBytes < body.length then .recording true false
  else if body = [] then .recording false false
  else .storing

/-- The next store operation of a `complete`. -/
def resumeComplete (cfg : IdempotencyConfig) (s : Store) (c : CompleteCall) (now : ℚ)
    (refused : Bool) : Option (Store × CompletePhase) :=
  let at' := slot c.caller c.key
  let body := bodySlot c.caller c.key c.fingerprint
  match c.phase with
  | .storing =>
      if refused then some (look s now, .recording true false)
      else some (put s body c.response.body (cfg.doneTtlS + cfg.pendingTtlS) now,
        .recording false true)
  | .recording omitted bodyStored =>
      if refused then some (look s now, if bodyStored then .releasing else .tombstoning)
      else some (put s at' (doneRecord c.fingerprint c.response.statusCode c.response.headers
        omitted (c.response.body ≠ [])) cfg.doneTtlS now, .returned)
  | .releasing =>
      if refused then some (look s now, .tombstoning)
      else some (put s body [] releasedBodyTtlS now, .tombstoning)
  | .tombstoning =>
      if refused then some (look s now, .returned)
      else some (put s at' (tombstone c.fingerprint c.response.statusCode) cfg.doneTtlS now,
        .returned)
  | .returned => none

/-! ## Runs -/

/-- One action, where the clock does not go back. -/
def step (cfg : IdempotencyConfig) (w : World) : Action → Option World
  | .begin caller key fingerprint =>
      some { w with begins := w.begins ++ [⟨caller, key, fingerprint, .claiming⟩] }
  | .complete caller key fingerprint response =>
      some { w with completes := w.completes ++
        [⟨⟨caller, key, fingerprint, response⟩, firstPhase cfg response.body⟩] }
  | .resumeBegin i now refused =>
      if w.store.clock ≤ now then
        (w.begins[i]?).bind fun b =>
          (resumeBegin cfg w.store b now refused).map fun (store, phase) =>
            { w with store := store, begins := w.begins.set i { b with phase := phase } }
      else none
  | .resumeComplete i now refused =>
      if w.store.clock ≤ now then
        (w.completes[i]?).bind fun c =>
          (resumeComplete cfg w.store c now refused).map fun (store, phase) =>
            { w with store := store, completes := w.completes.set i { c with phase := phase } }
      else none

/-- The calls on one store, from the empty store on. -/
def service (cfg : IdempotencyConfig) : Machine World Action where
  start w := w = World.initial
  step := step cfg

/-- What a `begin` in this phase returns once it has read the body. -/
def BeginPhase.result (body : Option Bytes) : BeginPhase → Except BeginError IdempotencyOutcome
  | .readingBody record => .ok ⟨.replay, some (decodeResponse record body), 0⟩
  | .returned outcome => .ok outcome
  | _ => .error .undecodable

/-- On the memory backend a record is judged the same, and the body read at once. -/
theorem classify_eq_verdict (mem : State.MemoryConfig) (cfg : IdempotencyConfig) (w : State.World)
    (body fingerprint : String) (record : Json) (now : ℚ) :
    (classify mem cfg w body fingerprint record now).1 =
      (verdict cfg fingerprint record).result (w.get mem body now).1 := by
  unfold classify verdict
  cases record with
  | obj members =>
      dsimp only
      cases hfp : (Json.obj members).get? "fp" with
      | none => rfl
      | some value =>
          cases value with
          | str fp =>
              dsimp only
              by_cases hne : fp ≠ fingerprint
              · rw [if_pos hne, if_pos hne]
                rfl
              · rw [if_neg hne, if_neg hne]
                -- The phase is compared with one text; whatever else it is, both agree.
                cases hphase : (Json.obj members).get? "phase" with
                | none => rfl
                | some phase =>
                    cases phase with
                    | str text =>
                        by_cases hdone : text = "done"
                        · rw [hdone]
                          by_cases href : truthy ((Json.obj members).get? "body_ref") = true
                          · rw [if_pos href, if_pos href]
                            rfl
                          · rw [if_neg href, if_neg href]
                            rfl
                        · have hne : some (Json.str text) ≠ some (Json.str "done") := fun h =>
                            hdone (Json.str.inj (Option.some.inj h))
                          split
                          · next h => exact absurd h hne
                          · first
                            | rfl
                            | (split
                               · next h => exact absurd h hne
                               · rfl)
                    | _ => rfl
          | _ => rfl
  | _ => rfl

/-! ## Slots -/

/-- What `callerSegment` writes for one character. -/
def escaped (c : Char) : List Char :=
  if c = '%' then ['%', '2', '5'] else if c = ':' then ['%', '3', 'A'] else [c]

theorem callerSegment_toList (caller : String) :
    (callerSegment caller).toList = caller.toList.flatMap escaped := by
  unfold callerSegment replace
  rw [String.toList_ofList, List.flatMap_assoc]
  refine List.flatMap_congr fun c _ => ?_
  unfold escaped
  split
  · rfl
  · rw [List.flatMap_singleton]

theorem escaped_cases (c : Char) :
    c = '%' ∧ escaped c = ['%', '2', '5'] ∨ c = ':' ∧ escaped c = ['%', '3', 'A'] ∨
      c ≠ '%' ∧ c ≠ ':' ∧ escaped c = [c] := by
  unfold escaped
  by_cases hp : c = '%'
  · exact .inl ⟨hp, if_pos hp⟩
  · by_cases hc : c = ':'
    · exact .inr (.inl ⟨hc, by rw [if_neg hp, if_pos hc]⟩)
    · exact .inr (.inr ⟨hp, hc, by rw [if_neg hp, if_neg hc]⟩)

theorem colon_not_mem_escaped (c : Char) : ':' ∉ escaped c := by
  rcases escaped_cases c with ⟨-, he⟩ | ⟨-, he⟩ | ⟨-, hc, he⟩
  · rw [he]
    decide
  · rw [he]
    decide
  · rw [he]
    exact fun h => hc (List.mem_singleton.mp h).symm

/-- The escape of a character is read back from the front. -/
theorem escaped_append {c c' : Char} {l l' : List Char} (h : escaped c ++ l = escaped c' ++ l') :
    c = c' ∧ l = l' := by
  -- A character that stands for itself is not the first one of an escape.
  rcases escaped_cases c with ⟨hc, he⟩ | ⟨hc, he⟩ | ⟨hp, -, he⟩ <;>
    rcases escaped_cases c' with ⟨hc', he'⟩ | ⟨hc', he'⟩ | ⟨hp', -, he'⟩ <;>
    rw [he, he'] at h <;>
    simp only [List.cons_append, List.nil_append, List.cons.injEq, true_and] at h
  · exact ⟨hc.trans hc'.symm, h⟩
  · exact absurd h.1 (by decide)
  · exact absurd h.1.symm hp'
  · exact absurd h.1 (by decide)
  · exact ⟨hc.trans hc'.symm, h⟩
  · exact absurd h.1.symm hp'
  · exact absurd h.1 hp
  · exact absurd h.1 hp
  · exact h

theorem escaped_ne_nil (c : Char) : escaped c ≠ [] := by
  rcases escaped_cases c with ⟨-, he⟩ | ⟨-, he⟩ | ⟨-, -, he⟩ <;>
    · rw [he]
      exact List.cons_ne_nil _ _

theorem flatMap_escaped_inj {l l' : List Char} (h : l.flatMap escaped = l'.flatMap escaped) :
    l = l' := by
  induction l generalizing l' with
  | nil =>
      cases l' with
      | nil => rfl
      | cons c' rest =>
          rw [List.flatMap_nil, List.flatMap_cons] at h
          exact absurd (List.append_eq_nil_iff.mp h.symm).1 (escaped_ne_nil c')
  | cons c rest ih =>
      cases l' with
      | nil =>
          rw [List.flatMap_nil, List.flatMap_cons] at h
          exact absurd (List.append_eq_nil_iff.mp h).1 (escaped_ne_nil c)
      | cons c' rest' =>
          rw [List.flatMap_cons, List.flatMap_cons] at h
          rcases escaped_append h with ⟨hc, hrest⟩
          rw [hc, ih hrest]

/-- What comes before the first colon. -/
theorem before_colon {l l' m m' : List Char} (hl : ':' ∉ l) (hl' : ':' ∉ l')
    (h : l ++ ':' :: m = l' ++ ':' :: m') : l = l' ∧ m = m' := by
  rcases List.append_eq_append_iff.mp h with ⟨mid, hmid, hrest⟩ | ⟨mid, hmid, hrest⟩
  · cases mid with
    | nil => exact ⟨by rw [hmid, List.append_nil], (List.cons.inj hrest).2⟩
    | cons c mid =>
        rw [hmid, ← (List.cons.inj hrest).1] at hl'
        exact absurd (List.mem_append_right l List.mem_cons_self) hl'
  · cases mid with
    | nil => exact ⟨by rw [hmid, List.append_nil], (List.cons.inj hrest).2.symm⟩
    | cons c mid =>
        rw [hmid, ← (List.cons.inj hrest).1] at hl
        exact absurd (List.mem_append_right l' List.mem_cons_self) hl

/-- A slot is one caller's, for one key. -/
theorem slot_inj {caller key caller' key' : String} (h : slot caller key = slot caller' key') :
    caller = caller' ∧ key = key' := by
  have hlist := congrArg String.toList h
  unfold slot at hlist
  rw [String.toList_append, String.toList_append, String.toList_append, String.toList_append,
    String.toList_append, String.toList_append, callerSegment_toList, callerSegment_toList] at hlist
  have hrest := List.append_cancel_left hlist
  rw [List.append_assoc, List.append_assoc, show ":".toList = [':'] from rfl, List.singleton_append,
    List.singleton_append] at hrest
  have hfree : ∀ l : List Char, ':' ∉ l.flatMap escaped := by
    intro l hl
    rcases List.mem_flatMap.mp hl with ⟨c, -, hc⟩
    exact colon_not_mem_escaped c hc
  rcases before_colon (hfree _) (hfree _) hrest with ⟨hcaller, hkey⟩
  exact ⟨String.toList_inj.mp (flatMap_escaped_inj hcaller), String.toList_inj.mp hkey⟩

end Suspended

end Broker

end JenticOne
