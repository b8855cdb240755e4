import JenticOne.Jobs.Holds
import JenticOne.Library.Lists

/-!
# What Is Under Way Around a Hold

What a call has written before it commits, and that no other call disturbs it. A
hold that is written is either being filed, with its job beside it, or being
settled; then its job has been moved too, or is still owed. A job that is written is
new, or one that such a hold moves, or one that was queued or running before.

All of it is about rows that the call has locked, and about its agent's advisory
lock while it files. A commit of another call changes no row that is locked, and no
number of pending holds that is counted under the lock.

## Main definitions

* `Matches`: The status of a job, by the state of its hold.
* `Committed`: What holds of the committed rows.
* `HoldWrite`, `JobWrite`: What a call may have written.
* `PhaseInv`: What a call has written by the phase it is in.
* `Indexed`: What the unique index keeps, with the rows under way.
* `HoldInv`: All of it.

## Theorems

* `phaseInv_beside`: A step of another call keeps what a call relies on.
* `inv_quiet`: A step that commits nothing keeps the invariant, when it leaves its
  own call in order.
-/

namespace JenticOne

namespace Jobs

namespace Holds

open ReadCommitted

/-! ## Committed rows -/

/-- The status of a job, by the state of its hold. -/
def Matches : HeldExecutionState → JobStatus → Prop
  | .pending, status => status = .held
  | .approved, status => status ≠ .held
  | .denied, status => status = .failed
  | .expired, status => status = .failed
  | .withdrawn, status => status = .cancelled

/-- A hold that was approved was decided in time. -/
def InTime (h : HeldExecution) : Prop :=
  h.state = .approved → ∃ t, h.decidedAt = some t ∧ t < h.expiresAt

structure Committed (holds : Dict String HeldExecution) (jobs : Dict String Job)
    (starts : List String) : Prop where
  /-- A hold has a job, and they agree. -/
  paired : ∀ id h, holds.get? id = some h →
    ∃ j, jobs.get? h.jobId = some j ∧ Matches h.state j.status
  /-- No two holds have one job. -/
  apart : ∀ id h id' h', holds.get? id = some h → holds.get? id' = some h' →
    h.jobId = h'.jobId → id = id'
  inTime : ∀ id h, holds.get? id = some h → InTime h
  /-- A held job has a hold. -/
  housed : ∀ id j, jobs.get? id = some j → j.status = .held →
    j.kind = .execution ∧ ∃ k h, holds.get? k = some h ∧ h.jobId = id
  known : ∀ id ∈ starts, ∃ j, jobs.get? id = some j
  /-- A job with a hold starts only once the hold is approved. -/
  unstarted : ∀ id h, holds.get? id = some h → h.jobId ∈ starts → h.state = .approved

theorem committed_initial : Committed Dict.empty Dict.empty [] where
  paired id h hh := absurd hh (by simp [Dict.get?_empty])
  apart id h id' h' hh := absurd hh (by simp [Dict.get?_empty])
  inTime id h hh := absurd hh (by simp [Dict.get?_empty])
  housed id j hj := absurd hj (by simp [Dict.get?_empty])
  known id hid := absurd hid List.not_mem_nil
  unstarted id h hh := absurd hh (by simp [Dict.get?_empty])

/-- Where a call takes a hold and its job. -/
theorem targets (call : Call) :
    holdTarget call = .approved ∧ jobTarget call = .queued ∨
      (holdTarget call = .denied ∨ holdTarget call = .expired) ∧ jobTarget call = .failed ∨
      holdTarget call = .withdrawn ∧ jobTarget call = .cancelled := by
  cases call with
  | decide approvalId approve reviewer reason =>
      cases approve with
      | true => exact .inl ⟨rfl, rfl⟩
      | false => exact .inr (.inl ⟨.inl rfl, rfl⟩)
  | withdraw approvalId filer => exact .inr (.inr ⟨rfl, rfl⟩)
  | withdrawPendingForAgent agentId actorId => exact .inr (.inr ⟨rfl, rfl⟩)
  | _ => exact .inr (.inl ⟨.inr rfl, rfl⟩)

/-- Whatever settles a hold leaves its job where it belongs. -/
theorem matches_targets (call : Call) : Matches (holdTarget call) (jobTarget call) := by
  rcases targets call with ⟨hh, hj⟩ | ⟨hh | hh, hj⟩ | ⟨hh, hj⟩
  · rw [hh, hj]
    exact fun h => absurd h (by decide)
  · rw [hh, hj]
    exact rfl
  · rw [hh, hj]
    exact rfl
  · rw [hh, hj]
    exact rfl

theorem holdTarget_ne_pending (call : Call) : holdTarget call ≠ .pending := by
  rcases targets call with ⟨hh, -⟩ | ⟨hh | hh, -⟩ | ⟨hh, -⟩ <;> rw [hh] <;> decide

/-- No call that settles a hold starts its job, or leaves it held. -/
theorem jobTarget_idle (call : Call) : jobTarget call ≠ .held ∧ jobTarget call ≠ .running := by
  rcases targets call with ⟨-, hj⟩ | ⟨-, hj⟩ | ⟨-, hj⟩ <;> rw [hj] <;> decide

/-! ## Rows under way -/

section Writes

variable (cfg : HoldConfig) (holds : Rows String HeldExecution Nat) (jobs : Rows String Job Nat)
  (advisory : Int → Option Nat) (tx : Nat) (call : Call)

/-- The hold is being filed, and the agent's cap has room for it. -/
structure Filed (f : HoldFiling) (id : String) (h : HeldExecution) : Prop where
  filing : call = .fileHold f
  only : holds.writes tx = Dict.empty.set id h
  new : holds.committed.get? id = none
  pending : h.state = .pending
  agent : h.agentId = f.agentId
  jobNew : jobs.committed.get? h.jobId = none
  job : ∃ j, (jobs.writes tx).get? h.jobId = some j ∧ j.status = .held
  lock : advisory (cfg.lockKey f.agentId) = some tx
  room : pendingCount holds.committed f.agentId < f.maxPending

/-- The hold `h` is being settled, and leaves its job where it belongs unless the
    job is still owed. -/
structure Settled (owed : List (String × String)) (h : HeldExecution) (id : String)
    (h' : HeldExecution) : Prop where
  committed : holds.committed.get? id = some h
  pending : h.state = .pending
  jobId : h'.jobId = h.jobId
  state : h'.state = holdTarget call
  inTime : InTime h'
  job : (id, h.jobId) ∈ owed ∧ (jobs.writes tx).get? h.jobId = none ∨
    ∃ j, (jobs.writes tx).get? h.jobId = some j ∧ j.status = jobTarget call

/-- What may have become of a hold. -/
inductive HoldWrite (owed : List (String × String)) (id : String) (h' : HeldExecution) : Prop
  | filed (f : HoldFiling) : Filed cfg holds jobs advisory tx call f id h' →
      HoldWrite owed id h'
  | settled (h : HeldExecution) : Settled holds jobs tx call owed h id h' → HoldWrite owed id h'

/-- A hold of the call has the job. -/
def HasHold (id : String) : Prop := ∃ k h, (holds.writes tx).get? k = some h ∧ h.jobId = id

/-- What may have become of a job. -/
inductive JobWrite (id : String) (j' : Job) : Prop
  | filed : jobs.committed.get? id = none → j'.status = .held → j'.kind = .execution →
      HasHold holds tx id → JobWrite id j'
  | enqueued : jobs.committed.get? id = none → j'.status ≠ .held → JobWrite id j'
  | released (j : Job) : jobs.committed.get? id = some j → j.status = .held →
      j'.status = jobTarget call → HasHold holds tx id → JobWrite id j'
  | moved (j : Job) : jobs.committed.get? id = some j → j.status = .queued ∨ j.status = .running →
      j'.status ≠ .held → JobWrite id j'

/-- What a call has written; `owed` are the holds whose jobs it has yet to move. -/
structure Written (owed : List (String × String)) : Prop where
  hold : ∀ id h', (holds.writes tx).get? id = some h' →
    HoldWrite cfg holds jobs advisory tx call owed id h'
  job : ∀ id j', (jobs.writes tx).get? id = some j' → JobWrite holds jobs tx call id j'
  owes : ∀ p ∈ owed, ∃ h', (holds.writes tx).get? p.1 = some h' ∧ h'.jobId = p.2 ∧
    (jobs.writes tx).get? p.2 = none
  nodup : owed.Nodup

/-- A call that has written nothing. -/
def Blank : Prop := holds.writes tx = Dict.empty ∧ jobs.writes tx = Dict.empty

/-- A filing that has its agent's lock. -/
def Serialised : Prop :=
  ∃ f, call = .fileHold f ∧ advisory (cfg.lockKey f.agentId) = some tx

/-- What a call has written, and what it relies on, by the phase it is in. -/
def PhaseInv : Phase → Prop
  | .called => Blank holds jobs tx
  | .locked | .unjoined | .refused => Blank holds jobs tx ∧ Serialised cfg advisory tx call
  | .counted _ => Blank holds jobs tx ∧ ∃ f, call = .fileHold f ∧
      advisory (cfg.lockKey f.agentId) = some tx ∧
      pendingCount holds.committed f.agentId < f.maxPending
  | .cancelling jobId => Blank holds jobs tx ∧
      ∃ j, jobs.committed.get? jobId = some j ∧ j.status ≠ .held
  | .settling _ _ owed | .moving owed | .recording _ _ owed =>
      Written cfg holds jobs advisory tx call owed
  | .sweeping _ => holds.writes tx = Dict.empty ∧ Written cfg holds jobs advisory tx call []
  | .ready claimed => Written cfg holds jobs advisory tx call [] ∧
      ∀ id, claimed = some id → ∃ j, (jobs.writes tx).get? id = some j ∧ j.status = .running
  | .raising | .ended => True

end Writes

/-- What the unique index keeps: no two pending holds with one fingerprint, whether
    committed or under way. -/
structure Indexed (holds : Rows String HeldExecution Nat) : Prop where
  committed : ∀ id h id' h', holds.committed.get? id = some h →
    holds.committed.get? id' = some h' → h.state = .pending → h'.state = .pending →
    h.requestFingerprint = h'.requestFingerprint → id = id'
  between : ∀ t id h t' id' h', (holds.writes t).get? id = some h →
    (holds.writes t').get? id' = some h' → h.state = .pending → h'.state = .pending →
    h.requestFingerprint = h'.requestFingerprint → t = t' ∧ id = id'
  among : ∀ t id h id' h', (holds.writes t).get? id = some h →
    holds.committed.get? id' = some h' → h.state = .pending → h'.state = .pending →
    h.requestFingerprint ≠ h'.requestFingerprint

/-- No filing of the agent allows more pending holds. -/
def CapAtMost (sessions : List Session) (agentId : String) (cap : Nat) : Prop :=
  ∀ s ∈ sessions, ∀ f, s.call = .fileHold f → f.agentId = agentId → f.maxPending ≤ cap

structure HoldInv (cfg : HoldConfig) (w : World) : Prop where
  committed : Committed w.holds.committed w.jobs.committed w.starts
  indexed : Indexed w.holds
  /-- A call that is not there yet has written nothing. -/
  idle : ∀ t, w.sessions.length ≤ t → Blank w.holds w.jobs t
  session : ∀ (t : Nat) (s : Session), w.sessions[t]? = some s →
    PhaseInv cfg w.holds w.jobs w.advisory t s.call s.phase
  capped : ∀ agentId cap, CapAtMost w.sessions agentId cap →
    pendingCount w.holds.committed agentId ≤ cap

theorem inv_initial (cfg : HoldConfig) : HoldInv cfg World.initial where
  committed := committed_initial
  indexed :=
    ⟨fun id h id' h' hh => absurd hh (by simp [World.initial, Rows.empty, Dict.get?_empty]),
      fun t id h t' id' h' hh => absurd hh (by simp [World.initial, Rows.empty, Dict.get?_empty]),
      fun t id h id' h' hh => absurd hh (by simp [World.initial, Rows.empty, Dict.get?_empty])⟩
  idle t _ := ⟨rfl, rfl⟩
  session t s hs := absurd hs (by simp [World.initial])
  capped agentId cap _ := Nat.zero_le cap

/-! ## Other calls -/

/-- What the steps of other calls leave to a call. -/
structure Beside (cfg : HoldConfig) (holds holds' : Rows String HeldExecution Nat)
    (jobs jobs' : Rows String Job Nat) (advisory advisory' : Int → Option Nat) (t : Nat) :
    Prop where
  holdWrites : holds'.writes t = holds.writes t
  jobWrites : jobs'.writes t = jobs.writes t
  holdKept : ∀ k, holds.lock k = some t → holds'.committed.get? k = holds.committed.get? k
  jobKept : ∀ k, jobs.lock k = some t → jobs'.committed.get? k = jobs.committed.get? k
  locks : ∀ k, advisory k = some t → advisory' k = some t
  counted : ∀ agentId, advisory (cfg.lockKey agentId) = some t →
    pendingCount holds'.committed agentId ≤ pendingCount holds.committed agentId
  unheld : ∀ k j, jobs.committed.get? k = some j → j.status ≠ .held →
    ∃ j', jobs'.committed.get? k = some j' ∧ j'.status ≠ .held

section Beside

variable {cfg : HoldConfig} {holds holds' : Rows String HeldExecution Nat}
  {jobs jobs' : Rows String Job Nat} {advisory advisory' : Int → Option Nat} {t : Nat}
  {call : Call} (b : Beside cfg holds holds' jobs jobs' advisory advisory' t)

include b

theorem blank_beside (h : Blank holds jobs t) : Blank holds' jobs' t :=
  ⟨b.holdWrites.trans h.1, b.jobWrites.trans h.2⟩

theorem filed_beside {f : HoldFiling} {id : String} {h : HeldExecution}
    (hfiled : Filed cfg holds jobs advisory t call f id h) :
    Filed cfg holds' jobs' advisory' t call f id h := by
  have hwritten : (holds.writes t).get? id = some h := by
    rw [hfiled.only, Dict.get?_set, if_pos rfl]
  rcases hfiled.job with ⟨j, hj, hheld⟩
  exact {
    filing := hfiled.filing
    only := b.holdWrites.trans hfiled.only
    new := (b.holdKept id (holds.owned t id h hwritten)).trans hfiled.new
    pending := hfiled.pending
    agent := hfiled.agent
    jobNew := (b.jobKept _ (jobs.owned t _ j hj)).trans hfiled.jobNew
    job := ⟨j, b.jobWrites.symm ▸ hj, hheld⟩
    lock := b.locks _ hfiled.lock
    room := lt_of_le_of_lt (b.counted _ hfiled.lock) hfiled.room }

theorem settled_beside {owed : List (String × String)} {h h' : HeldExecution} {id : String}
    (hw : (holds.writes t).get? id = some h') (hsettled : Settled holds jobs t call owed h id h') :
    Settled holds' jobs' t call owed h id h' where
  committed := (b.holdKept id (holds.owned t id h' hw)).trans hsettled.committed
  pending := hsettled.pending
  jobId := hsettled.jobId
  state := hsettled.state
  inTime := hsettled.inTime
  job := by
    rw [b.jobWrites]
    exact hsettled.job

theorem hasHold_beside {id : String} (h : HasHold holds t id) : HasHold holds' t id := by
  unfold HasHold
  rw [b.holdWrites]
  exact h

theorem jobWrite_beside {id : String} {j' : Job} (hw : (jobs.writes t).get? id = some j')
    (h : JobWrite holds jobs t call id j') : JobWrite holds' jobs' t call id j' := by
  have hkept := b.jobKept id (jobs.owned t id j' hw)
  cases h with
  | filed hnone hheld hkind hhold =>
      exact .filed (hkept.trans hnone) hheld hkind (hasHold_beside b hhold)
  | enqueued hnone hne => exact .enqueued (hkept.trans hnone) hne
  | released j hj hheld hstatus hhold =>
      exact .released j (hkept.trans hj) hheld hstatus (hasHold_beside b hhold)
  | moved j hj hstatus hne => exact .moved j (hkept.trans hj) hstatus hne

theorem written_beside {owed : List (String × String)}
    (h : Written cfg holds jobs advisory t call owed) :
    Written cfg holds' jobs' advisory' t call owed where
  hold id h' hw := by
    rw [b.holdWrites] at hw
    cases h.hold id h' hw with
    | filed f hfiled => exact .filed f (filed_beside b hfiled)
    | settled h₀ hsettled => exact .settled h₀ (settled_beside b hw hsettled)
  job id j' hw := by
    rw [b.jobWrites] at hw
    exact jobWrite_beside b hw (h.job id j' hw)
  owes := by
    rw [b.holdWrites, b.jobWrites]
    exact h.owes
  nodup := h.nodup

theorem serialised_beside (h : Serialised cfg advisory t call) :
    Serialised cfg advisory' t call := by
  rcases h with ⟨f, hf, hlock⟩
  exact ⟨f, hf, b.locks _ hlock⟩

/-- A step of another call keeps what a call relies on. -/
theorem phaseInv_beside {phase : Phase} (h : PhaseInv cfg holds jobs advisory t call phase) :
    PhaseInv cfg holds' jobs' advisory' t call phase := by
  cases phase with
  | called => exact blank_beside b h
  | locked => exact ⟨blank_beside b h.1, serialised_beside b h.2⟩
  | unjoined => exact ⟨blank_beside b h.1, serialised_beside b h.2⟩
  | refused => exact ⟨blank_beside b h.1, serialised_beside b h.2⟩
  | counted pending =>
      rcases h with ⟨hblank, f, hf, hlock, hroom⟩
      exact ⟨blank_beside b hblank, f, hf, b.locks _ hlock,
        lt_of_le_of_lt (b.counted _ hlock) hroom⟩
  | cancelling jobId =>
      rcases h with ⟨hblank, j, hj, hne⟩
      exact ⟨blank_beside b hblank, b.unheld jobId j hj hne⟩
  | settling now remaining owed => exact written_beside b h
  | moving owed => exact written_beside b h
  | recording approvalId jobId owed => exact written_beside b h
  | sweeping remaining => exact ⟨b.holdWrites.trans h.1, written_beside b h.2⟩
  | ready claimed =>
      refine ⟨written_beside b h.1, ?_⟩
      rw [b.jobWrites]
      exact h.2
  | raising => exact trivial
  | ended => exact trivial

end Beside

/-! ## Steps that commit nothing -/

section Quiet

variable {cfg : HoldConfig} {w w' : World} {tx : Nat} {s : Session} {phase' : Phase}

/-- A call that has written what it had written relies on what it relied on. -/
theorem beside_of_kept {holds holds' : Rows String HeldExecution Nat}
    {jobs jobs' : Rows String Job Nat} {advisory advisory' : Int → Option Nat} {t : Nat}
    (hholds : holds'.committed = holds.committed) (hjobs : jobs'.committed = jobs.committed)
    (holdWrites : holds'.writes t = holds.writes t) (jobWrites : jobs'.writes t = jobs.writes t)
    (locks : ∀ k, advisory k = some t → advisory' k = some t) :
    Beside cfg holds holds' jobs jobs' advisory advisory' t where
  holdWrites := holdWrites
  jobWrites := jobWrites
  holdKept k _ := by rw [hholds]
  jobKept k _ := by rw [hjobs]
  locks := locks
  counted agentId _ := by rw [hholds]
  unheld k j hj hne := ⟨j, by rw [hjobs]; exact hj, hne⟩

/-- A step of the call at `tx` that commits nothing and leaves its call in order. -/
structure Quiet (cfg : HoldConfig) (w w' : World) (tx : Nat) (call : Call) (phase' : Phase) :
    Prop where
  sessions : w'.sessions = w.sessions.set tx ⟨call, phase'⟩
  holds : Rows.Frame w.holds w'.holds tx
  jobs : Rows.Frame w.jobs w'.jobs tx
  holdsKept : w'.holds.committed = w.holds.committed
  jobsKept : w'.jobs.committed = w.jobs.committed
  starts : w'.starts = w.starts
  locks : ∀ t k, t ≠ tx → w.advisory k = some t → w'.advisory k = some t
  indexed : Indexed w'.holds
  inv : PhaseInv cfg w'.holds w'.jobs w'.advisory tx call phase'

theorem quiet_setPhase (inv : HoldInv cfg w) {call : Call}
    (h : PhaseInv cfg w.holds w.jobs w.advisory tx call phase') :
    Quiet cfg w (w.setPhase tx call phase') tx call phase' where
  sessions := rfl
  holds := Rows.frame_refl _ _
  jobs := Rows.frame_refl _ _
  holdsKept := rfl
  jobsKept := rfl
  starts := rfl
  locks _ _ _ h := h
  indexed := inv.indexed
  inv := h

theorem capAtMost_of_set (hs : w.sessions[tx]? = some s) {agentId : String} {cap : Nat}
    (h : CapAtMost (w.sessions.set tx ⟨s.call, phase'⟩) agentId cap) :
    CapAtMost w.sessions agentId cap := by
  intro s₀ hs₀ f hf hagent
  rcases List.mem_iff_getElem?.mp hs₀ with ⟨k, hk⟩
  have hlt := (List.getElem?_eq_some_iff.mp hs).1
  by_cases hkx : k = tx
  · -- The session that was replaced has the call it had.
    rw [hkx, hs, Option.some.injEq] at hk
    refine h ⟨s.call, phase'⟩ (List.mem_set hlt _) f ?_ hagent
    rw [hk]
    exact hf
  · refine h s₀ (List.mem_iff_getElem?.mpr ⟨k, ?_⟩) f hf hagent
    rw [List.getElem?_set_ne (Ne.symm hkx)]
    exact hk

theorem inv_quiet (inv : HoldInv cfg w) (hs : w.sessions[tx]? = some s)
    (q : Quiet cfg w w' tx s.call phase') : HoldInv cfg w' where
  committed := by
    rw [q.holdsKept, q.jobsKept, q.starts]
    exact inv.committed
  indexed := q.indexed
  idle t ht := by
    rw [q.sessions, List.length_set] at ht
    have hlt := (List.getElem?_eq_some_iff.mp hs).1
    have hne : t ≠ tx := by omega
    have hidle := inv.idle t ht
    exact ⟨(q.holds.writes t hne).trans hidle.1, (q.jobs.writes t hne).trans hidle.2⟩
  session t s' hs' := by
    rw [q.sessions] at hs'
    rcases Lists.getElem?_set_cases hs' with ⟨hs', hne⟩ | ⟨rfl, rfl⟩
    · exact phaseInv_beside (beside_of_kept q.holdsKept q.jobsKept (q.holds.writes t hne)
        (q.jobs.writes t hne) (fun k => q.locks t k hne)) (inv.session t s' hs')
    · exact q.inv
  capped agentId cap hcap := by
    rw [q.sessions] at hcap
    rw [q.holdsKept]
    exact inv.capped agentId cap (capAtMost_of_set hs hcap)

end Quiet

/-! ## What a call writes -/

section Writes

variable {cfg : HoldConfig} {holds holds' : Rows String HeldExecution Nat}
  {jobs jobs' : Rows String Job Nat} {advisory : Int → Option Nat} {tx : Nat} {call : Call}
  {owed : List (String × String)} {starts : List String}

theorem written_of_blank (h : Blank holds jobs tx) :
    Written cfg holds jobs advisory tx call [] where
  hold id h' hw := by
    rw [h.1, Dict.get?_empty] at hw
    exact absurd hw (by simp only [reduceCtorEq, not_false_eq_true])
  job id j' hw := by
    rw [h.2, Dict.get?_empty] at hw
    exact absurd hw (by simp only [reduceCtorEq, not_false_eq_true])
  owes p hp := absurd hp List.not_mem_nil
  nodup := List.nodup_nil

/-- A call that has settled no hold has written jobs of its own only. -/
theorem written_job (hholds : holds.writes tx = Dict.empty)
    (h : Written cfg holds jobs advisory tx call []) (hcommitted : jobs'.committed = jobs.committed)
    {id : String} {j : Job} (hwrites : jobs'.writes tx = (jobs.writes tx).set id j)
    (hj : JobWrite holds jobs' tx call id j) : Written cfg holds jobs' advisory tx call [] where
  hold k h' hw := by
    rw [hholds, Dict.get?_empty] at hw
    exact absurd hw (by simp only [reduceCtorEq, not_false_eq_true])
  job k j' hw := by
    rw [hwrites, Dict.get?_set] at hw
    split at hw
    · next hk =>
        rw [Option.some.injEq] at hw
        rw [← hk, ← hw]
        exact hj
    · cases h.job k j' hw with
      | filed hnone hheld hkind hhold => exact .filed (by rw [hcommitted]; exact hnone) hheld hkind hhold
      | enqueued hnone hne => exact .enqueued (by rw [hcommitted]; exact hnone) hne
      | released j₀ hj₀ hheld hstatus hhold =>
          exact .released j₀ (by rw [hcommitted]; exact hj₀) hheld hstatus hhold
      | moved j₀ hj₀ hstatus hne => exact .moved j₀ (by rw [hcommitted]; exact hj₀) hstatus hne
  owes p hp := absurd hp List.not_mem_nil
  nodup := List.nodup_nil

/-- The index is about pending rows, so whatever else is written leaves it. -/
theorem indexed_of_pending (h : Indexed holds) (hcommitted : holds'.committed = holds.committed)
    (hwrites : ∀ t id r, (holds'.writes t).get? id = some r → r.state = .pending →
      (holds.writes t).get? id = some r) : Indexed holds' where
  committed := by
    rw [hcommitted]
    exact h.committed
  between t id r t' id' r' hr hr' hp hp' hfp :=
    h.between t id r t' id' r' (hwrites t id r hr hp) (hwrites t' id' r' hr' hp') hp hp' hfp
  among t id r id' r' hr hr' hp hp' := by
    rw [hcommitted] at hr'
    exact h.among t id r id' r' (hwrites t id r hr hp) hr' hp hp'

end Writes

end Holds

end Jobs

end JenticOne
