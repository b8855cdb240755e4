import JenticOne.Jobs.Worker
import JenticOne.Library.ReadCommitted

/-!
# Holds, Statement by Statement

The operations that move a hold and its job, each as a transaction that goes
statement by statement over the two tables at READ COMMITTED, with any number of
calls under way. `Jobs.AdminDb` has the same operations as one step each; here
any other call may come between two statements of one.

Four of the operations settle holds, and they are one shape: an update of the
pending holds that meet a condition, then an update of each of their jobs if it is
still held, then perhaps a result. They differ in the condition, in where hold and
job go, and in whether a hold that is not there or a job that is not held raises.
Filing takes a lock on its agent first, so that its count of pending holds and its
insert are one step as far as other filings of the agent go.

An access check, a lost connection or a deadlock may end any call, and a rollback
is always possible. A statement that waits for a row, for the agent's lock or for
the unique index is a statement that is not enabled yet.

`starts` is history and nothing reads it: the jobs that a committed claim handed
out.

## Main definitions

* `Call`, `Phase`, `Session`, `World`: What a run is in the middle of.
* `settles`, `settleHold`, `settleJob`: What tells the four settling calls apart.
* `insertHeld`: The insert of a filing, under the unique index.
* `step`: One action.
* `holdService`: The machine.
-/

namespace JenticOne

namespace Jobs

namespace Holds

open ReadCommitted

/-- What a worker writes to a job that is running under its claim. -/
inductive Outcome
  | requeued (visibleAt : Time)
  | completed
  | failed
  | deadLetter
deriving DecidableEq, Repr

def Outcome.status : Outcome → JobStatus
  | .requeued _ => .queued
  | .completed => .completed
  | .failed => .failed
  | .deadLetter => .deadLetter

def Outcome.visibleAt : Outcome → Option Time
  | .requeued visibleAt => some visibleAt
  | _ => none

/-- A call. A worker's write to a running job is one that checks the claim, or
    only that the job is running. -/
inductive Call
  | enqueue (job : Job)
  | fileHold (filing : HoldFiling)
  | decide (approvalId : String) (approve : Bool) (reviewer : String) (reason : Option String)
  | withdraw (approvalId filer : String)
  | withdrawPendingForAgent (agentId actorId : String)
  | expireLapsedApprovals
  | cancel (jobId : String)
  | cancelActiveForActor (actorId : String)
  | cancelQueuedExecutionsForActor (actorId : String)
  | claim (kinds : List JobKind) (visibilityTimeout : Time)
  | settleRunning (jobId : String) (attempts : Option Nat) (outcome : Outcome)
      (error : Option String)
deriving DecidableEq, Repr

/-- Where a call is: which statement is next, or the rows that are left of one.
    `owed` are the holds a call has settled whose jobs it has yet to move. -/
inductive Phase
  | called
  | locked
  | unjoined
  | counted (pending : Nat)
  | refused
  | settling (now : Time) (remaining : List String) (owed : List (String × String))
  | moving (owed : List (String × String))
  | recording (approvalId jobId : String) (owed : List (String × String))
  | cancelling (jobId : String)
  | sweeping (remaining : List String)
  | ready (claimed : Option String)
  | raising
  | ended
deriving DecidableEq, Repr

structure Session where
  call : Call
  phase : Phase
deriving DecidableEq, Repr

/-- The tables, the agents' advisory locks, the calls, and the history. -/
structure World where
  jobs : Rows String Job Nat
  holds : Rows String HeldExecution Nat
  results : Rows String JobResult Nat
  advisory : Int → Option Nat
  sessions : List Session
  starts : List String

def World.initial : World :=
  ⟨Rows.empty, Rows.empty, Rows.empty, fun _ => none, [], []⟩

/-- What happens next in a run. `tx` is the place of a call among the sessions. -/
inductive Action
  | receive (call : Call)
  | lockAgent (tx : Nat)
  | selectPending (tx : Nat)
  | countPending (tx : Nat)
  | insertHeld (tx : Nat) (now : Time)
  | beginStatement (tx : Nat) (now : Time)
  | takeRow (tx : Nat) (id : String)
  | endStatement (tx : Nat)
  | moveJob (tx : Nat)
  | recordResult (tx : Nat)
  | selectJob (tx : Nat)
  | writeJob (tx : Nat)
  | claimRow (tx : Nat) (jobId : String) (now : Time)
  | commit (tx : Nat)
  | rollback (tx : Nat)
deriving DecidableEq, Repr

namespace World

def setPhase (w : World) (tx : Nat) (call : Call) (phase : Phase) : World :=
  { w with sessions := w.sessions.set tx ⟨call, phase⟩ }

def withJobs (w : World) (rows : Rows String Job Nat) : World := { w with jobs := rows }

def withHolds (w : World) (rows : Rows String HeldExecution Nat) : World :=
  { w with holds := rows }

end World

/-! ## Settling -/

/-- The holds a call settles, read at `now`. -/
def settles (call : Call) (now : Time) (h : HeldExecution) : Bool :=
  h.state = .pending && match call with
    | .decide approvalId _ _ _ => h.id = approvalId && now < h.expiresAt
    | .withdraw approvalId filer => h.id = approvalId && h.agentId = filer
    | .withdrawPendingForAgent agentId _ => h.agentId = agentId
    | .expireLapsedApprovals => h.expiresAt ≤ now
    | _ => false

/-- The state a call leaves a hold in. -/
def holdTarget : Call → HeldExecutionState
  | .decide _ approve _ _ => if approve then .approved else .denied
  | .withdraw .. | .withdrawPendingForAgent .. => .withdrawn
  | _ => .expired

/-- Who decided, where somebody did. -/
def decider : Call → Option String
  | .decide _ _ reviewer _ => some reviewer
  | .withdraw _ filer => some filer
  | .withdrawPendingForAgent _ actorId => some actorId
  | _ => none

def settleHold (call : Call) (now : Time) (h : HeldExecution) : HeldExecution :=
  { h with state := holdTarget call, decidedAt := some now, decidedBy := decider call }

/-- The status a call leaves a held job in. -/
def jobTarget : Call → JobStatus
  | .decide _ approve _ _ => if approve then .queued else .failed
  | .withdraw .. | .withdrawPendingForAgent .. => .cancelled
  | _ => .failed

/-- The error of a job whose hold was denied or expired. -/
def heldError (call : Call) (error : Option String) : Option String :=
  match call with
  | .decide _ false _ _ => some "approval denied"
  | .expireLapsedApprovals => some "approval expired"
  | _ => error

/-- Move a held job. A denial sets the error in a statement of its own, on the row
    that it has locked by then. -/
def settleJob (call : Call) (r : Job) : Job :=
  { r with status := jobTarget call, error := heldError call r.error, visibleAt := none }

/-- A call that raises where there is nothing to settle, or a job is not held. -/
def strict : Call → Bool
  | .decide .. | .withdraw .. => true
  | _ => false

/-- The problem a held job fails with, and who its result is from. -/
def heldResult (call : Call) (approvalId : String) (job : Job) : Option JobResult :=
  let result problem createdBy : JobResult :=
    { jobId := job.id, kind := .execution, contentType := some problemContentType,
      body := .problem problem, availableUntil := none, createdBy := some createdBy }
  match call with
  | .decide _ false reviewer reason =>
      some (result (approvalDeniedProblem approvalId reason) reviewer)
  | .expireLapsedApprovals => some (result (approvalExpiredProblem approvalId) job.createdBy)
  | _ => none

/-! ## Filing -/

/-- The key of an agent's advisory lock. -/
structure HoldConfig where
  lockKey : String → Int

/-- A row of the unique index. -/
def pendingFor (fingerprint : String) (h : HeldExecution) : Bool :=
  h.requestFingerprint = fingerprint && h.state = .pending

/-- The number of pending holds of an agent. -/
def pendingCount (holds : Dict String HeldExecution) (agentId : String) : Nat :=
  holds.sumBy fun _ h => if h.agentId = agentId ∧ h.state = .pending then 1 else 0

/-- Another call has a row of the index under way: one it has inserted, or one it
    is settling. -/
def indexBusy (w : World) (tx : Nat) (fingerprint : String) : Bool :=
  (List.range w.sessions.length).any fun t => t ≠ tx &&
    (w.holds.writes t).items.any fun x => pendingFor fingerprint x.2 ||
      (w.holds.committed.get? x.1).any (pendingFor fingerprint)

/-- The held job and the pending hold of a filing. -/
def filedJob (f : HoldFiling) (now : Time) : Job :=
  { id := f.jobId, kind := .execution, status := .held, error := none,
    executionId := some f.executionId, visibleAt := none, attempts := 0,
    payload := f.payload, createdBy := f.agentId, createdAt := now }

def filedHold (f : HoldFiling) (now : Time) : HeldExecution :=
  { id := f.approvalId, jobId := f.jobId, agentId := f.agentId,
    requestFingerprint := f.fingerprint, state := .pending, expiresAt := now + f.ttl,
    decidedAt := none, decidedBy := none, executionId := none }

/-- The insert of a job and its hold in one savepoint. Nobody sees the job's row
    before the commit, so the two inserts are one step; where the index has the
    fingerprint, neither row is there. -/
def insertHeld (w : World) (tx : Nat) (call : Call) (f : HoldFiling) (now : Time) :
    Option World :=
  if indexBusy w tx f.fingerprint then none
  else if (w.holds.matching tx (pendingFor f.fingerprint)).isEmpty then
    (w.jobs.insert tx f.jobId (filedJob f now)).bind fun jobs =>
      (w.holds.insert tx f.approvalId (filedHold f now)).map fun holds =>
        ((w.withJobs jobs).withHolds holds).setPhase tx call (.ready none)
  else some (w.setPhase tx call .refused)

/-! ## Jobs -/

def active (r : Job) : Bool := r.status = .queued || r.status = .running || r.status = .held

def cancelled (r : Job) : Job := { r with status := .cancelled, visibleAt := none }

/-- The jobs a sweep cancels. -/
def sweeps (call : Call) (r : Job) : Bool :=
  match call with
  | .cancelActiveForActor actorId =>
      r.createdBy = actorId && (r.status = .queued || r.status = .running)
  | .cancelQueuedExecutionsForActor actorId =>
      r.createdBy = actorId && r.kind = .execution && r.status = .queued
  | _ => false

/-- A claim of a row that nobody has locked. Which of the claimable rows is the
    oldest is left open. -/
def claimRow (w : World) (tx : Nat) (call : Call) (kinds : List JobKind) (timeout : Time)
    (jobId : String) (now : Time) : Option World :=
  if w.jobs.lock jobId = none ∧
      (w.jobs.visible tx jobId).any (fun r => r.kind ∈ kinds && claimable now r) then
    (w.jobs.updateRow tx (fun r => r.kind ∈ kinds && claimable now r) (fun r => { r with
        status := .running, visibleAt := some (now + timeout), attempts := r.attempts + 1 })
      jobId).map fun jobs => (w.withJobs jobs).setPhase tx call (.ready (some jobId))
  else none

/-- The one-row statements of the calls that are about one job: the insert of a
    queued one, the update of `cancel_if_active`, and a worker's write. -/
def writeJob (w : World) (tx : Nat) (call : Call) (phase : Phase) : Option World :=
  let done rows := (w.withJobs rows).setPhase tx call (.ready none)
  match call, phase with
  | .enqueue job, .called =>
      (w.jobs.insert tx job.id { job with status := .queued, visibleAt := none, attempts := 0 }).map
        done
  | .cancel _, .cancelling jobId =>
      (w.jobs.updateRow tx active (fun r => { r with status := .cancelled }) jobId).map done
  | .settleRunning jobId attempts outcome error, .called =>
      (w.jobs.updateRow tx (fun r => r.status = .running && attempts.all (· = r.attempts))
        (fun r => { r with
          status := outcome.status, visibleAt := outcome.visibleAt, error := error })
        jobId).map done
  | _, _ => none

/-! ## Statements -/

/-- A statement over many rows begins: it fixes the rows it is about. -/
def beginPhase (w : World) (tx : Nat) (now : Time) (call : Call) : Phase → Option Phase
  | .called =>
      match call with
      | .decide .. | .withdraw .. | .withdrawPendingForAgent .. | .expireLapsedApprovals =>
          some (.settling now (w.holds.matching tx (settles call now)) [])
      | .cancelActiveForActor _ | .cancelQueuedExecutionsForActor _ =>
          some (.sweeping (w.jobs.matching tx (sweeps call)))
      | _ => none
  | _ => none

/-- The statement under way takes one of the rows that are left of it. A hold that
    still meets the condition is settled, and its job is owed. -/
def takeRow (w : World) (tx : Nat) (id : String) (call : Call) : Phase → Option World
  | .settling now remaining owed =>
      if id ∈ remaining then
        let settled := ((w.holds.visible tx id).filter (settles call now)).map (fun h => (id, h.jobId))
        (w.holds.updateRow tx (settles call now) (settleHold call now) id).map fun holds =>
          (w.withHolds holds).setPhase tx call
            (.settling now (remaining.erase id) (owed ++ settled.toList))
      else none
  | .sweeping remaining =>
      if id ∈ remaining then
        (w.jobs.updateRow tx (sweeps call) cancelled id).map fun jobs =>
          (w.withJobs jobs).setPhase tx call (.sweeping (remaining.erase id))
      else none
  | _ => none

/-- A statement that has no row left is followed by the next one. -/
def endPhase (call : Call) : Phase → Option Phase
  | .settling _ [] owed => some (if strict call ∧ owed = [] then .raising else .moving owed)
  | .moving [] => some (.ready none)
  | .sweeping [] => some (.ready none)
  | _ => none

/-- Move the next job that is owed, if it is still held. -/
def moveJob (w : World) (tx : Nat) (call : Call) : Phase → Option World
  | .moving ((approvalId, jobId) :: owed) =>
      (w.jobs.updateRow tx (fun r => r.status = .held) (settleJob call) jobId).map fun jobs =>
        (w.withJobs jobs).setPhase tx call
          (match (w.jobs.visible tx jobId).filter (fun r => r.status = .held) with
            | some r =>
                if (heldResult call approvalId r).isSome then .recording approvalId jobId owed
                else .moving owed
            | none => if strict call then .raising else .moving owed)
  | _ => none

/-- The result of a job that was failed; a result that is there already raises. -/
def recordResult (w : World) (tx : Nat) (call : Call) : Phase → Option World
  | .recording approvalId jobId owed =>
      match (w.jobs.visible tx jobId).bind (heldResult call approvalId) with
      | some result =>
          if (w.results.visible tx jobId).isSome then some (w.setPhase tx call .raising)
          else (w.results.insert tx jobId result).map fun results =>
            { w.setPhase tx call (.moving owed) with results := results }
      | none => none
  | _ => none

/-- The locks of a transaction that ends. -/
def releaseAdvisory (advisory : Int → Option Nat) (tx : Nat) (k : Int) : Option Nat :=
  if advisory k = some tx then none else advisory k

/-- A transaction ends and keeps what it has written. A claim hands out its job. -/
def commit (w : World) (tx : Nat) (call : Call) (claimed : Option String) : World :=
  { jobs := w.jobs.commit tx
    holds := w.holds.commit tx
    results := w.results.commit tx
    advisory := releaseAdvisory w.advisory tx
    sessions := w.sessions.set tx ⟨call, .ended⟩
    starts := claimed.toList ++ w.starts }

/-- A transaction ends and drops what it has written. -/
def rollback (w : World) (tx : Nat) (call : Call) : World :=
  { w with
    jobs := w.jobs.rollback tx
    holds := w.holds.rollback tx
    results := w.results.rollback tx
    advisory := releaseAdvisory w.advisory tx
    sessions := w.sessions.set tx ⟨call, .ended⟩ }

/-! ## Steps -/

/-- The statements of a filing. The lock is taken before anything is read. -/
def fileStep (cfg : HoldConfig) (w : World) (tx : Nat) (call : Call) (f : HoldFiling) :
    Phase → Action → Option World
  | .called, .lockAgent _ =>
      let k := cfg.lockKey f.agentId
      if w.advisory k = none then
        some { w.setPhase tx call .locked with
          advisory := Function.update w.advisory k (some tx) }
      else none
  | .locked, .selectPending _ =>
      some (w.setPhase tx call
        (if (w.holds.matching tx (pendingFor f.fingerprint)).isEmpty then .unjoined
          else .ready none))
  | .unjoined, .countPending _ =>
      let pending := pendingCount w.holds.committed f.agentId
      some (w.setPhase tx call (if f.maxPending ≤ pending then .raising else .counted pending))
  | .counted _, .insertHeld _ now => insertHeld w tx call f now
  | .refused, .selectPending _ =>
      some (w.setPhase tx call
        (if (w.holds.matching tx (pendingFor f.fingerprint)).isEmpty then .raising
          else .ready none))
  | _, _ => none

/-- `JobService.cancel` reads the job first and refuses a held execution. -/
def selectJob (w : World) (tx : Nat) (call : Call) : Phase → Option World
  | .called =>
      match call with
      | .cancel jobId =>
          some (w.setPhase tx call (match w.jobs.visible tx jobId with
            | some r =>
                if r.status = .held ∧ r.kind = .execution then .raising else .cancelling jobId
            | none => .raising))
      | _ => none
  | _ => none

/-- One action of the session `tx`, which is `call` in phase `phase`. -/
def sessionStep (cfg : HoldConfig) (w : World) (tx : Nat) (call : Call) (phase : Phase)
    (a : Action) : Option World :=
  match a with
  | .receive _ => none
  | .lockAgent _ | .selectPending _ | .countPending _ | .insertHeld _ _ =>
      match call with
      | .fileHold f => fileStep cfg w tx call f phase a
      | _ => none
  | .beginStatement _ now => (beginPhase w tx now call phase).map (w.setPhase tx call)
  | .takeRow _ id => takeRow w tx id call phase
  | .endStatement _ => (endPhase call phase).map (w.setPhase tx call)
  | .moveJob _ => moveJob w tx call phase
  | .recordResult _ => recordResult w tx call phase
  | .selectJob _ => selectJob w tx call phase
  | .writeJob _ => writeJob w tx call phase
  | .claimRow _ jobId now =>
      match call, phase with
      | .claim kinds timeout, .called => claimRow w tx call kinds timeout jobId now
      | _, _ => none
  | .commit _ =>
      match phase with
      | .ready claimed => some (commit w tx call claimed)
      | _ => none
  | .rollback _ => if phase = .ended then none else some (rollback w tx call)

/-- The session an action is of. -/
def Action.tx : Action → Option Nat
  | .receive _ => none
  | .lockAgent tx | .selectPending tx | .countPending tx | .insertHeld tx _
  | .beginStatement tx _ | .takeRow tx _ | .endStatement tx | .moveJob tx | .recordResult tx
  | .selectJob tx | .writeJob tx | .claimRow tx _ _ | .commit tx | .rollback tx => some tx

/-- One action in a run, or `none` where it is not enabled. -/
def step (cfg : HoldConfig) (w : World) (a : Action) : Option World :=
  match a, a.tx with
  | .receive call, _ => some { w with sessions := w.sessions ++ [⟨call, .called⟩] }
  | _, some tx =>
      (w.sessions[tx]?).bind fun session => sessionStep cfg w tx session.call session.phase a
  | _, none => none

/-- Runs of any number of calls over holds and jobs. -/
def holdService (cfg : HoldConfig) : Machine World Action where
  start w := w = World.initial
  step := step cfg

end Holds

end Jobs

end JenticOne
