import JenticOne.Library.Table

/-!
# The Admin Database

The rows the job queue lives in and the transactions every surface runs
against them: jobs, the approval rows of held executions, job results, and the
events and execution records that show a job has already dispatched.

Each transaction is one function from the tables to the tables. A function
that returns `none` is a transaction that raised and rolled back; one that
finds nothing to update returns the tables unchanged. Times are microseconds,
and every function that reads a clock takes the reading, so two processes with
clocks that disagree are two calls with unrelated readings.

The worker's own transactions are in `Jobs.Worker`. What is here is what the
other surfaces do to a job between two claims: filing it, holding it for
approval, deciding, withdrawing or expiring the hold, and cancelling.

## Main definitions

* `Job`, `HeldExecution`, `JobResult`, `Event`: The rows.
* `AdminDb`: The tables.
* `fileHold`: File or join a hold, with its held job.
* `decideHold`: Approve or deny a pending hold, and its job with it.
* `withdraw`, `withdrawPendingForAgent`, `expireLapsedApprovals`: The other
  ways a hold leaves `pending`.
* `cancel`, `cancelActiveForActor`, `cancelQueuedExecutionsForActor`: The
  cancellations.
* `getApprovedByJobId`: The approved hold of a job.
-/

namespace JenticOne

namespace Jobs

/-- Microseconds since the epoch, or a difference of two such times. -/
abbrev Time := Int

/-- Status of a job through its lifecycle. -/
inductive JobStatus
  | queued
  | running
  | completed
  | failed
  | cancelled
  | deadLetter
  | held
deriving DecidableEq, Repr

/-- Kind of job to be executed. -/
inductive JobKind
  | importSpec
  | execution
deriving DecidableEq, Repr

/-- Lifecycle of an execution approval; every state but `pending` is terminal. -/
inductive HeldExecutionState
  | pending
  | approved
  | denied
  | expired
  | withdrawn
deriving DecidableEq, Repr

/-- The keys of a job's payload that the worker reads or writes. -/
structure Payload where
  dispatched : Bool
  executionId : Option String
  traceId : Option String
deriving DecidableEq, Repr

/-- A row of `jobs`. -/
structure Job where
  id : String
  kind : JobKind
  status : JobStatus
  error : Option String
  executionId : Option String
  visibleAt : Option Time
  attempts : Nat
  payload : Payload
  createdBy : String
  createdAt : Time
deriving DecidableEq, Repr

/-- A row of `held_executions`. -/
structure HeldExecution where
  id : String
  jobId : String
  agentId : String
  requestFingerprint : String
  state : HeldExecutionState
  expiresAt : Time
  decidedAt : Option Time
  decidedBy : Option String
  executionId : Option String
deriving DecidableEq, Repr

/-- A problem body, as the approval surfaces and the worker write it. -/
structure Problem where
  type : String
  title : String
  status : Nat
  detail : String
  heldExecution : Option (String × HeldExecutionState)
deriving DecidableEq, Repr

/-- The body of a job result: what a handler returned, or a problem. -/
inductive ResultBody
  | handler (status executionId : Option String)
  | problem (p : Problem)
deriving DecidableEq, Repr

/-- `body.get("status")`. A problem body carries a number there. -/
def ResultBody.status : ResultBody → Option String
  | .handler status _ => status
  | .problem _ => none

/-- `body.get("execution_id")`. -/
def ResultBody.executionId : ResultBody → Option String
  | .handler _ executionId => executionId
  | .problem _ => none

/-- A row of `job_results`; the job id is unique. -/
structure JobResult where
  jobId : String
  kind : JobKind
  contentType : Option String
  body : ResultBody
  availableUntil : Option Time
  createdBy : Option String
deriving DecidableEq, Repr

/-- The event types the worker emits or looks for. -/
inductive EventType
  | credentialAccessed
  | importCompleted
  | importFailed
  | jobFailedPermanently
  | other
deriving DecidableEq, Repr

/-- A row of `events`. -/
structure Event where
  type : EventType
  jobId : Option String
  executionId : Option String
  traceId : Option String
  actorId : Option String
  createdAt : Time
deriving DecidableEq, Repr

/-- The tables of the admin database. `executionRecords` holds row ids. -/
structure AdminDb where
  jobs : Table Job.id
  heldExecutions : Table HeldExecution.id
  jobResults : Table JobResult.jobId
  events : List Event
  executionRecords : List String
deriving DecidableEq, Repr

namespace AdminDb

def empty : AdminDb := ⟨Table.empty, Table.empty, Table.empty, [], []⟩

/-- `session.get(Job, job_id)`. -/
def getJob (db : AdminDb) (jobId : String) : Option Job :=
  db.jobs.get jobId

/-- `UPDATE jobs SET .. WHERE ..`. -/
def updateJobs (db : AdminDb) (p : Job → Bool) (f : Job → Job)
    (hid : ∀ r, (f r).id = r.id := by exact fun _ => rfl) : AdminDb :=
  { db with jobs := db.jobs.updateWhere p f hid }

/-- `UPDATE held_executions SET .. WHERE ..`. -/
def updateHolds (db : AdminDb) (p : HeldExecution → Bool) (f : HeldExecution → HeldExecution)
    (hid : ∀ h, (f h).id = h.id := by exact fun _ => rfl) : AdminDb :=
  { db with heldExecutions := db.heldExecutions.updateWhere p f hid }

/-- `INSERT INTO job_results`, refused by the unique job id. -/
def addResult (db : AdminDb) (r : JobResult) : Option AdminDb :=
  (db.jobResults.insert r).map (fun rows => { db with jobResults := rows })

/-- The `approved` approval row for a job, or none. -/
def getApprovedByJobId (db : AdminDb) (jobId : String) : Option HeldExecution :=
  db.heldExecutions.rows.find? (fun h => h.jobId = jobId ∧ h.state = .approved)

/-- Link an approved job's approval to the execution record its run wrote. -/
def setExecutionIdForJob (db : AdminDb) (jobId executionId : String) : AdminDb :=
  db.updateHolds (fun h => h.jobId = jobId ∧ h.state = .approved)
    (fun h => { h with executionId := some executionId })

end AdminDb

/-- Create a new job row; the id is generated, so it must be free. -/
def enqueueJob (db : AdminDb) (job : Job) : Option AdminDb :=
  (db.jobs.insert { job with status := .queued, visibleAt := none, attempts := 0 }).map
    (fun jobs => { db with jobs := jobs })

def problemContentType : String := "application/problem+json"

def approvalDeniedProblem (approvalId : String) (reason : Option String) : Problem :=
  { type := "approval_denied"
    title := "Execution approval denied"
    status := 403
    detail := match reason with
      | some r => if r = "" then "A reviewer denied this held execution"
          else "A reviewer denied this held execution: " ++ r
      | none => "A reviewer denied this held execution"
    heldExecution := some (approvalId, .denied) }

def approvalExpiredProblem (approvalId : String) : Problem :=
  { type := "approval_expired"
    title := "Execution approval expired"
    status := 403
    detail := "No reviewer decided this held execution before its approval expired"
    heldExecution := some (approvalId, .expired) }

def approvalResumeFailedProblem (approvalId : String) : Problem :=
  { type := "approval_resume_failed"
    title := "Approved execution could not resume"
    status := 409
    detail := "The worker running this approved execution stopped mid-run; it is not re-run"
    heldExecution := some (approvalId, .approved) }

/-- Fail a held job with a problem-body result. A job no longer held is left
    as it is; a result that is already there rolls the transaction back. -/
def failHeldJob (db : AdminDb) (jobId : String) (problem : Problem) (error : String) :
    Option AdminDb :=
  match db.getJob jobId with
  | some job =>
      if job.status = .held then
        (db.updateJobs (fun r => r.id = jobId ∧ r.status = .held)
            (fun r => { r with status := .failed, error := some error, visibleAt := none })).addResult
          { jobId := jobId, kind := .execution, contentType := some problemContentType,
            body := .problem problem, availableUntil := none, createdBy := some job.createdBy }
      else some db
  | none => some db

/-- What a filing reads from the request, with the ids the database generates. -/
structure HoldFiling where
  agentId : String
  fingerprint : String
  executionId : String
  payload : Payload
  jobId : String
  approvalId : String
  ttl : Time
  maxPending : Nat
deriving DecidableEq, Repr

/-- File (or join) a hold: an identical pending request is joined first, then
    the per-agent pending cap refuses, then the held job and its pending
    approval are inserted together. -/
def fileHold (db : AdminDb) (f : HoldFiling) (now : Time) : Option AdminDb :=
  if db.heldExecutions.rows.any
      (fun h => h.requestFingerprint = f.fingerprint ∧ h.state = .pending) then some db
  else if f.maxPending ≤
      (db.heldExecutions.rows.filter (fun h => h.agentId = f.agentId ∧ h.state = .pending)).length
    then none
  else
    let job : Job :=
      { id := f.jobId, kind := .execution, status := .held, error := none,
        executionId := some f.executionId, visibleAt := none, attempts := 0,
        payload := f.payload, createdBy := f.agentId, createdAt := now }
    let approval : HeldExecution :=
      { id := f.approvalId, jobId := f.jobId, agentId := f.agentId,
        requestFingerprint := f.fingerprint, state := .pending, expiresAt := now + f.ttl,
        decidedAt := none, decidedBy := none, executionId := none }
    (db.jobs.insert job).bind fun jobs =>
      (db.heldExecutions.insert approval).map fun held =>
        { db with jobs := jobs, heldExecutions := held }

/-- `JobRepository.transition`: move a job out of one status, or none when it
    is in another. -/
def transition (db : AdminDb) (jobId : String) (fromStatus toStatus : JobStatus) :
    Option AdminDb :=
  match db.getJob jobId with
  | some job =>
      if job.status = fromStatus then
        some (db.updateJobs (fun r => r.id = jobId ∧ r.status = fromStatus)
          (fun r => { r with status := toStatus, visibleAt := none }))
      else none
  | none => none

/-- Settle a hold that meets `p`: the row, and the hold it was before. -/
def settleHold (db : AdminDb) (approvalId : String) (p : HeldExecution → Bool)
    (newState : HeldExecutionState) (decidedBy : String) (now : Time) :
    Option (HeldExecution × AdminDb) :=
  match db.heldExecutions.get approvalId with
  | some h =>
      if h.state = .pending ∧ p h then
        some (h, db.updateHolds (fun r => r.id = approvalId)
          (fun r => { r with state := newState, decidedAt := some now,
                             decidedBy := some decidedBy }))
      else none
  | none => none

/-- Approve or deny a pending, unexpired approval. In one transaction approve
    queues the held job and deny fails it; a job no longer held rolls the
    decision back. -/
def decideHold (db : AdminDb) (approvalId : String) (approve : Bool) (reviewer : String)
    (reason : Option String) (now : Time) : Option AdminDb :=
  (settleHold db approvalId (fun h => now < h.expiresAt)
      (if approve then .approved else .denied) reviewer now).bind fun (h, db') =>
    (transition db' h.jobId .held (if approve then .queued else .failed)).bind fun db'' =>
      if approve then some db''
      else
        (db''.updateJobs (fun r => r.id = h.jobId)
            (fun r => { r with error := some "approval denied" })).addResult
          { jobId := h.jobId, kind := .execution, contentType := some problemContentType,
            body := .problem (approvalDeniedProblem approvalId reason), availableUntil := none,
            createdBy := some reviewer }

/-- Withdraw a pending approval; only the identity that filed the hold may. -/
def withdraw (db : AdminDb) (approvalId filer : String) (now : Time) : Option AdminDb :=
  (settleHold db approvalId (fun h => h.agentId = filer) .withdrawn filer now).bind
    fun (h, db') => transition db' h.jobId .held .cancelled

/-- Withdraw every pending approval an agent filed and cancel its held job. -/
def withdrawPendingForAgent (db : AdminDb) (agentId actorId : String) (now : Time) : AdminDb :=
  let withdrawn := db.heldExecutions.rows.filter (fun h => h.agentId = agentId ∧ h.state = .pending)
  let settled := db.updateHolds (fun h => h.agentId = agentId ∧ h.state = .pending)
    (fun h => { h with state := .withdrawn, decidedAt := some now, decidedBy := some actorId })
  settled.updateJobs (fun r => (withdrawn.any (fun h => h.jobId = r.id)) && r.status = .held)
    (fun r => { r with status := .cancelled, visibleAt := none })

/-- Fail the held jobs of a list of expired holds, one after the other. -/
def failExpired (db : AdminDb) : List HeldExecution → Option AdminDb
  | [] => some db
  | h :: rest =>
      (failHeldJob db h.jobId (approvalExpiredProblem h.id) "approval expired").bind
        fun db' => failExpired db' rest

/-- Expire every pending approval past its deadline and fail its held job. -/
def expireLapsedApprovals (db : AdminDb) (now : Time) : Option AdminDb :=
  let expired := db.heldExecutions.rows.filter (fun h => h.state = .pending ∧ h.expiresAt ≤ now)
  failExpired (db.updateHolds (fun h => h.state = .pending ∧ h.expiresAt ≤ now)
    (fun h => { h with state := .expired, decidedAt := some now })) expired

/-- `JobService.cancel`: a held execution is refused, any other active job is
    cancelled, and a settled one is left as it is. `cancel_if_active` does not
    clear `visible_at`. -/
def cancel (db : AdminDb) (jobId : String) : Option AdminDb :=
  match db.getJob jobId with
  | some job =>
      if job.status = .held ∧ job.kind = .execution then none
      else some (db.updateJobs
        (fun r => r.id = jobId ∧ (r.status = .queued ∨ r.status = .running ∨ r.status = .held))
        (fun r => { r with status := .cancelled }))
  | none => none

/-- Cancel every queued or running job the actor enqueued. -/
def cancelActiveForActor (db : AdminDb) (actorId : String) : AdminDb :=
  db.updateJobs (fun r => r.createdBy = actorId ∧ (r.status = .queued ∨ r.status = .running))
    (fun r => { r with status := .cancelled, visibleAt := none })

/-- Cancel the actor's queued execution jobs. -/
def cancelQueuedExecutionsForActor (db : AdminDb) (actorId : String) : AdminDb :=
  db.updateJobs (fun r => r.createdBy = actorId ∧ r.kind = .execution ∧ r.status = .queued)
    (fun r => { r with status := .cancelled, visibleAt := none })

end Jobs

end JenticOne
