import JenticOne.Jobs.AdminDb
import JenticOne.Library.Machine

/-!
# Worker Loops Over One Job Table

The machine whose runs are the runs of any number of `WorkerLoop`s, on any
number of processes, sharing one admin database with every other surface.

A claim hands a job to a task, and the task keeps the row as it was when
claimed: everything it later does to the row is judged against that copy. A
task's phase says which of its transactions is next, so between any two of
them every other task, every surface and the clock may move. A step takes from
its action whatever the code does not decide: the reading of a clock, the rows
other transactions have locked, how a handler ends, and whether a commit was
acknowledged, rolled back, or lost its reply.

A visibility timeout needs no step of its own. It is a claim whose clock
reading is past the deadline, and it does not ask whether the earlier handler
is still running.

`starts` is history and nothing reads it: the claims whose handler was
started, latest first.

## Main definitions

* `claimNext`: Claim the oldest claimable job.
* `refuseApprovedReclaim`: The check that comes before a handler starts.
* `completeJob`, `terminalJob`, `requeue`: The ways a task settles its job.
* `Phase`, `Task`, `World`: What a run is in the middle of.
* `step`: One action.
* `workers`: The machine.

## Theorems

* `getJob_updateJobs`: Reading a job after an update of the job table.
-/

namespace JenticOne

namespace Jobs

theorem getJob_updateJobs (db : AdminDb) (p : Job → Bool) (f : Job → Job)
    (hid : ∀ r, (f r).id = r.id) (j : String) :
    (db.updateJobs p f hid).getJob j = (db.getJob j).map (fun r => if p r then f r else r) :=
  Table.get_updateWhere db.jobs p f hid j

/-- The durability settings of the workers, with the kinds each loop has a
    handler for. -/
structure WorkerConfig where
  visibilityTimeout : Time
  maxAttempts : Int
  retryBackoffBase : Time
  retryBackoffMax : Time
  approvedResultRetention : Time
  kinds : String → List JobKind

/-- How a transaction ends for the code that ran it: acknowledged, rolled back
    with an error, or with its reply lost whether or not it landed. -/
inductive Commit
  | acked
  | rolledBack
  | unknown (landed : Bool)
deriving DecidableEq, Repr

/-- The tables after a transaction that would turn `db` into `db'`. -/
def Commit.apply (c : Commit) (db db' : AdminDb) : AdminDb :=
  match c with
  | .acked => db'
  | .rolledBack => db
  | .unknown landed => if landed then db' else db

/-- Result produced by a job handler. -/
structure JobResultPayload where
  body : ResultBody
  contentType : Option String
deriving DecidableEq, Repr

/-- How a handler raises, as `_process_job` tells exceptions apart. -/
inductive HandlerError
  | commitOutcomeUnknown
  | nonRetryable (error : String)
  | other (error : String)
deriving DecidableEq, Repr

def errorMaxLen : Nat := 128

/-- `error[:_ERROR_MAX_LEN]`. -/
def truncated (error : String) : String := String.ofList (error.toList.take errorMaxLen)

/-- Exponential backoff for the `attempts`-th claim, capped at the max. -/
def backoff (cfg : WorkerConfig) (attempts : Nat) : Time :=
  min (cfg.retryBackoffBase * 2 ^ (attempts - 1)) cfg.retryBackoffMax

/-- A queued job that is due, or a running one whose deadline has passed. A
    comparison with a null deadline selects nothing. -/
def claimable (now : Time) (job : Job) : Bool :=
  match job.status, job.visibleAt with
  | .queued, none => true
  | .queued, some visibleAt => visibleAt ≤ now
  | .running, some visibleAt => visibleAt < now
  | _, _ => false

/-- `ORDER BY created_at LIMIT 1`. -/
def oldest : List Job → Option Job
  | [] => none
  | j :: rest =>
      match oldest rest with
      | some r => if r.createdAt < j.createdAt then some r else some j
      | none => some j

theorem oldest_mem {jobs : List Job} {j : Job} (h : oldest jobs = some j) : j ∈ jobs := by
  induction jobs with
  | nil => exact absurd h (by simp only [oldest, reduceCtorEq, not_false_eq_true])
  | cons head rest ih =>
      unfold oldest at h
      split at h
      · rename_i r hr
        split at h
        · rw [Option.some.injEq] at h
          rw [h] at hr
          exact List.mem_cons_of_mem head (ih hr)
        · rw [Option.some.injEq] at h
          rw [← h]
          exact List.mem_cons_self
      · rw [Option.some.injEq] at h
        rw [← h]
        exact List.mem_cons_self

/-- The oldest claimable row of a supported kind that no other transaction has
    locked. -/
def pickJob (kinds : List JobKind) (now : Time) (locked : List String) (jobs : List Job) :
    Option Job :=
  oldest (jobs.filter fun j => j.kind ∈ kinds && claimable now j && j.id ∉ locked)

/-- `_claim_next`: flip the picked row to running, stamp a fresh deadline and
    count the attempt. Returns the row as updated. -/
def claimNext (cfg : WorkerConfig) (db : AdminDb) (worker : String) (now : Time)
    (locked : List String) : Option (Job × AdminDb) :=
  (pickJob (cfg.kinds worker) now locked db.jobs.rows).map fun j =>
    let claim : Job → Job := fun r => { r with
      status := .running
      visibleAt := some (now + cfg.visibilityTimeout)
      attempts := r.attempts + 1 }
    (claim j, db.updateJobs (fun r => r.id = j.id) claim)

/-- A Python string that is not falsy. -/
def truthy (s : Option String) : Option String := s.filter (fun x => x ≠ "")

/-- A valid 32-hex trace id that is not all zeros. `$` also matches before a
    final newline. -/
def validTraceId (traceId : String) : Bool :=
  let body := if traceId.toList.getLast? = some '\n' then traceId.toList.dropLast
    else traceId.toList
  body.length = 32 && body.all (fun c => c.isDigit || ('a' ≤ c && c ≤ 'f'))
    && traceId.toList ≠ List.replicate 32 '0'

/-- The execution id a job's rows are looked for under. -/
def executionIdOf (job : Job) : String :=
  match truthy job.executionId, truthy job.payload.executionId with
  | some e, _ => e
  | none, some e => e
  | none, none => "exec_" ++ job.id

/-- Whether an event row is evidence that `job` dispatched. -/
def dispatchEvent (job : Job) (e : Event) : Bool :=
  e.jobId = some job.id || e.executionId = some (executionIdOf job) ||
    match job.payload.traceId.filter validTraceId with
    | none => false
    | some traceId => e.traceId = some traceId && e.type = .credentialAccessed &&
        (job.createdBy = "" || e.actorId = some job.createdBy) && job.createdAt ≤ e.createdAt

/-- True when an earlier claim of `job` already injected credentials or
    dispatched, as far as the tables or this loop's memory show. -/
def hasExecutionDispatched (db : AdminDb) (dispatchedJobs : List String) (job : Job) : Bool :=
  job.payload.dispatched || job.id ∈ dispatchedJobs ||
    executionIdOf job ∈ db.executionRecords || db.events.any (dispatchEvent job)

/-- Whether a row is still running under the claim a transition is made for; a
    transition made for no claim always applies. -/
def claimHolds (job : Job) : Option Nat → Bool
  | none => true
  | some claimAttempts => job.status = .running && job.attempts = claimAttempts

/-- An execution job some earlier claim already ran: `attempts` counts claims
    including this one. -/
def reclaimed (job : Job) : Bool := job.kind = .execution && 1 < job.attempts

/-- What `_refuse_approved_reclaim` finds. -/
inductive ReclaimCheck
  | admitted
  | claimLost
  | refused (db : AdminDb)
  | raised
deriving DecidableEq, Repr

/-- `_refuse_approved_reclaim`: fail an execution job re-claimed after an
    earlier attempt already started it. -/
def refuseApprovedReclaim (cfg : WorkerConfig) (db : AdminDb) (dispatchedJobs : List String)
    (job : Job) (now : Time) : ReclaimCheck :=
  if reclaimed job then
    match db.getJob job.id with
    | none => .claimLost
    | some dbJob =>
      if claimHolds dbJob (some job.attempts) then
        match db.getApprovedByJobId job.id with
        | some approval =>
            let failed := db.updateJobs (fun r => r.id = job.id) fun r => { r with
              status := .failed
              error := some "approved execution interrupted; not re-run"
              visibleAt := none }
            match failed.addResult
              { jobId := job.id, kind := job.kind, contentType := some problemContentType,
                body := .problem (approvalResumeFailedProblem approval.id),
                availableUntil := some (now + cfg.approvedResultRetention),
                createdBy := some dbJob.createdBy } with
            | some db' => .refused db'
            | none => .raised
        | none =>
            if hasExecutionDispatched db dispatchedJobs dbJob then
              .refused (db.updateJobs (fun r => r.id = job.id) fun r => { r with
                status := .failed
                error := some "execution interrupted after dispatch; not re-run"
                visibleAt := none })
            else .admitted
      else .claimLost
  else .admitted

/-- `emit_event` inside a `try`: an event that cannot be written is dropped. -/
def emitEvent (db : AdminDb) (emitted : Bool) (event : Event) : AdminDb :=
  if emitted then { db with events := db.events ++ [event] } else db

/-- An event of the worker about a job, on behalf of the actor that filed it. -/
def jobEvent (type : EventType) (job : Job) (now : Time) : Event :=
  { type := type, jobId := some job.id, executionId := none, traceId := none,
    actorId := some job.createdBy, createdAt := now }

/-- Link the run of an approved execution to its hold, where it names one. -/
def linkExecution (db : AdminDb) (approved : Bool) (jobId : String) (body : ResultBody) : AdminDb :=
  match truthy body.executionId with
  | some executionId => if approved then db.setExecutionIdForJob jobId executionId else db
  | none => db

/-- The status a completion leaves: an approved execution runs once, so a run
    that failed is terminal as failed. -/
def completedStatus (approved : Bool) (body : ResultBody) : JobStatus :=
  if approved ∧ body.status = some "failed" then .failed else .completed

/-- `_complete_job`: mark a job that is still running completed and write its
    result; `none` where the write raises. Only an import emits an event. -/
def completeJob (cfg : WorkerConfig) (db : AdminDb) (jobId : String) (kind : JobKind)
    (result : JobResultPayload) (now : Time) (emitted : Bool) : Option AdminDb :=
  match db.getJob jobId with
  | none => some db
  | some job =>
    if job.status ≠ .running then some db
    else
      let approved := kind = .execution && (db.getApprovedByJobId jobId).isSome
      let settled := db.updateJobs (fun r => r.id = jobId) fun r => { r with
        status := completedStatus approved result.body
        visibleAt := none
        error := none }
      ((linkExecution settled approved jobId result.body).addResult
        { jobId := jobId, kind := kind, contentType := result.contentType, body := result.body,
          availableUntil := if approved then some (now + cfg.approvedResultRetention) else none,
          createdBy := none }).map fun db' =>
        emitEvent db' (kind = .importSpec && emitted) (jobEvent .importCompleted job now)

/-- `_terminal_job`: move a job to a terminal status, clear its claim and emit
    an event. With `claimAttempts` it applies only while the row is still
    running under that claim. -/
def terminalJob (db : AdminDb) (jobId : String) (status : JobStatus) (error : String)
    (claimAttempts : Option Nat) (eventType : EventType) (now : Time) (emitted : Bool) :
    AdminDb :=
  match db.getJob jobId with
  | none => db
  | some job =>
    if claimHolds job claimAttempts then
      emitEvent
        (db.updateJobs (fun r => r.id = jobId) fun r => { r with
          status := status
          error := if error = "" then none else some (truncated error)
          visibleAt := none })
        emitted (jobEvent eventType job now)
    else db

/-- The requeue of `_handle_failure`, while this claim still holds. -/
def requeue (cfg : WorkerConfig) (db : AdminDb) (job : Job) (error : String) (now : Time) :
    AdminDb :=
  db.updateJobs (fun r => r.id = job.id ∧ r.status = .running ∧ r.attempts = job.attempts)
    fun r => { r with
      status := .queued
      error := some (truncated error)
      visibleAt := some (now + backoff cfg job.attempts) }

/-- `_handle_failure` past its approval check: an approved execution fails
    outright, a job at its budget is dead-lettered, any other is requeued. -/
def handleFailure (cfg : WorkerConfig) (db : AdminDb) (job : Job) (approved : Bool)
    (error : String) (now : Time) (emitted : Bool) : AdminDb :=
  if approved then
    terminalJob db job.id .failed error (some job.attempts) .importFailed now emitted
  else if cfg.maxAttempts ≤ job.attempts then
    terminalJob db job.id .deadLetter error (some job.attempts) .jobFailedPermanently now emitted
  else requeue cfg db job error now

/-- `_fail_claimed_job`: a failure no retry can change. -/
def failClaimedJob (db : AdminDb) (job : Job) (error : String) (now : Time) (emitted : Bool) :
    AdminDb :=
  terminalJob db job.id .failed error (some job.attempts)
    (if job.kind = .importSpec then .importFailed else .jobFailedPermanently) now emitted

/-- `_fail_job`, for a kind with no handler: no claim check. -/
def failJob (db : AdminDb) (job : Job) (now : Time) (emitted : Bool) : AdminDb :=
  terminalJob db job.id .failed
    ("no handler for kind=" ++ (match job.kind with
      | .importSpec => "import"
      | .execution => "execution")) none .importFailed now emitted

/-- The update of `_mark_dispatched_best_effort`. -/
def markDispatched (db : AdminDb) (job : Job) : AdminDb :=
  db.updateJobs (fun r => r.id = job.id ∧ r.status = .running ∧ r.attempts = job.attempts)
    fun r => { r with payload := { job.payload with dispatched := true } }

def maxTrackedDispatchedJobs : Nat := 1024

/-- `_track_dispatched`: the job ids whose handler returned, oldest first. -/
def trackDispatched (jobs : List String) (jobId : String) : List String :=
  let others := jobs.filter (fun j => j ≠ jobId)
  (if maxTrackedDispatchedJobs ≤ others.length then others.tail else others) ++ [jobId]

def completionMaxRetries : Nat := 3

/-- Where a task is: which of its transactions comes next. -/
inductive Phase
  | claimed
  | admitted
  | started
  | completing (result : JobResultPayload) (attempt : Nat)
  | marking (result : JobResultPayload) (attempt : Nat) (last : Bool)
  | raised (error : String)
  | failing (approved : Bool) (error : String)
  | failingClaimed (error : String)
  | failingNoHandler
  | ended
deriving DecidableEq, Repr

/-- A claimed job in the hands of a worker, with the row as claimed. -/
structure Task where
  worker : String
  job : Job
  phase : Phase
deriving DecidableEq, Repr

/-- The tables, every task ever started, each loop's memory of dispatched
    jobs, and the history of handler starts as (job, attempt). -/
structure World where
  db : AdminDb
  tasks : List Task
  dispatchedJobs : String → List String
  starts : List (String × Nat)

def World.initial : World := ⟨AdminDb.empty, [], fun _ => [], []⟩

/-- What happens next in a run. -/
inductive Action
  | enqueue (job : Job)
  | fileHold (filing : HoldFiling) (now : Time)
  | decideHold (approvalId : String) (approve : Bool) (reviewer : String) (reason : Option String)
      (now : Time)
  | withdraw (approvalId filer : String) (now : Time)
  | withdrawPendingForAgent (agentId actorId : String) (now : Time)
  | expireLapsedApprovals (now : Time)
  | cancel (jobId : String)
  | cancelActiveForActor (actorId : String)
  | cancelQueuedExecutionsForActor (actorId : String)
  | writeEvent (event : Event)
  | writeExecutionRecord (executionId : String)
  | claim (worker : String) (now : Time) (locked : List String) (commit : Commit)
  | checkReclaim (task : Nat) (now : Time) (commit : Commit)
  | startHandler (task : Nat)
  | handlerReturns (task : Nat) (result : JobResultPayload)
  | handlerRaises (task : Nat) (error : HandlerError)
  | complete (task : Nat) (now : Time) (emitted : Bool) (commit : Commit)
  | markDispatched (task : Nat) (commit : Commit)
  | checkApproved (task : Nat) (readable : Bool)
  | settleFailure (task : Nat) (now : Time) (emitted : Bool) (commit : Commit)
  | crash (worker : String)
deriving DecidableEq, Repr

namespace World

/-- Replace the tables. -/
def withDb (w : World) (db : AdminDb) : World := { w with db := db }

/-- Move task `i`, which is `t`, to another phase. -/
def setPhase (w : World) (i : Nat) (t : Task) (phase : Phase) : World :=
  { w with tasks := w.tasks.set i { t with phase := phase } }

/-- Drop a job from a loop's memory of dispatched jobs. -/
def popDispatched (w : World) (worker jobId : String) : World :=
  let rest := (w.dispatchedJobs worker).filter (fun j => j ≠ jobId)
  { w with dispatchedJobs := Function.update w.dispatchedJobs worker rest }

end World

/-- The next phase after an attempt to write a completion that raised: marked
    as dispatched, then retried, or given up on. -/
def afterCompletion (commit : Commit) (result : JobResultPayload) (attempt : Nat) : Phase :=
  match commit with
  | .acked => .ended
  | .unknown _ => .marking result attempt true
  | .rolledBack => .marking result attempt (completionMaxRetries ≤ attempt)

/-- `_claim_next` in a run. A claim whose commit was not acknowledged hands out
    no task, though its update may have landed. -/
def stepClaim (cfg : WorkerConfig) (w : World) (worker : String) (now : Time)
    (locked : List String) (commit : Commit) : Option World :=
  (claimNext cfg w.db worker now locked).map fun (job, db) =>
    { w.withDb (commit.apply w.db db) with
      tasks := if commit = .acked then w.tasks ++ [⟨worker, job, .claimed⟩] else w.tasks }

/-- The check before the handler. A transaction that raises ends the task; a
    first claim opens none. -/
def stepCheckReclaim (cfg : WorkerConfig) (w : World) (i : Nat) (t : Task) (now : Time)
    (commit : Commit) : World :=
  match refuseApprovedReclaim cfg w.db (w.dispatchedJobs t.worker) t.job now with
  | .admitted =>
      w.setPhase i t (if reclaimed t.job ∧ commit ≠ .acked then .ended else .admitted)
  | .claimLost => (w.popDispatched t.worker t.job.id).setPhase i t .ended
  | .refused db =>
      ((w.withDb (commit.apply w.db db)).popDispatched t.worker t.job.id).setPhase i t .ended
  | .raised => (w.popDispatched t.worker t.job.id).setPhase i t .ended

/-- Start the handler, where the loop has one for the job's kind. -/
def stepStartHandler (cfg : WorkerConfig) (w : World) (i : Nat) (t : Task) : World :=
  if t.job.kind ∈ cfg.kinds t.worker then
    { w.setPhase i t .started with starts := (t.job.id, t.job.attempts) :: w.starts }
  else w.setPhase i t .failingNoHandler

/-- One attempt of `_complete_with_retry`. -/
def stepComplete (cfg : WorkerConfig) (w : World) (i : Nat) (t : Task)
    (result : JobResultPayload) (attempt : Nat) (now : Time) (emitted : Bool) (commit : Commit) :
    World :=
  match completeJob cfg w.db t.job.id t.job.kind result now emitted with
  | none => w.setPhase i t (afterCompletion .rolledBack result attempt)
  | some db =>
      let w' := (w.withDb (commit.apply w.db db)).setPhase i t
        (afterCompletion commit result attempt)
      if commit = .acked then w'.popDispatched t.worker t.job.id else w'

/-- `_mark_dispatched_best_effort`, then the next attempt unless that was the
    last. The task's own copy of the payload follows a statement that matched,
    whatever becomes of its commit. -/
def stepMarkDispatched (w : World) (i : Nat) (t : Task) (result : JobResultPayload)
    (attempt : Nat) (last : Bool) (commit : Commit) : World :=
  let phase : Phase := if last then .ended else .completing result (attempt + 1)
  if t.job.kind ≠ .execution ∨ t.job.payload.dispatched then w.setPhase i t phase
  else
    let held := (w.db.getJob t.job.id).any
      (fun r => r.status = .running ∧ r.attempts = t.job.attempts)
    let job := if commit ≠ .rolledBack ∧ held then
      { t.job with payload := { t.job.payload with dispatched := true } } else t.job
    (w.withDb (commit.apply w.db (markDispatched w.db t.job))).setPhase i { t with job := job }
      phase

/-- One action in a run, or `none` where it is not enabled. -/
def step (cfg : WorkerConfig) (w : World) : Action → Option World
  | .enqueue job => (enqueueJob w.db job).map w.withDb
  | .fileHold filing now => (fileHold w.db filing now).map w.withDb
  | .decideHold approvalId approve reviewer reason now =>
      (Jobs.decideHold w.db approvalId approve reviewer reason now).map w.withDb
  | .withdraw approvalId filer now => (Jobs.withdraw w.db approvalId filer now).map w.withDb
  | .withdrawPendingForAgent agentId actorId now =>
      some (w.withDb (Jobs.withdrawPendingForAgent w.db agentId actorId now))
  | .expireLapsedApprovals now => (Jobs.expireLapsedApprovals w.db now).map w.withDb
  | .cancel jobId => (Jobs.cancel w.db jobId).map w.withDb
  | .cancelActiveForActor actorId => some (w.withDb (Jobs.cancelActiveForActor w.db actorId))
  | .cancelQueuedExecutionsForActor actorId =>
      some (w.withDb (Jobs.cancelQueuedExecutionsForActor w.db actorId))
  | .writeEvent event => some (w.withDb { w.db with events := w.db.events ++ [event] })
  | .writeExecutionRecord executionId =>
      some (w.withDb { w.db with executionRecords := w.db.executionRecords ++ [executionId] })
  | .claim worker now locked commit => stepClaim cfg w worker now locked commit
  | .checkReclaim i now commit =>
      match w.tasks[i]? with
      | some t => if t.phase = .claimed then some (stepCheckReclaim cfg w i t now commit) else none
      | none => none
  | .startHandler i =>
      match w.tasks[i]? with
      | some t => if t.phase = .admitted then some (stepStartHandler cfg w i t) else none
      | none => none
  | .handlerReturns i result =>
      match w.tasks[i]? with
      | some t =>
          if t.phase = .started then
            let w' := w.setPhase i t (.completing result 0)
            let tracked := trackDispatched (w.dispatchedJobs t.worker) t.job.id
            some (if t.job.kind = .execution then
              { w' with dispatchedJobs := Function.update w.dispatchedJobs t.worker tracked }
            else w')
          else none
      | none => none
  | .handlerRaises i error =>
      match w.tasks[i]? with
      | some t =>
          if t.phase = .started then
            some (w.setPhase i t (match error with
              | .commitOutcomeUnknown => .ended
              | .nonRetryable e => .failingClaimed e
              | .other e => .raised e))
          else none
      | none => none
  | .complete i now emitted commit =>
      match w.tasks[i]? with
      | some t =>
          match t.phase with
          | .completing result attempt =>
              some (stepComplete cfg w i t result attempt now emitted commit)
          | _ => none
      | none => none
  | .markDispatched i commit =>
      match w.tasks[i]? with
      | some t =>
          match t.phase with
          | .marking result attempt last =>
              some (stepMarkDispatched w i t result attempt last commit)
          | _ => none
      | none => none
  | .checkApproved i readable =>
      match w.tasks[i]? with
      | some t =>
          match t.phase with
          | .raised error =>
              if readable then
                some (w.setPhase i t (.failing (t.job.kind = .execution ∧
                  (w.db.getApprovedByJobId t.job.id).isSome) error))
              else some (w.setPhase i t .ended)
          | _ => none
      | none => none
  | .settleFailure i now emitted commit =>
      match w.tasks[i]? with
      | some t =>
          let settle db := some ((w.withDb (commit.apply w.db db)).setPhase i t .ended)
          match t.phase with
          | .failing approved error =>
              settle (handleFailure cfg w.db t.job approved error now emitted)
          | .failingClaimed error => settle (failClaimedJob w.db t.job error now emitted)
          | .failingNoHandler => settle (failJob w.db t.job now emitted)
          | _ => none
      | none => none
  | .crash worker => some { w with
      tasks := w.tasks.map (fun t => if t.worker = worker then { t with phase := .ended } else t)
      dispatchedJobs := Function.update w.dispatchedJobs worker [] }

/-- Runs of any number of worker loops over one job table. -/
def workers (cfg : WorkerConfig) : Machine World Action where
  start w := w = World.initial
  step := step cfg

end Jobs

end JenticOne
