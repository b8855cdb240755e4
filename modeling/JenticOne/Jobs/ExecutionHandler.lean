import JenticOne.Jobs.Runs

/-!
# The Execution Handler

What runs between the start of an execution job's handler and its return, as
far as the upstream and the admin database can see it. The worker machine has
one step for all of that; here the step is opened up, because a crash or a
second claim can fall between any two awaits.

The handler authorizes the run, resolves a credential (which writes a
`credential.accessed` event, where there is a credential path at all), hands the
request to the executor, which sends it once and then writes the execution
record, writes its lifecycle events, and returns. Each write is a transaction of
its own. Before the request is handed over anything may raise; from there on
every failure is swallowed and counted, so that the job is not requeued.

The handler works on the row as claimed, and nothing it does before the send
tells another claim that it is about to send, except the event.

## Main definitions

* `HandlerStage`: What the handler is about to do.
* `HandlerMove`, `handlerMove`: What it does next.
* `DispatchWorld`: The workers, the stage of each task's handler, and the claims
  under which the request was sent.
* `executions`: The runs of the workers with their handlers opened up.
-/

namespace JenticOne

namespace Jobs

/-- What the handlers of a worker loop are wired with, and the `api_vendor` of
    each job's payload. -/
structure HandlerConfig where
  credentialInjector : String → Bool
  apiVendor : String → Option String

/-- Whether the run of a job resolves a credential. -/
def injects (hc : HandlerConfig) (t : Task) : Bool :=
  hc.credentialInjector t.worker && (truthy (hc.apiVendor t.job.id)).isSome

/-- `payload.get("execution_id", f"exec_{job_id}")`. -/
def handlerExecutionId (job : Job) : String :=
  job.payload.executionId.getD ("exec_" ++ job.id)

/-- The id of the record the executor persists: it mints one where it is handed
    an empty one. -/
def recordId (job : Job) (minted : String) : String :=
  if handlerExecutionId job = "" then minted else handlerExecutionId job

/-- `valid_trace_id_or_minted`. -/
def handlerTraceId (job : Job) (minted : String) : String :=
  (job.payload.traceId.filter validTraceId).getD minted

/-- The event of a resolved credential. It names the actor and the trace, and
    neither the job nor the execution. -/
def credentialAccessedEvent (job : Job) (minted : String) (now : Time) : Event :=
  { type := .credentialAccessed, jobId := none, executionId := none,
    traceId := some (handlerTraceId job minted), actorId := some job.createdBy, createdAt := now }

/-- `execution.completed` or `execution.failed`. -/
def lifecycleEvent (job : Job) (minted : String) (now : Time) : Event :=
  { type := .other, jobId := some job.id, executionId := some (handlerExecutionId job),
    traceId := some (handlerTraceId job minted), actorId := some job.createdBy, createdAt := now }

/-- What a run returns. -/
def executionResult (job : Job) (failed : Bool) (contentType : Option String) : JobResultPayload :=
  ⟨.handler (some (if failed then "failed" else "completed")) (some (handlerExecutionId job)),
    contentType⟩

/-- What the handler is about to do: re-authorize, resolve a credential, hand the
    request to the executor, have the record written, write the lifecycle events,
    return, or raise. -/
inductive HandlerStage
  | authorizing
  | injecting
  | dispatching
  | recording (failed : Bool)
  | closing (failed : Bool)
  | returning (failed : Bool)
  | raising
deriving DecidableEq, Repr

/-- The request may still be sent. -/
def HandlerStage.beforeSend : HandlerStage → Bool
  | .authorizing | .injecting | .dispatching => true
  | .recording _ | .closing _ | .returning _ | .raising => false

/-- What the handler does next. A payload that cannot be decrypted is answered
    without a run. `dispatch` says whether the request went out: an open circuit
    or a full bulkhead ends the call with nothing sent. -/
inductive HandlerMove
  | undecryptable
  | deny
  | allow
  | inject (minted : String) (now : Time) (commit : Commit)
  | dispatch (sent failed : Bool)
  | record (minted : String) (landed : Bool)
  | close (minted : String) (now : Time) (landed : Bool)
  | returns (contentType : Option String)
  | raises (error : HandlerError)
deriving DecidableEq, Repr

/-- The workers, the stage of each task's handler, and the claims under which
    the upstream request was sent, latest first. Nothing reads `sends`. -/
structure DispatchWorld where
  world : World
  stages : Nat → HandlerStage
  sends : List (String × Nat)

def DispatchWorld.initial : DispatchWorld := ⟨World.initial, fun _ => .authorizing, []⟩

namespace DispatchWorld

/-- Move the handler of task `i` to another stage. -/
def setStage (d : DispatchWorld) (i : Nat) (stage : HandlerStage) : DispatchWorld :=
  { d with stages := Function.update d.stages i stage }

/-- Replace the tables. -/
def withDb (d : DispatchWorld) (db : AdminDb) : DispatchWorld :=
  { d with world := d.world.withDb db }

end DispatchWorld

/-- `INSERT INTO events`. -/
def addEvent (db : AdminDb) (event : Event) : AdminDb :=
  { db with events := db.events ++ [event] }

/-- `INSERT INTO executions`. -/
def addRecord (db : AdminDb) (executionId : String) : AdminDb :=
  { db with executionRecords := db.executionRecords ++ [executionId] }

/-- One move of the handler of task `i`, which is `t`, or `none` where the
    handler is not at that point. -/
def handlerMove (cfg : WorkerConfig) (hc : HandlerConfig) (d : DispatchWorld) (i : Nat)
    (t : Task) : HandlerMove → Option DispatchWorld
  | .undecryptable =>
      if d.stages i = .authorizing then some (d.setStage i (.returning true)) else none
  | .deny => if d.stages i = .authorizing then some (d.setStage i (.closing true)) else none
  | .allow => if d.stages i = .authorizing then some (d.setStage i .injecting) else none
  | .inject minted now commit =>
      if d.stages i = .injecting then
        if injects hc t then
          -- Unlike the writes after the call, this one raises.
          some ((d.withDb (commit.apply d.world.db (addEvent d.world.db
              (credentialAccessedEvent t.job minted now)))).setStage i
            (if commit = .acked then .dispatching else .raising))
        else some (d.setStage i .dispatching)
      else none
  | .dispatch sent failed =>
      if d.stages i = .dispatching then
        let d' := d.setStage i (.recording failed)
        some (if sent then { d' with sends := t.claim :: d.sends } else d')
      else none
  | .record minted landed =>
      match d.stages i with
      | .recording failed =>
          let db := if landed then addRecord d.world.db (recordId t.job minted) else d.world.db
          some ((d.withDb db).setStage i (.closing failed))
      | _ => none
  | .close minted now landed =>
      match d.stages i with
      | .closing failed =>
          let db := if landed then addEvent d.world.db (lifecycleEvent t.job minted now)
            else d.world.db
          some ((d.withDb db).setStage i (.returning failed))
      | _ => none
  | .returns contentType =>
      match d.stages i with
      | .returning failed =>
          (step cfg d.world (.handlerReturns i (executionResult t.job failed contentType))).map
            fun w => { d with world := w }
      | _ => none
  | .raises error =>
      if (d.stages i).beforeSend ∨ d.stages i = .raising then
        (step cfg d.world (.handlerRaises i error)).map fun w => { d with world := w }
      else none

/-- An action of the workers, or a move of the handler of a task. -/
inductive DispatchAction
  | world (a : Action)
  | handler (task : Nat) (move : HandlerMove)
deriving DecidableEq, Repr

/-- The end of an execution's handler, which is the handler's own move. -/
def endsExecution (w : World) : Action → Bool
  | .handlerReturns i _ | .handlerRaises i _ =>
      (w.tasks[i]?).any (fun t => t.job.kind = .execution)
  | _ => false

/-- A handler starts with the authorization of its run. -/
def stagesAfter (stages : Nat → HandlerStage) : Action → Nat → HandlerStage
  | .startHandler i => Function.update stages i .authorizing
  | _ => stages

def dispatchStep (cfg : WorkerConfig) (hc : HandlerConfig) (d : DispatchWorld) :
    DispatchAction → Option DispatchWorld
  | .world a =>
      if endsExecution d.world a then none
      else (step cfg d.world a).map fun w =>
        { d with world := w, stages := stagesAfter d.stages a }
  | .handler i move =>
      match d.world.tasks[i]? with
      | some t =>
          if t.phase = .started ∧ t.job.kind = .execution then handlerMove cfg hc d i t move
          else none
      | none => none

/-- Runs of any number of worker loops with their execution handlers. -/
def executions (cfg : WorkerConfig) (hc : HandlerConfig) :
    Machine DispatchWorld DispatchAction where
  start d := d = DispatchWorld.initial
  step := dispatchStep cfg hc

end Jobs

end JenticOne
