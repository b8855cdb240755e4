import JenticOne.Jobs.Steps

/-!
# What a Run Keeps

One step of the worker machine is of three kinds, and `worldStep` says which:
a claim, a handler start, or a quiet step that moves tasks along and changes
the tables by a `DbStep`. `WorldStep` is the only reading of `step` the
guarantees need; the invariant below is proved from it.

The invariant ties the ghost list of handler starts to the tasks. Every start
carries the claim of one task, a job's attempt counter tells its claims apart,
and a task that has not started its handler yet holds a claim that is not
among the starts. A task past its reclaim check with a second or later claim of
an execution has a job that no approval stands behind, and none can appear,
because the job has been claimed.

## Main definitions

* `Task.claim`: What tells one claim from another.
* `TaskStep`: How a quiet step may change a task.
* `WorldStep`: What one step of a run does.
* `RunInv`: The invariant of runs.

## Theorems

* `worldStep`: Every step is one of the three kinds.
* `runInv_worldStep`: Every step keeps the invariant.
* `runInv_of_reachable`: Every reachable state satisfies it.
-/

namespace JenticOne

namespace Jobs

/-- The claim a task holds: the job and the attempt it was counted as. -/
def Task.claim (t : Task) : String × Nat := (t.job.id, t.job.attempts)

/-- How a quiet step may change a task, in the tables `db` it is taken in. -/
structure TaskStep (cfg : WorkerConfig) (db : AdminDb) (t t' : Task) : Prop where
  worker : t'.worker = t.worker
  claim : t'.claim = t.claim
  kind : t'.job.kind = t.job.kind
  claimed : t'.phase = .claimed → t.phase = .claimed
  admitted : t'.phase = .admitted → t.phase = .admitted ∨
    t.phase = .claimed ∧ (reclaimed t.job → (db.getApprovedByJobId t.job.id).isSome = false)
  noHandler : t'.phase = .failingNoHandler →
    t.phase = .failingNoHandler ∨ t.job.kind ∉ cfg.kinds t.worker

theorem taskStep_refl (cfg : WorkerConfig) (db : AdminDb) (t : Task) : TaskStep cfg db t t :=
  ⟨rfl, rfl, rfl, id, Or.inl, Or.inl⟩

/-- Moving a task to a phase in which its handler is no longer to be started. -/
theorem taskStep_phase {cfg : WorkerConfig} {db : AdminDb} {t : Task} {phase : Phase}
    (hclaimed : phase ≠ .claimed) (hadmitted : phase ≠ .admitted)
    (hno : phase ≠ .failingNoHandler) : TaskStep cfg db t { t with phase := phase } :=
  ⟨rfl, rfl, rfl, fun h => absurd h hclaimed, fun h => absurd h hadmitted, fun h => absurd h hno⟩

theorem taskStep_ended {cfg : WorkerConfig} {db : AdminDb} {t : Task} :
    TaskStep cfg db t { t with phase := .ended } :=
  taskStep_phase (by simp only [ne_eq, reduceCtorEq, not_false_eq_true])
    (by simp only [ne_eq, reduceCtorEq, not_false_eq_true])
    (by simp only [ne_eq, reduceCtorEq, not_false_eq_true])

/-- What one step of a run does: it moves tasks along, claims a row, or starts
    the handler of an admitted task. -/
inductive WorldStep (cfg : WorkerConfig) (w : World) (a : Action) (w' : World) : Prop
  | quiet (db : DbStep cfg w.db w'.db)
      (tasks : List.Forall₂ (TaskStep cfg w.db) w.tasks w'.tasks) (starts : w'.starts = w.starts)
  | claimed (worker : String) (now : Time) (locked : List String) (job : Job)
      (claim : claimNext cfg w.db worker now locked = some (job, w'.db))
      (tasks : w'.tasks = w.tasks ∨ w'.tasks = w.tasks ++ [⟨worker, job, .claimed⟩])
      (starts : w'.starts = w.starts)
  | started (i : Nat) (t : Task) (act : a = .startHandler i) (task : w.tasks[i]? = some t)
      (phase : t.phase = .admitted) (db : w'.db = w.db)
      (tasks : w'.tasks = w.tasks.set i { t with phase := .started })
      (starts : w'.starts = t.claim :: w.starts)

theorem taskSteps_refl (cfg : WorkerConfig) (db : AdminDb) (ts : List Task) :
    List.Forall₂ (TaskStep cfg db) ts ts :=
  List.forall₂_same.mpr (fun t _ => taskStep_refl cfg db t)

theorem taskSteps_set {cfg : WorkerConfig} {db : AdminDb} {ts : List Task} {i : Nat} {t t' : Task}
    (ht : ts[i]? = some t) (hstep : TaskStep cfg db t t') :
    List.Forall₂ (TaskStep cfg db) ts (ts.set i t') := by
  induction ts generalizing i with
  | nil => exact List.Forall₂.nil
  | cons u rest ih =>
      cases i with
      | zero =>
          rw [List.getElem?_cons_zero, Option.some.injEq] at ht
          rw [ht, List.set_cons_zero]
          exact List.Forall₂.cons hstep (taskSteps_refl cfg db rest)
      | succ k =>
          rw [List.getElem?_cons_succ] at ht
          rw [List.set_cons_succ]
          exact List.Forall₂.cons (taskStep_refl cfg db u) (ih ht)

theorem dbStep_apply {cfg : WorkerConfig} {db db' : AdminDb} (h : DbStep cfg db db') (c : Commit) :
    DbStep cfg db (c.apply db db') := by
  unfold Commit.apply
  cases c with
  | acked => exact h
  | rolledBack => exact dbStep_refl cfg db
  | unknown landed =>
      cases landed with
      | true => exact h
      | false => exact dbStep_refl cfg db

/-! ## The steps of a task -/

section TaskSteps

variable {cfg : WorkerConfig} {w : World} {i : Nat} {t : Task}

/-- A surface's transaction moves no task. -/
theorem worldStep_withDb {a : Action} {db : AdminDb} (h : DbStep cfg w.db db) :
    WorldStep cfg w a (w.withDb db) :=
  WorldStep.quiet h (taskSteps_refl cfg w.db w.tasks) rfl

theorem worldStep_setPhase {a : Action} {phase : Phase} (ht : w.tasks[i]? = some t)
    (h : TaskStep cfg w.db t { t with phase := phase }) :
    WorldStep cfg w a (w.setPhase i t phase) :=
  WorldStep.quiet (dbStep_refl cfg w.db) (taskSteps_set ht h) rfl

theorem worldStep_claim {a : Action} {worker : String} {now : Time} {locked : List String}
    {commit : Commit} {w' : World} (h : stepClaim cfg w worker now locked commit = some w') :
    WorldStep cfg w a w' := by
  unfold stepClaim at h
  rw [Option.map_eq_some_iff] at h
  rcases h with ⟨⟨job, db⟩, hclaim, rfl⟩
  cases commit with
  | acked => exact WorldStep.claimed worker now locked job hclaim (Or.inr rfl) rfl
  | rolledBack => exact WorldStep.quiet (dbStep_refl cfg w.db) (taskSteps_refl cfg w.db w.tasks) rfl
  | unknown landed =>
      cases landed with
      | true => exact WorldStep.claimed worker now locked job hclaim (Or.inl rfl) rfl
      | false => exact WorldStep.quiet (dbStep_refl cfg w.db) (taskSteps_refl cfg w.db w.tasks) rfl

/-- The reclaim check admits a later claim of an execution only where no
    approval stands behind the job. -/
theorem refuseApprovedReclaim_admitted {db : AdminDb} {mem : List String} {job : Job} {now : Time}
    (h : refuseApprovedReclaim cfg db mem job now = .admitted) (hre : reclaimed job) :
    (db.getApprovedByJobId job.id).isSome = false := by
  unfold refuseApprovedReclaim at h
  rw [if_pos hre] at h
  split at h
  · exact absurd h (by simp only [reduceCtorEq, not_false_eq_true])
  · split at h
    · cases happ : db.getApprovedByJobId job.id with
      | none => rfl
      | some approval =>
          rw [happ] at h
          dsimp only at h
          split at h <;> exact absurd h (by simp only [reduceCtorEq, not_false_eq_true])
    · exact absurd h (by simp only [reduceCtorEq, not_false_eq_true])

theorem worldStep_checkReclaim {a : Action} {now : Time} {commit : Commit}
    (ht : w.tasks[i]? = some t) (hphase : t.phase = .claimed) :
    WorldStep cfg w a (stepCheckReclaim cfg w i t now commit) := by
  unfold stepCheckReclaim
  split
  · rename_i hadm
    split
    · exact worldStep_setPhase ht taskStep_ended
    · refine worldStep_setPhase ht ⟨rfl, rfl, rfl, ?_, fun _ => Or.inr ⟨hphase, ?_⟩, ?_⟩
      · exact fun h => absurd h (by simp only [reduceCtorEq, not_false_eq_true])
      · exact refuseApprovedReclaim_admitted hadm
      · exact fun h => absurd h (by simp only [reduceCtorEq, not_false_eq_true])
  · exact WorldStep.quiet (dbStep_refl cfg w.db) (taskSteps_set ht taskStep_ended) rfl
  · rename_i db hrefused
    exact WorldStep.quiet (dbStep_apply (dbStep_refuse hrefused) commit)
      (taskSteps_set ht taskStep_ended) rfl
  · exact WorldStep.quiet (dbStep_refl cfg w.db) (taskSteps_set ht taskStep_ended) rfl

theorem worldStep_startHandler (ht : w.tasks[i]? = some t) (hphase : t.phase = .admitted) :
    WorldStep cfg w (.startHandler i) (stepStartHandler cfg w i t) := by
  unfold stepStartHandler
  split
  · exact WorldStep.started i t rfl ht hphase rfl rfl rfl
  · rename_i hkind
    refine worldStep_setPhase ht ⟨rfl, rfl, rfl, ?_, ?_, fun _ => Or.inr hkind⟩
    · exact fun h => absurd h (by simp only [reduceCtorEq, not_false_eq_true])
    · exact fun h => absurd h (by simp only [reduceCtorEq, not_false_eq_true])

theorem taskStep_afterCompletion {commit : Commit} {result : JobResultPayload} {attempt : Nat} :
    TaskStep cfg w.db t { t with phase := afterCompletion commit result attempt } := by
  refine taskStep_phase ?_ ?_ ?_ <;>
    (unfold afterCompletion; split <;> simp only [ne_eq, reduceCtorEq, not_false_eq_true])

theorem worldStep_complete {a : Action} {result : JobResultPayload} {attempt : Nat} {now : Time}
    {emitted : Bool} {commit : Commit} (ht : w.tasks[i]? = some t) :
    WorldStep cfg w a (stepComplete cfg w i t result attempt now emitted commit) := by
  unfold stepComplete
  split
  · exact worldStep_setPhase ht taskStep_afterCompletion
  · rename_i db hdb
    have hstep : DbStep cfg w.db (commit.apply w.db db) :=
      dbStep_apply (dbStep_completeJob hdb) commit
    dsimp only
    split
    · exact WorldStep.quiet hstep (taskSteps_set ht taskStep_afterCompletion) rfl
    · exact WorldStep.quiet hstep (taskSteps_set ht taskStep_afterCompletion) rfl

theorem worldStep_markDispatched {a : Action} {result : JobResultPayload} {attempt : Nat}
    {last : Bool} {commit : Commit} (ht : w.tasks[i]? = some t) :
    WorldStep cfg w a (stepMarkDispatched w i t result attempt last commit) := by
  unfold stepMarkDispatched
  dsimp only
  generalize hp : (if last = true then Phase.ended else Phase.completing result (attempt + 1))
    = phase
  have hclaimed : phase ≠ .claimed := by
    rw [← hp]; split <;> simp only [ne_eq, reduceCtorEq, not_false_eq_true]
  have hadmitted : phase ≠ .admitted := by
    rw [← hp]; split <;> simp only [ne_eq, reduceCtorEq, not_false_eq_true]
  have hno : phase ≠ .failingNoHandler := by
    rw [← hp]; split <;> simp only [ne_eq, reduceCtorEq, not_false_eq_true]
  split
  · exact worldStep_setPhase ht (taskStep_phase hclaimed hadmitted hno)
  · -- The task's copy of the payload may change with its phase, its claim does not.
    refine WorldStep.quiet (dbStep_apply (dbStep_markDispatched cfg w.db t.job) commit)
      (taskSteps_set ht ⟨rfl, ?_, ?_, fun h => absurd h hclaimed, fun h => absurd h hadmitted,
        fun h => absurd h hno⟩) rfl
    · unfold Task.claim
      split <;> rfl
    · split <;> rfl

theorem worldStep_crash {a : Action} {worker : String} {mem : String → List String} :
    WorldStep cfg w a { w with
      tasks := w.tasks.map (fun t => if t.worker = worker then { t with phase := .ended } else t)
      dispatchedJobs := mem } := by
  refine WorldStep.quiet (dbStep_refl cfg w.db) ?_ rfl
  rw [List.forall₂_map_right_iff, List.forall₂_same]
  intro t _
  split
  · exact taskStep_ended
  · exact taskStep_refl cfg w.db t

end TaskSteps

/-- An action of a task is of one that there is. -/
theorem task_of_some {w w' : World} {i : Nat} {f : Task → Option World}
    (h : (match w.tasks[i]? with | some t => f t | none => none) = some w') :
    ∃ t, w.tasks[i]? = some t ∧ f t = some w' := by
  cases ht : w.tasks[i]? with
  | none =>
      rw [ht] at h
      exact absurd h (by simp only [reduceCtorEq, not_false_eq_true])
  | some t =>
      rw [ht] at h
      exact ⟨t, rfl, h⟩

/-- Every step is a claim, a handler start or a quiet step, in a state where no
    task is at the failure for a kind without a handler. -/
theorem worldStep {cfg : WorkerConfig} {w w' : World} {a : Action} (hheld : HeldFresh w.db)
    (hno : ∀ t ∈ w.tasks, t.phase ≠ .failingNoHandler) (h : step cfg w a = some w') :
    WorldStep cfg w a w' := by
  cases a with
  | enqueue job =>
      simp only [step, Option.map_eq_some_iff] at h
      rcases h with ⟨db, hdb, rfl⟩
      exact worldStep_withDb (dbStep_enqueueJob hdb)
  | fileHold filing now =>
      simp only [step, Option.map_eq_some_iff] at h
      rcases h with ⟨db, hdb, rfl⟩
      exact worldStep_withDb (dbStep_fileHold hdb)
  | decideHold approvalId approve reviewer reason now =>
      simp only [step, Option.map_eq_some_iff] at h
      rcases h with ⟨db, hdb, rfl⟩
      exact worldStep_withDb (dbStep_decideHold hheld hdb)
  | withdraw approvalId filer now =>
      simp only [step, Option.map_eq_some_iff] at h
      rcases h with ⟨db, hdb, rfl⟩
      exact worldStep_withDb (dbStep_withdraw hdb)
  | withdrawPendingForAgent agentId actorId now =>
      simp only [step, Option.some.injEq] at h
      rw [← h]
      exact worldStep_withDb (dbStep_withdrawPendingForAgent cfg w.db agentId actorId now)
  | expireLapsedApprovals now =>
      simp only [step, Option.map_eq_some_iff] at h
      rcases h with ⟨db, hdb, rfl⟩
      exact worldStep_withDb (dbStep_expireLapsedApprovals hdb)
  | cancel jobId =>
      simp only [step, Option.map_eq_some_iff] at h
      rcases h with ⟨db, hdb, rfl⟩
      exact worldStep_withDb (dbStep_cancel hdb)
  | cancelActiveForActor actorId =>
      simp only [step, Option.some.injEq] at h
      rw [← h]
      exact worldStep_withDb (dbStep_cancelActiveForActor cfg w.db actorId)
  | cancelQueuedExecutionsForActor actorId =>
      simp only [step, Option.some.injEq] at h
      rw [← h]
      exact worldStep_withDb (dbStep_cancelQueuedExecutionsForActor cfg w.db actorId)
  | writeEvent event =>
      simp only [step, Option.some.injEq] at h
      rw [← h]
      exact worldStep_withDb (dbStep_congr (dbStep_refl cfg w.db) rfl rfl rfl)
  | writeExecutionRecord executionId =>
      simp only [step, Option.some.injEq] at h
      rw [← h]
      exact worldStep_withDb (dbStep_congr (dbStep_refl cfg w.db) rfl rfl rfl)
  | claim worker now locked commit => exact worldStep_claim h
  | checkReclaim i now commit =>
      rcases task_of_some h with ⟨t, ht, h⟩
      rw [Option.ite_none_right_eq_some, Option.some.injEq] at h
      rw [← h.2]
      exact worldStep_checkReclaim ht h.1
  | startHandler i =>
      rcases task_of_some h with ⟨t, ht, h⟩
      rw [Option.ite_none_right_eq_some, Option.some.injEq] at h
      rw [← h.2]
      exact worldStep_startHandler ht h.1
  | handlerReturns i result =>
      rcases task_of_some h with ⟨t, ht, h⟩
      dsimp only at h
      rw [Option.ite_none_right_eq_some, Option.some.injEq] at h
      have hstep : TaskStep cfg w.db t { t with phase := .completing result 0 } :=
        taskStep_phase (by simp only [ne_eq, reduceCtorEq, not_false_eq_true])
          (by simp only [ne_eq, reduceCtorEq, not_false_eq_true])
          (by simp only [ne_eq, reduceCtorEq, not_false_eq_true])
      rw [← h.2]
      split <;> exact WorldStep.quiet (dbStep_refl cfg w.db) (taskSteps_set ht hstep) rfl
  | handlerRaises i error =>
      rcases task_of_some h with ⟨t, ht, h⟩
      rw [Option.ite_none_right_eq_some, Option.some.injEq] at h
      rw [← h.2]
      refine worldStep_setPhase ht (taskStep_phase ?_ ?_ ?_) <;>
        (split <;> simp only [ne_eq, reduceCtorEq, not_false_eq_true])
  | complete i now emitted commit =>
      rcases task_of_some h with ⟨t, ht, h⟩
      split at h
      · rw [Option.some.injEq] at h
        rw [← h]
        exact worldStep_complete ht
      · exact absurd h (by simp only [reduceCtorEq, not_false_eq_true])
  | markDispatched i commit =>
      rcases task_of_some h with ⟨t, ht, h⟩
      split at h
      · rw [Option.some.injEq] at h
        rw [← h]
        exact worldStep_markDispatched ht
      · exact absurd h (by simp only [reduceCtorEq, not_false_eq_true])
  | checkApproved i readable =>
      rcases task_of_some h with ⟨t, ht, h⟩
      split at h
      · split at h
        · rw [Option.some.injEq] at h
          rw [← h]
          refine worldStep_setPhase ht (taskStep_phase ?_ ?_ ?_) <;>
            simp only [ne_eq, reduceCtorEq, not_false_eq_true]
        · rw [Option.some.injEq] at h
          rw [← h]
          exact worldStep_setPhase ht taskStep_ended
      · exact absurd h (by simp only [reduceCtorEq, not_false_eq_true])
  | settleFailure i now emitted commit =>
      rcases task_of_some h with ⟨t, ht, h⟩
      dsimp only at h
      split at h
      · rw [Option.some.injEq] at h
        rw [← h]
        exact WorldStep.quiet (dbStep_apply (dbStep_handleFailure cfg w.db t.job _ _ now emitted)
          commit) (taskSteps_set ht taskStep_ended) rfl
      · rw [Option.some.injEq] at h
        rw [← h]
        exact WorldStep.quiet (dbStep_apply (dbStep_terminalJob rfl) commit)
          (taskSteps_set ht taskStep_ended) rfl
      · rename_i hphase
        exact absurd hphase (hno t (List.mem_of_getElem? ht))
      · exact absurd h (by simp only [reduceCtorEq, not_false_eq_true])
  | crash worker =>
      simp only [step, Option.some.injEq] at h
      rw [← h]
      exact worldStep_crash

/-! ## The invariant -/

/-- What every state of a run satisfies. -/
structure RunInv (cfg : WorkerConfig) (w : World) : Prop where
  held : HeldFresh w.db
  queued : ∀ j r, w.db.getJob j = some r → r.status = .queued →
    r.attempts = 0 ∨ (r.attempts : Int) < cfg.maxAttempts
  results : ∀ x ∈ w.db.jobResults, ∃ r, w.db.getJob x.jobId = some r ∧ r.status.isTerminal
  handled : ∀ t ∈ w.tasks, t.job.kind ∈ cfg.kinds t.worker ∧ t.phase ≠ .failingNoHandler
  rows : ∀ t ∈ w.tasks, 1 ≤ t.job.attempts ∧
    ∃ r, w.db.getJob t.job.id = some r ∧ r.kind = t.job.kind ∧ t.job.attempts ≤ r.attempts
  claims : (w.tasks.map Task.claim).Nodup
  starts : w.starts.Nodup
  startsClaims : ∀ p ∈ w.starts, p ∈ w.tasks.map Task.claim
  waiting : ∀ t ∈ w.tasks, t.phase = .claimed ∨ t.phase = .admitted → t.claim ∉ w.starts
  approved : ∀ t ∈ w.tasks, reclaimed t.job → t.phase = .admitted ∨ t.claim ∈ w.starts →
    (w.db.getApprovedByJobId t.job.id).isSome = false

theorem runInv_initial (cfg : WorkerConfig) : RunInv cfg World.initial where
  held j r h := absurd h (by simp [World.initial, AdminDb.empty, AdminDb.getJob, Table.get,
    Table.empty])
  queued j r h := absurd h (by simp [World.initial, AdminDb.empty, AdminDb.getJob, Table.get,
    Table.empty])
  results x h := absurd h List.not_mem_nil
  handled t h := absurd h List.not_mem_nil
  rows t h := absurd h List.not_mem_nil
  claims := List.nodup_nil
  starts := List.nodup_nil
  startsClaims p h := absurd h List.not_mem_nil
  waiting t h := absurd h List.not_mem_nil
  approved t h := absurd h List.not_mem_nil

theorem taskSteps_mem {cfg : WorkerConfig} {db : AdminDb} {ts ts' : List Task}
    (h : List.Forall₂ (TaskStep cfg db) ts ts') {t' : Task} (ht' : t' ∈ ts') :
    ∃ t ∈ ts, TaskStep cfg db t t' := by
  induction h with
  | nil => exact absurd ht' List.not_mem_nil
  | cons hstep _ ih =>
      rcases List.mem_cons.mp ht' with rfl | hrest
      · exact ⟨_, List.mem_cons_self, hstep⟩
      · rcases ih hrest with ⟨t, ht, hts⟩
        exact ⟨t, List.mem_cons_of_mem _ ht, hts⟩

theorem taskSteps_claims {cfg : WorkerConfig} {db : AdminDb} {ts ts' : List Task}
    (h : List.Forall₂ (TaskStep cfg db) ts ts') : ts'.map Task.claim = ts.map Task.claim := by
  induction h with
  | nil => rfl
  | cons hstep _ ih => rw [List.map_cons, List.map_cons, hstep.claim, ih]

theorem taskStep_reclaimed {cfg : WorkerConfig} {db : AdminDb} {t t' : Task}
    (h : TaskStep cfg db t t') : reclaimed t'.job = reclaimed t.job := by
  have hatt : t'.job.attempts = t.job.attempts := (Prod.mk.inj h.claim).2
  unfold reclaimed
  rw [h.kind, hatt]

/-- A claimed job that no approval stands behind gets none. -/
theorem notApproved_dbStep {cfg : WorkerConfig} {db db' : AdminDb} {j : String} {r : Job}
    (h : DbStep cfg db db') (hr : db.getJob j = some r) (hclaimed : 1 ≤ r.attempts)
    (hnone : (db.getApprovedByJobId j).isSome = false) :
    (db'.getApprovedByJobId j).isSome = false := by
  rw [Bool.eq_false_iff]
  intro happ
  rcases h.approved j happ with hold | ⟨r', hr', hzero⟩
  · rw [hnone] at hold
    exact absurd hold Bool.false_ne_true
  · rcases h.keeps j r hr with ⟨s, hs, hrow⟩
    rw [hr', Option.some.injEq] at hs
    have hatt := hrow.attempts
    rw [← hs, hzero] at hatt
    omega

theorem runInv_quiet {cfg : WorkerConfig} {w w' : World} (inv : RunInv cfg w)
    (hdb : DbStep cfg w.db w'.db) (htasks : List.Forall₂ (TaskStep cfg w.db) w.tasks w'.tasks)
    (hstarts : w'.starts = w.starts) : RunInv cfg w' where
  held := heldFresh_dbStep hdb inv.held
  queued j r' hr' hq := by
    cases hr : w.db.getJob j with
    | none => exact Or.inl (hdb.fresh j r' hr hr')
    | some r =>
        rcases hdb.keeps j r hr with ⟨s, hs, hrow⟩
        rw [hr', Option.some.injEq] at hs
        subst hs
        rw [hrow.attempts]
        rcases hrow.requeued hq with hold | hheld | hlt
        · exact inv.queued j r hr hold
        · exact Or.inl (inv.held j r hr hheld)
        · exact Or.inr hlt
  results x hx := by
    rcases hdb.results x hx with hold | hnew
    · rcases inv.results x hold with ⟨r, hr, hterm⟩
      rcases hdb.keeps _ r hr with ⟨r', hr', hrow⟩
      exact ⟨r', hr', by rw [hrow.terminal hterm]; exact hterm⟩
    · exact hnew
  handled t' ht' := by
    rcases taskSteps_mem htasks ht' with ⟨t, ht, hts⟩
    rcases inv.handled t ht with ⟨hkind, hno⟩
    rw [hts.kind, hts.worker]
    refine ⟨hkind, fun hc => ?_⟩
    rcases hts.noHandler hc with hold | hnew
    · exact hno hold
    · exact hnew hkind
  rows t' ht' := by
    rcases taskSteps_mem htasks ht' with ⟨t, ht, hts⟩
    rcases inv.rows t ht with ⟨hpos, r, hr, hkind, hle⟩
    rcases hdb.keeps _ r hr with ⟨r', hr', hrow⟩
    have hclaim := Prod.mk.inj hts.claim
    rw [hclaim.1, hclaim.2, hts.kind]
    exact ⟨hpos, r', hr', hrow.kind.trans hkind, by rw [hrow.attempts]; exact hle⟩
  claims := by
    rw [taskSteps_claims htasks]
    exact inv.claims
  starts := by
    rw [hstarts]
    exact inv.starts
  startsClaims := by
    rw [hstarts, taskSteps_claims htasks]
    exact inv.startsClaims
  waiting t' ht' hphase := by
    rcases taskSteps_mem htasks ht' with ⟨t, ht, hts⟩
    rw [hstarts, hts.claim]
    refine inv.waiting t ht ?_
    rcases hphase with hc | ha
    · exact Or.inl (hts.claimed hc)
    · rcases hts.admitted ha with ha' | ⟨hc', _⟩
      · exact Or.inr ha'
      · exact Or.inl hc'
  approved t' ht' hre hphase := by
    rcases taskSteps_mem htasks ht' with ⟨t, ht, hts⟩
    rcases inv.rows t ht with ⟨hpos, r, hr, _, hle⟩
    rw [taskStep_reclaimed hts] at hre
    rw [hstarts, hts.claim] at hphase
    rw [(Prod.mk.inj hts.claim).1]
    refine notApproved_dbStep hdb hr (hpos.trans hle) ?_
    rcases hphase with ha | hs
    · rcases hts.admitted ha with ha' | ⟨_, hcheck⟩
      · exact inv.approved t ht hre (Or.inl ha')
      · exact hcheck hre
    · exact inv.approved t ht hre (Or.inr hs)

/-- A claimable row is queued or running, so it is neither held nor terminal. -/
theorem claimable_status {now : Time} {r : Job} (h : claimable now r = true) :
    r.status = .queued ∨ r.status = .running := by
  unfold claimable at h
  split at h
  · rename_i hst _
    exact Or.inl hst
  · rename_i hst _
    exact Or.inl hst
  · rename_i hst _
    exact Or.inr hst
  · exact absurd h Bool.false_ne_true

/-- The tables right after a claim, before any task is made of it. -/
theorem runInv_claimedRow {cfg : WorkerConfig} {w w' : World} (inv : RunInv cfg w) {worker : String}
    {now : Time} {locked : List String} {job : Job}
    (hclaim : claimNext cfg w.db worker now locked = some (job, w'.db))
    (htasks : w'.tasks = w.tasks) (hstarts : w'.starts = w.starts) : RunInv cfg w' := by
  rcases claimNext_spec hclaim with ⟨r, hin, hok, _, rfl, hget, hholds, hres⟩
  have hr : w.db.getJob r.id = some r := (Table.get_eq_some_iff _ _ _).mpr ⟨hin, rfl⟩
  have happ : ∀ j, w'.db.getApprovedByJobId j = w.db.getApprovedByJobId j := by
    intro j
    unfold AdminDb.getApprovedByJobId
    rw [hholds]
  refine ⟨fun j x hx hst => ?_, fun j x hx hst => ?_, fun x hx => ?_, ?_, fun t ht => ?_, ?_, ?_, ?_,
    ?_, fun t ht hre hphase => ?_⟩
  · rw [hget] at hx
    by_cases hj : r.id = j
    · rw [if_pos hj, Option.some.injEq] at hx
      rw [← hx] at hst
      exact absurd hst (by simp only [reduceCtorEq, not_false_eq_true])
    · rw [if_neg hj] at hx
      exact inv.held j x hx hst
  · rw [hget] at hx
    by_cases hj : r.id = j
    · rw [if_pos hj, Option.some.injEq] at hx
      rw [← hx] at hst
      exact absurd hst (by simp only [reduceCtorEq, not_false_eq_true])
    · rw [if_neg hj] at hx
      exact inv.queued j x hx hst
  · rw [hres] at hx
    rcases inv.results x hx with ⟨y, hy, hterm⟩
    -- A job with a result is terminal, so it is not the one claimed.
    have hne : r.id ≠ x.jobId := by
      intro hc
      rw [← hc, hr, Option.some.injEq] at hy
      rw [← hy] at hterm
      rcases claimable_status hok with hst | hst <;> rw [hst] at hterm <;>
        exact absurd hterm Bool.false_ne_true
    exact ⟨y, by rw [hget, if_neg hne]; exact hy, hterm⟩
  · rw [htasks]
    exact inv.handled
  · rw [htasks] at ht
    rcases inv.rows t ht with ⟨hpos, x, hx, hkind, hle⟩
    refine ⟨hpos, ?_⟩
    rw [hget]
    by_cases hj : r.id = t.job.id
    · rw [if_pos hj]
      rw [← hj, hr, Option.some.injEq] at hx
      subst hx
      exact ⟨_, rfl, hkind, Nat.le_succ_of_le hle⟩
    · rw [if_neg hj]
      exact ⟨x, hx, hkind, hle⟩
  · rw [htasks]
    exact inv.claims
  · rw [hstarts]
    exact inv.starts
  · rw [hstarts, htasks]
    exact inv.startsClaims
  · rw [hstarts, htasks]
    exact inv.waiting
  · rw [htasks] at ht
    rw [hstarts] at hphase
    rw [happ]
    exact inv.approved t ht hre hphase

/-- Making a task of a fresh claim: its attempt is above those of every task
    that held the job before. -/
theorem runInv_newTask {cfg : WorkerConfig} {w : World} (inv : RunInv cfg w) (worker : String)
    (job : Job) (hkind : job.kind ∈ cfg.kinds worker) (hpos : 1 ≤ job.attempts)
    (hrow : w.db.getJob job.id = some job)
    (hfresh : ∀ t ∈ w.tasks, t.job.id = job.id → t.job.attempts < job.attempts) :
    RunInv cfg { w with tasks := w.tasks ++ [⟨worker, job, .claimed⟩] } := by
  have hnew : (job.id, job.attempts) ∉ w.tasks.map Task.claim := by
    intro hmem
    rcases List.mem_map.mp hmem with ⟨t, ht, hclaim⟩
    have hlt := hfresh t ht (Prod.mk.inj hclaim).1
    have heq : t.job.attempts = job.attempts := (Prod.mk.inj hclaim).2
    omega
  have hunstarted : (job.id, job.attempts) ∉ w.starts := fun h => hnew (inv.startsClaims _ h)
  have hcases : ∀ t ∈ w.tasks ++ [⟨worker, job, .claimed⟩], t ∈ w.tasks ∨
      t = ⟨worker, job, .claimed⟩ := fun t ht => by
    rcases List.mem_append.mp ht with h | h
    · exact Or.inl h
    · exact Or.inr (List.mem_singleton.mp h)
  refine ⟨inv.held, inv.queued, inv.results, fun t ht => ?_, fun t ht => ?_, ?_, inv.starts,
    fun p hp => ?_, fun t ht hphase => ?_, fun t ht hre hphase => ?_⟩
  · rcases hcases t ht with hold | rfl
    · exact inv.handled t hold
    · exact ⟨hkind, by simp only [ne_eq, reduceCtorEq, not_false_eq_true]⟩
  · rcases hcases t ht with hold | rfl
    · exact inv.rows t hold
    · exact ⟨hpos, job, hrow, rfl, le_refl _⟩
  · rw [List.map_append, List.nodup_append]
    refine ⟨inv.claims, List.nodup_singleton _, fun a ha b hb => ?_⟩
    rw [List.map_singleton, List.mem_singleton] at hb
    rintro rfl
    rw [hb] at ha
    exact hnew ha
  · rw [List.map_append]
    exact List.mem_append_left _ (inv.startsClaims p hp)
  · rcases hcases t ht with hold | rfl
    · exact inv.waiting t hold hphase
    · exact hunstarted
  · rcases hcases t ht with hold | rfl
    · exact inv.approved t hold hre hphase
    · rcases hphase with ha | hs
      · exact absurd ha (by simp only [reduceCtorEq, not_false_eq_true])
      · exact absurd hs hunstarted

theorem runInv_started {cfg : WorkerConfig} {w w' : World} (inv : RunInv cfg w) {i : Nat} {t : Task}
    (ht : w.tasks[i]? = some t) (hphase : t.phase = .admitted) (hdb : w'.db = w.db)
    (htasks : w'.tasks = w.tasks.set i { t with phase := .started })
    (hstarts : w'.starts = t.claim :: w.starts) : RunInv cfg w' := by
  have hmem : t ∈ w.tasks := List.mem_of_getElem? ht
  have hfree : t.claim ∉ w.starts := inv.waiting t hmem (Or.inr hphase)
  have hsteps : List.Forall₂ (TaskStep cfg w.db) w.tasks w'.tasks := by
    rw [htasks]
    exact taskSteps_set ht (taskStep_phase (by simp only [ne_eq, reduceCtorEq, not_false_eq_true])
      (by simp only [ne_eq, reduceCtorEq, not_false_eq_true])
      (by simp only [ne_eq, reduceCtorEq, not_false_eq_true]))
  have hquiet : RunInv cfg { w' with starts := w.starts } :=
    runInv_quiet inv (by rw [hdb]; exact dbStep_refl cfg w.db) hsteps rfl
  -- Only the new start is left to look at: its task is this one and no other.
  have honly : ∀ u ∈ w'.tasks, u.claim = t.claim → u = { t with phase := .started } := by
    have hnodup : (w'.tasks.map Task.claim).Nodup := hquiet.claims
    have hself : { t with phase := .started } ∈ w'.tasks := by
      rw [htasks]
      exact List.mem_set (List.getElem?_eq_some_iff.mp ht).1 _
    intro u hu hclaim
    exact List.inj_on_of_nodup_map hnodup hu hself hclaim
  refine ⟨hquiet.held, hquiet.queued, hquiet.results, hquiet.handled, hquiet.rows, hquiet.claims,
    ?_, fun p hp => ?_, fun u hu hph hin => ?_, fun u hu hre hph => ?_⟩
  · rw [hstarts]
    exact List.nodup_cons.mpr ⟨hfree, inv.starts⟩
  · rw [hstarts] at hp
    rcases List.mem_cons.mp hp with rfl | hold
    · rw [taskSteps_claims hsteps]
      exact List.mem_map_of_mem hmem
    · exact hquiet.startsClaims p hold
  · rw [hstarts] at hin
    rcases List.mem_cons.mp hin with heq | hold
    · rw [honly u hu heq] at hph
      rcases hph with h | h <;> exact absurd h (by simp only [reduceCtorEq, not_false_eq_true])
    · exact hquiet.waiting u hu hph hold
  · rw [hstarts] at hph
    rcases hph with ha | hin
    · exact hquiet.approved u hu hre (Or.inl ha)
    · rcases List.mem_cons.mp hin with heq | hold
      · have hu' := honly u hu heq
        rw [hu'] at hre ⊢
        rw [hdb]
        exact inv.approved t hmem hre (Or.inl hphase)
      · exact hquiet.approved u hu hre (Or.inr hold)

theorem runInv_worldStep {cfg : WorkerConfig} {w w' : World} {a : Action} (inv : RunInv cfg w)
    (h : WorldStep cfg w a w') : RunInv cfg w' := by
  cases h with
  | quiet hdb htasks hstarts => exact runInv_quiet inv hdb htasks hstarts
  | started i t _ ht hphase hdb htasks hstarts =>
      exact runInv_started inv ht hphase hdb htasks hstarts
  | claimed worker now locked job hclaim htasks hstarts =>
      have hrow : RunInv cfg { w' with tasks := w.tasks } :=
        runInv_claimedRow inv hclaim rfl hstarts
      rcases htasks with hsame | hnew
      · rw [← hsame] at hrow
        exact hrow
      · rcases claimNext_spec hclaim with ⟨r, hin, _, hkind, hjob, hget, _, _⟩
        have hr : w.db.getJob r.id = some r := (Table.get_eq_some_iff _ _ _).mpr ⟨hin, rfl⟩
        have hid : job.id = r.id := by rw [hjob]
        have hatt : job.attempts = r.attempts + 1 := by rw [hjob]
        have hnewTask := runInv_newTask hrow worker job
          (by rw [hjob]; exact hkind) (by omega) (by rw [hid]; exact (hget r.id).trans (if_pos rfl))
          (fun t ht hjid => by
            rcases inv.rows t ht with ⟨_, x, hx, _, hle⟩
            rw [hjid, hid, hr, Option.some.injEq] at hx
            rw [← hx] at hle
            omega)
        have hworld : w' = { w' with tasks := w.tasks ++ [⟨worker, job, .claimed⟩] } := by
          rw [← hnew]
        rw [hworld]
        exact hnewTask

theorem runInv_step {cfg : WorkerConfig} {w w' : World} {a : Action} (inv : RunInv cfg w)
    (h : step cfg w a = some w') : RunInv cfg w' :=
  runInv_worldStep inv (worldStep inv.held (fun t ht => (inv.handled t ht).2) h)

theorem runInv_of_reachable {cfg : WorkerConfig} {w : World}
    (h : (workers cfg).Reachable w) : RunInv cfg w := by
  have hstart : ∀ s, (workers cfg).start s → RunInv cfg s := by
    intro s hs
    rw [show s = World.initial from hs]
    exact runInv_initial cfg
  exact Machine.reachable_invariant hstart (fun _ _ _ inv hs => runInv_step inv hs) h

end Jobs

end JenticOne
