import JenticOne.Jobs.AtMostOnce

/-!
# One Result a Job

A job that is terminal stays as it is, and it gets one result at most. The first
is in `DbStep` already: every writer of the status column asks whether the job is
still held, still running or still active, and a claim takes no terminal row.

The second does not follow from the unique key of `job_results`, since the sweep
of expired results removes rows. It follows from when a result is written: by the
transaction that makes its job terminal, and by no other. So the results are
counted in a ledger that the sweep does not touch.

## Main definitions

* `sweepResults`: The removal of expired results.
* `NewResults`: What a transaction's new results are of.
* `Ledger`, `ledger`: The runs of the workers, with the sweep and the results that
  were ever written.

## Theorems

* `newResults_step`: A step writes results of jobs that were not terminal.
* `terminal_runActions`: No run changes the status of a terminal job.
* `terminal_with_one_result`: Terminal jobs stay terminal with one result.
-/

namespace JenticOne

namespace Jobs

/-- `DELETE FROM job_results WHERE available_until < now()`. -/
def sweepResults (db : AdminDb) (now : Time) : AdminDb :=
  { db with jobResults := db.jobResults.deleteWhere (fun x => x.availableUntil.any (· < now)) }

/-- The results that are new are of jobs that were not terminal. -/
def NewResults (db db' : AdminDb) : Prop :=
  ∀ x ∈ db'.jobResults, x ∈ db.jobResults ∨
    ∃ r, db.getJob x.jobId = some r ∧ r.status.isTerminal = false

theorem newResults_of_eq {db db' : AdminDb} (h : db'.jobResults = db.jobResults) :
    NewResults db db' := by
  intro x hx
  rw [h] at hx
  exact .inl hx

/-- A result that is written after a change of the jobs. -/
theorem newResults_addResult (db : AdminDb) {db₁ db₂ : AdminDb} {x : JobResult} {r : Job}
    (h : db₁.addResult x = some db₂) (hsame : db₁.jobResults = db.jobResults)
    (hr : db.getJob x.jobId = some r) (hlive : r.status.isTerminal = false) :
    NewResults db db₂ := by
  unfold AdminDb.addResult at h
  rw [Option.map_eq_some_iff] at h
  rcases h with ⟨rows, hrows, hdb⟩
  intro y hy
  rw [← hdb] at hy
  rcases (Table.mem_insert hrows).mp hy with hold | hnew
  · rw [hsame] at hold
    exact .inl hold
  · rw [hnew]
    exact .inr ⟨r, hr, hlive⟩

theorem newResults_apply {db db' : AdminDb} (h : NewResults db db') (c : Commit) :
    NewResults db (c.apply db db') := by
  unfold Commit.apply
  cases c with
  | acked => exact h
  | rolledBack => exact newResults_of_eq rfl
  | unknown landed =>
      cases landed with
      | true => exact h
      | false => exact newResults_of_eq rfl

/-! ## The transactions that write a result -/

theorem newResults_failHeldJob {db db' : AdminDb} {j error : String} {problem : Problem}
    (h : failHeldJob db j problem error = some db') : NewResults db db' := by
  unfold failHeldJob at h
  split at h
  · rename_i r hr
    split at h
    · rename_i hheld
      exact newResults_addResult db h rfl hr (by rw [hheld]; rfl)
    · rw [Option.some.injEq] at h
      rw [← h]
      exact newResults_of_eq rfl
  · rw [Option.some.injEq] at h
    rw [← h]
    exact newResults_of_eq rfl

/-- Failing a held job adds no job. -/
theorem getJob_failHeldJob {db db' : AdminDb} {j error : String} {problem : Problem}
    (h : failHeldJob db j problem error = some db') {k : String} {r' : Job}
    (hr' : db'.getJob k = some r') : ∃ r, db.getJob k = some r := by
  unfold failHeldJob at h
  split at h
  · split at h
    · rw [getJob_addResult h, getJob_updateJobs, Option.map_eq_some_iff] at hr'
      rcases hr' with ⟨r, hr, -⟩
      exact ⟨r, hr⟩
    · rw [Option.some.injEq] at h
      rw [← h] at hr'
      exact ⟨r', hr'⟩
  · rw [Option.some.injEq] at h
    rw [← h] at hr'
    exact ⟨r', hr'⟩

theorem newResults_failExpired (cfg : WorkerConfig) {holds : List HeldExecution}
    {db db' : AdminDb} (h : failExpired db holds = some db') : NewResults db db' := by
  induction holds generalizing db with
  | nil =>
      simp only [failExpired, Option.some.injEq] at h
      rw [← h]
      exact newResults_of_eq rfl
  | cons hold rest ih =>
      simp only [failExpired, Option.bind_eq_some_iff] at h
      rcases h with ⟨db₁, hfirst, hrest⟩
      intro x hx
      rcases ih hrest x hx with hold | ⟨r₁, hr₁, hlive⟩
      · exact newResults_failHeldJob hfirst x hold
      · -- A job that is live after the first one was failed was live before.
        rcases getJob_failHeldJob hfirst hr₁ with ⟨r, hr⟩
        refine .inr ⟨r, hr, ?_⟩
        have hstep : DbStep cfg db db₁ := dbStep_failHeldJob hfirst
        rcases hstep.keeps x.jobId r hr with ⟨s, hs, hrow⟩
        rw [hr₁, Option.some.injEq] at hs
        rw [← hs] at hrow
        by_contra hterm
        rw [Bool.not_eq_false] at hterm
        rw [hrow.terminal hterm, hterm] at hlive
        exact Bool.false_ne_true hlive.symm

theorem newResults_expireLapsedApprovals (cfg : WorkerConfig) {db db' : AdminDb} {now : Time}
    (h : expireLapsedApprovals db now = some db') : NewResults db db' := by
  unfold expireLapsedApprovals at h
  have hfail := newResults_failExpired cfg h
  exact hfail

theorem jobResults_settleHold {db db' : AdminDb} {approvalId decidedBy : String}
    {p : HeldExecution → Bool} {newState : HeldExecutionState} {now : Time} {hold : HeldExecution}
    (h : settleHold db approvalId p newState decidedBy now = some (hold, db')) :
    db'.jobResults = db.jobResults ∧ ∀ j, db'.getJob j = db.getJob j := by
  unfold settleHold at h
  split at h
  · split at h
    · rw [Option.some.injEq, Prod.mk.injEq] at h
      rw [← h.2]
      exact ⟨rfl, fun _ => rfl⟩
    · exact absurd h (by simp only [reduceCtorEq, not_false_eq_true])
  · exact absurd h (by simp only [reduceCtorEq, not_false_eq_true])

theorem jobResults_transition {db db' : AdminDb} {j : String} {fromStatus toStatus : JobStatus}
    (h : transition db j fromStatus toStatus = some db') : db'.jobResults = db.jobResults := by
  unfold transition at h
  split at h
  · split at h
    · rw [Option.some.injEq] at h
      rw [← h]
      rfl
    · exact absurd h (by simp only [reduceCtorEq, not_false_eq_true])
  · exact absurd h (by simp only [reduceCtorEq, not_false_eq_true])

theorem newResults_decideHold {db db' : AdminDb} {approvalId reviewer : String} {approve : Bool}
    {reason : Option String} {now : Time}
    (h : decideHold db approvalId approve reviewer reason now = some db') : NewResults db db' := by
  unfold decideHold at h
  rw [Option.bind_eq_some_iff] at h
  rcases h with ⟨⟨hold, db₁⟩, hsettle, h⟩
  rw [Option.bind_eq_some_iff] at h
  rcases h with ⟨db₂, hmove, h⟩
  have hholds := jobResults_settleHold hsettle
  have hmoved := jobResults_transition hmove
  split at h
  · rw [Option.some.injEq] at h
    rw [← h]
    exact newResults_of_eq (hmoved.trans hholds.1)
  · rcases getJob_transition hmove with ⟨r, hr, hheld, -⟩
    rw [hholds.2] at hr
    exact newResults_addResult db h (hmoved.trans hholds.1) hr (by rw [hheld]; rfl)

theorem newResults_refuse {cfg : WorkerConfig} {db db' : AdminDb} {mem : List String} {job : Job}
    {now : Time} (h : refuseApprovedReclaim cfg db mem job now = .refused db') :
    NewResults db db' := by
  unfold refuseApprovedReclaim at h
  split at h
  · split at h
    · exact absurd h (by simp only [reduceCtorEq, not_false_eq_true])
    · rename_i r hr
      split at h
      · rename_i hclaim
        rw [claimHolds_some] at hclaim
        split at h
        · dsimp only at h
          split at h
          · rename_i db₁ hadd
            simp only [ReclaimCheck.refused.injEq] at h
            rw [← h]
            exact newResults_addResult db hadd rfl hr (by rw [hclaim.1]; rfl)
          · exact absurd h (by simp only [reduceCtorEq, not_false_eq_true])
        · split at h
          · simp only [ReclaimCheck.refused.injEq] at h
            rw [← h]
            exact newResults_of_eq rfl
          · exact absurd h (by simp only [reduceCtorEq, not_false_eq_true])
      · exact absurd h (by simp only [reduceCtorEq, not_false_eq_true])
  · exact absurd h (by simp only [reduceCtorEq, not_false_eq_true])

theorem jobResults_fileHold {db db' : AdminDb} {f : HoldFiling} {now : Time}
    (h : fileHold db f now = some db') : db'.jobResults = db.jobResults := by
  unfold fileHold at h
  split at h
  · rw [Option.some.injEq] at h
    rw [← h]
  · split at h
    · exact absurd h (by simp only [reduceCtorEq, not_false_eq_true])
    · rw [Option.bind_eq_some_iff] at h
      rcases h with ⟨jobs, -, h⟩
      rw [Option.map_eq_some_iff] at h
      rcases h with ⟨holds, -, rfl⟩
      rfl

theorem jobResults_withdraw {db db' : AdminDb} {approvalId filer : String} {now : Time}
    (h : withdraw db approvalId filer now = some db') : db'.jobResults = db.jobResults := by
  unfold withdraw at h
  rw [Option.bind_eq_some_iff] at h
  rcases h with ⟨⟨hold, db₁⟩, hsettle, hmove⟩
  exact (jobResults_transition hmove).trans (jobResults_settleHold hsettle).1

theorem jobResults_cancel {db db' : AdminDb} {j : String} (h : cancel db j = some db') :
    db'.jobResults = db.jobResults := by
  unfold cancel at h
  split at h
  · split at h
    · exact absurd h (by simp only [reduceCtorEq, not_false_eq_true])
    · rw [Option.some.injEq] at h
      rw [← h]
      rfl
  · exact absurd h (by simp only [reduceCtorEq, not_false_eq_true])

theorem jobResults_linkExecution (db : AdminDb) (approved : Bool) (j : String)
    (body : ResultBody) : (linkExecution db approved j body).jobResults = db.jobResults := by
  unfold linkExecution
  split
  · split <;> rfl
  · rfl

theorem jobResults_emitEvent (db : AdminDb) (emitted : Bool) (event : Event) :
    (emitEvent db emitted event).jobResults = db.jobResults := by
  unfold emitEvent
  split <;> rfl

theorem newResults_completeJob {cfg : WorkerConfig} {db db' : AdminDb} {j : String}
    {kind : JobKind} {result : JobResultPayload} {now : Time} {emitted : Bool}
    (h : completeJob cfg db j kind result now emitted = some db') : NewResults db db' := by
  unfold completeJob at h
  split at h
  · rw [Option.some.injEq] at h
    rw [← h]
    exact newResults_of_eq rfl
  · rename_i r hr
    split at h
    · rw [Option.some.injEq] at h
      rw [← h]
      exact newResults_of_eq rfl
    · rename_i hrun
      rw [not_not] at hrun
      dsimp only at h
      rw [Option.map_eq_some_iff] at h
      rcases h with ⟨db₁, hadd, hdb⟩
      intro x hx
      rw [← hdb] at hx
      change x ∈ (emitEvent db₁ _ _).jobResults at hx
      rw [jobResults_emitEvent] at hx
      exact newResults_addResult db hadd (jobResults_linkExecution _ _ _ _) hr
        (by rw [hrun]; rfl) x hx

theorem jobResults_terminalJob (db : AdminDb) (j : String) (status : JobStatus) (error : String)
    (claimAttempts : Option Nat) (eventType : EventType) (now : Time) (emitted : Bool) :
    (terminalJob db j status error claimAttempts eventType now emitted).jobResults =
      db.jobResults := by
  unfold terminalJob
  split
  · rfl
  · split
    · exact jobResults_emitEvent _ _ _
    · rfl

theorem jobResults_handleFailure (cfg : WorkerConfig) (db : AdminDb) (job : Job)
    (approved : Bool) (error : String) (now : Time) (emitted : Bool) :
    (handleFailure cfg db job approved error now emitted).jobResults = db.jobResults := by
  unfold handleFailure
  split
  · exact jobResults_terminalJob _ _ _ _ _ _ _ _
  · split
    · exact jobResults_terminalJob _ _ _ _ _ _ _ _
    · rfl

/-! ## The steps of a run -/

section Steps

variable {cfg : WorkerConfig} {w w' : World} {a : Action}

theorem newResults_stepComplete {i : Nat} {t : Task} {result : JobResultPayload} {attempt : Nat}
    {now : Time} {emitted : Bool} {commit : Commit} :
    NewResults w.db (stepComplete cfg w i t result attempt now emitted commit).db := by
  unfold stepComplete
  split
  · exact newResults_of_eq rfl
  · next hdb =>
      have hnew := newResults_apply (newResults_completeJob hdb) commit
      dsimp only
      split <;> exact hnew

/-- A step writes results of jobs that were not terminal. -/
theorem newResults_step (h : step cfg w a = some w') : NewResults w.db w'.db := by
  cases a with
  | enqueue job =>
      simp only [step, enqueueJob, Option.map_eq_some_iff] at h
      rcases h with ⟨db, ⟨jobs, -, rfl⟩, rfl⟩
      exact newResults_of_eq rfl
  | fileHold filing now =>
      simp only [step, Option.map_eq_some_iff] at h
      rcases h with ⟨db, hdb, rfl⟩
      exact newResults_of_eq (jobResults_fileHold hdb)
  | decideHold approvalId approve reviewer reason now =>
      simp only [step, Option.map_eq_some_iff] at h
      rcases h with ⟨db, hdb, rfl⟩
      exact newResults_decideHold hdb
  | withdraw approvalId filer now =>
      simp only [step, Option.map_eq_some_iff] at h
      rcases h with ⟨db, hdb, rfl⟩
      exact newResults_of_eq (jobResults_withdraw hdb)
  | withdrawPendingForAgent agentId actorId now =>
      simp only [step, Option.some.injEq] at h
      rw [← h]
      exact newResults_of_eq rfl
  | expireLapsedApprovals now =>
      simp only [step, Option.map_eq_some_iff] at h
      rcases h with ⟨db, hdb, rfl⟩
      exact newResults_expireLapsedApprovals cfg hdb
  | cancel jobId =>
      simp only [step, Option.map_eq_some_iff] at h
      rcases h with ⟨db, hdb, rfl⟩
      exact newResults_of_eq (jobResults_cancel hdb)
  | cancelActiveForActor actorId =>
      simp only [step, Option.some.injEq] at h
      rw [← h]
      exact newResults_of_eq rfl
  | cancelQueuedExecutionsForActor actorId =>
      simp only [step, Option.some.injEq] at h
      rw [← h]
      exact newResults_of_eq rfl
  | writeEvent event =>
      simp only [step, Option.some.injEq] at h
      rw [← h]
      exact newResults_of_eq rfl
  | writeExecutionRecord executionId =>
      simp only [step, Option.some.injEq] at h
      rw [← h]
      exact newResults_of_eq rfl
  | claim worker now locked commit =>
      simp only [step, stepClaim, Option.map_eq_some_iff] at h
      rcases h with ⟨⟨job, db⟩, hclaim, rfl⟩
      rcases claimNext_spec hclaim with ⟨-, -, -, -, -, -, -, hresults⟩
      exact newResults_apply (newResults_of_eq hresults) commit
  | checkReclaim i now commit =>
      rcases task_of_some h with ⟨t, -, h⟩
      rw [Option.ite_none_right_eq_some, Option.some.injEq] at h
      rw [← h.2]
      unfold stepCheckReclaim
      split
      · exact newResults_of_eq rfl
      · exact newResults_of_eq rfl
      · next hrefused => exact newResults_apply (newResults_refuse hrefused) commit
      · exact newResults_of_eq rfl
  | startHandler i =>
      rcases task_of_some h with ⟨t, -, h⟩
      rw [Option.ite_none_right_eq_some, Option.some.injEq] at h
      rw [← h.2]
      unfold stepStartHandler
      split <;> exact newResults_of_eq rfl
  | handlerReturns i result =>
      rcases task_of_some h with ⟨t, -, h⟩
      dsimp only at h
      rw [Option.ite_none_right_eq_some, Option.some.injEq] at h
      rw [← h.2]
      split <;> exact newResults_of_eq rfl
  | handlerRaises i error =>
      rcases task_of_some h with ⟨t, -, h⟩
      rw [Option.ite_none_right_eq_some, Option.some.injEq] at h
      rw [← h.2]
      exact newResults_of_eq rfl
  | complete i now emitted commit =>
      rcases task_of_some h with ⟨t, -, h⟩
      split at h
      · rw [Option.some.injEq] at h
        rw [← h]
        exact newResults_stepComplete
      · exact absurd h (by simp only [reduceCtorEq, not_false_eq_true])
  | markDispatched i commit =>
      rcases task_of_some h with ⟨t, -, h⟩
      split at h
      · rw [Option.some.injEq] at h
        rw [← h]
        unfold stepMarkDispatched
        dsimp only
        split
        · exact newResults_of_eq rfl
        · have hmark : NewResults w.db (markDispatched w.db t.job) := newResults_of_eq rfl
          exact newResults_apply hmark commit
      · exact absurd h (by simp only [reduceCtorEq, not_false_eq_true])
  | checkApproved i readable =>
      rcases task_of_some h with ⟨t, -, h⟩
      split at h
      · split at h
        · rw [Option.some.injEq] at h
          rw [← h]
          exact newResults_of_eq rfl
        · rw [Option.some.injEq] at h
          rw [← h]
          exact newResults_of_eq rfl
      · exact absurd h (by simp only [reduceCtorEq, not_false_eq_true])
  | settleFailure i now emitted commit =>
      rcases task_of_some h with ⟨t, -, h⟩
      dsimp only at h
      split at h
      · rw [Option.some.injEq] at h
        rw [← h]
        exact newResults_apply (newResults_of_eq (jobResults_handleFailure _ _ _ _ _ _ _)) commit
      · rw [Option.some.injEq] at h
        rw [← h]
        exact newResults_apply (newResults_of_eq (jobResults_terminalJob _ _ _ _ _ _ _ _)) commit
      · rw [Option.some.injEq] at h
        rw [← h]
        exact newResults_apply (newResults_of_eq (jobResults_terminalJob _ _ _ _ _ _ _ _)) commit
      · exact absurd h (by simp only [reduceCtorEq, not_false_eq_true])
  | crash worker =>
      simp only [step, Option.some.injEq] at h
      rw [← h]
      exact newResults_of_eq rfl

/-- A step changes the status of no terminal job. -/
theorem terminal_step (inv : RunInv cfg w) (h : step cfg w a = some w') {j : String} {r : Job}
    (hr : w.db.getJob j = some r) (hterm : r.status.isTerminal) :
    ∃ r', w'.db.getJob j = some r' ∧ r'.status = r.status := by
  cases worldStep inv.held (fun t ht => (inv.handled t ht).2) h with
  | quiet hdb =>
      rcases hdb.keeps j r hr with ⟨r', hr', hrow⟩
      exact ⟨r', hr', hrow.terminal hterm⟩
  | claimed worker now locked job hclaim =>
      rcases claimNext_spec hclaim with ⟨x, hx, hclaimable, -, -, hget, -⟩
      refine ⟨r, ?_, rfl⟩
      rw [hget, if_neg ?_]
      · exact hr
      · -- The row that is claimed is queued or running.
        intro hid
        have hsame : w.db.getJob j = some x := (Table.get_eq_some_iff _ _ _).mpr ⟨hx, hid⟩
        rw [hr, Option.some.injEq] at hsame
        rw [hsame] at hterm
        rcases claimable_status hclaimable with hst | hst
        · rw [hst] at hterm
          exact Bool.false_ne_true hterm
        · rw [hst] at hterm
          exact Bool.false_ne_true hterm
  | started i t _ _ _ hdb =>
      rw [hdb]
      exact ⟨r, hr, rfl⟩

/-- A new result is of a job that the same step makes terminal. -/
theorem terminal_of_newResult (inv : RunInv cfg w) (h : step cfg w a = some w') {x : JobResult}
    (hx : x ∈ w'.db.jobResults) (hnew : x ∉ w.db.jobResults) :
    (∃ r, w.db.getJob x.jobId = some r ∧ r.status.isTerminal = false) ∧
      ∃ r', w'.db.getJob x.jobId = some r' ∧ r'.status.isTerminal := by
  refine ⟨?_, (runInv_step inv h).results x hx⟩
  rcases newResults_step h x hx with hold | hlive
  · exact absurd hold hnew
  · exact hlive

end Steps

/-! ## The ledger -/

/-- A run's state, with the results that were ever written, latest first. -/
structure Ledger where
  world : World
  written : List JobResult

def Ledger.initial : Ledger := ⟨World.initial, []⟩

inductive LedgerAction
  | act (a : Action)
  | sweepResults (now : Time)
deriving DecidableEq, Repr

/-- The results a transaction has written. -/
def addedResults (db db' : AdminDb) : List JobResult :=
  db'.jobResults.rows.filter (fun x => x ∉ db.jobResults.rows)

def ledgerStep (cfg : WorkerConfig) (l : Ledger) : LedgerAction → Option Ledger
  | .act a => (step cfg l.world a).map fun w => ⟨w, addedResults l.world.db w.db ++ l.written⟩
  | .sweepResults now => some { l with world := l.world.withDb (sweepResults l.world.db now) }

/-- Runs of any number of worker loops, with the sweep of expired results. -/
def ledger (cfg : WorkerConfig) : Machine Ledger LedgerAction where
  start l := l = Ledger.initial
  step := ledgerStep cfg

/-- The run invariant, and a terminal job and no second result for what was written. -/
structure LedgerInv (cfg : WorkerConfig) (l : Ledger) : Prop where
  run : RunInv cfg l.world
  written : ∀ x ∈ l.written, ∃ r, l.world.db.getJob x.jobId = some r ∧ r.status.isTerminal
  once : (l.written.map JobResult.jobId).Nodup

section Ledger

variable {cfg : WorkerConfig} {l l' : Ledger} {a : LedgerAction}

theorem mem_addedResults {db db' : AdminDb} {x : JobResult} :
    x ∈ addedResults db db' ↔ x ∈ db'.jobResults ∧ x ∉ db.jobResults := by
  rw [addedResults, List.mem_filter, decide_eq_true_eq]
  exact Iff.rfl

/-- Removing results leaves everything but the results alone. -/
theorem runInv_sweepResults {w : World} (inv : RunInv cfg w) (now : Time) :
    RunInv cfg (w.withDb (sweepResults w.db now)) where
  held := inv.held
  queued := inv.queued
  results x hx := inv.results x (List.mem_filter.mp hx).1
  handled := inv.handled
  rows := inv.rows
  claims := inv.claims
  starts := inv.starts
  startsClaims := inv.startsClaims
  waiting := inv.waiting
  approved := inv.approved

/-- An action changes the status of no terminal job. -/
theorem terminal_ledgerStep (inv : LedgerInv cfg l) (h : ledgerStep cfg l a = some l')
    {j : String} {r : Job} (hr : l.world.db.getJob j = some r) (hterm : r.status.isTerminal) :
    ∃ r', l'.world.db.getJob j = some r' ∧ r'.status = r.status := by
  cases a with
  | act a =>
      rw [ledgerStep, Option.map_eq_some_iff] at h
      rcases h with ⟨w, hstep, hl⟩
      rw [← hl]
      exact terminal_step inv.run hstep hr hterm
  | sweepResults now =>
      rw [ledgerStep, Option.some.injEq] at h
      rw [← h]
      exact ⟨r, hr, rfl⟩

theorem ledgerInv_step (inv : LedgerInv cfg l) (h : ledgerStep cfg l a = some l') :
    LedgerInv cfg l' := by
  have hold : ∀ x ∈ l.written, ∃ r, l'.world.db.getJob x.jobId = some r ∧
      r.status.isTerminal := by
    intro x hx
    rcases inv.written x hx with ⟨r, hr, hterm⟩
    rcases terminal_ledgerStep inv h hr hterm with ⟨r', hr', hstatus⟩
    exact ⟨r', hr', by rw [hstatus]; exact hterm⟩
  cases a with
  | sweepResults now =>
      rw [ledgerStep, Option.some.injEq] at h
      rw [← h] at hold ⊢
      exact ⟨runInv_sweepResults inv.run now, hold, inv.once⟩
  | act a =>
      rw [ledgerStep, Option.map_eq_some_iff] at h
      rcases h with ⟨w, hstep, hl⟩
      rw [← hl] at hold ⊢
      have hrun := runInv_step inv.run hstep
      refine ⟨hrun, fun x hx => ?_, ?_⟩
      · rcases List.mem_append.mp hx with hnew | hx
        · exact hrun.results x (mem_addedResults.mp hnew).1
        · exact hold x hx
      · change ((addedResults l.world.db w.db ++ l.written).map JobResult.jobId).Nodup
        rw [List.map_append, List.nodup_append]
        refine ⟨w.db.jobResults.nodup.sublist (List.filter_sublist.map _), inv.once, ?_⟩
        -- A job with a result was terminal, and one that gets a result was not.
        intro j hj k hk hjk
        rcases List.mem_map.mp hj with ⟨x, hx, hxj⟩
        rcases List.mem_map.mp hk with ⟨y, hy, hyk⟩
        rw [mem_addedResults] at hx
        rcases (terminal_of_newResult inv.run hstep hx.1 hx.2).1 with ⟨r, hr, hlive⟩
        rcases inv.written y hy with ⟨r', hr', hterm⟩
        rw [hyk, ← hjk, ← hxj, hr, Option.some.injEq] at hr'
        rw [← hr', hlive] at hterm
        exact Bool.false_ne_true hterm

theorem ledgerInv_of_reachable (h : (ledger cfg).Reachable l) : LedgerInv cfg l := by
  refine Machine.reachable_invariant (fun l hl => ?_)
    (fun l a l' inv (hs : ledgerStep cfg l a = some l') => ledgerInv_step inv hs) h
  rw [show l = Ledger.initial from hl]
  exact ⟨runInv_initial cfg, fun x hx => absurd hx List.not_mem_nil, List.nodup_nil⟩

/-- No run changes the status of a terminal job. -/
theorem terminal_runActions (inv : LedgerInv cfg l) {acts : List LedgerAction}
    (h : (ledger cfg).runActions l acts = some l') {j : String} {r : Job}
    (hr : l.world.db.getJob j = some r) (hterm : r.status.isTerminal) :
    ∃ r', l'.world.db.getJob j = some r' ∧ r'.status = r.status := by
  have hkept : LedgerInv cfg l' ∧ ∃ r', l'.world.db.getJob j = some r' ∧ r'.status = r.status := by
    refine Machine.runActions_invariant (m := ledger cfg)
      (P := fun l => LedgerInv cfg l ∧ ∃ r', l.world.db.getJob j = some r' ∧
        r'.status = r.status) ?_ ⟨inv, r, hr, rfl⟩ h
    rintro a - s s' ⟨hinv, r₁, hr₁, hstatus₁⟩ hs
    rcases terminal_ledgerStep hinv hs hr₁ (by rw [hstatus₁]; exact hterm) with ⟨r₂, hr₂, hstatus₂⟩
    exact ⟨ledgerInv_step hinv hs, r₂, hr₂, hstatus₂.trans hstatus₁⟩
  exact hkept.2

/-- A job that is terminal keeps its status in every continuation of a run, has one
result written at most, and a result is written by the action that makes its job
terminal. -/
theorem terminal_with_one_result (h : (ledger cfg).Reachable l) :
    (∀ acts l', (ledger cfg).runActions l acts = some l' → ∀ j r,
      l.world.db.getJob j = some r → r.status.isTerminal →
        ∃ r', l'.world.db.getJob j = some r' ∧ r'.status = r.status) ∧
    (l.written.map JobResult.jobId).Nodup ∧
    ∀ a l', (ledger cfg).step l a = some l' → ∀ x ∈ l'.written, x ∉ l.written →
      (∃ r, l.world.db.getJob x.jobId = some r ∧ r.status.isTerminal = false) ∧
        ∃ r', l'.world.db.getJob x.jobId = some r' ∧ r'.status.isTerminal := by
  have inv := ledgerInv_of_reachable h
  refine ⟨fun acts l' hrun j r hr hterm => terminal_runActions inv hrun hr hterm, inv.once, ?_⟩
  intro a l' hs x hx hnew
  change ledgerStep cfg l a = some l' at hs
  cases a with
  | act a =>
      rw [ledgerStep, Option.map_eq_some_iff] at hs
      rcases hs with ⟨w, hstep, hl⟩
      rw [← hl] at hx ⊢
      rcases List.mem_append.mp hx with hadded | hold
      · rw [mem_addedResults] at hadded
        exact terminal_of_newResult inv.run hstep hadded.1 hadded.2
      · exact absurd hold hnew
  | sweepResults now =>
      rw [ledgerStep, Option.some.injEq] at hs
      rw [← hs] at hx
      exact absurd hx hnew

end Ledger

/-- The run of `lateCompletion`, up to the sweep of the result it has written. -/
def sweptCompletion : List LedgerAction :=
  lateCompletion.map .act ++ [.sweepResults 90000]

/-- The job of the overtaken run has ended completed, with the one result the sweep has
removed. -/
theorem terminal_with_one_result_sweptCompletion :
    ∃ l, (ledger exampleConfig).runActions Ledger.initial sweptCompletion = some l ∧
      l.written.map JobResult.jobId = ["job_1"] ∧ l.world.db.jobResults.rows = [] ∧
      ∀ acts l', (ledger exampleConfig).runActions l acts = some l' →
        ∃ r, l'.world.db.getJob "job_1" = some r ∧ r.status = .completed := by
  have hrun : ((ledger exampleConfig).runActions Ledger.initial sweptCompletion).any (fun l =>
      l.written.map JobResult.jobId = ["job_1"] && l.world.db.jobResults.rows = [] &&
      (l.world.db.getJob "job_1").any (fun r => r.status = .completed)) := by
    decide +kernel
  rcases (Option.any_eq_true _ _).mp hrun with ⟨l, hl, hcheck⟩
  simp only [Bool.and_eq_true, Option.any_eq_true, decide_eq_true_eq] at hcheck
  rcases hcheck with ⟨⟨hwritten, hswept⟩, r, hr, hcompleted⟩
  have hreach : (ledger exampleConfig).Reachable l :=
    Machine.reachable_runActions (Machine.ReachesWhen.start _ rfl) hl
  refine ⟨l, hl, hwritten, hswept, fun acts l' hacts => ?_⟩
  rcases (terminal_with_one_result hreach).1 acts l' hacts "job_1" r hr (by rw [hcompleted]; rfl)
    with ⟨r', hr', hstatus⟩
  exact ⟨r', hr', hstatus.trans hcompleted⟩


end Jobs

end JenticOne
