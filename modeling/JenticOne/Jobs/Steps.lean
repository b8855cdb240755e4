import JenticOne.Jobs.Worker

/-!
# What One Transaction Does to a Job

Every transaction but a claim leaves a job row's kind and attempt count alone,
and moves its status in only a few ways. `DbStep` says all of it at once, so
that an invariant of runs is proved from this one statement and never from the
bodies of the twenty transactions.

The three clauses that carry weight are `approved`, `requeued` and `results`.
An approval appears only on a job no claim has touched, because deciding a
hold demands that the job is still held. A job becomes queued again only from
`held` or with retry budget left. A result row is written only for a job that
is terminal after the same transaction.

`DbStep` is transitive, so a transaction built from smaller updates is handled
one update at a time. Claims are the exception to all of it and are treated on
their own by `claimNext_spec`.

## Main definitions

* `JobStatus.isTerminal`: The statuses a job never leaves.
* `RowStep`: How one row may change outside a claim.
* `DbStep`: How the tables may change outside a claim.
* `HeldFresh`: A held job has never been claimed.

## Theorems

* `dbStep_trans`: Two such changes in a row are such a change.
* `dbStep_updateJobs`: An update of rows that each make a `RowStep`.
* `dbStep_terminalJob`, `dbStep_completeJob`, `dbStep_handleFailure`,
  `dbStep_refuse`: The transactions of a task.
* `dbStep_decideHold`: Deciding a hold.
* `claimNext_spec`: What a claim does.
-/

namespace JenticOne

namespace Jobs

/-- The statuses that end a job. -/
def JobStatus.isTerminal : JobStatus → Bool
  | .completed | .failed | .cancelled | .deadLetter => true
  | .queued | .running | .held => false

/-- A held job has never been claimed. -/
def HeldFresh (db : AdminDb) : Prop :=
  ∀ j r, db.getJob j = some r → r.status = .held → r.attempts = 0

/-- How a transaction that is not a claim may change a row. -/
structure RowStep (cfg : WorkerConfig) (r r' : Job) : Prop where
  kind : r'.kind = r.kind
  attempts : r'.attempts = r.attempts
  held : r'.status = .held → r.status = .held
  terminal : r.status.isTerminal → r'.status = r.status
  requeued : r'.status = .queued →
    r.status = .queued ∨ r.status = .held ∨ (r.attempts : Int) < cfg.maxAttempts

theorem rowStep_refl (cfg : WorkerConfig) (r : Job) : RowStep cfg r r :=
  ⟨rfl, rfl, id, fun _ => rfl, Or.inl⟩

theorem rowStep_trans {cfg : WorkerConfig} {r r' r'' : Job} (h : RowStep cfg r r')
    (h' : RowStep cfg r' r'') : RowStep cfg r r'' := by
  refine ⟨h'.kind.trans h.kind, h'.attempts.trans h.attempts, fun hs => h.held (h'.held hs),
    fun ht => ?_, fun hq => ?_⟩
  · have hst := h.terminal ht
    rw [h'.terminal (by rw [hst]; exact ht), hst]
  · rcases h'.requeued hq with hq' | hh' | hlt
    · exact h.requeued hq'
    · exact Or.inr (Or.inl (h.held hh'))
    · rw [h.attempts] at hlt
      exact Or.inr (Or.inr hlt)

/-- How a transaction that is not a claim may change the tables. -/
structure DbStep (cfg : WorkerConfig) (db db' : AdminDb) : Prop where
  keeps : ∀ j r, db.getJob j = some r → ∃ r', db'.getJob j = some r' ∧ RowStep cfg r r'
  fresh : ∀ j r', db.getJob j = none → db'.getJob j = some r' → r'.attempts = 0
  approved : ∀ j, (db'.getApprovedByJobId j).isSome →
    (db.getApprovedByJobId j).isSome ∨ ∃ r', db'.getJob j = some r' ∧ r'.attempts = 0
  results : ∀ x ∈ db'.jobResults, x ∈ db.jobResults ∨
    ∃ r', db'.getJob x.jobId = some r' ∧ r'.status.isTerminal

theorem dbStep_refl (cfg : WorkerConfig) (db : AdminDb) : DbStep cfg db db :=
  ⟨fun _ r hr => ⟨r, hr, rowStep_refl cfg r⟩,
    fun j r' h h' => by rw [h] at h'; exact absurd h' (by simp only [reduceCtorEq, not_false_eq_true]),
    fun _ h => Or.inl h, fun _ h => Or.inl h⟩

theorem dbStep_trans {cfg : WorkerConfig} {db db' db'' : AdminDb} (h : DbStep cfg db db')
    (h' : DbStep cfg db' db'') : DbStep cfg db db'' := by
  refine ⟨fun j r hr => ?_, fun j r'' hnone hr'' => ?_, fun j ha => ?_, fun x hx => ?_⟩
  · rcases h.keeps j r hr with ⟨r', hr', hrow⟩
    rcases h'.keeps j r' hr' with ⟨r'', hr'', hrow'⟩
    exact ⟨r'', hr'', rowStep_trans hrow hrow'⟩
  · cases hmid : db'.getJob j with
    | none => exact h'.fresh j r'' hmid hr''
    | some r' =>
        -- The row appeared in the first half, unclaimed, and kept its count.
        rcases h'.keeps j r' hmid with ⟨s, hs, hrow⟩
        rw [hr'', Option.some.injEq] at hs
        rw [hs, hrow.attempts]
        exact h.fresh j r' hnone hmid
  · rcases h'.approved j ha with hmid | hnew
    · rcases h.approved j hmid with hold | ⟨r', hr', hzero⟩
      · exact Or.inl hold
      · rcases h'.keeps j r' hr' with ⟨s, hs, hrow⟩
        exact Or.inr ⟨s, hs, by rw [hrow.attempts, hzero]⟩
    · exact Or.inr hnew
  · rcases h'.results x hx with hmid | hnew
    · rcases h.results x hmid with hold | ⟨r', hr', hterm⟩
      · exact Or.inl hold
      · rcases h'.keeps x.jobId r' hr' with ⟨s, hs, hrow⟩
        exact Or.inr ⟨s, hs, by rw [hrow.terminal hterm]; exact hterm⟩
    · exact Or.inr hnew

/-- Updating rows that each make a `RowStep`, with the rest left alone. -/
theorem dbStep_updateJobs {cfg : WorkerConfig} {db : AdminDb} {p : Job → Bool} {f : Job → Job}
    {hid : ∀ r, (f r).id = r.id} (hrow : ∀ r ∈ db.jobs, p r = true → RowStep cfg r (f r)) :
    DbStep cfg db (db.updateJobs p f hid) := by
  refine ⟨fun j r hr => ?_, fun j r' hnone hr' => ?_, fun _ h => Or.inl h, fun _ h => Or.inl h⟩
  · refine ⟨if p r then f r else r, by rw [getJob_updateJobs, hr, Option.map_some], ?_⟩
    by_cases hp : p r
    · rw [if_pos hp]
      exact hrow r ((Table.get_eq_some_iff _ _ _).mp hr).1 hp
    · rw [if_neg hp]
      exact rowStep_refl cfg r
  · rw [getJob_updateJobs, hnone, Option.map_none] at hr'
    exact absurd hr' (by simp only [reduceCtorEq, not_false_eq_true])

theorem getJob_addResult {db db' : AdminDb} {x : JobResult} (h : db.addResult x = some db')
    (j : String) : db'.getJob j = db.getJob j := by
  unfold AdminDb.addResult at h
  rw [Option.map_eq_some_iff] at h
  rcases h with ⟨rows, _, rfl⟩
  rfl

/-- A job without a result can be given one. -/
theorem addResult_ne_none {db : AdminDb} {x : JobResult} (h : db.jobResults.get x.jobId = none) :
    db.addResult x ≠ none := by
  unfold AdminDb.addResult
  rw [ne_eq, Option.map_eq_none_iff]
  exact Table.insert_ne_none h

/-- Writing the result of a job that is terminal already. -/
theorem dbStep_addResult {cfg : WorkerConfig} {db db' : AdminDb} {x : JobResult}
    (h : db.addResult x = some db')
    (hterm : ∃ r, db.getJob x.jobId = some r ∧ r.status.isTerminal) : DbStep cfg db db' := by
  unfold AdminDb.addResult at h
  rw [Option.map_eq_some_iff] at h
  rcases h with ⟨rows, hins, rfl⟩
  have hbase := dbStep_refl cfg db
  refine ⟨hbase.keeps, hbase.fresh, hbase.approved, fun y hy => ?_⟩
  rcases (Table.mem_insert hins).mp hy with hold | hnew
  · exact Or.inl hold
  · rw [hnew]
    exact Or.inr hterm

/-- Tables that agree on jobs, holds and results differ in nothing a `DbStep`
    speaks of. -/
theorem dbStep_congr {cfg : WorkerConfig} {db db₁ db₂ : AdminDb} (h : DbStep cfg db db₁)
    (hjobs : db₂.jobs = db₁.jobs) (hheld : db₂.heldExecutions = db₁.heldExecutions)
    (hres : db₂.jobResults = db₁.jobResults) : DbStep cfg db db₂ := by
  have hget : ∀ j, db₂.getJob j = db₁.getJob j := by
    intro j
    unfold AdminDb.getJob
    rw [hjobs]
  refine ⟨fun j r hr => ?_, fun j r' hn hr' => ?_, fun j ha => ?_, fun x hx => ?_⟩
  · rw [hget]
    exact h.keeps j r hr
  · rw [hget] at hr'
    exact h.fresh j r' hn hr'
  · unfold AdminDb.getApprovedByJobId at ha
    rw [hheld] at ha
    rw [hget]
    exact h.approved j ha
  · rw [hres] at hx
    rw [hget]
    exact h.results x hx

theorem approved_iff (db : AdminDb) (j : String) : (db.getApprovedByJobId j).isSome ↔
    ∃ h ∈ db.heldExecutions, h.jobId = j ∧ h.state = .approved := by
  unfold AdminDb.getApprovedByJobId
  rw [List.find?_isSome]
  simp only [decide_eq_true_eq]
  exact Iff.rfl

/-- Updating holds, where a hold becomes approved only on an unclaimed job. -/
theorem dbStep_updateHolds {cfg : WorkerConfig} {db : AdminDb} {p : HeldExecution → Bool}
    {f : HeldExecution → HeldExecution} {hid : ∀ h, (f h).id = h.id}
    (hjob : ∀ h, (f h).jobId = h.jobId)
    (happ : ∀ h ∈ db.heldExecutions, p h = true → (f h).state = .approved →
      h.state = .approved ∨ ∃ r, db.getJob h.jobId = some r ∧ r.attempts = 0) :
    DbStep cfg db (db.updateHolds p f hid) := by
  have hbase := dbStep_refl cfg db
  refine ⟨hbase.keeps, hbase.fresh, fun j ha => ?_, hbase.results⟩
  rw [approved_iff] at ha
  rcases ha with ⟨h', hmem, hj, hst⟩
  rcases (Table.mem_updateWhere hid).mp hmem with ⟨h, hh, rfl⟩
  rw [approved_iff]
  by_cases hp : p h
  · rw [if_pos hp] at hj hst
    rw [hjob] at hj
    rcases happ h hh hp hst with hold | ⟨r, hr, hzero⟩
    · exact Or.inl ⟨h, hh, hj, hold⟩
    · exact Or.inr ⟨r, by rw [← hj]; exact hr, hzero⟩
  · rw [if_neg hp] at hj hst
    exact Or.inl ⟨h, hh, hj, hst⟩

/-- Inserting a job row that no claim has counted. -/
theorem dbStep_insertJob {cfg : WorkerConfig} {db : AdminDb} {job : Job} {jobs : Table Job.id}
    (h : db.jobs.insert job = some jobs) (hzero : job.attempts = 0) :
    DbStep cfg db { db with jobs := jobs } := by
  have hget : ∀ j, AdminDb.getJob { db with jobs := jobs } j
      = if job.id = j then some job else db.getJob j := fun j => Table.get_insert h j
  refine ⟨fun j r hr => ⟨r, ?_, rowStep_refl cfg r⟩, fun j r' hn hr' => ?_, fun _ h => Or.inl h,
    fun _ h => Or.inl h⟩
  · -- The key was free, so it is not the one just read.
    have hne : job.id ≠ j := by
      intro hj
      have hfree : db.getJob job.id = none := (Table.insert_eq_some h).1
      rw [hj, hr] at hfree
      exact absurd hfree (by simp only [reduceCtorEq, not_false_eq_true])
    rw [hget, if_neg hne, hr]
  · rw [hget] at hr'
    by_cases hj : job.id = j
    · rw [if_pos hj, Option.some.injEq] at hr'
      rw [← hr', hzero]
    · rw [if_neg hj, hn] at hr'
      exact absurd hr' (by simp only [reduceCtorEq, not_false_eq_true])

/-- Inserting a hold that is not approved. -/
theorem dbStep_insertHold {cfg : WorkerConfig} {db : AdminDb} {hold : HeldExecution}
    {holds : Table HeldExecution.id} (h : db.heldExecutions.insert hold = some holds)
    (hpend : hold.state ≠ .approved) : DbStep cfg db { db with heldExecutions := holds } := by
  have hbase := dbStep_refl cfg db
  refine ⟨hbase.keeps, hbase.fresh, fun j ha => Or.inl ?_, hbase.results⟩
  rw [approved_iff] at ha ⊢
  rcases ha with ⟨x, hx, hj, hst⟩
  rcases (Table.mem_insert h).mp hx with hold' | hnew
  · exact ⟨x, hold', hj, hst⟩
  · rw [hnew] at hst
    exact absurd hst hpend

theorem heldFresh_dbStep {cfg : WorkerConfig} {db db' : AdminDb} (h : DbStep cfg db db')
    (hheld : HeldFresh db) : HeldFresh db' := by
  intro j r' hr' hst
  cases hr : db.getJob j with
  | none => exact h.fresh j r' hr hr'
  | some r =>
      rcases h.keeps j r hr with ⟨s, hs, hrow⟩
      rw [hr', Option.some.injEq] at hs
      subst hs
      rw [hrow.attempts]
      exact hheld j r hr (hrow.held hst)

/-! ## The other surfaces -/

theorem dbStep_enqueueJob {cfg : WorkerConfig} {db db' : AdminDb} {job : Job}
    (h : enqueueJob db job = some db') : DbStep cfg db db' := by
  unfold enqueueJob at h
  rw [Option.map_eq_some_iff] at h
  rcases h with ⟨jobs, hins, rfl⟩
  exact dbStep_insertJob hins rfl

theorem dbStep_fileHold {cfg : WorkerConfig} {db db' : AdminDb} {f : HoldFiling} {now : Time}
    (h : fileHold db f now = some db') : DbStep cfg db db' := by
  unfold fileHold at h
  split at h
  · rw [Option.some.injEq] at h
    rw [← h]
    exact dbStep_refl cfg db
  · split at h
    · exact absurd h (by simp only [reduceCtorEq, not_false_eq_true])
    · rw [Option.bind_eq_some_iff] at h
      rcases h with ⟨jobs, hjobs, h⟩
      rw [Option.map_eq_some_iff] at h
      rcases h with ⟨holds, hholds, rfl⟩
      have hjob : DbStep cfg db { db with jobs := jobs } := dbStep_insertJob hjobs rfl
      refine dbStep_trans hjob (dbStep_insertHold hholds ?_)
      simp only [ne_eq, reduceCtorEq, not_false_eq_true]

/-- A row leaving a status that is not terminal, for one that is neither held
    nor, unless it was queued or held before, queued. -/
theorem rowStep_settle {cfg : WorkerConfig} {r r' : Job} (hkind : r'.kind = r.kind)
    (hatt : r'.attempts = r.attempts) (hlive : r.status.isTerminal = false)
    (hto : r'.status ≠ .held) (hq : r'.status = .queued → r.status = .queued ∨ r.status = .held) :
    RowStep cfg r r' :=
  ⟨hkind, hatt, fun h => absurd h hto,
    fun h => absurd h (by rw [hlive]; exact Bool.false_ne_true),
    fun h => (hq h).elim Or.inl (fun h' => Or.inr (Or.inl h'))⟩

theorem dbStep_transition {cfg : WorkerConfig} {db db' : AdminDb} {j : String}
    {toStatus : JobStatus} (hto : toStatus ≠ .held)
    (h : transition db j .held toStatus = some db') : DbStep cfg db db' := by
  unfold transition at h
  split at h
  · split at h
    · rw [Option.some.injEq] at h
      rw [← h]
      refine dbStep_updateJobs (fun r _ hp => ?_)
      simp only [decide_eq_true_eq] at hp
      exact rowStep_settle rfl rfl (by rw [hp.2]; rfl) hto (fun _ => Or.inr hp.2)
    · exact absurd h (by simp only [reduceCtorEq, not_false_eq_true])
  · exact absurd h (by simp only [reduceCtorEq, not_false_eq_true])

/-- A transition moved the row it names. -/
theorem getJob_transition {db db' : AdminDb} {j : String} {fromStatus toStatus : JobStatus}
    (h : transition db j fromStatus toStatus = some db') :
    ∃ r, db.getJob j = some r ∧ r.status = fromStatus ∧
      db'.getJob j = some { r with status := toStatus, visibleAt := none } := by
  unfold transition at h
  split at h
  · rename_i r hr
    split at h
    · rename_i hst
      rw [Option.some.injEq] at h
      refine ⟨r, hr, hst, ?_⟩
      have hkey : r.id = j := Table.get_key hr
      rw [← h, getJob_updateJobs, hr, Option.map_some]
      simp only [hkey, hst, and_self, decide_true, if_true]
    · exact absurd h (by simp only [reduceCtorEq, not_false_eq_true])
  · exact absurd h (by simp only [reduceCtorEq, not_false_eq_true])

/-- Settling a hold, where it may become approved only on an unclaimed job. -/
theorem dbStep_settleHold {cfg : WorkerConfig} {db db' : AdminDb} {approvalId by_ : String}
    {p : HeldExecution → Bool} {newState : HeldExecutionState} {now : Time} {hold : HeldExecution}
    (h : settleHold db approvalId p newState by_ now = some (hold, db'))
    (happ : newState = .approved → ∃ r, db'.getJob hold.jobId = some r ∧ r.attempts = 0) :
    DbStep cfg db db' := by
  unfold settleHold at h
  split at h
  · rename_i hold' hget
    split at h
    · rw [Option.some.injEq, Prod.mk.injEq] at h
      rcases h with ⟨rfl, rfl⟩
      refine dbStep_updateHolds (fun _ => rfl) (fun x hx hp hst => Or.inr ?_)
      -- The row under this id is the one that was read.
      simp only [decide_eq_true_eq] at hp
      have hsame := (Table.get_eq_some_iff _ _ _).mpr ⟨hx, hp⟩
      rw [hget, Option.some.injEq] at hsame
      rw [← hsame]
      exact happ hst
    · exact absurd h (by simp only [reduceCtorEq, not_false_eq_true])
  · exact absurd h (by simp only [reduceCtorEq, not_false_eq_true])

theorem dbStep_decideHold {cfg : WorkerConfig} {db db' : AdminDb} {approvalId reviewer : String}
    {approve : Bool} {reason : Option String} {now : Time} (hheld : HeldFresh db)
    (h : decideHold db approvalId approve reviewer reason now = some db') : DbStep cfg db db' := by
  unfold decideHold at h
  rw [Option.bind_eq_some_iff] at h
  rcases h with ⟨⟨hold, db₁⟩, hset, h⟩
  rw [Option.bind_eq_some_iff] at h
  rcases h with ⟨db₂, htrans, h⟩
  rcases getJob_transition htrans with ⟨r, hr, hst, hmoved⟩
  -- Deciding leaves the jobs alone, so the held row is one of `db`.
  have hjobs : db₁.jobs = db.jobs := by
    unfold settleHold at hset
    split at hset
    · split at hset
      · rw [Option.some.injEq, Prod.mk.injEq] at hset
        rw [← hset.2]
        rfl
      · exact absurd hset (by simp only [reduceCtorEq, not_false_eq_true])
    · exact absurd hset (by simp only [reduceCtorEq, not_false_eq_true])
  have hzero : r.attempts = 0 := by
    refine hheld hold.jobId r ?_ hst
    unfold AdminDb.getJob at hr ⊢
    rw [← hjobs]
    exact hr
  have hone : DbStep cfg db db₁ := dbStep_settleHold hset (fun _ => ⟨r, hr, hzero⟩)
  have hto : (if approve then JobStatus.queued else JobStatus.failed) ≠ .held := by
    cases approve <;> simp
  have htwo := dbStep_trans hone (dbStep_transition hto htrans)
  cases approve with
  | true =>
      simp only [if_true, Option.some.injEq] at h
      rw [← h]
      exact htwo
  | false =>
      simp only [Bool.false_eq_true, if_false] at h hmoved
      have hthree : DbStep cfg db₂ (db₂.updateJobs (fun r => r.id = hold.jobId)
          (fun r => { r with error := some "approval denied" })) :=
        dbStep_updateJobs (fun r _ _ => ⟨rfl, rfl, id, fun _ => rfl, Or.inl⟩)
      have hkey : r.id = hold.jobId := Table.get_key hr
      have hfailed : (db₂.updateJobs (fun r => r.id = hold.jobId)
          (fun r => { r with error := some "approval denied" })).getJob hold.jobId
          = some { r with status := .failed, visibleAt := none, error := some "approval denied" } := by
        rw [getJob_updateJobs, hmoved, Option.map_some]
        simp only [hkey, decide_true, if_true]
      exact dbStep_trans htwo (dbStep_trans hthree (dbStep_addResult h ⟨_, hfailed, rfl⟩))

theorem dbStep_withdraw {cfg : WorkerConfig} {db db' : AdminDb} {approvalId filer : String}
    {now : Time} (h : withdraw db approvalId filer now = some db') : DbStep cfg db db' := by
  unfold withdraw at h
  rw [Option.bind_eq_some_iff] at h
  rcases h with ⟨⟨hold, db₁⟩, hset, htrans⟩
  have hone : DbStep cfg db db₁ := dbStep_settleHold hset
    (fun h => absurd h (by simp only [reduceCtorEq, not_false_eq_true]))
  exact dbStep_trans hone (dbStep_transition (by simp only [ne_eq, reduceCtorEq,
    not_false_eq_true]) htrans)

theorem dbStep_withdrawPendingForAgent (cfg : WorkerConfig) (db : AdminDb)
    (agentId actorId : String) (now : Time) :
    DbStep cfg db (withdrawPendingForAgent db agentId actorId now) := by
  unfold withdrawPendingForAgent
  dsimp only
  refine dbStep_trans ?_ (dbStep_updateJobs (fun r _ hp => ?_))
  · exact dbStep_updateHolds (fun _ => rfl)
      (fun _ _ _ hst => absurd hst (by simp only [reduceCtorEq, not_false_eq_true]))
  · simp only [Bool.and_eq_true, decide_eq_true_eq] at hp
    exact rowStep_settle rfl rfl (by rw [hp.2]; rfl) (by simp only [ne_eq, reduceCtorEq,
      not_false_eq_true]) (fun h => absurd h (by simp only [reduceCtorEq, not_false_eq_true]))

theorem dbStep_failHeldJob {cfg : WorkerConfig} {db db' : AdminDb} {j error : String}
    {problem : Problem} (h : failHeldJob db j problem error = some db') : DbStep cfg db db' := by
  unfold failHeldJob at h
  split at h
  · rename_i r hr
    split at h
    · rename_i hst
      have hkey : r.id = j := Table.get_key hr
      refine dbStep_trans (dbStep_updateJobs (fun r _ hp => ?_)) (dbStep_addResult h
        ⟨{ r with status := .failed, error := some error, visibleAt := none }, ?_, rfl⟩)
      · simp only [decide_eq_true_eq] at hp
        exact rowStep_settle rfl rfl (by rw [hp.2]; rfl) (by simp only [ne_eq, reduceCtorEq,
          not_false_eq_true]) (fun h => absurd h (by simp only [reduceCtorEq, not_false_eq_true]))
      · rw [getJob_updateJobs, hr, Option.map_some]
        simp only [hkey, hst, and_self, decide_true, if_true]
    · rw [Option.some.injEq] at h
      rw [← h]
      exact dbStep_refl cfg db
  · rw [Option.some.injEq] at h
    rw [← h]
    exact dbStep_refl cfg db

theorem dbStep_failExpired {cfg : WorkerConfig} {holds : List HeldExecution} {db db' : AdminDb}
    (h : failExpired db holds = some db') : DbStep cfg db db' := by
  induction holds generalizing db with
  | nil =>
      simp only [failExpired, Option.some.injEq] at h
      rw [← h]
      exact dbStep_refl cfg db
  | cons x rest ih =>
      simp only [failExpired, Option.bind_eq_some_iff] at h
      rcases h with ⟨db₁, hone, hrest⟩
      exact dbStep_trans (dbStep_failHeldJob hone) (ih hrest)

theorem dbStep_expireLapsedApprovals {cfg : WorkerConfig} {db db' : AdminDb} {now : Time}
    (h : expireLapsedApprovals db now = some db') : DbStep cfg db db' := by
  unfold expireLapsedApprovals at h
  dsimp only at h
  refine dbStep_trans ?_ (dbStep_failExpired h)
  exact dbStep_updateHolds (fun _ => rfl)
    (fun _ _ _ hst => absurd hst (by simp only [reduceCtorEq, not_false_eq_true]))

/-- Cancelling rows that are not terminal, whatever else the update touches. -/
theorem dbStep_cancelRows {cfg : WorkerConfig} {db : AdminDb} {p : Job → Bool} {f : Job → Job}
    {hid : ∀ r, (f r).id = r.id} (hlive : ∀ r, p r = true → r.status.isTerminal = false)
    (hto : ∀ r, (f r).status = .cancelled) (hkind : ∀ r, (f r).kind = r.kind)
    (hatt : ∀ r, (f r).attempts = r.attempts) : DbStep cfg db (db.updateJobs p f hid) := by
  refine dbStep_updateJobs (fun r _ hp => rowStep_settle (hkind r) (hatt r) (hlive r hp) ?_ ?_)
  · rw [hto]
    simp only [ne_eq, reduceCtorEq, not_false_eq_true]
  · rw [hto]
    exact fun h => absurd h (by simp only [reduceCtorEq, not_false_eq_true])

theorem dbStep_cancel {cfg : WorkerConfig} {db db' : AdminDb} {j : String}
    (h : cancel db j = some db') : DbStep cfg db db' := by
  unfold cancel at h
  split at h
  · split at h
    · exact absurd h (by simp only [reduceCtorEq, not_false_eq_true])
    · rw [Option.some.injEq] at h
      rw [← h]
      refine dbStep_cancelRows (fun r hp => ?_) (fun _ => rfl) (fun _ => rfl) (fun _ => rfl)
      simp only [decide_eq_true_eq] at hp
      rcases hp.2 with hst | hst | hst <;> rw [hst] <;> rfl
  · exact absurd h (by simp only [reduceCtorEq, not_false_eq_true])

theorem dbStep_cancelActiveForActor (cfg : WorkerConfig) (db : AdminDb) (actorId : String) :
    DbStep cfg db (cancelActiveForActor db actorId) := by
  refine dbStep_cancelRows (fun r hp => ?_) (fun _ => rfl) (fun _ => rfl) (fun _ => rfl)
  simp only [decide_eq_true_eq] at hp
  rcases hp.2 with hst | hst <;> rw [hst] <;> rfl

theorem dbStep_cancelQueuedExecutionsForActor (cfg : WorkerConfig) (db : AdminDb)
    (actorId : String) : DbStep cfg db (cancelQueuedExecutionsForActor db actorId) := by
  refine dbStep_cancelRows (fun r hp => ?_) (fun _ => rfl) (fun _ => rfl) (fun _ => rfl)
  simp only [decide_eq_true_eq] at hp
  rw [hp.2.2]
  rfl

/-! ## The worker -/

/-- A claim's own row, moved to a terminal status. -/
theorem dbStep_terminate {cfg : WorkerConfig} {db : AdminDb} {j : String} {r : Job} {f : Job → Job}
    {hid : ∀ r, (f r).id = r.id} (hr : db.getJob j = some r) (hrun : r.status = .running)
    (hto : (f r).status.isTerminal) (hkind : (f r).kind = r.kind)
    (hatt : (f r).attempts = r.attempts) :
    DbStep cfg db (db.updateJobs (fun x => x.id = j) f hid) := by
  refine dbStep_updateJobs (fun x hx hp => ?_)
  simp only [decide_eq_true_eq] at hp
  have hsame := (Table.get_eq_some_iff _ _ _).mpr ⟨hx, hp⟩
  have hxr : r = x := by
    unfold AdminDb.getJob at hr
    rw [hr, Option.some.injEq] at hsame
    exact hsame
  subst hxr
  refine rowStep_settle hkind hatt (by rw [hrun]; rfl) (fun h => ?_) (fun h => ?_)
  · rw [h] at hto
    exact absurd hto Bool.false_ne_true
  · rw [h] at hto
    exact absurd hto Bool.false_ne_true

theorem claimHolds_some (job : Job) (n : Nat) :
    claimHolds job (some n) = true ↔ job.status = .running ∧ job.attempts = n := by
  simp only [claimHolds, Bool.and_eq_true, decide_eq_true_eq]

theorem dbStep_emitEvent {cfg : WorkerConfig} {db db' : AdminDb} (h : DbStep cfg db db')
    (emitted : Bool) (event : Event) : DbStep cfg db (emitEvent db' emitted event) := by
  unfold emitEvent
  split
  · exact dbStep_congr h rfl rfl rfl
  · exact h

theorem dbStep_terminalJob {cfg : WorkerConfig} {db : AdminDb} {j error : String}
    {status : JobStatus} {n : Nat} {eventType : EventType} {now : Time} {emitted : Bool}
    (hterm : status.isTerminal) :
    DbStep cfg db (terminalJob db j status error (some n) eventType now emitted) := by
  unfold terminalJob
  split
  · exact dbStep_refl cfg db
  · rename_i r hr
    split
    · rename_i hclaim
      rw [claimHolds_some] at hclaim
      exact dbStep_emitEvent (dbStep_terminate hr hclaim.1 hterm rfl rfl) emitted _
    · exact dbStep_refl cfg db

theorem completedStatus_isTerminal (approved : Bool) (body : ResultBody) :
    (completedStatus approved body).isTerminal = true := by
  unfold completedStatus
  split <;> rfl

theorem dbStep_linkExecution (cfg : WorkerConfig) (db : AdminDb) (approved : Bool) (j : String)
    (body : ResultBody) : DbStep cfg db (linkExecution db approved j body) := by
  unfold linkExecution
  split
  · split
    · exact dbStep_updateHolds (fun _ => rfl) (fun _ _ _ hst => Or.inl hst)
    · exact dbStep_refl cfg db
  · exact dbStep_refl cfg db

theorem dbStep_completeJob {cfg : WorkerConfig} {db db' : AdminDb} {j : String} {kind : JobKind}
    {result : JobResultPayload} {now : Time} {emitted : Bool}
    (h : completeJob cfg db j kind result now emitted = some db') : DbStep cfg db db' := by
  unfold completeJob at h
  split at h
  · rw [Option.some.injEq] at h
    rw [← h]
    exact dbStep_refl cfg db
  · rename_i r hr
    split at h
    · rw [Option.some.injEq] at h
      rw [← h]
      exact dbStep_refl cfg db
    · rename_i hrun
      rw [not_not] at hrun
      dsimp only at h
      generalize (decide (kind = .execution) && (db.getApprovedByJobId j).isSome) = approved at h
      rw [Option.map_eq_some_iff] at h
      rcases h with ⟨db₁, hadd, rfl⟩
      have hkey : r.id = j := Table.get_key hr
      have hterm := completedStatus_isTerminal approved result.body
      -- Settle the row, link the hold, then write the result of the settled row.
      have hsettle : DbStep cfg db (db.updateJobs (fun x => x.id = j) (fun x => { x with
          status := completedStatus approved result.body, visibleAt := none, error := none })) :=
        dbStep_terminate hr hrun hterm rfl rfl
      have hlink := dbStep_linkExecution cfg (db.updateJobs (fun x => x.id = j) (fun x => { x with
          status := completedStatus approved result.body, visibleAt := none, error := none }))
        approved j result.body
      refine dbStep_emitEvent (dbStep_trans hsettle (dbStep_trans hlink
        (dbStep_addResult hadd ?_))) _ _
      have hget : (db.updateJobs (fun x => x.id = j) (fun x => { x with
          status := completedStatus approved result.body, visibleAt := none,
          error := none })).getJob j = some { r with
            status := completedStatus approved result.body, visibleAt := none, error := none } := by
        rw [getJob_updateJobs, hr, Option.map_some]
        simp only [hkey, decide_true, if_true]
      rcases hlink.keeps j _ hget with ⟨r', hr', hrow⟩
      exact ⟨r', hr', by rw [hrow.terminal hterm]; exact hterm⟩

theorem dbStep_requeue {cfg : WorkerConfig} {db : AdminDb} {job : Job} {error : String}
    {now : Time} (hbudget : (job.attempts : Int) < cfg.maxAttempts) :
    DbStep cfg db (requeue cfg db job error now) := by
  refine dbStep_updateJobs (fun r _ hp => ?_)
  simp only [decide_eq_true_eq] at hp
  refine ⟨rfl, rfl, fun h => absurd h (by simp only [reduceCtorEq, not_false_eq_true]),
    fun h => absurd h (by rw [hp.2.1]; exact Bool.false_ne_true), fun _ => Or.inr (Or.inr ?_)⟩
  rw [hp.2.2]
  exact hbudget

theorem dbStep_handleFailure (cfg : WorkerConfig) (db : AdminDb) (job : Job) (approved : Bool)
    (error : String) (now : Time) (emitted : Bool) :
    DbStep cfg db (handleFailure cfg db job approved error now emitted) := by
  unfold handleFailure
  split
  · exact dbStep_terminalJob rfl
  · split
    · exact dbStep_terminalJob rfl
    · rename_i hlt
      exact dbStep_requeue (by omega)

theorem dbStep_markDispatched (cfg : WorkerConfig) (db : AdminDb) (job : Job) :
    DbStep cfg db (markDispatched db job) :=
  dbStep_updateJobs (fun _ _ _ => ⟨rfl, rfl, id, fun _ => rfl, Or.inl⟩)

theorem dbStep_refuse {cfg : WorkerConfig} {db db' : AdminDb} {mem : List String} {job : Job}
    {now : Time} (h : refuseApprovedReclaim cfg db mem job now = .refused db') :
    DbStep cfg db db' := by
  unfold refuseApprovedReclaim at h
  split at h
  · split at h
    · exact absurd h (by simp only [reduceCtorEq, not_false_eq_true])
    · rename_i r hr
      have hkey : r.id = job.id := Table.get_key hr
      split at h
      · rename_i hclaim
        rw [claimHolds_some] at hclaim
        split at h
        · dsimp only at h
          split at h
          · rename_i db₁ hadd
            simp only [ReclaimCheck.refused.injEq] at h
            rw [← h]
            refine dbStep_trans (dbStep_terminate hr hclaim.1 rfl rfl rfl)
              (dbStep_addResult hadd ?_)
            dsimp only
            rw [getJob_updateJobs, hr, Option.map_some]
            simp only [hkey, decide_true, if_true]
            exact ⟨_, rfl, rfl⟩
          · exact absurd h (by simp only [reduceCtorEq, not_false_eq_true])
        · split at h
          · simp only [ReclaimCheck.refused.injEq] at h
            rw [← h]
            exact dbStep_terminate hr hclaim.1 rfl rfl rfl
          · exact absurd h (by simp only [reduceCtorEq, not_false_eq_true])
      · exact absurd h (by simp only [reduceCtorEq, not_false_eq_true])
  · exact absurd h (by simp only [reduceCtorEq, not_false_eq_true])

/-- A claim takes one claimable row of a kind the loop handles, and hands out
    the row as it leaves it: running, with one more attempt. -/
theorem claimNext_spec {cfg : WorkerConfig} {db db' : AdminDb} {worker : String} {now : Time}
    {locked : List String} {job : Job} (h : claimNext cfg db worker now locked = some (job, db')) :
    ∃ r ∈ db.jobs, claimable now r = true ∧ r.kind ∈ cfg.kinds worker ∧
      job = { r with status := .running, visibleAt := some (now + cfg.visibilityTimeout),
                     attempts := r.attempts + 1 } ∧
      (∀ j, db'.getJob j = if r.id = j then some job else db.getJob j) ∧
      db'.heldExecutions = db.heldExecutions ∧ db'.jobResults = db.jobResults := by
  unfold claimNext at h
  rw [Option.map_eq_some_iff] at h
  rcases h with ⟨r, hpick, h⟩
  rw [Prod.mk.injEq] at h
  rcases h with ⟨rfl, rfl⟩
  have hmem := oldest_mem hpick
  rw [List.mem_filter] at hmem
  rcases hmem with ⟨hin, hok⟩
  simp only [Bool.and_eq_true, decide_eq_true_eq] at hok
  refine ⟨r, hin, hok.1.2, hok.1.1, rfl, fun j => ?_, rfl, rfl⟩
  rw [getJob_updateJobs]
  have hget : db.getJob r.id = some r := (Table.get_eq_some_iff _ _ _).mpr ⟨hin, rfl⟩
  by_cases hj : r.id = j
  · rw [if_pos hj, ← hj, hget, Option.map_some]
    simp only [decide_true, if_true]
  · rw [if_neg hj]
    cases hr : db.getJob j with
    | none => rfl
    | some x =>
        have hx : x.id = j := Table.get_key hr
        have hne : ¬ x.id = r.id := fun hc => hj (hc.symm.trans hx)
        rw [Option.map_some]
        simp only [hne, decide_false, Bool.false_eq_true, if_false]

end Jobs

end JenticOne
