import JenticOne.Jobs.Runs

/-!
# An Approved Execution Runs at Most Once

An approval releases one run of a held execution, and this is where the worker
is held to it. The run invariant already says that a start of an execution's
handler under a second or later claim leaves no room for an approval, so every
start of an approved execution is the start of its first claim, and starts are
distinct.

What a later claim does instead is decided by its reclaim check. It fails the
job where the row still runs under that claim, and drops the claim without a
write where it does not: the row may have been settled in the meantime by the
handler of the first claim, which nothing stops when its deadline passes. So a
later claim need not end in `failed`, and `lateCompletion` is a run in which it
ends in `completed`.

## Main definitions

* `World.handlerStarts`: How often a job's handler was started.
* `ApprovedExecution`: An execution job with an approval behind it.
* `LaterClaimsFail`: Every finished later claim of an approved execution left
  the job failed.
* `lateCompletion`: A run in which one does not.

## Theorems

* `handlerStarts_le`: Starts are counted by the attempts they were made under.
* `refuseApprovedReclaim_approved`: The reclaim check of an approved job.
* `approvedExecution_runs_at_most_once`: One start at most, and what becomes of
  every later claim.
-/

namespace JenticOne

namespace Jobs

/-- How often the handler of a job has been started. -/
def World.handlerStarts (w : World) (jobId : String) : Nat :=
  (w.starts.filter (fun p => p.1 = jobId)).length

/-- Distinct starts under attempts up to `bound` are at most `bound` many. -/
theorem handlerStarts_le {w : World} {jobId : String} {bound : Nat} (hnodup : w.starts.Nodup)
    (hbound : ∀ p ∈ w.starts, p.1 = jobId → 1 ≤ p.2 ∧ p.2 ≤ bound) :
    w.handlerStarts jobId ≤ bound := by
  have hsub : w.starts.filter (fun p => p.1 = jobId) ⊆
      (List.range bound).map (fun n => (jobId, n + 1)) := by
    intro p hp
    rw [List.mem_filter, decide_eq_true_eq] at hp
    rcases hbound p hp.1 hp.2 with ⟨hpos, hle⟩
    refine List.mem_map.mpr ⟨p.2 - 1, List.mem_range.mpr (by omega), ?_⟩
    rw [Nat.sub_add_cancel hpos, ← hp.2]
  have hstarts : (w.starts.filter (fun p => p.1 = jobId)).Nodup := hnodup.filter _
  have hlen := (List.subperm_of_subset hstarts hsub).length_le
  rw [List.length_map, List.length_range] at hlen
  exact hlen

/-- An execution job whose hold was approved. -/
def ApprovedExecution (db : AdminDb) (jobId : String) : Prop :=
  (∃ r, db.getJob jobId = some r ∧ r.kind = .execution) ∧ (db.getApprovedByJobId jobId).isSome

/-- Every later claim of an approved execution that has run its course left the
    job failed. -/
def LaterClaimsFail (w : World) : Prop :=
  ∀ t ∈ w.tasks, ApprovedExecution w.db t.job.id → 2 ≤ t.job.attempts → t.phase = .ended →
    ∃ r, w.db.getJob t.job.id = some r ∧ r.status = .failed

/-- The reclaim check of an approved execution: it fails a row that still runs
    under the claim, and otherwise drops the claim. -/
theorem refuseApprovedReclaim_approved {db : AdminDb} {job r : Job} (cfg : WorkerConfig)
    (mem : List String) (now : Time) (hre : reclaimed job) (hr : db.getJob job.id = some r)
    (happ : (db.getApprovedByJobId job.id).isSome)
    (hres : r.status = .running → db.jobResults.get job.id = none) :
    if claimHolds r (some job.attempts) then
      ∃ db', refuseApprovedReclaim cfg db mem job now = .refused db' ∧
        ∃ r', db'.getJob job.id = some r' ∧ r'.status = .failed
    else refuseApprovedReclaim cfg db mem job now = .claimLost := by
  rcases Option.isSome_iff_exists.mp happ with ⟨approval, happroval⟩
  unfold refuseApprovedReclaim
  rw [if_pos hre, hr]
  dsimp only
  split
  · rename_i hclaim
    have hkey : r.id = job.id := Table.get_key hr
    rw [happroval]
    dsimp only
    split
    · rename_i db' hadd
      refine ⟨db', rfl, ?_⟩
      rw [getJob_addResult hadd, getJob_updateJobs, hr, Option.map_some]
      simp only [hkey, decide_true, if_true]
      exact ⟨_, rfl, rfl⟩
    · rename_i hnone
      exact absurd hnone (addResult_ne_none (hres ((claimHolds_some r job.attempts).mp hclaim).1))
  · rfl

theorem phase_setPhase {w : World} {i : Nat} {t : Task} (ht : w.tasks[i]? = some t)
    (phase : Phase) : ((w.setPhase i t phase).tasks[i]?).map Task.phase = some phase := by
  have hlt : i < w.tasks.length := (List.getElem?_eq_some_iff.mp ht).1
  unfold World.setPhase
  rw [List.getElem?_set_self hlt]
  rfl

/-- The reclaim check of a later claim of an approved execution, as a step. -/
theorem stepCheckReclaim_approved {cfg : WorkerConfig} {w : World} {i : Nat} {t : Task} {r : Job}
    (ht : w.tasks[i]? = some t) (hre : reclaimed t.job) (hr : w.db.getJob t.job.id = some r)
    (happ : (w.db.getApprovedByJobId t.job.id).isSome)
    (hres : r.status = .running → w.db.jobResults.get t.job.id = none) (now : Time)
    (commit : Commit) :
    (stepCheckReclaim cfg w i t now commit).starts = w.starts ∧
      ((stepCheckReclaim cfg w i t now commit).tasks[i]?).map Task.phase = some .ended ∧
      if claimHolds r (some t.job.attempts) then
        commit = .acked → ∃ r', (stepCheckReclaim cfg w i t now commit).db.getJob t.job.id = some r' ∧
          r'.status = .failed
      else (stepCheckReclaim cfg w i t now commit).db = w.db := by
  have hcheck := refuseApprovedReclaim_approved cfg (w.dispatchedJobs t.worker) now hre hr
    happ hres
  unfold stepCheckReclaim
  by_cases hclaim : claimHolds r (some t.job.attempts)
  · rw [if_pos hclaim] at hcheck
    rcases hcheck with ⟨db', href, hfailed⟩
    rw [href, if_pos hclaim]
    refine ⟨rfl, phase_setPhase ht .ended, ?_⟩
    rintro rfl
    exact hfailed
  · rw [if_neg hclaim] at hcheck
    rw [hcheck, if_neg hclaim]
    exact ⟨rfl, phase_setPhase ht .ended, rfl⟩

/-- A running job has no result yet. -/
theorem resultFree_of_running {cfg : WorkerConfig} {w : World} {jobId : String} {r : Job}
    (inv : RunInv cfg w) (hr : w.db.getJob jobId = some r) (hrun : r.status = .running) :
    w.db.jobResults.get jobId = none := by
  cases hres : w.db.jobResults.get jobId with
  | none => rfl
  | some x =>
      rcases inv.results x ((Table.get_eq_some_iff _ _ _).mp hres).1 with ⟨r', hr', hterm⟩
      rw [Table.get_key hres, hr, Option.some.injEq] at hr'
      rw [← hr', hrun] at hterm
      exact absurd hterm Bool.false_ne_true

/-- In every run, an approved execution has its handler started at most once.
    Every later claim of it starts no handler, is never admitted to start one,
    and ends with its reclaim check, whatever becomes of that transaction. The
    check fails a job that still runs under the claim, once it commits, and
    leaves the tables alone where the job does not. -/
theorem approvedExecution_runs_at_most_once {cfg : WorkerConfig} {w : World} {jobId : String}
    {r : Job} (h : (workers cfg).Reachable w) (hr : w.db.getJob jobId = some r)
    (happ : ApprovedExecution w.db jobId) :
    w.handlerStarts jobId ≤ 1 ∧
    ∀ i t, w.tasks[i]? = some t → t.job.id = jobId → 2 ≤ t.job.attempts →
      t.claim ∉ w.starts ∧ t.phase ≠ .admitted ∧
      (t.phase = .claimed → ∀ now commit,
        ∃ w', step cfg w (.checkReclaim i now commit) = some w' ∧ w'.starts = w.starts ∧
          (w'.tasks[i]?).map Task.phase = some .ended ∧
          if claimHolds r (some t.job.attempts) then
            commit = .acked → ∃ r', w'.db.getJob jobId = some r' ∧ r'.status = .failed
          else w'.db = w.db) := by
  have inv := runInv_of_reachable h
  rcases happ with ⟨⟨r', hr', hkind⟩, happ⟩
  rw [hr, Option.some.injEq] at hr'
  subst hr'
  -- A later claim of this job is one the reclaim check looks at.
  have hlater : ∀ t ∈ w.tasks, t.job.id = jobId → 2 ≤ t.job.attempts → reclaimed t.job := by
    intro t ht hid htwo
    rcases inv.rows t ht with ⟨_, x, hx, hxkind, _⟩
    rw [hid, hr, Option.some.injEq] at hx
    subst hx
    unfold reclaimed
    rw [← hxkind, hkind]
    simp only [decide_true, Bool.true_and, decide_eq_true_eq]
    omega
  have hnever : ∀ t ∈ w.tasks, t.job.id = jobId → 2 ≤ t.job.attempts →
      t.claim ∉ w.starts ∧ t.phase ≠ .admitted := by
    intro t ht hid htwo
    have hnot : ¬ (t.phase = .admitted ∨ t.claim ∈ w.starts) := by
      intro hc
      have hnone := inv.approved t ht (hlater t ht hid htwo) hc
      rw [hid, happ] at hnone
      exact absurd hnone Bool.true_eq_false.mp
    exact ⟨fun hc => hnot (Or.inr hc), fun hc => hnot (Or.inl hc)⟩
  refine ⟨handlerStarts_le inv.starts (fun p hp hid => ?_), fun i t ht hid htwo => ?_⟩
  · rcases List.mem_map.mp (inv.startsClaims p hp) with ⟨t, ht, rfl⟩
    refine ⟨(inv.rows t ht).1, ?_⟩
    by_contra hc
    exact (hnever t ht hid (by unfold Task.claim at hc; omega)).1 hp
  · have hmem : t ∈ w.tasks := List.mem_of_getElem? ht
    refine ⟨(hnever t hmem hid htwo).1, (hnever t hmem hid htwo).2, fun hphase now commit => ?_⟩
    subst hid
    refine ⟨stepCheckReclaim cfg w i t now commit, by simp only [step, ht, hphase, if_true], ?_⟩
    exact stepCheckReclaim_approved ht (hlater t hmem rfl htwo) hr happ
      (resultFree_of_running inv hr) now commit

/-- What a filing of the example runs holds. -/
def exampleFiling : HoldFiling where
  agentId := "agnt_1"
  fingerprint := "fp"
  executionId := "exec_1"
  payload := ⟨false, none, none⟩
  jobId := "job_1"
  approvalId := "hex_1"
  ttl := 3600
  maxPending := 10

def exampleConfig : WorkerConfig where
  visibilityTimeout := 120
  maxAttempts := 5
  retryBackoffBase := 2
  retryBackoffMax := 60
  approvedResultRetention := 86400
  kinds := fun _ => [.importSpec, .execution]

/-- A second worker claims an approved execution whose deadline has passed while
    its handler still runs. -/
def overtakenRun : List Action :=
  [.fileHold exampleFiling 0, .decideHold "hex_1" true "usr_1" none 1,
    .claim "worker_1" 2 [] .acked, .checkReclaim 0 3 .acked, .startHandler 0,
    .claim "worker_2" 200 [] .acked]

/-- The handler returns and its result is written before the second claim's
    reclaim check runs. -/
def lateCompletion : List Action :=
  overtakenRun ++ [.handlerReturns 0 ⟨.handler (some "completed") (some "exec_1"), none⟩,
    .complete 0 201 true .acked, .checkReclaim 1 202 .acked]

/-- A run in which a later claim of an approved execution ends with the job
    completed. -/
theorem lateCompletion_not_failed :
    ¬ ∀ w, (workers exampleConfig).Reachable w →
      (∀ j, ApprovedExecution w.db j → w.handlerStarts j ≤ 1) ∧ LaterClaimsFail w := by
  intro hclaim
  have hrun : ((workers exampleConfig).runActions World.initial lateCompletion).any (fun w =>
      (w.db.getJob "job_1").any (fun r => r.kind = .execution ∧ r.status = .completed) &&
      (w.db.getApprovedByJobId "job_1").isSome &&
      w.tasks.any (fun t => t.job.id = "job_1" ∧ 2 ≤ t.job.attempts ∧ t.phase = .ended)) := by
    decide +kernel
  rcases (Option.any_eq_true _ _).mp hrun with ⟨w, hw, hcheck⟩
  simp only [Bool.and_eq_true, Option.any_eq_true, List.any_eq_true, decide_eq_true_eq] at hcheck
  rcases hcheck with ⟨⟨⟨r, hr, hkind, hcompleted⟩, happ⟩, t, ht, hid, htwo, hended⟩
  have hreach : (workers exampleConfig).Reachable w :=
    Machine.reachable_runActions (Machine.ReachesWhen.start _ rfl) hw
  rcases (hclaim w hreach).2 t ht (by rw [hid]; exact ⟨⟨r, hr, hkind⟩, happ⟩) htwo hended
    with ⟨r', hr', hfailed⟩
  rw [hid, hr, Option.some.injEq] at hr'
  rw [← hr', hcompleted] at hfailed
  exact absurd hfailed (by simp only [reduceCtorEq, not_false_eq_true])

/-- The second claim of the overtaken run starts no handler and its check, made
    while the first handler still runs, fails the job. -/
theorem approvedExecution_runs_at_most_once_overtaken :
    ∃ w t, (workers exampleConfig).runActions World.initial overtakenRun = some w ∧
      w.handlerStarts "job_1" ≤ 1 ∧ w.tasks[1]? = some t ∧ t.claim ∉ w.starts ∧
      ∃ w', step exampleConfig w (.checkReclaim 1 202 .acked) = some w' ∧
        ∃ r', w'.db.getJob "job_1" = some r' ∧ r'.status = .failed := by
  have hrun : ((workers exampleConfig).runActions World.initial overtakenRun).any (fun w =>
      (w.db.getJob "job_1").any (fun r => r.kind = .execution ∧ claimHolds r (some 2)) &&
      (w.db.getApprovedByJobId "job_1").isSome &&
      w.tasks[1]?.any (fun t => t.job.id = "job_1" ∧ t.job.attempts = 2 ∧ t.phase = .claimed)) := by
    decide +kernel
  rcases (Option.any_eq_true _ _).mp hrun with ⟨w, hw, hcheck⟩
  simp only [Bool.and_eq_true, Option.any_eq_true, decide_eq_true_eq] at hcheck
  rcases hcheck with ⟨⟨⟨r, hr, hkind, hholds⟩, happ⟩, t, ht, hid, htwo, hphase⟩
  have hreach : (workers exampleConfig).Reachable w :=
    Machine.reachable_runActions (Machine.ReachesWhen.start _ rfl) hw
  rcases approvedExecution_runs_at_most_once hreach hr ⟨⟨r, hr, hkind⟩, happ⟩ with ⟨honce, hlater⟩
  rcases hlater 1 t ht hid (le_of_eq htwo.symm) with ⟨hunstarted, _, hcheck⟩
  rcases hcheck hphase 202 .acked with ⟨w', hstep, _, _, hfailed⟩
  rw [htwo, if_pos hholds] at hfailed
  exact ⟨w, t, hw, honce, ht, hunstarted, w', hstep, hfailed rfl⟩

end Jobs

end JenticOne
