import JenticOne.Jobs.AtMostOnce

/-!
# The Retry Budget

A job comes back to the queue by two routes. A failed handler requeues it, and
that route stops at `maxAttempts`: the row is dead-lettered instead. A deadline
that passes makes a running row claimable again, and on that route nobody looks
at the counter, so a job whose handler takes its process down with it is
started as often as workers come back for it. `poisonRun` is such a run.

Away from that fault the budget holds. Starts of one job are made under
distinct attempts, so a run that starts no handler under a claim counted past
the budget keeps to it. With a budget of at least one, only recovery hands out
such a claim: `claimNext_pastBudget`.

## Main definitions

* `startsWithinBudget`: No handler is started under a claim past the budget.
* `poisonRun`: An import whose handler kills its worker, again and again.

## Theorems

* `claimNext_pastBudget`: A claim past the budget recovers a running row.
* `handlerStarts_le_maxAttempts`: Runs that meet the condition keep the budget.
-/

namespace JenticOne

namespace Jobs

/-- The step does not start a handler under a claim that was counted past the
    budget, so one made on a row that had used it up. -/
def startsWithinBudget (cfg : WorkerConfig) (w : World) : Action → Bool
  | .startHandler i => w.tasks[i]?.all (fun t => (t.job.attempts : Int) ≤ cfg.maxAttempts)
  | _ => true

/-- Requeueing checks the budget, so a claim past it is one that recovered a row
    still running. -/
theorem claimNext_pastBudget {cfg : WorkerConfig} {w : World} {worker : String} {now : Time}
    {locked : List String} {job : Job} {db : AdminDb} (h : (workers cfg).Reachable w)
    (hbudget : 1 ≤ cfg.maxAttempts)
    (hclaim : claimNext cfg w.db worker now locked = some (job, db))
    (hpast : cfg.maxAttempts < job.attempts) :
    ∃ r, w.db.getJob job.id = some r ∧ r.status = .running ∧ cfg.maxAttempts ≤ r.attempts := by
  rcases claimNext_spec hclaim with ⟨r, hin, hok, _, hjob, _⟩
  have hr : w.db.getJob r.id = some r := (Table.get_eq_some_iff _ _ _).mpr ⟨hin, rfl⟩
  have hid : job.id = r.id := by rw [hjob]
  have hatt : job.attempts = r.attempts + 1 := by rw [hjob]
  refine ⟨r, by rw [hid]; exact hr, ?_, by omega⟩
  rcases claimable_status hok with hqueued | hrunning
  · rcases (runInv_of_reachable h).queued r.id r hr hqueued with hzero | hlt <;> omega
  · exact hrunning

theorem startsBounded_worldStep {cfg : WorkerConfig} {w w' : World} {a : Action}
    (h : WorldStep cfg w a w') (hok : startsWithinBudget cfg w a = true)
    (hstarts : ∀ p ∈ w.starts, (p.2 : Int) ≤ cfg.maxAttempts) :
    ∀ p ∈ w'.starts, (p.2 : Int) ≤ cfg.maxAttempts := by
  cases h with
  | quiet _ _ hsame =>
      rw [hsame]
      exact hstarts
  | claimed _ _ _ _ _ _ hsame =>
      rw [hsame]
      exact hstarts
  | started i t hact ht _ _ _ hnew =>
      subst hact
      rw [hnew]
      intro p hp
      rcases List.mem_cons.mp hp with rfl | hold
      · rw [startsWithinBudget, ht, Option.all_some, decide_eq_true_eq] at hok
        exact hok
      · exact hstarts p hold

/-- In every run that starts no handler under a claim past the budget, no job
    has its handler started more than `maxAttempts` times. -/
theorem handlerStarts_le_maxAttempts {cfg : WorkerConfig} {w : World}
    (h : (workers cfg).ReachesWhen (fun s a => startsWithinBudget cfg s a = true) w) (jobId : String) :
    w.handlerStarts jobId ≤ cfg.maxAttempts.toNat := by
  have inv := runInv_of_reachable (Machine.reachable_of_reachesWhen h)
  have hbounded : RunInv cfg w ∧ ∀ p ∈ w.starts, (p.2 : Int) ≤ cfg.maxAttempts := by
    refine Machine.reachesWhen_invariant (P := fun s => RunInv cfg s ∧
      ∀ p ∈ s.starts, (p.2 : Int) ≤ cfg.maxAttempts) ?_ ?_ h
    · rintro s rfl
      exact ⟨runInv_initial cfg, fun p hp => absurd hp List.not_mem_nil⟩
    · intro s a s' hs hok hstep
      have hworld := worldStep hs.1.held (fun t ht => (hs.1.handled t ht).2) hstep
      exact ⟨runInv_worldStep hs.1 hworld, startsBounded_worldStep hworld hok hs.2⟩
  refine handlerStarts_le inv.starts (fun p hp _ => ?_)
  rcases List.mem_map.mp (inv.startsClaims p hp) with ⟨t, ht, rfl⟩
  have hpos : 1 ≤ t.job.attempts := (inv.rows t ht).1
  have hle : (t.job.attempts : Int) ≤ cfg.maxAttempts := hbounded.2 _ hp
  exact ⟨hpos, by unfold Task.claim; omega⟩

/-- An import job as it is filed. -/
def exampleImport : Job where
  id := "job_2"
  kind := .importSpec
  status := .queued
  error := none
  executionId := none
  visibleAt := none
  attempts := 0
  payload := ⟨false, none, none⟩
  createdBy := "usr_1"
  createdAt := 0

/-- The `k`-th time around: claimed past the last deadline, started, and the
    process dies in the handler. -/
def poisonRound (k : Nat) : List Action :=
  [.claim "worker_1" (1000 * k) [] .acked, .checkReclaim k (1000 * k + 1) .acked, .startHandler k,
    .crash "worker_1"]

/-- An import whose handler takes the process down, recovered `n` times. -/
def poisonRun (n : Nat) : List Action :=
  .enqueue exampleImport :: (List.range n).flatMap poisonRound

/-- Six starts under the default budget of five. -/
theorem poisonRun_exceeds_budget :
    ¬ ∀ w, (workers exampleConfig).Reachable w →
      ∀ j, (w.handlerStarts j : Int) ≤ exampleConfig.maxAttempts := by
  intro hclaim
  have hrun : ((workers exampleConfig).runActions World.initial (poisonRun 6)).any (fun w =>
      w.handlerStarts "job_2" = 6) := by
    decide +kernel
  rcases (Option.any_eq_true _ _).mp hrun with ⟨w, hw, hsix⟩
  rw [decide_eq_true_eq] at hsix
  have hreach : (workers exampleConfig).Reachable w :=
    Machine.reachable_runActions (Machine.ReachesWhen.start _ rfl) hw
  have hle := hclaim w hreach "job_2"
  rw [hsix] at hle
  exact absurd hle (by decide)

/-- Five rounds of the same run meet the condition and use the budget up. -/
theorem handlerStarts_le_maxAttempts_poisonRun :
    ∃ w, (workers exampleConfig).runWhen (startsWithinBudget exampleConfig) World.initial
        (poisonRun 5) = some w ∧ w.handlerStarts "job_2" = 5 ∧
      w.handlerStarts "job_2" ≤ exampleConfig.maxAttempts.toNat := by
  have hrun : ((workers exampleConfig).runWhen (startsWithinBudget exampleConfig) World.initial
      (poisonRun 5)).any (fun w => w.handlerStarts "job_2" = 5) := by
    decide +kernel
  rcases (Option.any_eq_true _ _).mp hrun with ⟨w, hw, hfive⟩
  rw [decide_eq_true_eq] at hfive
  exact ⟨w, hw, hfive, handlerStarts_le_maxAttempts
    (Machine.reachesWhen_runWhen (fun _ _ h => h) (Machine.ReachesWhen.start _ rfl) hw) "job_2"⟩

end Jobs

end JenticOne
