import JenticOne.Jobs.HoldSteps

/-!
# Hold and Job Settle Together

A commit is the one step that changes a committed row. What a call is ready to
commit has every hold that it wrote with its job beside it, so the committed rows
agree after it as they did before, and whoever else is under way finds the rows
that it has locked as they were.

A hold that is not pending is changed by no commit. So a hold leaves `pending` at
most once, and what its job ended as is what it stays.

## Main definitions

* `SettledTogether`: What holds of the committed rows in every state.

## Theorems

* `committed_after`: A commit keeps holds and jobs in agreement.
* `pendingCount_after`: A commit adds a pending hold only below the agent's cap.
* `inv_step`: Every step keeps the invariant.
* `settled_stays`: A hold that is not pending stays as it is.
* `hold_and_job_settle_together`: The result, for every run.
-/

namespace JenticOne

namespace Jobs

namespace Holds

open ReadCommitted

/-! ## The rows after a commit -/

section Commit

variable {cfg : HoldConfig} {holds : Rows String HeldExecution Nat} {jobs : Rows String Job Nat}
  {advisory : Int → Option Nat} {tx : Nat} {call : Call} {starts : List String}

/-- A hold as the call sees it: filed, settled with its job, or left alone. -/
theorem visible_cases (h : Written cfg holds jobs advisory tx call []) {id : String}
    {r : HeldExecution} (hr : holds.visible tx id = some r) :
    (∃ f, Filed cfg holds jobs advisory tx call f id r) ∨
      (∃ r₀, holds.committed.get? id = some r₀ ∧ r₀.state = .pending ∧ r.jobId = r₀.jobId ∧
        r.state = holdTarget call ∧ InTime r ∧
        ∃ j, (jobs.writes tx).get? r.jobId = some j ∧ j.status = jobTarget call) ∨
      (holds.writes tx).get? id = none ∧ holds.committed.get? id = some r := by
  cases hw : (holds.writes tx).get? id with
  | none =>
      rw [Rows.visible_of_unwritten hw] at hr
      exact .inr (.inr ⟨rfl, hr⟩)
  | some r' =>
      rw [Rows.visible_of_written hw, Option.some.injEq] at hr
      rw [hr] at hw
      cases h.hold id r hw with
      | filed f hfiled => exact .inl ⟨f, hfiled⟩
      | settled r₀ hsettled =>
          rcases hsettled.job with ⟨howed, -⟩ | ⟨j, hj, hstatus⟩
          · exact absurd howed List.not_mem_nil
          · exact .inr (.inl ⟨r₀, hsettled.committed, hsettled.pending, hsettled.jobId,
              hsettled.state, hsettled.inTime, j, by rw [hsettled.jobId]; exact hj, hstatus⟩)

theorem approved_of_matches {state : HeldExecutionState} {status : JobStatus}
    (h : Matches state status) (hstatus : status = .queued ∨ status = .running) :
    state = .approved := by
  cases state with
  | approved => rfl
  | _ =>
      -- The job would be held, failed or cancelled.
      have hs : status = _ := h
      rw [hs] at hstatus
      exact absurd hstatus (by decide)

/-- The job of a hold that the call has left alone was moved along, if at all. -/
theorem job_of_unwritten (hc : Committed holds.committed jobs.committed starts)
    (h : Written cfg holds jobs advisory tx call []) {id : String} {r : HeldExecution}
    (hr : holds.committed.get? id = some r) (hunwritten : (holds.writes tx).get? id = none)
    {j : Job} (hj : (jobs.writes tx).get? r.jobId = some j) :
    r.state = .approved ∧ j.status ≠ .held := by
  rcases hc.paired id r hr with ⟨j₀, hj₀, hmatch⟩
  have hcommitted : jobs.committed.get? r.jobId ≠ none := by
    rw [hj₀]
    simp only [ne_eq, reduceCtorEq, not_false_eq_true]
  cases h.job r.jobId j hj with
  | filed hnone _ _ _ => exact absurd hnone hcommitted
  | enqueued hnone _ => exact absurd hnone hcommitted
  | released _ _ _ _ hhold =>
      -- A hold that was written with this job would be this one.
      rcases hhold with ⟨k, r', hw, hjob⟩
      cases h.hold k r' hw with
      | filed f hfiled =>
          have hnew := hfiled.jobNew
          rw [hjob] at hnew
          exact absurd hnew hcommitted
      | settled r₀ hsettled =>
          have hid := hc.apart k r₀ id r hsettled.committed hr (hsettled.jobId.symm.trans hjob)
          rw [hid, hunwritten] at hw
          exact absurd hw (by simp only [reduceCtorEq, not_false_eq_true])
  | moved j₁ hj₁ hstatus hne =>
      rw [hj₀, Option.some.injEq] at hj₁
      rw [← hj₁] at hstatus
      exact ⟨approved_of_matches hmatch hstatus, hne⟩

theorem paired_after (hc : Committed holds.committed jobs.committed starts)
    (h : Written cfg holds jobs advisory tx call []) {id : String} {r : HeldExecution}
    (hr : holds.visible tx id = some r) :
    ∃ j, jobs.visible tx r.jobId = some j ∧ Matches r.state j.status := by
  rcases visible_cases h hr with ⟨f, hfiled⟩ | ⟨r₀, -, -, -, hstate, -, j, hj, hstatus⟩ | ⟨hw, hr⟩
  · rcases hfiled.job with ⟨j, hj, hheld⟩
    refine ⟨j, Rows.visible_of_written hj, ?_⟩
    rw [hfiled.pending]
    exact hheld
  · refine ⟨j, Rows.visible_of_written hj, ?_⟩
    rw [hstate, hstatus]
    exact matches_targets call
  · cases hj : (jobs.writes tx).get? r.jobId with
    | none =>
        rcases hc.paired id r hr with ⟨j, hj₀, hmatch⟩
        exact ⟨j, (Rows.visible_of_unwritten hj).trans hj₀, hmatch⟩
    | some j =>
        rcases job_of_unwritten hc h hr hw hj with ⟨happroved, hne⟩
        refine ⟨j, Rows.visible_of_written hj, ?_⟩
        rw [happroved]
        exact hne

/-- A hold as the call sees it is new with its job, or was there with it. -/
theorem new_or_there (h : Written cfg holds jobs advisory tx call []) {id : String}
    {r : HeldExecution} (hr : holds.visible tx id = some r) :
    (holds.writes tx = Dict.empty.set id r ∧ jobs.committed.get? r.jobId = none) ∨
      ∃ r₀, holds.committed.get? id = some r₀ ∧ r₀.jobId = r.jobId := by
  rcases visible_cases h hr with ⟨f, hfiled⟩ | ⟨r₀, hr₀, -, hjobId, -⟩ | ⟨-, hr⟩
  · exact .inl ⟨hfiled.only, hfiled.jobNew⟩
  · exact .inr ⟨r₀, hr₀, hjobId.symm⟩
  · exact .inr ⟨r, hr, rfl⟩

theorem apart_after (hc : Committed holds.committed jobs.committed starts)
    (h : Written cfg holds jobs advisory tx call []) {id id' : String} {r r' : HeldExecution}
    (hr : holds.visible tx id = some r) (hr' : holds.visible tx id' = some r')
    (hjob : r.jobId = r'.jobId) : id = id' := by
  rcases new_or_there h hr with ⟨honly, hnone⟩ | ⟨r₀, hr₀, hj₀⟩ <;>
    rcases new_or_there h hr' with ⟨honly', hnone'⟩ | ⟨r₀', hr₀', hj₀'⟩
  · -- Both are the one hold that the call has filed.
    have hget : ((Dict.empty : Dict String HeldExecution).set id' r').get? id = some r := by
      rw [← honly', honly, Dict.get?_set, if_pos rfl]
    rw [Dict.get?_set, Dict.get?_empty, Option.ite_none_right_eq_some] at hget
    exact hget.1.symm
  · rcases hc.paired id' r₀' hr₀' with ⟨j, hj, -⟩
    rw [hj₀', ← hjob, hnone] at hj
    exact absurd hj (by simp only [reduceCtorEq, not_false_eq_true])
  · rcases hc.paired id r₀ hr₀ with ⟨j, hj, -⟩
    rw [hj₀, hjob, hnone'] at hj
    exact absurd hj (by simp only [reduceCtorEq, not_false_eq_true])
  · exact hc.apart id r₀ id' r₀' hr₀ hr₀' (hj₀.trans (hjob.trans hj₀'.symm))

theorem housed_after (hc : Committed holds.committed jobs.committed starts)
    (h : Written cfg holds jobs advisory tx call []) {id : String} {j : Job}
    (hj : jobs.visible tx id = some j) (hheld : j.status = .held) :
    j.kind = .execution ∧ ∃ k r, holds.visible tx k = some r ∧ r.jobId = id := by
  cases hw : (jobs.writes tx).get? id with
  | some j' =>
      rw [Rows.visible_of_written hw, Option.some.injEq] at hj
      rw [hj] at hw
      cases h.job id j hw with
      | filed _ _ hkind hhold =>
          rcases hhold with ⟨k, r, hr, hjob⟩
          exact ⟨hkind, k, r, Rows.visible_of_written hr, hjob⟩
      | enqueued _ hne => exact absurd hheld hne
      | released _ _ _ hstatus _ => exact absurd (hstatus.symm.trans hheld) (jobTarget_idle call).1
      | moved _ _ _ hne => exact absurd hheld hne
  | none =>
      rw [Rows.visible_of_unwritten hw] at hj
      rcases hc.housed id j hj hheld with ⟨hkind, k, r, hr, hjob⟩
      refine ⟨hkind, k, ?_⟩
      cases hk : (holds.writes tx).get? k with
      | none => exact ⟨r, (Rows.visible_of_unwritten hk).trans hr, hjob⟩
      | some r' =>
          -- The call would have moved the job of a hold that it wrote.
          cases h.hold k r' hk with
          | filed f hfiled =>
              rw [hfiled.new] at hr
              exact absurd hr (by simp only [reduceCtorEq, not_false_eq_true])
          | settled r₀ hsettled =>
              rw [hsettled.committed, Option.some.injEq] at hr
              rcases hsettled.job with ⟨howed, -⟩ | ⟨j', hj', -⟩
              · exact absurd howed List.not_mem_nil
              · rw [hr, hjob, hw] at hj'
                exact absurd hj' (by simp only [reduceCtorEq, not_false_eq_true])

theorem unstarted_after (hc : Committed holds.committed jobs.committed starts)
    (h : Written cfg holds jobs advisory tx call []) {claimed : Option String}
    (hclaimed : ∀ id, claimed = some id →
      ∃ j, (jobs.writes tx).get? id = some j ∧ j.status = .running)
    {id : String} {r : HeldExecution} (hr : holds.visible tx id = some r)
    (hstart : r.jobId ∈ claimed.toList ++ starts) : r.state = .approved := by
  rcases List.mem_append.mp hstart with hstart | hstart
  · rcases hclaimed r.jobId (Option.mem_toList.mp hstart) with ⟨j, hj, hrunning⟩
    rcases visible_cases h hr with ⟨f, hfiled⟩ | ⟨r₀, -, -, -, -, -, j', hj', hstatus⟩ | ⟨hw, hr⟩
    · rcases hfiled.job with ⟨j', hj', hheld⟩
      rw [hj, Option.some.injEq] at hj'
      rw [← hj', hrunning] at hheld
      exact absurd hheld (by decide)
    · rw [hj, Option.some.injEq] at hj'
      rw [← hj', hrunning] at hstatus
      exact absurd hstatus.symm (jobTarget_idle call).2
    · exact (job_of_unwritten hc h hr hw hj).1
  · rcases visible_cases h hr with ⟨f, hfiled⟩ | ⟨r₀, hr₀, hpending, hjobId, -⟩ | ⟨-, hr⟩
    · rcases hc.known r.jobId hstart with ⟨j, hj⟩
      rw [hfiled.jobNew] at hj
      exact absurd hj (by simp only [reduceCtorEq, not_false_eq_true])
    · rw [hjobId] at hstart
      have happroved := hc.unstarted id r₀ hr₀ hstart
      rw [hpending] at happroved
      exact absurd happroved (by decide)
    · exact hc.unstarted id r hr hstart

/-- A commit keeps holds and jobs in agreement. -/
theorem committed_after (hc : Committed holds.committed jobs.committed starts)
    (h : Written cfg holds jobs advisory tx call []) {claimed : Option String}
    (hclaimed : ∀ id, claimed = some id →
      ∃ j, (jobs.writes tx).get? id = some j ∧ j.status = .running) :
    Committed (holds.commit tx).committed (jobs.commit tx).committed
      (claimed.toList ++ starts) where
  paired id r hr := by
    rw [Rows.committed_commit] at hr
    rw [Rows.committed_commit]
    exact paired_after hc h hr
  apart id r id' r' hr hr' hjob := by
    rw [Rows.committed_commit] at hr hr'
    exact apart_after hc h hr hr' hjob
  inTime id r hr := by
    rw [Rows.committed_commit] at hr
    rcases visible_cases h hr with ⟨f, hfiled⟩ | ⟨-, -, -, -, -, hin, -⟩ | ⟨-, hr⟩
    · intro happroved
      rw [hfiled.pending] at happroved
      exact absurd happroved (by decide)
    · exact hin
    · exact hc.inTime id r hr
  housed id j hj hheld := by
    rw [Rows.committed_commit] at hj
    rcases housed_after hc h hj hheld with ⟨hkind, k, r, hr, hjob⟩
    exact ⟨hkind, k, r, (Rows.committed_commit k).trans hr, hjob⟩
  known id hid := by
    rw [Rows.committed_commit]
    rcases List.mem_append.mp hid with hid | hid
    · rcases hclaimed id (Option.mem_toList.mp hid) with ⟨j, hj, -⟩
      exact ⟨j, Rows.visible_of_written hj⟩
    · cases hw : (jobs.writes tx).get? id with
      | some j => exact ⟨j, Rows.visible_of_written hw⟩
      | none =>
          rcases hc.known id hid with ⟨j, hj⟩
          exact ⟨j, (Rows.visible_of_unwritten hw).trans hj⟩
  unstarted id r hr hstart := by
    rw [Rows.committed_commit] at hr
    exact unstarted_after hc h hclaimed hr hstart

/-- A commit adds a pending hold only below the agent's cap, and under its lock. -/
theorem pendingCount_after (h : Written cfg holds jobs advisory tx call []) (agentId : String) :
    pendingCount (holds.commit tx).committed agentId ≤ pendingCount holds.committed agentId ∨
      ∃ f, call = .fileHold f ∧ f.agentId = agentId ∧
        advisory (cfg.lockKey agentId) = some tx ∧
        pendingCount (holds.commit tx).committed agentId ≤ f.maxPending := by
  have hle := Dict.sumBy_override_le holds.committed (holds.writes tx)
    fun _ h => if h.agentId = agentId ∧ h.state = .pending then 1 else 0
  change pendingCount (holds.commit tx).committed agentId ≤
    pendingCount holds.committed agentId + pendingCount (holds.writes tx) agentId at hle
  by_cases hzero : pendingCount (holds.writes tx) agentId = 0
  · exact .inl (by omega)
  · -- Some hold that was written is a pending one of this agent, so it was filed.
    have hexists : ∃ k r, (holds.writes tx).get? k = some r ∧ r.agentId = agentId ∧
        r.state = .pending := by
      by_contra hnone
      refine hzero (Dict.sumBy_eq_zero_iff.mpr fun k r hr => if_neg fun hp => ?_)
      exact hnone ⟨k, r, hr, hp⟩
    rcases hexists with ⟨k, r, hr, hagent, hpending⟩
    cases h.hold k r hr with
    | filed f hfiled =>
        refine .inr ⟨f, hfiled.filing, hfiled.agent.symm.trans hagent, ?_, ?_⟩
        · rw [← hagent, hfiled.agent]
          exact hfiled.lock
        · have hone : pendingCount (holds.writes tx) agentId = 1 := by
            have hset := Dict.sumBy_set (Dict.empty : Dict String HeldExecution)
              (fun _ h => if h.agentId = agentId ∧ h.state = .pending then 1 else 0) k r
            rw [if_pos ⟨hagent, hpending⟩] at hset
            rw [hfiled.only]
            exact hset
          have hroom := hfiled.room
          rw [← hfiled.agent, hagent] at hroom
          omega
    | settled r₀ hsettled =>
        rw [hsettled.state] at hpending
        exact absurd hpending (holdTarget_ne_pending call)

theorem indexed_after (h : Indexed holds) : Indexed (holds.commit tx) := by
  have hvisible : ∀ id r, (holds.commit tx).committed.get? id = some r →
      (holds.writes tx).get? id = some r ∨ holds.committed.get? id = some r := by
    intro id r hr
    rw [Rows.committed_commit, Rows.visible, Option.or_eq_some_iff] at hr
    exact hr.imp (fun hr => hr) (fun hr => hr.2)
  have hwrites : ∀ t id r, ((holds.commit tx).writes t).get? id = some r →
      t ≠ tx ∧ (holds.writes t).get? id = some r := by
    intro t id r hr
    by_cases ht : t = tx
    · rw [ht, Rows.writes_commit, Dict.get?_empty] at hr
      exact absurd hr (by simp only [reduceCtorEq, not_false_eq_true])
    · rw [(Rows.frame_commit holds tx).writes t ht] at hr
      exact ⟨ht, hr⟩
  refine ⟨?_, ?_, ?_⟩
  · intro id r id' r' hr hr' hp hp' hfp
    rcases hvisible id r hr with hr | hr <;> rcases hvisible id' r' hr' with hr' | hr'
    · exact (h.between tx id r tx id' r' hr hr' hp hp' hfp).2
    · exact absurd hfp (h.among tx id r id' r' hr hr' hp hp')
    · exact absurd hfp.symm (h.among tx id' r' id r hr' hr hp' hp)
    · exact h.committed id r id' r' hr hr' hp hp' hfp
  · intro t id r t' id' r' hr hr' hp hp' hfp
    exact h.between t id r t' id' r' (hwrites t id r hr).2 (hwrites t' id' r' hr').2 hp hp' hfp
  · intro t id r id' r' hr hr' hp hp' hfp
    rcases hwrites t id r hr with ⟨ht, hr⟩
    rcases hvisible id' r' hr' with hr' | hr'
    · exact ht (h.between t id r tx id' r' hr hr' hp hp' hfp).1
    · exact h.among t id r id' r' hr hr' hp hp' hfp

/-- What another call finds after a commit. -/
theorem beside_commit (h : Written cfg holds jobs advisory tx call []) {t : Nat} (ht : t ≠ tx) :
    Beside cfg holds (holds.commit tx) jobs (jobs.commit tx) advisory
      (releaseAdvisory advisory tx) t where
  holdWrites := (Rows.frame_commit holds tx).writes t ht
  jobWrites := (Rows.frame_commit jobs tx).writes t ht
  holdKept k hk := (Rows.frame_commit holds tx).kept t k ht hk
  jobKept k hk := (Rows.frame_commit jobs tx).kept t k ht hk
  locks k hk := releaseAdvisory_other ht hk
  counted agentId hlock := by
    rcases pendingCount_after h agentId with hle | ⟨f, -, -, hlock', -⟩
    · exact hle
    · -- The two calls cannot both have the lock of the agent.
      rw [hlock, Option.some.injEq] at hlock'
      exact absurd hlock' ht
  unheld k j hj hne := by
    rw [Rows.committed_commit]
    cases hw : (jobs.writes tx).get? k with
    | none => exact ⟨j, (Rows.visible_of_unwritten hw).trans hj, hne⟩
    | some j' =>
        refine ⟨j', Rows.visible_of_written hw, ?_⟩
        cases h.job k j' hw with
        | filed hnone _ _ _ =>
            rw [hj] at hnone
            exact absurd hnone (by simp only [reduceCtorEq, not_false_eq_true])
        | enqueued _ hne' => exact hne'
        | released _ _ _ hstatus _ =>
            rw [hstatus]
            exact (jobTarget_idle call).1
        | moved _ _ _ hne' => exact hne'

end Commit

/-! ## Runs -/

section Runs

variable {cfg : HoldConfig} {w w' : World} {tx : Nat} {s : Session}

theorem inv_commit (inv : HoldInv cfg w) (hs : w.sessions[tx]? = some s) {claimed : Option String}
    (hphase : PhaseInv cfg w.holds w.jobs w.advisory tx s.call (.ready claimed)) :
    HoldInv cfg (commit w tx s.call claimed) where
  committed := committed_after inv.committed hphase.1 hphase.2
  indexed := indexed_after inv.indexed
  idle t ht := by
    rw [commit, List.length_set] at ht
    have hlt := (List.getElem?_eq_some_iff.mp hs).1
    have hne : t ≠ tx := by omega
    have hidle := inv.idle t ht
    exact ⟨((Rows.frame_commit w.holds tx).writes t hne).trans hidle.1,
      ((Rows.frame_commit w.jobs tx).writes t hne).trans hidle.2⟩
  session t s' hs' := by
    rcases Lists.getElem?_set_cases hs' with ⟨hs', hne⟩ | ⟨rfl, rfl⟩
    · exact phaseInv_beside (beside_commit hphase.1 hne) (inv.session t s' hs')
    · exact trivial
  capped agentId cap hcap := by
    have hbefore := capAtMost_of_set hs hcap
    rcases pendingCount_after hphase.1 agentId with hle | ⟨f, hf, hagent, -, hle⟩
    · exact hle.trans (inv.capped agentId cap hbefore)
    · exact hle.trans (hbefore s (List.mem_iff_getElem?.mpr ⟨tx, hs⟩) f hf hagent)

theorem inv_receive (inv : HoldInv cfg w) (call : Call) :
    HoldInv cfg { w with sessions := w.sessions ++ [⟨call, .called⟩] } where
  committed := inv.committed
  indexed := inv.indexed
  idle t ht := by
    rw [List.length_append, List.length_singleton] at ht
    exact inv.idle t (by omega)
  session t s hs := by
    rcases Lists.getElem?_append_cases hs with ⟨hs, -⟩ | ⟨rfl, rfl⟩
    · exact inv.session t s hs
    · exact inv.idle _ (Nat.le_refl _)
  capped agentId cap hcap :=
    inv.capped agentId cap fun s hs => hcap s (List.mem_append_left _ hs)

/-- A step is a call that comes, a commit, or a quiet step of a call. -/
theorem step_cases (inv : HoldInv cfg w) {a : Action} (h : step cfg w a = some w') :
    (∃ call, w' = { w with sessions := w.sessions ++ [⟨call, .called⟩] }) ∨
      ∃ tx s, w.sessions[tx]? = some s ∧
        ((∃ claimed, PhaseInv cfg w.holds w.jobs w.advisory tx s.call (.ready claimed) ∧
            w' = commit w tx s.call claimed) ∨
          ∃ phase', Quiet cfg w w' tx s.call phase') := by
  unfold step at h
  split at h
  · rw [Option.some.injEq] at h
    exact .inl ⟨_, h.symm⟩
  · next tx _ _ =>
      rw [Option.bind_eq_some_iff] at h
      rcases h with ⟨s, hs, h⟩
      have hphase := inv.session tx s hs
      refine .inr ⟨tx, s, hs, ?_⟩
      rcases sessionStep_quiet inv hphase h with ⟨claimed, hready, hw'⟩ | hquiet
      · rw [hready] at hphase
        exact .inl ⟨claimed, hphase, hw'⟩
      · exact .inr hquiet
  · exact absurd h (by simp only [reduceCtorEq, not_false_eq_true])

theorem inv_step (inv : HoldInv cfg w) {a : Action} (h : step cfg w a = some w') :
    HoldInv cfg w' := by
  rcases step_cases inv h with ⟨call, rfl⟩ | ⟨tx, s, hs, ⟨claimed, hphase, rfl⟩ | ⟨phase', q⟩⟩
  · exact inv_receive inv call
  · exact inv_commit inv hs hphase
  · exact inv_quiet inv hs q

/-- A hold that is not pending stays as it is. -/
theorem settled_stays (inv : HoldInv cfg w) {a : Action} (h : step cfg w a = some w')
    {id : String} {r : HeldExecution} (hr : w.holds.committed.get? id = some r)
    (hne : r.state ≠ .pending) : w'.holds.committed.get? id = some r := by
  rcases step_cases inv h with ⟨call, rfl⟩ | ⟨tx, s, hs, ⟨claimed, hphase, rfl⟩ | ⟨phase', q⟩⟩
  · exact hr
  · refine (Rows.committed_commit id).trans ?_
    cases hw : (w.holds.writes tx).get? id with
    | none => exact (Rows.visible_of_unwritten hw).trans hr
    | some r' =>
        cases hphase.1.hold id r' hw with
        | filed f hfiled =>
            rw [hfiled.new] at hr
            exact absurd hr (by simp only [reduceCtorEq, not_false_eq_true])
        | settled r₀ hsettled =>
            rw [hsettled.committed, Option.some.injEq] at hr
            rw [← hr] at hne
            exact absurd hsettled.pending hne
  · rw [q.holdsKept]
    exact hr

/-- What holds of the committed rows in every state. -/
structure SettledTogether (w : World) : Prop where
  /-- A hold is pending if and only if its job is held, and where it was turned down
      its job has ended. -/
  agree : ∀ id h, w.holds.committed.get? id = some h →
    ∃ j, w.jobs.committed.get? h.jobId = some j ∧ (h.state = .pending ↔ j.status = .held) ∧
      (h.state = .denied → j.status = .failed) ∧ (h.state = .expired → j.status = .failed) ∧
      (h.state = .withdrawn → j.status = .cancelled)
  /-- A held job has a pending hold. -/
  housed : ∀ id j, w.jobs.committed.get? id = some j → j.status = .held →
    ∃ k h, w.holds.committed.get? k = some h ∧ h.jobId = id ∧ h.state = .pending
  inTime : ∀ id h, w.holds.committed.get? id = some h → h.state = .approved →
    ∃ t, h.decidedAt = some t ∧ t < h.expiresAt
  /-- No claim has handed out the job of a hold that was not approved. -/
  unstarted : ∀ id h, w.holds.committed.get? id = some h → h.state ≠ .approved →
    h.jobId ∉ w.starts
  fingerprints : ∀ id h id' h', w.holds.committed.get? id = some h →
    w.holds.committed.get? id' = some h' → h.state = .pending → h'.state = .pending →
    h.requestFingerprint = h'.requestFingerprint → id = id'

theorem pending_iff_held {state : HeldExecutionState} {status : JobStatus}
    (h : Matches state status) : state = .pending ↔ status = .held := by
  cases state with
  | pending => exact ⟨fun _ => h, fun _ => rfl⟩
  | approved => exact ⟨fun hs => absurd hs (by decide), fun hs => absurd hs h⟩
  | _ =>
      have hs : status = _ := h
      rw [hs]
      decide

theorem settledTogether_of_inv (inv : HoldInv cfg w) : SettledTogether w where
  agree id h hh := by
    rcases inv.committed.paired id h hh with ⟨j, hj, hmatch⟩
    refine ⟨j, hj, pending_iff_held hmatch, ?_, ?_, ?_⟩ <;>
      · intro hstate
        rw [hstate] at hmatch
        exact hmatch
  housed id j hj hheld := by
    rcases (inv.committed.housed id j hj hheld).2 with ⟨k, h, hh, hjob⟩
    rcases inv.committed.paired k h hh with ⟨j', hj', hmatch⟩
    rw [hjob, hj, Option.some.injEq] at hj'
    rw [← hj'] at hmatch
    exact ⟨k, h, hh, hjob, (pending_iff_held hmatch).mpr hheld⟩
  inTime := inv.committed.inTime
  unstarted id h hh hne hstart := hne (inv.committed.unstarted id h hh hstart)
  fingerprints := inv.indexed.committed

/-- Hold and job settle together, the caps are kept, and a hold that has left
    `pending` stays as it is whatever comes after. -/
theorem hold_and_job_settle_together (hw : (holdService cfg).Reachable w) :
    SettledTogether w ∧
      (∀ agentId cap, CapAtMost w.sessions agentId cap →
        pendingCount w.holds.committed agentId ≤ cap) ∧
      ∀ acts w', (holdService cfg).runActions w acts = some w' → SettledTogether w' ∧
        ∀ id h, w.holds.committed.get? id = some h → h.state ≠ .pending →
          w'.holds.committed.get? id = some h := by
  have inv : HoldInv cfg w := by
    refine Machine.reachable_invariant (P := HoldInv cfg) (fun w hw => ?_)
      (fun w a w' inv h => inv_step inv h) hw
    rw [show w = World.initial from hw]
    exact inv_initial cfg
  refine ⟨settledTogether_of_inv inv, inv.capped, fun acts w' hrun => ?_⟩
  have hafter : HoldInv cfg w' ∧ ∀ id h, w.holds.committed.get? id = some h →
      h.state ≠ .pending → w'.holds.committed.get? id = some h := by
    refine Machine.runActions_invariant (P := fun w' => HoldInv cfg w' ∧
      ∀ id h, w.holds.committed.get? id = some h → h.state ≠ .pending →
        w'.holds.committed.get? id = some h) ?_ ⟨inv, fun _ _ hh _ => hh⟩ hrun
    intro a _ w₁ w₂ ⟨inv₁, hkept⟩ hstep
    exact ⟨inv_step inv₁ hstep,
      fun id h hh hne => settled_stays inv₁ hstep (hkept id h hh hne) hne⟩
  exact ⟨settledTogether_of_inv hafter.1, hafter.2⟩

/-- A filing that leaves room for no other. -/
def onlyFiling : HoldFiling :=
  { agentId := "agnt_1", fingerprint := "fp", executionId := "exec_1",
    payload := { dispatched := false, executionId := none, traceId := none },
    jobId := "job_1", approvalId := "hold_1", ttl := 100, maxPending := 1 }

def calls : List Call :=
  [.fileHold onlyFiling, .decide "hold_1" true "usr_1" none, .expireLapsedApprovals,
    .claim [.execution] 60]

/-- The hold is approved while an expiry sweep waits for its row, and the sweep
    finds it approved. -/
def approvedWhileSwept : List Action :=
  calls.map .receive ++
  [.lockAgent 0, .selectPending 0, .countPending 0, .insertHeld 0 10, .commit 0,
    .beginStatement 1 109, .beginStatement 2 110, .takeRow 1 "hold_1", .endStatement 1,
    .moveJob 1, .endStatement 1, .commit 1, .takeRow 2 "hold_1", .endStatement 2,
    .endStatement 2, .commit 2, .claimRow 3 "job_1" 120, .commit 3]

theorem hold_and_job_settle_together_approvedWhileSwept :
    ∃ w, (holdService ⟨fun _ => 0⟩).runActions World.initial approvedWhileSwept = some w ∧
      (w.holds.committed.get? "hold_1").map HeldExecution.state = some .approved ∧
      w.starts = ["job_1"] ∧ SettledTogether w ∧
      pendingCount w.holds.committed "agnt_1" ≤ 1 := by
  have hrun : ((holdService ⟨fun _ => 0⟩).runActions World.initial approvedWhileSwept).any
      (fun w => (w.holds.committed.get? "hold_1").map HeldExecution.state = some .approved &&
        w.starts = ["job_1"] && w.sessions.map Session.call = calls) := by
    decide +kernel
  rcases (Option.any_eq_true _ _).mp hrun with ⟨w, hw, hcheck⟩
  rw [Bool.and_eq_true, Bool.and_eq_true, decide_eq_true_eq, decide_eq_true_eq,
    decide_eq_true_eq] at hcheck
  have hreach := Machine.reachable_runActions (Machine.ReachesWhen.start _ rfl) hw
  have htogether := hold_and_job_settle_together hreach
  refine ⟨w, hw, hcheck.1.1, hcheck.1.2, htogether.1, htogether.2.1 "agnt_1" 1 ?_⟩
  intro s hs f hf _
  -- The one filing among the calls is the one above.
  have hmem : Call.fileHold f ∈ calls := by
    rw [← hcheck.2, ← hf]
    exact List.mem_map_of_mem hs
  simp only [calls, List.mem_cons, Call.fileHold.injEq, reduceCtorEq, List.not_mem_nil,
    or_false] at hmem
  rw [hmem]
  exact Nat.le_refl 1

end Runs

end Holds

end Jobs

end JenticOne
