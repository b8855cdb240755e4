import JenticOne.Jobs.HoldRuns

/-!
# Statements That Settle, File and Move

What each statement of a call does to the rows that are under way. None of them
commits, so each is a quiet step, and what is left to show is that the call is in
order after it.

Two facts carry the settling calls. A hold that meets the condition of an update
has not been written yet, and its job has not either, since a job that is written
is new, or was not held, or belongs to a hold that is written; and no two holds
have one job. And a job that is owed is still held when its turn comes: its hold
is committed as pending, and locked.

## Theorems

* `written_settle`: A hold is settled and its job is owed.
* `written_moveJob`: A job that was owed is moved.
* `written_filed`: A hold is filed with its job.
* `sessionStep_quiet`: Every action but a commit is a quiet step.
-/

namespace JenticOne

namespace Jobs

namespace Holds

open ReadCommitted

section Writes

variable {cfg : HoldConfig} {holds holds' : Rows String HeldExecution Nat}
  {jobs jobs' : Rows String Job Nat} {advisory : Int → Option Nat} {tx : Nat} {call : Call}
  {owed : List (String × String)} {starts : List String}

/-! ## Settling -/

theorem settles_pending {call : Call} {now : Time} {h : HeldExecution}
    (hs : settles call now h = true) : h.state = .pending := by
  unfold settles at hs
  rw [Bool.and_eq_true, decide_eq_true_eq] at hs
  exact hs.1

theorem not_settles_fileHold {f : HoldFiling} {now : Time} {h : HeldExecution} :
    settles (.fileHold f) now h = false := by
  simp only [settles, Bool.and_false]

/-- An approval is an update of a hold that has not expired. -/
theorem inTime_settleHold {now : Time} {h : HeldExecution} (hs : settles call now h = true) :
    InTime (settleHold call now h) := by
  intro happroved
  refine ⟨now, rfl, ?_⟩
  cases call with
  | decide approvalId approve reviewer reason =>
      simp only [settles, Bool.and_eq_true, decide_eq_true_eq] at hs
      exact hs.2.2
  | withdraw approvalId filer => exact absurd happroved (by simp [settleHold, holdTarget])
  | withdrawPendingForAgent agentId actorId =>
      exact absurd happroved (by simp [settleHold, holdTarget])
  | expireLapsedApprovals => exact absurd happroved (by simp [settleHold, holdTarget])
  | _ => exact absurd hs (by simp [settles])

/-- A hold that a call has written is not one that it would still settle. -/
theorem not_settles_of_written (h : Written cfg holds jobs advisory tx call owed) {id : String}
    {r : HeldExecution} (hw : (holds.writes tx).get? id = some r) (now : Time) :
    settles call now r = false := by
  cases h.hold id r hw with
  | filed f hfiled =>
      rw [hfiled.filing]
      exact not_settles_fileHold
  | settled h₀ hsettled =>
      rw [Bool.eq_false_iff]
      intro hs
      have hpending := settles_pending hs
      rw [hsettled.state] at hpending
      exact holdTarget_ne_pending call hpending

/-- The job of a hold that is settled next has not been written. -/
theorem job_unwritten (hc : Committed holds.committed jobs.committed starts)
    (h : Written cfg holds jobs advisory tx call owed) (hcall : ∀ f, call ≠ .fileHold f)
    {id : String} {r : HeldExecution} (hr : holds.committed.get? id = some r)
    (hpending : r.state = .pending) (hunwritten : (holds.writes tx).get? id = none) :
    (jobs.writes tx).get? r.jobId = none := by
  rcases hc.paired id r hr with ⟨j, hj, hmatch⟩
  rw [hpending] at hmatch
  -- A hold that was written with this job would be this one.
  have hnone : ¬ HasHold holds tx r.jobId := by
    rintro ⟨k, hk, hw, hjob⟩
    cases h.hold k hk hw with
    | filed f hfiled => exact hcall f hfiled.filing
    | settled h₀ hsettled =>
        have hid := hc.apart k h₀ id r hsettled.committed hr (hsettled.jobId.symm.trans hjob)
        rw [hid, hunwritten] at hw
        exact absurd hw (by simp only [reduceCtorEq, not_false_eq_true])
  cases hw : (jobs.writes tx).get? r.jobId with
  | none => rfl
  | some j' =>
      cases h.job r.jobId j' hw with
      | filed _ _ _ hhold => exact absurd hhold hnone
      | enqueued hnew _ =>
          rw [hj] at hnew
          exact absurd hnew (by simp only [reduceCtorEq, not_false_eq_true])
      | released _ _ _ _ hhold => exact absurd hhold hnone
      | moved j₀ hj₀ hstatus _ =>
          rw [hj, Option.some.injEq] at hj₀
          rw [← hj₀, hmatch] at hstatus
          exact absurd hstatus (by decide)

/-- A hold is settled, and its job is owed. -/
theorem written_settle (hc : Committed holds.committed jobs.committed starts)
    (h : Written cfg holds jobs advisory tx call owed) (hcommitted : holds'.committed = holds.committed)
    {id : String} {now : Time} {r : HeldExecution} (hr : holds.visible tx id = some r)
    (hs : settles call now r = true)
    (hwrites : holds'.writes tx = (holds.writes tx).set id (settleHold call now r)) :
    Written cfg holds' jobs advisory tx call (owed ++ [(id, r.jobId)]) := by
  have hcall : ∀ f, call ≠ .fileHold f := by
    rintro f rfl
    rw [not_settles_fileHold] at hs
    exact absurd hs (by decide)
  have hunwritten : (holds.writes tx).get? id = none := by
    cases hw : (holds.writes tx).get? id with
    | none => rfl
    | some r' =>
        rw [Rows.visible_of_written hw, Option.some.injEq] at hr
        rw [hr] at hw
        rw [not_settles_of_written h hw now] at hs
        exact absurd hs (by decide)
  rw [Rows.visible_of_unwritten hunwritten] at hr
  have hjob := job_unwritten hc h hcall hr (settles_pending hs) hunwritten
  have hkeep : ∀ k h', (holds.writes tx).get? k = some h' → (holds'.writes tx).get? k = some h' := by
    intro k h' hw
    rw [hwrites, Dict.get?_set, if_neg]
    · exact hw
    · intro hk
      rw [← hk, hunwritten] at hw
      exact absurd hw (by simp only [reduceCtorEq, not_false_eq_true])
  have hnew : (holds'.writes tx).get? id = some (settleHold call now r) := by
    rw [hwrites, Dict.get?_set, if_pos rfl]
  have hhas : ∀ k, HasHold holds tx k → HasHold holds' tx k :=
    fun k ⟨i, h', hw, hk⟩ => ⟨i, h', hkeep i h' hw, hk⟩
  refine ⟨fun k h' hw => ?_, fun k j' hw => ?_, fun p hp => ?_, ?_⟩
  · rw [hwrites, Dict.get?_set] at hw
    split at hw
    · next hk =>
        rw [Option.some.injEq] at hw
        rw [← hk, ← hw]
        exact .settled r ⟨by rw [hcommitted]; exact hr, settles_pending hs, rfl, rfl,
          inTime_settleHold hs, .inl ⟨List.mem_append_right _ List.mem_cons_self, hjob⟩⟩
    · cases h.hold k h' hw with
      | filed f hfiled => exact absurd hfiled.filing (hcall f)
      | settled h₀ hsettled =>
          exact .settled h₀ ⟨by rw [hcommitted]; exact hsettled.committed, hsettled.pending,
            hsettled.jobId, hsettled.state, hsettled.inTime,
            hsettled.job.imp (fun hj => ⟨List.mem_append_left _ hj.1, hj.2⟩) fun hj => hj⟩
  · cases h.job k j' hw with
    | filed hnone hheld hkind hhold => exact .filed hnone hheld hkind (hhas k hhold)
    | enqueued hnone hne => exact .enqueued hnone hne
    | released j hj hheld hstatus hhold => exact .released j hj hheld hstatus (hhas k hhold)
    | moved j hj hstatus hne => exact .moved j hj hstatus hne
  · rcases List.mem_append.mp hp with hp | hp
    · rcases h.owes p hp with ⟨h', hw, hjobId, hnone⟩
      exact ⟨h', hkeep p.1 h' hw, hjobId, hnone⟩
    · rw [List.mem_singleton.mp hp]
      exact ⟨_, hnew, rfl, hjob⟩
  · refine List.nodup_append.mpr ⟨h.nodup, List.nodup_singleton _, ?_⟩
    rintro p hp q hq rfl
    -- What is owed already has been written.
    rcases h.owes p hp with ⟨h', hw, -⟩
    rw [List.mem_singleton.mp hq, hunwritten] at hw
    exact absurd hw (by simp only [reduceCtorEq, not_false_eq_true])

/-! ## Jobs that are owed -/

/-- The job of a hold that was settled is held until it is moved. -/
theorem owed_held (hc : Committed holds.committed jobs.committed starts)
    (h : Written cfg holds jobs advisory tx call owed) {p : String × String} (hp : p ∈ owed) :
    (∃ j, jobs.visible tx p.2 = some j ∧ jobs.committed.get? p.2 = some j ∧ j.status = .held) ∧
      ∃ h₀, holds.committed.get? p.1 = some h₀ ∧ h₀.jobId = p.2 := by
  rcases h.owes p hp with ⟨h', hw, hjobId, hnone⟩
  cases h.hold p.1 h' hw with
  | filed f hfiled =>
      rcases hfiled.job with ⟨j, hj, -⟩
      rw [hjobId, hnone] at hj
      exact absurd hj (by simp only [reduceCtorEq, not_false_eq_true])
  | settled h₀ hsettled =>
      have hid := hsettled.jobId.symm.trans hjobId
      rcases hc.paired p.1 h₀ hsettled.committed with ⟨j, hj, hmatch⟩
      rw [hsettled.pending] at hmatch
      rw [hid] at hj
      exact ⟨⟨j, (Rows.visible_of_unwritten hnone).trans hj, hj, hmatch⟩, h₀,
        hsettled.committed, hid⟩

/-- A job that was owed is moved. -/
theorem written_moveJob (hc : Committed holds.committed jobs.committed starts)
    {p : String × String} (h : Written cfg holds jobs advisory tx call (p :: owed))
    (hcommitted : jobs'.committed = jobs.committed) {j : Job} (hj : jobs.visible tx p.2 = some j)
    (hwrites : jobs'.writes tx = (jobs.writes tx).set p.2 (settleJob call j)) :
    Written cfg holds jobs' advisory tx call owed := by
  rcases owed_held hc h List.mem_cons_self with ⟨⟨j₀, hj₀, hjc, hheld⟩, h₁, hh₁, hjobId₁⟩
  rw [hj, Option.some.injEq] at hj₀
  rw [← hj₀] at hjc hheld
  rcases h.owes p List.mem_cons_self with ⟨hp, hwp, hjobp, hnone⟩
  have hnodup := List.nodup_cons.mp h.nodup
  -- No other hold that is owed has this job.
  have hother : ∀ q ∈ owed, q.2 ≠ p.2 := by
    intro q hq hqp
    rcases (owed_held hc h (List.mem_cons_of_mem p hq)).2 with ⟨h₂, hh₂, hjobId₂⟩
    have hid := hc.apart q.1 h₂ p.1 h₁ hh₂ hh₁ ((hjobId₂.trans hqp).trans hjobId₁.symm)
    rw [Prod.ext hid hqp] at hq
    exact hnodup.1 hq
  have hkeep : ∀ k j', (jobs.writes tx).get? k = some j' → (jobs'.writes tx).get? k = some j' := by
    intro k j' hw
    rw [hwrites, Dict.get?_set, if_neg]
    · exact hw
    · intro hk
      rw [← hk, hnone] at hw
      exact absurd hw (by simp only [reduceCtorEq, not_false_eq_true])
  have hstill : ∀ k, k ≠ p.2 → (jobs.writes tx).get? k = none → (jobs'.writes tx).get? k = none := by
    intro k hk hw
    rw [hwrites, Dict.get?_set, if_neg (Ne.symm hk)]
    exact hw
  refine ⟨fun k h' hw => ?_, fun k j' hw => ?_, fun q hq => ?_, hnodup.2⟩
  · cases h.hold k h' hw with
    | filed f hfiled =>
        rcases hfiled.job with ⟨j', hj', hheld'⟩
        exact .filed f ⟨hfiled.filing, hfiled.only, hfiled.new, hfiled.pending, hfiled.agent,
          by rw [hcommitted]; exact hfiled.jobNew, ⟨j', hkeep _ j' hj', hheld'⟩, hfiled.lock,
          hfiled.room⟩
    | settled h₂ hsettled =>
        refine .settled h₂ ⟨hsettled.committed, hsettled.pending, hsettled.jobId, hsettled.state,
          hsettled.inTime, ?_⟩
        rcases hsettled.job with ⟨howed, hunmoved⟩ | ⟨j', hj', hstatus⟩
        · rcases List.mem_cons.mp howed with heq | howed
          · refine .inr ⟨settleJob call j, ?_, rfl⟩
            rw [← heq] at hwrites
            rw [hwrites, Dict.get?_set, if_pos rfl]
          · exact .inl ⟨howed, hstill _ (hother _ howed) hunmoved⟩
        · exact .inr ⟨j', hkeep _ j' hj', hstatus⟩
  · rw [hwrites, Dict.get?_set] at hw
    split at hw
    · next hk =>
        rw [Option.some.injEq] at hw
        rw [← hk, ← hw]
        exact .released j (by rw [hcommitted]; exact hjc) hheld rfl ⟨p.1, hp, hwp, hjobp⟩
    · cases h.job k j' hw with
      | filed hnew hh hkind hhold => exact .filed (by rw [hcommitted]; exact hnew) hh hkind hhold
      | enqueued hnew hne => exact .enqueued (by rw [hcommitted]; exact hnew) hne
      | released j₀ hj₀ hh hstatus hhold =>
          exact .released j₀ (by rw [hcommitted]; exact hj₀) hh hstatus hhold
      | moved j₀ hj₀ hstatus hne => exact .moved j₀ (by rw [hcommitted]; exact hj₀) hstatus hne
  · rcases h.owes q (List.mem_cons_of_mem p hq) with ⟨h', hw, hjobId, hunmoved⟩
    exact ⟨h', hw, hjobId, hstill _ (hother q hq) hunmoved⟩

/-! ## Cancelling -/

/-- What a sweep cancels was queued or running, or has been cancelled by it. -/
theorem jobWrite_sweep (hempty : holds.writes tx = Dict.empty)
    (h : Written cfg holds jobs advisory tx call []) (hcommitted : jobs'.committed = jobs.committed)
    {id : String} {r : Job} (hr : jobs.visible tx id = some r) (hs : sweeps call r = true) :
    JobWrite holds jobs' tx call id (cancelled r) := by
  have hstatus : r.status = .queued ∨ r.status = .running := by
    unfold sweeps at hs
    split at hs
    · rw [Bool.and_eq_true, Bool.or_eq_true, decide_eq_true_eq, decide_eq_true_eq,
        decide_eq_true_eq] at hs
      exact hs.2
    · rw [Bool.and_eq_true, decide_eq_true_eq] at hs
      exact .inl hs.2
    · exact absurd hs (by decide)
  have hne : (cancelled r).status ≠ .held := by
    simp only [cancelled, ne_eq, reduceCtorEq, not_false_eq_true]
  have hnohold : ∀ k, ¬ HasHold holds tx k := by
    rintro k ⟨i, h', hw, -⟩
    rw [hempty, Dict.get?_empty] at hw
    exact absurd hw (by simp only [reduceCtorEq, not_false_eq_true])
  cases hw : (jobs.writes tx).get? id with
  | none =>
      rw [Rows.visible_of_unwritten hw, ← hcommitted] at hr
      exact .moved r hr hstatus hne
  | some j' =>
      cases h.job id j' hw with
      | filed _ _ _ hhold => exact absurd hhold (hnohold id)
      | enqueued hnew _ => exact .enqueued (by rw [hcommitted]; exact hnew) hne
      | released _ _ _ _ hhold => exact absurd hhold (hnohold id)
      | moved j hj hbefore _ => exact .moved j (by rw [hcommitted]; exact hj) hbefore hne

/-! ## Filing -/

/-- A hold is filed with its job. -/
theorem written_filed (hblank : Blank holds jobs tx) {f : HoldFiling} {now : Time}
    (hcall : call = .fileHold f) (hlock : advisory (cfg.lockKey f.agentId) = some tx)
    (hroom : pendingCount holds.committed f.agentId < f.maxPending)
    (hjobs : jobs.insert tx f.jobId (filedJob f now) = some jobs')
    (hholds : holds.insert tx f.approvalId (filedHold f now) = some holds') :
    Written cfg holds' jobs' advisory tx call [] := by
  rcases Rows.insert_eq_some hjobs with ⟨-, hjobNew, hjc, hjw, -, -⟩
  rcases Rows.insert_eq_some hholds with ⟨-, hnew, hhc, hhw, -, -⟩
  rw [hblank.1] at hhw
  rw [hblank.2] at hjw
  have hhold : (holds'.writes tx).get? f.approvalId = some (filedHold f now) := by
    rw [hhw, Dict.get?_set, if_pos rfl]
  have hjob : (jobs'.writes tx).get? f.jobId = some (filedJob f now) := by
    rw [hjw, Dict.get?_set, if_pos rfl]
  refine ⟨fun k h' hw => ?_, fun k j' hw => ?_, fun p hp => absurd hp List.not_mem_nil,
    List.nodup_nil⟩
  · rw [hhw, Dict.get?_set, Dict.get?_empty, Option.ite_none_right_eq_some,
      Option.some.injEq] at hw
    rw [← hw.1, ← hw.2]
    exact .filed f ⟨hcall, hhw, by rw [hhc]; exact hnew, rfl, rfl, by rw [hjc]; exact hjobNew,
      ⟨_, hjob, rfl⟩, hlock, by rw [hhc]; exact hroom⟩
  · rw [hjw, Dict.get?_set, Dict.get?_empty, Option.ite_none_right_eq_some,
      Option.some.injEq] at hw
    rw [← hw.1, ← hw.2]
    exact .filed (by rw [hjc]; exact hjobNew) rfl rfl ⟨f.approvalId, _, hhold, rfl⟩

end Writes

/-! ## The actions -/

section Actions

variable {cfg : HoldConfig} {w w' : World} {tx : Nat} {call : Call} {phase : Phase}

/-- A statement on one job. -/
theorem quiet_withJobs (inv : HoldInv cfg w) {jobs : Rows String Job Nat} {phase' : Phase}
    (hframe : Rows.Frame w.jobs jobs tx) (hc : jobs.committed = w.jobs.committed)
    (h : PhaseInv cfg w.holds jobs w.advisory tx call phase') :
    Quiet cfg w ((w.withJobs jobs).setPhase tx call phase') tx call phase' where
  sessions := rfl
  holds := Rows.frame_refl _ _
  jobs := hframe
  holdsKept := rfl
  jobsKept := hc
  starts := rfl
  locks _ _ _ hk := hk
  indexed := inv.indexed
  inv := h

theorem pendingFor_iff {fingerprint : String} {h : HeldExecution} :
    pendingFor fingerprint h = true ↔ h.requestFingerprint = fingerprint ∧ h.state = .pending := by
  unfold pendingFor
  rw [Bool.and_eq_true, decide_eq_true_eq, decide_eq_true_eq]

/-- A fingerprint that the index has no row of, for anybody, may be filed. -/
theorem indexed_insert (inv : HoldInv cfg w) (hblank : Blank w.holds w.jobs tx) {f : HoldFiling}
    {now : Time} {holds : Rows String HeldExecution Nat}
    (hbusy : indexBusy w tx f.fingerprint = false)
    (hnone : (w.holds.matching tx (pendingFor f.fingerprint)).isEmpty = true)
    (hholds : w.holds.insert tx f.approvalId (filedHold f now) = some holds) : Indexed holds := by
  rcases Rows.insert_eq_some hholds with ⟨-, -, hc, hw, -, hframe⟩
  rw [hblank.1] at hw
  -- No pending hold with this fingerprint is committed,
  have hcommitted : ∀ id h, w.holds.committed.get? id = some h → h.state = .pending →
      h.requestFingerprint ≠ f.fingerprint := by
    intro id h hh hp hfp
    rw [List.isEmpty_iff] at hnone
    have hmem : id ∈ w.holds.matching tx (pendingFor f.fingerprint) := by
      exact Rows.mem_matching.mpr ⟨h, (Rows.visible_of_empty hblank.1 id).trans hh,
        pendingFor_iff.mpr ⟨hfp, hp⟩⟩
    rw [hnone] at hmem
    exact absurd hmem List.not_mem_nil
  -- nor written by another call.
  have hothers : ∀ t id h, t ≠ tx → (w.holds.writes t).get? id = some h → h.state = .pending →
      h.requestFingerprint ≠ f.fingerprint := by
    intro t id h ht hh hp hfp
    have hlt : t < w.sessions.length := by
      by_contra hle
      rw [(inv.idle t (Nat.le_of_not_lt hle)).1, Dict.get?_empty] at hh
      exact absurd hh (by simp only [reduceCtorEq, not_false_eq_true])
    rw [indexBusy, List.any_eq_false] at hbusy
    refine hbusy t (List.mem_range.mpr hlt) ?_
    rw [Bool.and_eq_true, decide_eq_true_eq, List.any_eq_true]
    refine ⟨ht, (id, h), (Dict.get?_eq_some_iff _ _ _).mp hh, ?_⟩
    rw [Bool.or_eq_true]
    exact .inl (pendingFor_iff.mpr ⟨hfp, hp⟩)
  have hcases : ∀ t id h, (holds.writes t).get? id = some h →
      t ≠ tx ∧ (w.holds.writes t).get? id = some h ∨
        t = tx ∧ id = f.approvalId ∧ h.requestFingerprint = f.fingerprint := by
    intro t id h hh
    by_cases ht : t = tx
    · rw [ht, hw, Dict.get?_set, Dict.get?_empty, Option.ite_none_right_eq_some,
        Option.some.injEq] at hh
      refine .inr ⟨ht, hh.1.symm, ?_⟩
      rw [← hh.2]
      rfl
    · rw [hframe.writes t ht] at hh
      exact .inl ⟨ht, hh⟩
  refine ⟨?_, ?_, ?_⟩
  · rw [hc]
    exact inv.indexed.committed
  · intro t id h t' id' h' hh hh' hp hp' hfp
    rcases hcases t id h hh with ⟨ht, hh⟩ | ⟨ht, hid, hf⟩ <;>
      rcases hcases t' id' h' hh' with ⟨ht', hh'⟩ | ⟨ht', hid', hf'⟩
    · exact inv.indexed.between t id h t' id' h' hh hh' hp hp' hfp
    · exact absurd (hfp.trans hf') (hothers t id h ht hh hp)
    · exact absurd (hfp.symm.trans hf) (hothers t' id' h' ht' hh' hp')
    · exact ⟨ht.trans ht'.symm, hid.trans hid'.symm⟩
  · intro t id h id' h' hh hh' hp hp' hfp
    rw [hc] at hh'
    rcases hcases t id h hh with ⟨-, hh⟩ | ⟨-, -, hf⟩
    · exact inv.indexed.among t id h id' h' hh hh' hp hp' hfp
    · exact hcommitted id' h' hh' hp' (hfp.symm.trans hf)

theorem insertHeld_quiet (inv : HoldInv cfg w) {f : HoldFiling} {now : Time} {pending : Nat}
    (hphase : PhaseInv cfg w.holds w.jobs w.advisory tx call (.counted pending))
    (hcall : call = .fileHold f) (h : insertHeld w tx call f now = some w') :
    ∃ phase', Quiet cfg w w' tx call phase' := by
  rcases hphase with ⟨hblank, f', hf', hlock, hroom⟩
  rw [hcall, Call.fileHold.injEq] at hf'
  rw [← hf'] at hlock hroom
  unfold insertHeld at h
  split at h
  · exact absurd h (by simp only [reduceCtorEq, not_false_eq_true])
  · next hbusy =>
      rw [Bool.not_eq_true] at hbusy
      split at h
      · next hnone =>
          rw [Option.bind_eq_some_iff] at h
          rcases h with ⟨jobs, hjobs, h⟩
          rw [Option.map_eq_some_iff] at h
          rcases h with ⟨holds, hholds, h⟩
          rw [← h]
          rcases Rows.insert_eq_some hjobs with ⟨-, -, hjc, -, -, hjframe⟩
          rcases Rows.insert_eq_some hholds with ⟨-, -, hhc, -, -, hhframe⟩
          refine ⟨.ready none, rfl, hhframe, hjframe, hhc, hjc, rfl, fun _ _ _ hk => hk,
            indexed_insert inv hblank hbusy hnone hholds, ?_, ?_⟩
          · exact written_filed hblank hcall hlock hroom hjobs hholds
          · exact fun id hid => absurd hid (by simp only [reduceCtorEq, not_false_eq_true])
      · rw [Option.some.injEq] at h
        rw [← h]
        exact ⟨.refused, quiet_setPhase inv ⟨hblank, f, hcall, hlock⟩⟩

theorem fileStep_quiet (inv : HoldInv cfg w) {f : HoldFiling} {a : Action}
    (hphase : PhaseInv cfg w.holds w.jobs w.advisory tx call phase) (hcall : call = .fileHold f)
    (h : fileStep cfg w tx call f phase a = some w') : ∃ phase', Quiet cfg w w' tx call phase' := by
  unfold fileStep at h
  split at h
  · -- The lock of the agent is free, so nobody relies on it.
    dsimp only at h
    split at h
    · next hfree =>
        rw [Option.some.injEq] at h
        rw [← h]
        refine ⟨.locked, rfl, Rows.frame_refl _ _, Rows.frame_refl _ _, rfl, rfl, rfl, ?_,
          inv.indexed, hphase, f, hcall, Function.update_self _ _ _⟩
        intro t k ht hk
        refine (Function.update_of_ne ?_ _ _).trans hk
        rintro rfl
        rw [hfree] at hk
        exact absurd hk (by simp only [reduceCtorEq, not_false_eq_true])
    · exact absurd h (by simp only [reduceCtorEq, not_false_eq_true])
  · rw [Option.some.injEq] at h
    rw [← h]
    split
    · exact ⟨.unjoined, quiet_setPhase inv hphase⟩
    · exact ⟨.ready none, quiet_setPhase inv ⟨written_of_blank hphase.1,
        fun id hid => absurd hid (by simp only [reduceCtorEq, not_false_eq_true])⟩⟩
  · rw [Option.some.injEq] at h
    rw [← h]
    split
    · exact ⟨.raising, quiet_setPhase inv trivial⟩
    · next hroom =>
        rcases hphase with ⟨hblank, f', hf', hlock⟩
        refine ⟨.counted _, quiet_setPhase inv ⟨hblank, f', hf', hlock, ?_⟩⟩
        rw [hcall, Call.fileHold.injEq] at hf'
        rw [← hf']
        omega
  · exact insertHeld_quiet inv hphase hcall h
  · rw [Option.some.injEq] at h
    rw [← h]
    split
    · exact ⟨.raising, quiet_setPhase inv trivial⟩
    · exact ⟨.ready none, quiet_setPhase inv ⟨written_of_blank hphase.1,
        fun id hid => absurd hid (by simp only [reduceCtorEq, not_false_eq_true])⟩⟩
  · exact absurd h (by simp only [reduceCtorEq, not_false_eq_true])

theorem beginPhase_quiet (inv : HoldInv cfg w) {now : Time} {phase' : Phase}
    (hphase : PhaseInv cfg w.holds w.jobs w.advisory tx call phase)
    (h : beginPhase w tx now call phase = some phase') :
    Quiet cfg w (w.setPhase tx call phase') tx call phase' := by
  cases phase with
  | called =>
      have hwritten : Written cfg w.holds w.jobs w.advisory tx call [] := written_of_blank hphase
      unfold beginPhase at h
      dsimp only at h
      split at h
      · rw [Option.some.injEq] at h
        rw [← h]
        exact quiet_setPhase inv hwritten
      · rw [Option.some.injEq] at h
        rw [← h]
        exact quiet_setPhase inv hwritten
      · rw [Option.some.injEq] at h
        rw [← h]
        exact quiet_setPhase inv hwritten
      · rw [Option.some.injEq] at h
        rw [← h]
        exact quiet_setPhase inv hwritten
      · rw [Option.some.injEq] at h
        rw [← h]
        exact quiet_setPhase inv ⟨hphase.1, hwritten⟩
      · rw [Option.some.injEq] at h
        rw [← h]
        exact quiet_setPhase inv ⟨hphase.1, hwritten⟩
      · exact absurd h (by simp only [reduceCtorEq, not_false_eq_true])
  | _ => exact absurd h (by simp only [beginPhase, reduceCtorEq, not_false_eq_true])

theorem endPhase_quiet (inv : HoldInv cfg w) {phase' : Phase}
    (hphase : PhaseInv cfg w.holds w.jobs w.advisory tx call phase)
    (h : endPhase call phase = some phase') :
    Quiet cfg w (w.setPhase tx call phase') tx call phase' := by
  unfold endPhase at h
  split at h
  · rw [Option.some.injEq] at h
    rw [← h]
    split
    · exact quiet_setPhase inv trivial
    · exact quiet_setPhase inv hphase
  · rw [Option.some.injEq] at h
    rw [← h]
    exact quiet_setPhase inv ⟨hphase,
      fun id hid => absurd hid (by simp only [reduceCtorEq, not_false_eq_true])⟩
  · rw [Option.some.injEq] at h
    rw [← h]
    exact quiet_setPhase inv ⟨hphase.2,
      fun id hid => absurd hid (by simp only [reduceCtorEq, not_false_eq_true])⟩
  · exact absurd h (by simp only [reduceCtorEq, not_false_eq_true])

/-- A hold that is settled is pending no longer, so the index lets it go. -/
theorem indexed_settle (inv : HoldInv cfg w) {now : Time} {id : String} {r : HeldExecution}
    {holds : Rows String HeldExecution Nat} (hc : holds.committed = w.holds.committed)
    (hframe : Rows.Frame w.holds holds tx)
    (hwrites : holds.writes tx = (w.holds.writes tx).set id (settleHold call now r)) :
    Indexed holds := by
  refine indexed_of_pending inv.indexed hc fun t k h hw hp => ?_
  by_cases ht : t = tx
  · rw [ht, hwrites, Dict.get?_set] at hw
    split at hw
    · rw [Option.some.injEq] at hw
      rw [← hw] at hp
      exact absurd hp (holdTarget_ne_pending call)
    · rw [ht]
      exact hw
  · rw [hframe.writes t ht] at hw
    exact hw

/-- Locking a row changes nothing that is written. -/
theorem indexed_take (inv : HoldInv cfg w) {holds : Rows String HeldExecution Nat}
    (hc : holds.committed = w.holds.committed) (hframe : Rows.Frame w.holds holds tx)
    (hwrites : holds.writes tx = w.holds.writes tx) : Indexed holds := by
  refine indexed_of_pending inv.indexed hc fun t k h hw _ => ?_
  by_cases ht : t = tx
  · rw [ht, hwrites] at hw
    rw [ht]
    exact hw
  · rw [hframe.writes t ht] at hw
    exact hw

theorem takeRow_quiet (inv : HoldInv cfg w) {id : String}
    (hphase : PhaseInv cfg w.holds w.jobs w.advisory tx call phase)
    (h : takeRow w tx id call phase = some w') : ∃ phase', Quiet cfg w w' tx call phase' := by
  unfold takeRow at h
  split at h
  · next now remaining owed =>
      split at h
      · rw [Option.map_eq_some_iff] at h
        rcases h with ⟨holds, hholds, h⟩
        rw [← h]
        rcases Rows.updateRow_eq_some hholds with ⟨hc, -, hframe, ⟨r, hr, hs, hwrites⟩ | ⟨hnone, hwrites⟩⟩
        · have hsettled : ((w.holds.visible tx id).filter (settles call now)).map
              (fun h => (id, h.jobId)) = some (id, r.jobId) := by
            rw [hr, Option.filter_some, if_pos hs, Option.map_some]
          rw [hsettled]
          exact ⟨_, rfl, hframe, Rows.frame_refl _ _, hc, rfl, rfl, fun _ _ _ hk => hk,
            indexed_settle inv hc hframe hwrites,
            written_settle inv.committed hphase hc hr hs hwrites⟩
        · have hsettled : ((w.holds.visible tx id).filter (settles call now)).map
              (fun h => (id, h.jobId)) = none := by
            rw [Option.map_eq_none_iff, Option.filter_eq_none_iff]
            exact fun r hr => Bool.eq_false_iff.mp (hnone r hr)
          rw [hsettled, Option.toList_none, List.append_nil]
          exact ⟨_, rfl, hframe, Rows.frame_refl _ _, hc, rfl, rfl, fun _ _ _ hk => hk,
            indexed_take inv hc hframe hwrites,
            written_beside (beside_of_kept hc rfl hwrites rfl fun _ hk => hk) hphase⟩
      · exact absurd h (by simp only [reduceCtorEq, not_false_eq_true])
  · next remaining =>
      split at h
      · rw [Option.map_eq_some_iff] at h
        rcases h with ⟨jobs, hjobs, h⟩
        rw [← h]
        rcases hphase with ⟨hempty, hwritten⟩
        refine ⟨.sweeping (remaining.erase id), ?_⟩
        rcases Rows.updateRow_eq_some hjobs with ⟨hc, -, hframe, ⟨r, hr, hs, hwrites⟩ | ⟨-, hwrites⟩⟩
        · exact quiet_withJobs inv hframe hc ⟨hempty, written_job hempty hwritten hc hwrites
            (jobWrite_sweep hempty hwritten hc hr hs)⟩
        · exact quiet_withJobs inv hframe hc ⟨hempty,
            written_beside (beside_of_kept rfl hc rfl hwrites fun _ hk => hk) hwritten⟩
      · exact absurd h (by simp only [reduceCtorEq, not_false_eq_true])
  · exact absurd h (by simp only [reduceCtorEq, not_false_eq_true])

theorem moveJob_quiet (inv : HoldInv cfg w)
    (hphase : PhaseInv cfg w.holds w.jobs w.advisory tx call phase)
    (h : moveJob w tx call phase = some w') : ∃ phase', Quiet cfg w w' tx call phase' := by
  unfold moveJob at h
  split at h
  · next approvalId jobId owed =>
      rw [Option.map_eq_some_iff] at h
      rcases h with ⟨jobs, hjobs, h⟩
      have hwritten : Written cfg w.holds w.jobs w.advisory tx call ((approvalId, jobId) :: owed) :=
        hphase
      rcases (owed_held inv.committed hwritten List.mem_cons_self).1 with ⟨j, hj, -, hheld⟩
      have hvisible : (w.jobs.visible tx jobId).filter (fun r => r.status = .held) = some j := by
        rw [hj, Option.filter_some, hheld]
        rfl
      rw [hvisible] at h
      rw [← h]
      rcases Rows.updateRow_eq_some hjobs with ⟨hc, -, hframe, ⟨r, hr, -, hwrites⟩ | ⟨hnone, -⟩⟩
      · have hmoved := written_moveJob inv.committed hwritten hc hr hwrites
        dsimp only
        split
        · exact ⟨_, quiet_withJobs inv hframe hc hmoved⟩
        · exact ⟨_, quiet_withJobs inv hframe hc hmoved⟩
      · -- The job is held, so the update finds it.
        have hfalse := hnone j hj
        rw [hheld] at hfalse
        exact absurd hfalse (by decide)
  · exact absurd h (by simp only [reduceCtorEq, not_false_eq_true])

theorem recordResult_quiet (inv : HoldInv cfg w)
    (hphase : PhaseInv cfg w.holds w.jobs w.advisory tx call phase)
    (h : recordResult w tx call phase = some w') : ∃ phase', Quiet cfg w w' tx call phase' := by
  unfold recordResult at h
  split at h
  · next approvalId jobId owed =>
      split at h
      · split at h
        · rw [Option.some.injEq] at h
          rw [← h]
          exact ⟨.raising, quiet_setPhase inv trivial⟩
        · rw [Option.map_eq_some_iff] at h
          rcases h with ⟨results, -, h⟩
          rw [← h]
          exact ⟨.moving owed, rfl, Rows.frame_refl _ _, Rows.frame_refl _ _, rfl, rfl, rfl,
            fun _ _ _ hk => hk, inv.indexed, hphase⟩
      · exact absurd h (by simp only [reduceCtorEq, not_false_eq_true])
  · exact absurd h (by simp only [reduceCtorEq, not_false_eq_true])

/-- A held job is an execution, so a cancellation that reads it raises. -/
theorem selectJob_quiet (inv : HoldInv cfg w)
    (hphase : PhaseInv cfg w.holds w.jobs w.advisory tx call phase)
    (h : selectJob w tx call phase = some w') : ∃ phase', Quiet cfg w w' tx call phase' := by
  unfold selectJob at h
  split at h
  · have hblank : Blank w.holds w.jobs tx := hphase
    split at h
    · next jobId =>
        rw [Option.some.injEq] at h
        rw [← h, Rows.visible_of_empty hblank.2]
        cases hr : w.jobs.committed.get? jobId with
        | none => exact ⟨.raising, quiet_setPhase inv trivial⟩
        | some r =>
            dsimp only
            split
            · exact ⟨.raising, quiet_setPhase inv trivial⟩
            · next hne =>
                refine ⟨.cancelling jobId, quiet_setPhase inv ⟨hblank, r, hr, fun hheld => ?_⟩⟩
                exact hne ⟨hheld, (inv.committed.housed jobId r hr hheld).1⟩
    · exact absurd h (by simp only [reduceCtorEq, not_false_eq_true])
  · exact absurd h (by simp only [reduceCtorEq, not_false_eq_true])

/-- A call that writes one job, which is new or was not held, is done. -/
theorem quiet_update (inv : HoldInv cfg w) (hblank : Blank w.holds w.jobs tx)
    {jobs : Rows String Job Nat} {p : Job → Bool} {f : Job → Job} {id : String}
    (hjobs : w.jobs.updateRow tx p f id = some jobs)
    (hbefore : ∀ r, w.jobs.committed.get? id = some r → p r = true →
      r.status = .queued ∨ r.status = .running)
    (hafter : ∀ r, (f r).status ≠ .held) :
    Quiet cfg w ((w.withJobs jobs).setPhase tx call (.ready none)) tx call (.ready none) := by
  have hwritten : Written cfg w.holds w.jobs w.advisory tx call [] := written_of_blank hblank
  rcases Rows.updateRow_eq_some hjobs with ⟨hc, -, hframe, ⟨r, hr, hp, hwrites⟩ | ⟨-, hwrites⟩⟩
  · rw [Rows.visible_of_empty hblank.2] at hr
    have hmoved : JobWrite w.holds jobs tx call id (f r) :=
      .moved r (by rw [hc]; exact hr) (hbefore r hr hp) (hafter r)
    exact quiet_withJobs inv hframe hc ⟨written_job hblank.1 hwritten hc hwrites hmoved,
      fun id hid => absurd hid (by simp only [reduceCtorEq, not_false_eq_true])⟩
  · exact quiet_withJobs inv hframe hc
      ⟨written_beside (beside_of_kept rfl hc rfl hwrites fun _ hk => hk) hwritten,
        fun id hid => absurd hid (by simp only [reduceCtorEq, not_false_eq_true])⟩

theorem writeJob_quiet (inv : HoldInv cfg w)
    (hphase : PhaseInv cfg w.holds w.jobs w.advisory tx call phase)
    (h : writeJob w tx call phase = some w') : ∃ phase', Quiet cfg w w' tx call phase' := by
  unfold writeJob at h
  dsimp only at h
  split at h
  · next job =>
      rw [Option.map_eq_some_iff] at h
      rcases h with ⟨jobs, hjobs, h⟩
      rw [← h]
      have hblank : Blank w.holds w.jobs tx := hphase
      rcases Rows.insert_eq_some hjobs with ⟨-, hnew, hc, hwrites, -, hframe⟩
      refine ⟨.ready none, quiet_withJobs inv hframe hc ⟨written_job hblank.1
        (written_of_blank hblank) hc hwrites (.enqueued (by rw [hc]; exact hnew) ?_),
        fun id hid => absurd hid (by simp only [reduceCtorEq, not_false_eq_true])⟩⟩
      simp only [ne_eq, reduceCtorEq, not_false_eq_true]
  · next jobId =>
      rw [Option.map_eq_some_iff] at h
      rcases h with ⟨jobs, hjobs, h⟩
      rw [← h]
      rcases hphase with ⟨hblank, j, hj, hne⟩
      refine ⟨.ready none, quiet_update inv hblank hjobs (fun r hr hactive => ?_) fun r => ?_⟩
      · rw [hj, Option.some.injEq] at hr
        unfold active at hactive
        rw [Bool.or_eq_true, Bool.or_eq_true, decide_eq_true_eq, decide_eq_true_eq,
          decide_eq_true_eq] at hactive
        rcases hactive with hactive | hheld
        · exact hactive
        · rw [← hr] at hheld
          exact absurd hheld hne
      · simp only [ne_eq, reduceCtorEq, not_false_eq_true]
  · next jobId attempts outcome error =>
      rw [Option.map_eq_some_iff] at h
      rcases h with ⟨jobs, hjobs, h⟩
      rw [← h]
      refine ⟨.ready none, quiet_update inv hphase hjobs (fun r hr hrunning => ?_) fun r => ?_⟩
      · rw [Bool.and_eq_true, decide_eq_true_eq] at hrunning
        exact .inr hrunning.1
      · cases outcome with
        | _ => simp only [Outcome.status, ne_eq, reduceCtorEq, not_false_eq_true]
  · exact absurd h (by simp only [reduceCtorEq, not_false_eq_true])

theorem status_of_claimable {now : Time} {r : Job} (h : claimable now r = true) :
    r.status = .queued ∨ r.status = .running := by
  unfold claimable at h
  split at h
  · next hs _ => exact .inl hs
  · next hs _ => exact .inl hs
  · next hs _ => exact .inr hs
  · exact absurd h (by decide)

theorem claimRow_quiet (inv : HoldInv cfg w) {kinds : List JobKind} {timeout now : Time}
    {jobId : String} (hblank : Blank w.holds w.jobs tx)
    (h : claimRow w tx call kinds timeout jobId now = some w') :
    ∃ phase', Quiet cfg w w' tx call phase' := by
  unfold claimRow at h
  split at h
  · next hclaimable =>
      rw [Option.map_eq_some_iff] at h
      rcases h with ⟨jobs, hjobs, h⟩
      rw [← h]
      rcases Rows.updateRow_eq_some hjobs with ⟨hc, -, hframe, ⟨r, hr, hp, hwrites⟩ | ⟨hnone, -⟩⟩
      · rw [Rows.visible_of_empty hblank.2] at hr
        rw [Bool.and_eq_true] at hp
        refine ⟨.ready (some jobId), quiet_withJobs inv hframe hc ⟨written_job hblank.1
          (written_of_blank hblank) hc hwrites (.moved r (by rw [hc]; exact hr)
            (status_of_claimable hp.2) ?_), fun id hid => ?_⟩⟩
        · simp only [ne_eq, reduceCtorEq, not_false_eq_true]
        · rw [Option.some.injEq] at hid
          rw [← hid, hwrites]
          exact ⟨_, by rw [Dict.get?_set, if_pos rfl], rfl⟩
      · rcases (Option.any_eq_true _ _).mp hclaimable.2 with ⟨r, hr, hp⟩
        rw [hnone r hr] at hp
        exact absurd hp (by decide)
  · exact absurd h (by simp only [reduceCtorEq, not_false_eq_true])

theorem releaseAdvisory_other {advisory : Int → Option Nat} {t : Nat} {k : Int} (ht : t ≠ tx)
    (h : advisory k = some t) : releaseAdvisory advisory tx k = some t := by
  rw [releaseAdvisory, h, if_neg fun he => ht (Option.some.inj he)]

theorem rollback_quiet (inv : HoldInv cfg w) :
    Quiet cfg w (rollback w tx call) tx call .ended where
  sessions := rfl
  holds := Rows.frame_rollback _ _
  jobs := Rows.frame_rollback _ _
  holdsKept := rfl
  jobsKept := rfl
  starts := rfl
  locks _ _ ht hk := releaseAdvisory_other ht hk
  indexed := by
    refine indexed_of_pending inv.indexed rfl fun t id r hw _ => ?_
    by_cases ht : t = tx
    · rw [ht] at hw
      change ((w.holds.rollback tx).writes tx).get? id = some r at hw
      rw [Rows.writes_rollback, Dict.get?_empty] at hw
      exact absurd hw (by simp only [reduceCtorEq, not_false_eq_true])
    · rw [← (Rows.frame_rollback w.holds tx).writes t ht]
      exact hw
  inv := trivial

/-- Every action but a commit is a quiet step. -/
theorem sessionStep_quiet (inv : HoldInv cfg w) {a : Action}
    (hphase : PhaseInv cfg w.holds w.jobs w.advisory tx call phase)
    (h : sessionStep cfg w tx call phase a = some w') :
    (∃ claimed, phase = .ready claimed ∧ w' = commit w tx call claimed) ∨
      ∃ phase', Quiet cfg w w' tx call phase' := by
  unfold sessionStep at h
  cases a with
  | receive call' => exact absurd h (by simp only [reduceCtorEq, not_false_eq_true])
  | lockAgent tx' =>
      dsimp only at h
      split at h
      · exact .inr (fileStep_quiet inv hphase rfl h)
      · exact absurd h (by simp only [reduceCtorEq, not_false_eq_true])
  | selectPending tx' =>
      dsimp only at h
      split at h
      · exact .inr (fileStep_quiet inv hphase rfl h)
      · exact absurd h (by simp only [reduceCtorEq, not_false_eq_true])
  | countPending tx' =>
      dsimp only at h
      split at h
      · exact .inr (fileStep_quiet inv hphase rfl h)
      · exact absurd h (by simp only [reduceCtorEq, not_false_eq_true])
  | insertHeld tx' now =>
      dsimp only at h
      split at h
      · exact .inr (fileStep_quiet inv hphase rfl h)
      · exact absurd h (by simp only [reduceCtorEq, not_false_eq_true])
  | beginStatement tx' now =>
      dsimp only at h
      rw [Option.map_eq_some_iff] at h
      rcases h with ⟨phase', hbegin, h⟩
      rw [← h]
      exact .inr ⟨phase', beginPhase_quiet inv hphase hbegin⟩
  | takeRow tx' id => exact .inr (takeRow_quiet inv hphase h)
  | endStatement tx' =>
      dsimp only at h
      rw [Option.map_eq_some_iff] at h
      rcases h with ⟨phase', hend, h⟩
      rw [← h]
      exact .inr ⟨phase', endPhase_quiet inv hphase hend⟩
  | moveJob tx' => exact .inr (moveJob_quiet inv hphase h)
  | recordResult tx' => exact .inr (recordResult_quiet inv hphase h)
  | selectJob tx' => exact .inr (selectJob_quiet inv hphase h)
  | writeJob tx' => exact .inr (writeJob_quiet inv hphase h)
  | claimRow tx' jobId now =>
      dsimp only at h
      split at h
      · exact .inr (claimRow_quiet inv hphase h)
      · exact absurd h (by simp only [reduceCtorEq, not_false_eq_true])
  | commit tx' =>
      dsimp only at h
      split at h
      · next claimed =>
          rw [Option.some.injEq] at h
          exact .inl ⟨claimed, rfl, h.symm⟩
      · exact absurd h (by simp only [reduceCtorEq, not_false_eq_true])
  | rollback tx' =>
      dsimp only at h
      split at h
      · exact absurd h (by simp only [reduceCtorEq, not_false_eq_true])
      · rw [Option.some.injEq] at h
        rw [← h]
        exact .inr ⟨.ended, rollback_quiet inv⟩

end Actions

end Holds

end Jobs

end JenticOne
