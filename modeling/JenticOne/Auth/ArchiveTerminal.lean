import JenticOne.Auth.AgentScripts

/-!
# Archive Is Terminal

An archive takes the lock of the agent's row with its first write and sweeps
every table after that, so what an agent has by then is gone when the archive
commits. What the code leaves open are the operations that decide on a row that
they have read without its lock.

A disable or enable that has found the agent active or disabled writes its
status over an archive that has been committed since. Permission grants and
bindings are inserted without the lock, a binding with no look at the status at
all: they are there if they are committed after the archive, or while it is
under way and has swept their table. `Undisturbed` is the step that does neither.

## Main definitions

* `Terminal`: The property of the committed tables.
* `Undisturbed`: No status is written over an archive, and nothing is inserted
  behind one.
* `spec`: What is asked of a transaction.

## Theorems

* `safe_programs`: Every operation does what is asked.
* `terminal_commit`: An undisturbed commit keeps the property.
* `terminal_of_undisturbed`: The property holds in undisturbed runs.
* `not_terminal`: It does not hold in every run.
-/

namespace JenticOne

namespace Auth

namespace Agents

open RowScripts

/-- Of every agent that has ever been archived the row is archived or gone, and
    it has no permission grant, no binding, no active OAuth grant, no pending
    held call and no queued job. -/
structure Terminal (s : Tables) : Prop where
  status : ∀ agentId agent, s.marked agentId = true → s.rows agentId = some agent →
    agent.status = .archived
  bare : ∀ agentId id k, s.marked agentId = true → s.dependents id = some ⟨agentId, k⟩ →
    k.live = false

/-- The archived agents are remembered. -/
def Remembered (s : Tables) : Prop :=
  ∀ agentId agent, s.rows agentId = some agent → agent.status = .archived →
    s.marked agentId = true

/-- A step that does not get behind an archive: without the row's lock, no other
    status is written over `archived`, and nothing is committed that carries the
    id of an agent that has been archived, or is of a set that another
    transaction has swept while it has the row. -/
def Undisturbed (s : Tables) : RowScripts.Action Op → Prop
  | .statement tx => ∀ t, s.txs tx = some t → s.holder t.key ≠ some tx →
      (∀ f next, t.script = .write f next → ∀ agent, s.rows t.key = some agent →
        agent.status = .archived → (f agent).status = .archived) ∧
      (t.script = .commit → ∀ id k, t.inserts id = some k → s.marked t.key = false ∧
        ∀ tx₁ t₁, tx₁ ≠ tx → s.txs tx₁ = some t₁ → s.holder t₁.key = some tx₁ →
          t₁.key = t.key → ∀ target ∈ t₁.swept, target.selects id k = false)
  | _ => True

namespace ArchiveTerminal

/-- An archived row stays archived with nothing inserted; a row that becomes
    archived has had every table swept, and only an archived one is deleted. -/
def spec : Spec Agent Kind Target where
  tracks _ := true
  finds marked agent := marked = true → agent.status = .archived
  overwrites agent agent' := agent.status = .archived → agent'.status = .archived
  together _ _ := True
  commitFree _ := True
  commitHeld h :=
    (h.base.status = .archived → h.inserted = [] ∧
      ∀ agent, h.row = some agent → agent.status = .archived) ∧
    (h.base.status ≠ .archived → ∃ agent, h.row = some agent ∧
      (agent.status = .archived → h.inserted = [] ∧ ∀ tag, Target.table tag ∈ h.swept))

/-- A commit of an agent that neither was archived nor is. -/
theorem commitHeld_other {base agent : Agent} {swept : List Target} {inserted : List Kind}
    (hbase : base.status ≠ .archived) (hstatus : agent.status ≠ .archived) :
    spec.commitHeld ⟨base, some agent, swept, inserted⟩ :=
  ⟨fun h => absurd h hbase, fun _ => ⟨agent, rfl, fun h => absurd h hstatus⟩⟩

theorem commitHeld_archived {base agent : Agent} {swept : List Target}
    (hstatus : agent.status = .archived)
    (h : ∀ tag, spec.tracks (.table tag) = true → .table tag ∈ swept) :
    spec.commitHeld ⟨base, some agent, swept, []⟩ :=
  ⟨fun _ => ⟨rfl, fun _ hrow => Option.some.inj hrow ▸ hstatus⟩,
    fun _ => ⟨agent, rfl, fun _ => ⟨rfl, fun tag => h tag rfl⟩⟩⟩

/-- Every operation does what is asked. -/
theorem safe_programs (op : Op) :
    Safe schema spec (programs op).marked (programs op).script (.free []) := by
  have hother : ∀ {agent : Agent} {status : ActorStatus}, status ≠ .archived →
      spec.overwrites agent { agent with status := status } → agent.status ≠ .archived :=
    fun hstatus hover h => hstatus (hover h)
  cases op with
  | mk agentId verb =>
      cases verb with
      | approve identity =>
          exact safe_approve (fun _ _ => ⟨trivial, trivial⟩) fun agent bodies hstatus _ =>
            commitHeld_other hstatus (by simp only [ne_eq, reduceCtorEq, not_false_eq_true])
      | deny identity =>
          exact safe_deny fun agent hstatus =>
            commitHeld_other hstatus (by simp only [ne_eq, reduceCtorEq, not_false_eq_true])
      | disable identity =>
          refine safe_disable fun agent swept hover => ?_
          have hstatus : ActorStatus.disabled ≠ .archived := by
            simp only [ne_eq, reduceCtorEq, not_false_eq_true]
          exact commitHeld_other (hother hstatus hover) hstatus
      | enable identity =>
          refine safe_enable fun agent hover => ?_
          have hstatus : ActorStatus.active ≠ .archived := by
            simp only [ne_eq, reduceCtorEq, not_false_eq_true]
          exact commitHeld_other (hother hstatus hover) hstatus
      | claim sub => exact safe_claim fun agent hstatus _ => commitHeld_other hstatus hstatus
      | archive identity =>
          exact safe_archive fun agent swept hswept => commitHeld_archived rfl hswept
      | purgeArchive identity =>
          exact safe_purgeArchive
            (fun agent hstatus => ⟨fun _ => ⟨rfl, fun _ hrow => Option.some.inj hrow ▸ hstatus⟩,
              fun h => absurd hstatus h⟩)
            fun agent swept hswept => commitHeld_archived rfl hswept
      | purgeDelete identity =>
          refine safe_purgeDelete fun agent swept hfinds _ => ?_
          exact ⟨fun _ => ⟨rfl, fun _ hrow => absurd hrow (by
            simp only [reduceCtorEq, not_false_eq_true])⟩, fun h => absurd (hfinds rfl) h⟩
      | replacePermissions identity permissions =>
          exact safe_replacePermissions (fun _ _ => ⟨trivial, trivial⟩) fun _ _ => trivial
      | updateAgent identity ownerId foreign =>
          exact safe_updateAgent (fun agent hstatus => commitHeld_other hstatus hstatus)
            fun agent swept owner hstatus _ => commitHeld_other hstatus hstatus
      | bindCredential identity credentialId => exact safe_bindCredential trivial
      | resumeCredential identity credentialId => exact safe_resumeCredential trivial
      | createGrant userId clientId =>
          refine safe_createGrant fun agent swept hactive _ _ => ?_
          have hstatus : agent.status ≠ .archived := by
            rw [hactive]
            simp only [ne_eq, reduceCtorEq, not_false_eq_true]
          exact commitHeld_other hstatus hstatus
      | revokeGrant grantId => exact safe_revokeGrant trivial

/-! ## Commits -/

section Commit

variable {s : Tables} {tx : Nat} {t : Tx Text Agent Kind Change Target}

/-- What is remembered after a commit. -/
theorem marked_commit {agentId : Text} :
    (s.commit schema tx t).marked agentId = true ↔ s.marked agentId = true ∨
      agentId = t.key ∧ ∃ agent, s.found t = some agent ∧ agent.status = .archived := by
  have hany : (s.found t).any schema.marks = true ↔
      ∃ agent, s.found t = some agent ∧ agent.status = .archived := by
    rw [Option.any_eq_true_iff_get]
    constructor
    · rintro ⟨hsome, hmarks⟩
      exact ⟨_, (Option.some_get hsome).symm, of_decide_eq_true hmarks⟩
    · rintro ⟨agent, hfound, hstatus⟩
      refine ⟨by rw [hfound]; rfl, ?_⟩
      simp only [hfound, Option.get_some]
      exact decide_eq_true hstatus
  change (if (s.found t).any schema.marks then Function.update s.marked t.key true
    else s.marked) agentId = true ↔ _
  split
  · rename_i h
    rw [Function.update_apply]
    split
    · rename_i hkey
      exact ⟨fun _ => .inr ⟨hkey, hany.mp h⟩, fun _ => rfl⟩
    · rename_i hkey
      exact ⟨.inl, fun hor => hor.resolve_right fun hc => hkey hc.1⟩
  · rename_i h
    exact ⟨.inl, fun hor => hor.resolve_right fun hc => h (hany.mpr hc.2)⟩

/-- A commit without the lock changes no agent. -/
theorem rows_commit_free {inserted : List Kind} (hfits : Fits schema spec s tx t (.free inserted)) :
    s.found t = s.rows t.key ∧ (s.commit schema tx t).rows = s.rows := by
  have hfound : s.found t = s.rows t.key := by
    rw [State.found, hfits.2.1]
    rfl
  refine ⟨hfound, ?_⟩
  change Function.update s.rows t.key (s.found t) = s.rows
  rw [hfound]
  exact Function.update_eq_self _ _

/-- An undisturbed commit keeps the property. -/
theorem terminal_commit (hinv : RowScripts.Inv schema spec s) (h : Terminal s)
    (hremembered : Remembered s)
    (hok : Undisturbed s (.statement tx)) (ht : s.txs tx = some t) (hscript : t.script = .commit) :
    Terminal (s.commit schema tx t) ∧ Remembered (s.commit schema tx t) := by
  rcases hinv.safe tx t ht with ⟨stage, hsafe, hfits⟩
  rw [hscript] at hsafe
  have hmarks : ∀ {agentId agent}, (s.commit schema tx t).rows agentId = some agent →
      agent.status = .archived → agentId = t.key → (s.commit schema tx t).marked agentId = true := by
    intro agentId agent hrow hstatus hkey
    change Function.update s.rows t.key (s.found t) agentId = some agent at hrow
    rw [hkey, Function.update_self] at hrow
    exact marked_commit.mpr (.inr ⟨hkey, agent, hrow, hstatus⟩)
  have hremembered' : Remembered (s.commit schema tx t) := by
    intro agentId agent hrow hstatus
    by_cases hkey : agentId = t.key
    · exact hmarks hrow hstatus hkey
    · change Function.update s.rows t.key (s.found t) agentId = some agent at hrow
      rw [Function.update_of_ne hkey] at hrow
      exact marked_commit.mpr (.inl (hremembered agentId agent hrow hstatus))
  refine ⟨?_, hremembered'⟩
  cases stage with
  | free inserted =>
      rcases rows_commit_free hfits with ⟨hfound, hrows⟩
      have hmarked : ∀ agentId, (s.commit schema tx t).marked agentId = true →
          s.marked agentId = true := by
        intro agentId hm
        rcases marked_commit.mp hm with hm | ⟨rfl, agent, hrow, hstatus⟩
        · exact hm
        · exact hremembered t.key agent (hfound.symm.trans hrow) hstatus
      constructor
      · intro agentId agent hm hrow
        rw [hrows] at hrow
        exact h.status agentId agent (hmarked agentId hm) hrow
      · intro agentId id k hm hview
        by_contra hlive
        rw [Bool.not_eq_false] at hlive
        rcases view_live hview hlive with ⟨d, hd, _, _, ⟨hinserted, hkey⟩ | ⟨_, hcommitted⟩⟩
        · -- What is inserted without the lock is not an archived agent's.
          have hnot := (((hok t ht hfits.1).2 hscript) id d hinserted).1
          rw [← show agentId = t.key from hkey, hmarked agentId hm] at hnot
          exact absurd hnot (by simp only [Bool.true_eq_false, not_false_eq_true])
        · have hdead := h.bare agentId id d (hmarked agentId hm) hcommitted
          rw [show d.live = true from hd] at hdead
          exact absurd hdead (by simp only [Bool.true_eq_false, not_false_eq_true])
  | held held =>
      rw [Safe] at hsafe
      rcases hsafe with ⟨hold, hnew⟩
      have hfits : FitsHeld schema spec s tx t held := hfits
      constructor
      · intro agentId agent hm hrow
        change Function.update s.rows t.key (s.found t) agentId = some agent at hrow
        rcases marked_commit.mp hm with hm | ⟨rfl, agent', hfound, hstatus⟩
        · by_cases hkey : agentId = t.key
          · rw [hkey, Function.update_self, hfits.row] at hrow
            rw [hkey] at hm
            exact (hold (h.status t.key held.base hm hfits.base)).2 agent hrow
          · rw [Function.update_of_ne hkey] at hrow
            exact h.status agentId agent hm hrow
        · rw [Function.update_self, hfound] at hrow
          rw [← Option.some.inj hrow]
          exact hstatus
      · intro agentId id k hm hview
        by_contra hlive
        rw [Bool.not_eq_false] at hlive
        rcases view_live hview hlive with ⟨d, hd, _, hspares, hfrom⟩
        have hlive_d : d.live = true := hd
        by_cases hbefore : s.marked agentId = true
        · rcases hfrom with ⟨hinserted, hkey⟩ | ⟨_, hcommitted⟩
          · rw [show agentId = t.key from hkey] at hbefore
            have hmem := hfits.inserted.mem id d hinserted
            rw [(hold (h.status t.key held.base hbefore hfits.base)).1] at hmem
            exact List.not_mem_nil hmem
          · rw [h.bare agentId id d hbefore hcommitted] at hlive_d
            exact Bool.false_ne_true hlive_d
        · -- The agent becomes archived: every table has been swept.
          rcases marked_commit.mp hm with hm | ⟨hkey, agent, hfound, hstatus⟩
          · exact hbefore hm
          · have hbase : held.base.status ≠ .archived := by
              intro hc
              rw [hkey] at hbefore
              exact hbefore (hremembered t.key held.base hfits.base hc)
            rcases hnew hbase with ⟨agent', hrow, hswept⟩
            rw [hfits.row, hrow] at hfound
            rcases hswept (Option.some.inj hfound ▸ hstatus) with ⟨hnil, htables⟩
            rcases hfrom with ⟨hinserted, _⟩ | ⟨_, hcommitted⟩
            · have hmem := hfits.inserted.mem id d hinserted
              rw [hnil] at hmem
              exact List.not_mem_nil hmem
            · rcases (hfits.swept _ (htables d.tag)).2.2 id _ hcommitted hkey
                (decide_eq_true rfl) hd with ⟨c, hc, hnot⟩
              rw [hspares c hc] at hnot
              exact absurd hnot (by simp only [Bool.true_eq_false, not_false_eq_true])

end Commit

end ArchiveTerminal

/-- Runs of the operations from tables in which archived agents have nothing. -/
def lifecycleMachine : Machine Tables (RowScripts.Action Op) :=
  RowScripts.machine schema programs fun s => Idle s ∧ Terminal s ∧ Remembered s

/-- **Archive is terminal where nothing gets behind it.** In every run whose
    steps are undisturbed, an agent that was ever archived is archived or gone
    in every committed state and has no authority left. -/
theorem terminal_of_undisturbed {s : Tables} (h : lifecycleMachine.ReachesWhen Undisturbed s) :
    Terminal s := by
  refine (reachesWhen_spec (P := ArchiveTerminal.spec) (Q := fun s => Terminal s ∧ Remembered s)
    ?_ ?_ ArchiveTerminal.safe_programs ?_ ?_ ?_ h).2.1
  · exact fun s hs => ⟨inv_of_idle hs.1, hs.2⟩
  · intro s s' hrows hdependents hmarked hs
    refine ⟨⟨?_, ?_⟩, ?_⟩
    · rw [hrows, hmarked]
      exact hs.1.status
    · rw [hdependents, hmarked]
      exact hs.1.bare
    · unfold Remembered
      rw [hrows, hmarked]
      exact hs.2
  · exact fun s key row m hs hrow hm hmarked => hs.1.status key row (hm hmarked) hrow
  · exact fun s tx t f next hok ht hf hfree row hrow => (hok t ht hfree).1 f next hf row hrow
  · intro s tx t hinv hs hok ht hscript
    refine ⟨ArchiveTerminal.terminal_commit hinv hs.1 hs.2 hok ht hscript, ?_⟩
    intro tx₁ t₁ hne ht₁ hholds hkey id d hd target htarget _
    -- The other transaction has the row, so this one has not.
    have hfree : s.holder t.key ≠ some tx := by
      rw [← hkey, hholds]
      exact fun he => hne (Option.some.inj he)
    exact ((hok t ht hfree).2 hscript id d hd).2 tx₁ t₁ hne ht₁ hholds hkey target htarget

/-! ## Runs -/

/-- One active agent with a permission, and no transaction. -/
def activeAgent (agentId ownerId : Text) : Tables :=
  ⟨fun key => if key = agentId then some ⟨.active, some ownerId⟩ else none, fun _ => none,
    fun id => if id = 0 then some ⟨agentId, .permissionGrant "apis:read".toList⟩ else none, 1,
    fun _ => none, fun _ => false⟩

theorem start_activeAgent (agentId ownerId : Text) :
    lifecycleMachine.start (activeAgent agentId ownerId) := by
  refine ⟨⟨fun _ => rfl, fun _ => rfl, fun id hid => ?_⟩, ⟨?_, ?_⟩, ?_⟩
  · exact if_neg (Nat.one_le_iff_ne_zero.mp hid)
  · exact fun _ _ hm => absurd hm Bool.false_ne_true
  · exact fun _ _ _ hm => absurd hm Bool.false_ne_true
  · intro key agent hrow hstatus
    change (if key = agentId then some (⟨.active, some ownerId⟩ : Agent) else none) = some agent
      at hrow
    split at hrow
    · rw [← Option.some.inj hrow] at hstatus
      exact absurd hstatus (by simp only [reduceCtorEq, not_false_eq_true])
    · exact absurd hrow (by simp only [reduceCtorEq, not_false_eq_true])

/-- An archive from beginning to end. -/
def archiveRun (tx : Nat) (agentId : Text) (identity : Identity) : List (RowScripts.Action Op) :=
  .begin_ tx ⟨agentId, .archive identity⟩ :: List.replicate 8 (.statement tx)

/-- A step under the row's lock, or one that neither commits nor writes over an
    archive. -/
def sheltered (s : Tables) : RowScripts.Action Op → Bool
  | .statement tx => (s.txs tx).all fun t => decide (s.holder t.key = some tx) ||
      match t.script with
      | .commit => false
      | .write _ _ => (s.rows t.key).all fun agent => agent.status ≠ .archived
      | _ => true
  | _ => true

theorem undisturbed_of_sheltered {s : Tables} {a : RowScripts.Action Op}
    (h : sheltered s a = true) : Undisturbed s a := by
  cases a with
  | begin_ tx op => trivial
  | rollback tx => trivial
  | statement tx =>
      intro t ht hfree
      rw [sheltered, ht, Option.all_some, decide_eq_false hfree, Bool.false_or] at h
      constructor
      · intro f next hscript agent hrow hstatus
        rw [hscript] at h
        dsimp only at h
        rw [hrow, Option.all_some, decide_eq_true_eq] at h
        exact absurd hstatus h
      · intro hscript
        rw [hscript] at h
        exact absurd h Bool.false_ne_true

/-- An agent that is archived. -/
theorem terminal_of_undisturbed_archive :
    ∃ s, lifecycleMachine.runWhen sheltered (activeAgent "agnt_1".toList "usr_1".toList)
        (archiveRun 0 "agnt_1".toList ⟨"usr_1".toList, false⟩) = some s ∧
      s.marked "agnt_1".toList = true ∧ Terminal s := by
  have hstart : lifecycleMachine.ReachesWhen Undisturbed
      (activeAgent "agnt_1".toList "usr_1".toList) := .start _ (start_activeAgent _ _)
  refine ⟨_, rfl, rfl, ?_⟩
  have hrun : lifecycleMachine.runWhen sheltered (activeAgent "agnt_1".toList "usr_1".toList)
      (archiveRun 0 "agnt_1".toList ⟨"usr_1".toList, false⟩) = some _ := rfl
  exact terminal_of_undisturbed
    (Machine.reachesWhen_runWhen (fun _ _ h => undisturbed_of_sheltered h) hstart hrun)

/-- A disable that has read the agent before it is archived, and goes on after. -/
def disableAcrossArchive (agentId : Text) (identity : Identity) : List (RowScripts.Action Op) :=
  [.begin_ 0 ⟨agentId, .disable identity⟩, .statement 0] ++ archiveRun 1 agentId identity ++
    List.replicate 3 (.statement 0)

/-- The archived agent is disabled in the end. -/
theorem not_terminal : ¬ ∀ s, lifecycleMachine.Reachable s → Terminal s := by
  intro hall
  have hstart : lifecycleMachine.Reachable (activeAgent "agnt_1".toList "usr_1".toList) :=
    .start _ (start_activeAgent _ _)
  have hrun : lifecycleMachine.runActions (activeAgent "agnt_1".toList "usr_1".toList)
      (disableAcrossArchive "agnt_1".toList ⟨"usr_1".toList, false⟩) = some _ := rfl
  have hterminal := hall _ (Machine.reachable_runActions hstart hrun)
  have hstatus := hterminal.status "agnt_1".toList ⟨.disabled, some "usr_1".toList⟩ rfl rfl
  exact absurd hstatus (by simp only [reduceCtorEq, not_false_eq_true])

end Agents

end Auth

end JenticOne
