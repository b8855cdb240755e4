import JenticOne.Auth.AgentScripts

/-!
# A Live OAuth Grant's Consenter Owns the Agent

Consent locks the agent's row, finds the agent active and the user its owner,
revokes the pair's older grants and inserts the new one, all before the lock is
released. A change of the owner is made under the same lock and revokes every
grant of the agent. An archive reads the row without the lock, but its first
write takes it, and only then are the grants revoked, so a grant that a consent
has committed by then is among them, and a consent that comes later finds the
agent archived.

`spec` is what this asks of a transaction: what it inserts, and what it leaves
of the older grants when it has changed the agent's row.

## Main definitions

* `Consented`: The property of the committed tables.
* `spec`: What is asked of a transaction.

## Theorems

* `safe_programs`: Every operation does what is asked.
* `consented_commit`: A commit keeps the property.
* `consented_of_reachable`: The property holds in every run.
-/

namespace JenticOne

namespace Auth

namespace Agents

open RowScripts

/-! ## The property -/

/-- Every active OAuth grant is of an agent that is not archived and is owned by
    the user who consented, and is the only one of its client and agent. -/
structure Consented (s : Tables) : Prop where
  owned : ∀ id agentId clientId userId,
    s.dependents id = some ⟨agentId, .oauthGrant clientId userId true⟩ →
    ∃ agent, s.rows agentId = some agent ∧ agent.status ≠ .archived ∧ agent.ownerId = some userId
  once : ∀ id id' agentId clientId userId userId',
    s.dependents id = some ⟨agentId, .oauthGrant clientId userId true⟩ →
    s.dependents id' = some ⟨agentId, .oauthGrant clientId userId' true⟩ → id = id'

namespace GrantOwner

/-- The grants that a transaction inserts are consented by the owner and replace
    those of the pair; the others are revoked, or the row is one they fit. -/
def spec : Spec Agent Kind Target where
  tracks target := match target with
    | .table tag => tag = .oauthGrant
    | .pair _ => true
    | _ => false
  finds _ _ := True
  overwrites _ _ := True
  together k k' := k.tag ≠ .oauthGrant ∨ k'.tag ≠ .oauthGrant
  commitFree inserted := ∀ k ∈ inserted, k.tag ≠ .oauthGrant
  commitHeld h :=
    (∀ clientId userId active, .oauthGrant clientId userId active ∈ h.inserted →
      Target.pair clientId ∈ h.swept ∧ ∃ agent, h.row = some agent ∧ agent.status ≠ .archived ∧
        agent.ownerId = some userId) ∧
    (Target.table .oauthGrant ∈ h.swept ∨ h.base.status = .archived ∨
      ∃ agent, h.row = some agent ∧ agent.status ≠ .archived ∧
        ∀ userId, h.base.ownerId = some userId → agent.ownerId = some userId)

theorem together_permissionGrant (p : Text) (d : Kind) :
    spec.together (.permissionGrant p) d ∧ spec.together d (.permissionGrant p) :=
  ⟨.inl (by simp only [Kind.tag, ne_eq, reduceCtorEq, not_false_eq_true]),
    .inr (by simp only [Kind.tag, ne_eq, reduceCtorEq, not_false_eq_true])⟩

/-- A commit that leaves the owner and the status fit, and has consented to
    nothing. -/
theorem commitHeld_kept {h : Held Agent Kind Target} {agent : Agent}
    (hinserted : ∀ k ∈ h.inserted, k.tag ≠ .oauthGrant) (hrow : h.row = some agent)
    (hstatus : agent.status ≠ .archived)
    (howner : ∀ userId, h.base.ownerId = some userId → agent.ownerId = some userId) :
    spec.commitHeld h :=
  ⟨fun _ _ _ hmem => absurd rfl (hinserted _ hmem), .inr (.inr ⟨agent, hrow, hstatus, howner⟩)⟩

/-- A commit that has revoked every grant and consented to nothing. -/
theorem commitHeld_swept {base : Agent} {row : Option Agent} {swept : List Target}
    (h : spec.tracks (.table .oauthGrant) = true → .table .oauthGrant ∈ swept) :
    spec.commitHeld ⟨base, row, swept, []⟩ :=
  ⟨fun _ _ _ hmem => absurd hmem List.not_mem_nil, .inl (h rfl)⟩

/-- Every operation does what is asked. -/
theorem safe_programs (op : Op) :
    Safe schema spec (programs op).marked (programs op).script (.free []) := by
  have hnil : ∀ k ∈ ([] : List Kind), k.tag ≠ .oauthGrant := fun k hk => absurd hk List.not_mem_nil
  have hpermissions : ∀ bodies : List Kind, (∀ k ∈ bodies, k.tag = .permissionGrant) →
      ∀ k ∈ bodies, k.tag ≠ .oauthGrant := by
    intro bodies hbodies k hk
    rw [hbodies k hk]
    simp only [ne_eq, reduceCtorEq, not_false_eq_true]
  cases op with
  | mk agentId verb =>
      cases verb with
      | approve identity =>
          refine safe_approve together_permissionGrant fun agent bodies _ hbodies =>
            commitHeld_kept (hpermissions bodies hbodies) rfl
              (by simp only [ne_eq, reduceCtorEq, not_false_eq_true]) fun userId howner => ?_
          dsimp only at howner ⊢
          rw [howner]
          rfl
      | deny identity =>
          exact safe_deny fun agent _ => commitHeld_kept hnil rfl
            (by simp only [ne_eq, reduceCtorEq, not_false_eq_true]) fun _ howner => howner
      | disable identity =>
          exact safe_disable fun agent swept _ => commitHeld_kept hnil rfl
            (by simp only [ne_eq, reduceCtorEq, not_false_eq_true]) fun _ howner => howner
      | enable identity =>
          exact safe_enable fun agent _ => commitHeld_kept hnil rfl
            (by simp only [ne_eq, reduceCtorEq, not_false_eq_true]) fun _ howner => howner
      | claim sub =>
          refine safe_claim fun agent hstatus hunowned =>
            commitHeld_kept hnil rfl hstatus fun userId howner => ?_
          -- Nobody owned the agent.
          dsimp only at howner
          rw [hunowned] at howner
          exact absurd howner (by simp only [reduceCtorEq, not_false_eq_true])
      | archive identity => exact safe_archive fun agent swept hswept => commitHeld_swept (hswept _)
      | purgeArchive identity =>
          exact safe_purgeArchive
            (fun agent hstatus =>
              ⟨fun _ _ _ hmem => absurd hmem List.not_mem_nil, .inr (.inl hstatus)⟩)
            fun agent swept hswept => commitHeld_swept (hswept _)
      | purgeDelete identity =>
          exact safe_purgeDelete fun agent swept _ hswept => commitHeld_swept hswept
      | replacePermissions identity permissions =>
          exact safe_replacePermissions together_permissionGrant hpermissions
      | updateAgent identity ownerId foreign =>
          exact safe_updateAgent
            (fun agent hstatus => commitHeld_kept hnil rfl hstatus fun _ howner => howner)
            fun agent swept owner _ hswept => commitHeld_swept hswept
      | bindCredential identity credentialId =>
          refine safe_bindCredential fun k hk => ?_
          rw [List.mem_singleton.mp hk]
          simp only [Kind.tag, ne_eq, reduceCtorEq, not_false_eq_true]
      | resumeCredential identity credentialId => exact safe_resumeCredential hnil
      | createGrant userId clientId =>
          refine safe_createGrant fun agent swept hactive howner hswept => ?_
          have hstatus : agent.status ≠ .archived := by
            rw [hactive]
            simp only [ne_eq, reduceCtorEq, not_false_eq_true]
          refine ⟨fun clientId' userId' active hmem => ?_,
            .inr (.inr ⟨agent, rfl, hstatus, fun _ h => h⟩)⟩
          rcases Kind.oauthGrant.inj (List.mem_singleton.mp hmem) with ⟨rfl, rfl, _⟩
          exact ⟨hswept rfl, agent, rfl, hstatus, howner⟩
      | revokeGrant grantId => exact safe_revokeGrant hnil

/-! ## Commits -/

section Commit

variable {s : Tables} {tx : Nat} {t : Tx Text Agent Kind Change Target}

theorem oauthGrant_of_core {d : Kind} {clientId userId : Text}
    (h : schema.core (.oauthGrant clientId userId true) = schema.core d) :
    d = .oauthGrant clientId userId true := by
  cases d with
  | oauthGrant clientId' userId' active => exact h.symm
  | permissionGrant _ | credentialBinding _ _ | heldExecution _ | job _ =>
      exact absurd h (by simp only [schema, Kind.core, reduceCtorEq, not_false_eq_true])

/-- An active grant that a transaction sees is one that it has inserted or a
    committed one that none of its changes has ended. -/
theorem oauthGrant_of_view {id : Nat} {agentId clientId userId : Text}
    (h : s.view schema t id = some ⟨agentId, .oauthGrant clientId userId true⟩) :
    t.inserts id = some (.oauthGrant clientId userId true) ∧ agentId = t.key ∨
      s.dependents id = some ⟨agentId, .oauthGrant clientId userId true⟩ ∧
        ∀ c ∈ t.changes id, schema.spares c (.oauthGrant clientId userId true) = true := by
  rcases view_live h rfl with ⟨d, _, hcore, hspares, ⟨hinserted, hkey⟩ | ⟨_, hcommitted⟩⟩
  · rw [oauthGrant_of_core hcore] at hinserted
    exact .inl ⟨hinserted, hkey⟩
  · rw [oauthGrant_of_core hcore] at hcommitted hspares
    exact .inr ⟨hcommitted, hspares⟩

/-- A set that was swept has no committed grant left. -/
theorem not_swept_of_spares {h : Held Agent Kind Target} (hfits : FitsHeld schema spec s tx t h)
    {target : Target} {id : Nat} {clientId userId : Text}
    (hcommitted : s.dependents id = some ⟨t.key, .oauthGrant clientId userId true⟩)
    (hspares : ∀ c ∈ t.changes id, schema.spares c (.oauthGrant clientId userId true) = true)
    (hselects : target.selects id (.oauthGrant clientId userId true) = true) :
    target ∉ h.swept := by
  intro hswept
  rcases (hfits.swept target hswept).2.2 id _ hcommitted rfl hselects rfl with ⟨c, hc, hnot⟩
  rw [hspares c hc] at hnot
  exact absurd hnot (by simp only [Bool.true_eq_false, not_false_eq_true])

theorem consented_commit (hinv : RowScripts.Inv schema spec s) (h : Consented s)
    (ht : s.txs tx = some t)
    (hscript : t.script = .commit) : Consented (s.commit schema tx t) := by
  rcases hinv.safe tx t ht with ⟨stage, hsafe, hfits⟩
  rw [hscript] at hsafe
  cases stage with
  | free inserted =>
      rw [Safe] at hsafe
      have hrows : (s.commit schema tx t).rows = s.rows := by
        change Function.update s.rows t.key (s.found t) = s.rows
        rw [State.found, hfits.2.1]
        exact Function.update_eq_self _ _
      -- Nothing is inserted, so the grants are committed ones.
      have hcommitted : ∀ {id agentId clientId userId},
          s.view schema t id = some ⟨agentId, .oauthGrant clientId userId true⟩ →
          s.dependents id = some ⟨agentId, .oauthGrant clientId userId true⟩ := by
        intro id agentId clientId userId hview
        rcases oauthGrant_of_view hview with ⟨hinserted, _⟩ | ⟨hcommitted, _⟩
        · exact absurd rfl (hsafe _ (hfits.2.2.mem id _ hinserted))
        · exact hcommitted
      constructor
      · intro id agentId clientId userId hview
        rw [hrows]
        exact h.owned id agentId clientId userId (hcommitted hview)
      · intro id id' agentId clientId userId userId' hview hview'
        exact h.once id id' agentId clientId userId userId' (hcommitted hview)
          (hcommitted hview')
  | held held =>
      rw [Safe] at hsafe
      rcases hsafe with ⟨hinserts, hkept⟩
      have hfits : FitsHeld schema spec s tx t held := hfits
      constructor
      · intro id agentId clientId userId hview
        change ∃ agent, Function.update s.rows t.key (s.found t) agentId = some agent ∧ _
        rcases oauthGrant_of_view hview with ⟨hinserted, rfl⟩ | ⟨hcommitted, hspares⟩
        · rcases hinserts clientId userId true (hfits.inserted.mem id _ hinserted) with
            ⟨_, agent, hrow, hstatus, howner⟩
          rw [Function.update_self, hfits.row]
          exact ⟨agent, hrow, hstatus, howner⟩
        · rcases h.owned id agentId clientId userId hcommitted with ⟨agent, hagent, hrest⟩
          by_cases hkey : agentId = t.key
          · rw [hkey] at hcommitted hagent
            rw [hkey, Function.update_self, hfits.row]
            have hbase : agent = held.base := Option.some.inj (hagent.symm.trans hfits.base)
            rcases hkept with hswept | harchived | ⟨agent', hrow, hstatus, howner⟩
            · exact absurd hswept (not_swept_of_spares hfits hcommitted hspares rfl)
            · rw [← hbase] at harchived
              exact absurd harchived hrest.1
            · exact ⟨agent', hrow, hstatus, howner userId (hbase ▸ hrest.2)⟩
          · rw [Function.update_of_ne hkey]
            exact ⟨agent, hagent, hrest⟩
      · intro id id' agentId clientId userId userId' hview hview'
        rcases oauthGrant_of_view hview with ⟨hinserted, hkey⟩ | ⟨hcommitted, hspares⟩
        · rcases oauthGrant_of_view hview' with ⟨hinserted', _⟩ | ⟨hcommitted', hspares'⟩
          · by_contra hne
            rcases hfits.inserted.together id id' _ _ hne hinserted hinserted' with hnot | hnot
            · exact hnot rfl
            · exact hnot rfl
          · rw [hkey] at hcommitted'
            exact absurd (hinserts _ _ _ (hfits.inserted.mem id _ hinserted)).1
              (not_swept_of_spares hfits hcommitted' hspares' (decide_eq_true rfl))
        · rcases oauthGrant_of_view hview' with ⟨hinserted', hkey⟩ | ⟨hcommitted', _⟩
          · rw [hkey] at hcommitted
            exact absurd (hinserts _ _ _ (hfits.inserted.mem id' _ hinserted')).1
              (not_swept_of_spares hfits hcommitted hspares (decide_eq_true rfl))
          · exact h.once id id' agentId clientId userId userId' hcommitted hcommitted'

/-- A commit inserts no grant that another transaction has swept away. -/
theorem quiet_commit (hinv : RowScripts.Inv schema spec s) (ht : s.txs tx = some t)
    (hscript : t.script = .commit) {tx₁ : Nat} {t₁ : Tx Text Agent Kind Change Target}
    (hne : tx₁ ≠ tx) (hholds : s.holder t₁.key = some tx₁) (hkey : t₁.key = t.key) {id : Nat}
    {d : Kind} (hd : t.inserts id = some d) {target : Target}
    (htracks : spec.tracks target = true) : schema.selects target id d = false := by
  rcases hinv.safe tx t ht with ⟨stage, hsafe, hfits⟩
  rw [hscript] at hsafe
  cases stage with
  | free inserted =>
      rw [Safe] at hsafe
      have htag : d.tag ≠ .oauthGrant := hsafe d (hfits.2.2.mem id d hd)
      cases target with
      | table tag =>
          have htag' : tag = .oauthGrant := of_decide_eq_true htracks
          rw [htag']
          exact decide_eq_false htag
      | pair clientId =>
          cases d with
          | oauthGrant _ _ _ => exact absurd rfl htag
          | permissionGrant _ | credentialBinding _ _ | heldExecution _ | job _ => rfl
      | row _ | bindings _ => exact absurd htracks Bool.false_ne_true
  | held held =>
      have hself := FitsHeld.holds hfits
      rw [← hkey, hholds] at hself
      exact absurd (Option.some.inj hself) hne

end Commit

end GrantOwner

/-- Runs of the operations from tables in which every grant is consented. -/
def consentMachine : Machine Tables (RowScripts.Action Op) :=
  RowScripts.machine schema programs fun s => Idle s ∧ Consented s

/-- **A live grant's consenter owns the agent.** In every run of the operations,
    every committed active OAuth grant belongs to an agent that is not archived
    and is owned by the user who consented, and there is at most one of a client
    and an agent. -/
theorem consented_of_reachable {s : Tables} (h : consentMachine.Reachable s) : Consented s := by
  refine (reachesWhen_spec (P := GrantOwner.spec) (Q := Consented) ?_ ?_ GrantOwner.safe_programs
    ?_ ?_ ?_ h).2
  · exact fun s hs => ⟨inv_of_idle hs.1, hs.2⟩
  · intro s s' hrows hdependents _ hs
    constructor
    · rw [hrows, hdependents]
      exact hs.owned
    · rw [hdependents]
      exact hs.once
  · exact fun _ _ _ _ _ _ _ => trivial
  · exact fun _ _ _ _ _ _ _ _ _ _ _ => trivial
  · intro s tx t hinv hs _ ht hscript
    exact ⟨GrantOwner.consented_commit hinv hs ht hscript,
      fun tx₁ t₁ hne _ hholds hkey id d hd target _ htracks =>
        GrantOwner.quiet_commit hinv ht hscript hne hholds hkey hd htracks⟩

/-- One active agent and no transaction. -/
def oneAgent (agentId ownerId : Text) : Tables :=
  ⟨fun key => if key = agentId then some ⟨.active, some ownerId⟩ else none, fun _ => none,
    fun _ => none, 0, fun _ => none, fun _ => false⟩

/-- A consent and a transfer to another owner that waits for it. -/
def consentThenTransfer : List (RowScripts.Action Op) :=
  [.begin_ 0 ⟨"agnt_1".toList, .createGrant "usr_1".toList "client".toList⟩,
    .begin_ 1 ⟨"agnt_1".toList,
      .updateAgent ⟨"usr_0".toList, true⟩ (some (some "usr_2".toList)) fun _ => true⟩,
    .statement 0, .statement 0, .statement 0, .statement 0, .statement 1, .statement 1]

/-- After the consent, while the transfer is under way. -/
theorem consented_of_reachable_consent :
    ∃ s, consentMachine.runActions (oneAgent "agnt_1".toList "usr_1".toList)
        consentThenTransfer = some s ∧
      s.dependents 0 = some ⟨"agnt_1".toList, .oauthGrant "client".toList "usr_1".toList true⟩ ∧
      Consented s := by
  have hstart : consentMachine.Reachable (oneAgent "agnt_1".toList "usr_1".toList) :=
    .start _ ⟨⟨fun _ => rfl, fun _ => rfl, fun _ _ => rfl⟩,
      ⟨fun _ _ _ _ h => absurd h (by simp only [oneAgent, reduceCtorEq, not_false_eq_true]),
        fun _ _ _ _ _ _ h => absurd h (by
          simp only [oneAgent, reduceCtorEq, not_false_eq_true])⟩⟩
  refine ⟨_, rfl, rfl, ?_⟩
  have hrun : consentMachine.runActions (oneAgent "agnt_1".toList "usr_1".toList)
      consentThenTransfer = some _ := rfl
  exact consented_of_reachable (Machine.reachable_runActions hstart hrun)

end Agents

end Auth

end JenticOne
