import JenticOne.Auth.AgentService

/-!
# What the Operations Ask of a Commit

For each operation, what is known of its transaction when it commits: the row it
has found under the lock, the row it leaves, what it has swept and what it has
inserted. An operation is safe for a specification whose commits allow this.

## Theorems

* `safe_loadOwnedAgent`, `safe_checkTransition`, `safe_grantAll`: The parts.
* `safe_approve` … `safe_revokeGrant`: The operations.
-/

namespace JenticOne

namespace Auth

namespace Agents

open RowScripts

/-! ## Parts -/

section Scripts

variable {P : Spec Agent Kind Target} {marked : Bool} {inserted : List Kind} {identity : Identity}

theorem safe_loadOwnedAgent {next : Agent → AgentScript}
    (h : ∀ agent, Safe schema P marked (next agent) (.free inserted)) :
    Safe schema P marked (loadOwnedAgent identity false next) (.free inserted) := by
  rw [loadOwnedAgent, Safe]
  intro agent
  split
  · exact safe_abort
  · exact h agent

theorem safe_loadOwnedAgent_forUpdate {next : Agent → AgentScript}
    (h : ∀ agent, P.finds marked agent →
      Safe schema P marked (next agent) (.held ⟨agent, some agent, [], inserted⟩)) :
    Safe schema P marked (loadOwnedAgent identity true next) (.free inserted) := by
  rw [loadOwnedAgent, Safe]
  intro agent hfinds
  split
  · exact safe_abort
  · exact h agent hfinds

theorem safe_checkTransition {allowedFrom : ActorStatus} {next : AgentScript}
    (h : Safe schema P marked next (.free inserted)) :
    Safe schema P marked (checkTransition identity false allowedFrom next) (.free inserted) := by
  refine safe_loadOwnedAgent fun agent => ?_
  split
  · exact safe_abort
  · split
    · exact safe_abort
    · exact h

theorem safe_checkTransition_forUpdate {allowedFrom : ActorStatus} {next : AgentScript}
    (h : ∀ agent : Agent, agent.status ≠ .archived →
      Safe schema P marked next (.held ⟨agent, some agent, [], inserted⟩)) :
    Safe schema P marked (checkTransition identity true allowedFrom next) (.free inserted) := by
  refine safe_loadOwnedAgent_forUpdate fun agent _ => ?_
  split
  · exact safe_abort
  · rename_i hstatus
    split
    · exact safe_abort
    · exact h agent hstatus

/-- Permission grants, inserted one by one. -/
theorem safe_grantAll_held {permissions : List Text} {next : AgentScript}
    {h : Held Agent Kind Target}
    (htogether : ∀ p d, P.together (.permissionGrant p) d ∧ P.together d (.permissionGrant p))
    (hnext : ∀ bodies, (∀ k ∈ bodies, k ∈ h.inserted ∨ k.tag = .permissionGrant) →
      Safe schema P marked next (.held { h with inserted := bodies })) :
    Safe schema P marked (grantAll permissions next) (.held h) := by
  induction permissions generalizing h with
  | nil => exact hnext h.inserted fun k hk => .inl hk
  | cons p rest ih =>
      rw [grantAll, List.foldr_cons, Safe]
      refine ⟨fun d _ => htogether p d, ih fun bodies hbodies => ?_⟩
      refine hnext bodies fun k hk => ?_
      rcases hbodies k hk with hmem | htag
      · rcases List.mem_cons.mp hmem with rfl | hmem
        · exact .inr rfl
        · exact .inl hmem
      · exact .inr htag

theorem safe_grantAll_free {permissions : List Text} {next : AgentScript}
    (htogether : ∀ p d, P.together (.permissionGrant p) d ∧ P.together d (.permissionGrant p))
    (hnext : ∀ bodies, (∀ k ∈ bodies, k ∈ inserted ∨ k.tag = .permissionGrant) →
      Safe schema P marked next (.free bodies)) :
    Safe schema P marked (grantAll permissions next) (.free inserted) := by
  induction permissions generalizing inserted with
  | nil => exact hnext inserted fun k hk => .inl hk
  | cons p rest ih =>
      rw [grantAll, List.foldr_cons, Safe]
      refine ⟨fun d _ => htogether p d, ih fun bodies hbodies => ?_⟩
      refine hnext bodies fun k hk => ?_
      rcases hbodies k hk with hmem | htag
      · rcases List.mem_cons.mp hmem with rfl | hmem
        · exact .inr rfl
        · exact .inl hmem
      · exact .inr htag

theorem safe_loadBindingAgent {agentId : Text} {next : AgentScript}
    (h : Safe schema P marked next (.free inserted)) :
    Safe schema P marked (loadBindingAgent agentId identity next) (.free inserted) := by
  unfold loadBindingAgent
  split
  · rw [Safe]
    exact fun _ => h
  · exact safe_loadOwnedAgent fun _ => h

/-! ## Operations -/

section Operations

theorem safe_approve
    (htogether : ∀ p d, P.together (.permissionGrant p) d ∧ P.together d (.permissionGrant p))
    (hcommit : ∀ (agent : Agent) bodies, agent.status ≠ .archived →
      (∀ k ∈ bodies, k.tag = .permissionGrant) →
      P.commitHeld ⟨agent, some ⟨.active, some (agent.ownerId.getD identity.sub)⟩, [], bodies⟩) :
    Safe schema P marked (approve identity) (.free []) := by
  refine safe_checkTransition_forUpdate fun agent hstatus => ?_
  rw [Safe]
  intro existingGrants
  rw [setApproval, Safe]
  intro _ _
  rw [Safe]
  intro row hrow
  rw [← Option.some.inj hrow]
  split
  · refine safe_grantAll_held htogether fun bodies hbodies => ?_
    rw [Safe]
    exact hcommit agent bodies hstatus fun k hk =>
      (hbodies k hk).resolve_left List.not_mem_nil
  · rw [Safe]
    exact hcommit agent [] hstatus fun k hk => absurd hk List.not_mem_nil

theorem safe_deny (hcommit : ∀ agent : Agent, agent.status ≠ .archived →
      P.commitHeld ⟨agent, some { agent with status := .rejected }, [], []⟩) :
    Safe schema P marked (deny identity) (.free []) := by
  refine safe_checkTransition_forUpdate fun agent hstatus => ?_
  rw [setStatus, Safe]
  intro row hrow
  rw [Safe, ← Option.some.inj hrow]
  exact hcommit agent hstatus

theorem safe_disable (hcommit : ∀ (agent : Agent) swept,
      P.overwrites agent { agent with status := .disabled } →
      P.commitHeld ⟨agent, some { agent with status := .disabled }, swept, []⟩) :
    Safe schema P marked (disable identity) (.free []) := by
  refine safe_checkTransition ?_
  rw [setStatus, Safe]
  intro row _ hover
  rw [Safe, Safe]
  exact hcommit row _ hover

theorem safe_enable (hcommit : ∀ agent : Agent,
      P.overwrites agent { agent with status := .active } →
      P.commitHeld ⟨agent, some { agent with status := .active }, [], []⟩) :
    Safe schema P marked (enable identity) (.free []) := by
  refine safe_checkTransition ?_
  rw [setStatus, Safe]
  intro row _ hover
  rw [Safe]
  exact hcommit row hover

theorem safe_claim {sub : Text} (hcommit : ∀ agent : Agent, agent.status ≠ .archived →
      agent.ownerId = none → P.commitHeld ⟨agent, some { agent with ownerId := some sub }, [], []⟩) :
    Safe schema P marked (claim sub) (.free []) := by
  rw [claim, Safe]
  intro agent _
  split
  · exact safe_abort
  · rename_i hstatus
    split
    · exact safe_abort
    · rename_i hunowned
      rw [Safe]
      intro row hrow
      rw [Safe, ← Option.some.inj hrow]
      exact hcommit agent hstatus (not_not.mp hunowned)

/-- Every table has been swept when the archive commits. -/
theorem safe_archiveAndSweep {agent : Agent} (hcommit : ∀ swept,
      (∀ tag, P.tracks (.table tag) = true → .table tag ∈ swept) →
      P.commitHeld ⟨agent, some { agent with status := .archived }, swept, []⟩) :
    Safe schema P marked
      (.change (.table .permissionGrant) .delete <|
        .change (.table .credentialBinding) .delete <|
        .change (.table .heldExecution) .withdraw <|
        .change (.table .oauthGrant) .revoke <|
        .change (.table .job) .cancel .commit)
      (.held ⟨agent, some { agent with status := .archived }, [], []⟩) := by
  rw [Safe, Safe, Safe, Safe, Safe, Safe]
  refine hcommit _ fun tag htracks => ?_
  have hmem : ∀ {b : Bool} {target : Target} {swept : List Target}, Target.table tag ∈ swept →
      Target.table tag ∈ (if b then target :: swept else swept) := by
    intro b target swept hswept
    split
    · exact List.mem_cons_of_mem _ hswept
    · exact hswept
  have hself : ∀ {c : Change} {swept : List Target}, c.sparesTag tag = false →
      Target.table tag ∈ (if schema.settles (.table tag) c && P.tracks (.table tag) then
        Target.table tag :: swept else swept) := by
    intro c swept hnot
    rw [show schema.settles (.table tag) c = true from Bool.not_eq_true' _ ▸ hnot, htracks]
    exact List.mem_cons_self
  cases tag with
  | permissionGrant => exact hmem (hmem (hmem (hmem (hself rfl))))
  | credentialBinding => exact hmem (hmem (hmem (hself rfl)))
  | heldExecution => exact hmem (hmem (hself rfl))
  | oauthGrant => exact hmem (hself rfl)
  | job => exact hself rfl

theorem safe_archive (hcommit : ∀ (agent : Agent) swept,
      (∀ tag, P.tracks (.table tag) = true → .table tag ∈ swept) →
      P.commitHeld ⟨agent, some { agent with status := .archived }, swept, []⟩) :
    Safe schema P marked (archive identity) (.free []) := by
  refine safe_loadOwnedAgent fun agent => ?_
  split
  · exact safe_abort
  · rw [archiveAndSweep, setStatus, Safe]
    exact fun row _ _ => safe_archiveAndSweep fun swept hswept => hcommit row swept hswept

theorem safe_purgeArchive
    (hdone : ∀ agent : Agent, agent.status = .archived →
      P.commitHeld ⟨agent, some agent, [], []⟩)
    (hcommit : ∀ (agent : Agent) swept, (∀ tag, P.tracks (.table tag) = true → .table tag ∈ swept) →
      P.commitHeld ⟨agent, some { agent with status := .archived }, swept, []⟩) :
    Safe schema P marked (purgeArchive identity) (.free []) := by
  refine safe_loadOwnedAgent_forUpdate fun agent _ => ?_
  split
  · rename_i hstatus
    rw [Safe]
    exact hdone agent hstatus
  · rw [archiveAndSweep, setStatus, Safe]
    intro row hrow
    rw [← Option.some.inj hrow]
    exact safe_archiveAndSweep fun swept hswept => hcommit agent swept hswept

theorem safe_purgeDelete (hcommit : ∀ (agent : Agent) swept, P.finds marked agent →
      (P.tracks (.table .oauthGrant) = true → .table .oauthGrant ∈ swept) →
      P.commitHeld ⟨agent, none, swept, []⟩) :
    Safe schema P marked (purgeDelete identity) (.free []) := by
  refine safe_loadOwnedAgent_forUpdate fun agent hfinds => ?_
  rw [Safe, Safe, Safe, Safe, Safe, Safe]
  refine hcommit agent _ hfinds fun htracks => ?_
  rw [show schema.settles (.table .oauthGrant) .delete = true from rfl, htracks]
  exact List.mem_cons_self

theorem safe_replacePermissions {permissions : List Text}
    (htogether : ∀ p d, P.together (.permissionGrant p) d ∧ P.together d (.permissionGrant p))
    (hcommit : ∀ bodies, (∀ k ∈ bodies, k.tag = .permissionGrant) → P.commitFree bodies) :
    Safe schema P marked (replacePermissions identity permissions) (.free []) := by
  refine safe_loadOwnedAgent fun agent => ?_
  split
  · exact safe_abort
  · rw [Safe]
    intro existing
    rw [Safe]
    refine safe_grantAll_free htogether fun bodies hbodies => ?_
    rw [Safe]
    exact hcommit bodies fun k hk => (hbodies k hk).resolve_left List.not_mem_nil

theorem safe_updateAgent {ownerId : Option (Option Text)} {foreign : Text → Bool}
    (hkept : ∀ agent : Agent, agent.status ≠ .archived → P.commitHeld ⟨agent, some agent, [], []⟩)
    (htransfer : ∀ (agent : Agent) swept owner, agent.status ≠ .archived →
      (P.tracks (.table .oauthGrant) = true → .table .oauthGrant ∈ swept) →
      P.commitHeld ⟨agent, some { agent with ownerId := owner }, swept, []⟩) :
    Safe schema P marked (updateAgent identity ownerId foreign) (.free []) := by
  refine safe_loadOwnedAgent_forUpdate fun agent _ => ?_
  split
  · exact safe_abort
  · rename_i hstatus
    split
    · rw [Safe]
      exact hkept agent hstatus
    · split
      · exact safe_abort
      · rw [Safe]
        intro row hrow
        rw [← Option.some.inj hrow, Safe, Safe, Safe]
        refine htransfer agent _ _ hstatus fun htracks => ?_
        rw [show schema.settles (.table .oauthGrant) .revoke = true from rfl, htracks]
        exact List.mem_cons_self

theorem safe_bindCredential {agentId credentialId : Text}
    (hcommit : P.commitFree [.credentialBinding credentialId false]) :
    Safe schema P marked (bindCredential agentId identity credentialId) (.free []) := by
  refine safe_loadBindingAgent ?_
  rw [Safe, Safe]
  exact ⟨fun d hd => absurd hd List.not_mem_nil, hcommit⟩

theorem safe_resumeCredential {agentId credentialId : Text} (hcommit : P.commitFree []) :
    Safe schema P marked (resumeCredential agentId identity credentialId) (.free []) := by
  unfold resumeCredential
  split
  · exact safe_abort
  · refine safe_loadBindingAgent ?_
    rw [Safe, Safe]
    exact hcommit

theorem safe_createGrant {userId clientId : Text}
    (hcommit : ∀ (agent : Agent) swept, agent.status = .active → agent.ownerId = some userId →
      (P.tracks (.pair clientId) = true → .pair clientId ∈ swept) →
      P.commitHeld ⟨agent, some agent, swept, [.oauthGrant clientId userId true]⟩) :
    Safe schema P marked (createGrant userId clientId) (.free []) := by
  rw [createGrant, Safe]
  intro agent _
  split
  · exact safe_abort
  · rename_i heligible
    rw [not_or, not_not, not_not] at heligible
    rw [Safe, Safe, Safe]
    refine ⟨fun d hd => absurd hd List.not_mem_nil,
      hcommit agent _ heligible.1 heligible.2 fun htracks => ?_⟩
    rw [show schema.settles (.pair clientId) .revoke = true from rfl, htracks]
    exact List.mem_cons_self

theorem safe_revokeGrant {grantId : Nat} (hcommit : P.commitFree []) :
    Safe schema P marked (revokeGrant grantId) (.free []) := by
  rw [revokeGrant, Safe, Safe]
  exact hcommit

end Operations

end Scripts

end Agents

end Auth

end JenticOne
