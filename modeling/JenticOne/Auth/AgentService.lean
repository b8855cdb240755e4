import JenticOne.Library.RowScripts
import JenticOne.Library.Text

/-!
# The Agent Lifecycle

The operations of `AgentService` and `OAuthGrantService` that change an agent or
what it is entitled to, as scripts around the agent's row. The dependent rows
are what carries the agent's id: permission grants, credential bindings, OAuth
client grants, held calls and execution jobs.

Each definition is the sequence of statements of the source's method in its
order. `get_by_id` is a read without the lock and `get_by_id_for_update` one
with it; a flush of a changed attribute is a write of that column. A check that
fails raises, which is `abort`; a check on data other than these tables, such as
the ceiling on granted permissions or the claim token, is one of the reasons for
which a transaction may be rolled back at any time. Listing the active OAuth
grants of a pair or of an agent and revoking each is one statement: it runs
under the agent's lock, so the list grows by nothing in between. Audit entries,
events, tokens and the control database are left out.

## Main definitions

* `Agent`, `Kind`: The rows.
* `Change`, `Target`, `schema`: What statements do to dependent rows.
* `approve` … `createGrant`: The operations.
* `Op`, `programs`: All of them.
-/

namespace JenticOne

namespace Auth

namespace Agents

open RowScripts

inductive ActorStatus
  | pending
  | active
  | rejected
  | disabled
  | archived
  deriving DecidableEq, Repr

structure Agent where
  status : ActorStatus
  ownerId : Option Text
  deriving DecidableEq

/-- The tables of dependent rows. -/
inductive Tag
  | permissionGrant
  | credentialBinding
  | oauthGrant
  | heldExecution
  | job
  deriving DecidableEq, Repr

/-- A dependent row, without the agent's id. -/
inductive Kind
  | permissionGrant (permission : Text)
  | credentialBinding (credentialId : Text) (suspended : Bool)
  | oauthGrant (clientId userId : Text) (active : Bool)
  | heldExecution (pending : Bool)
  | job (queued : Bool)
  deriving DecidableEq, Repr

def Kind.tag : Kind → Tag
  | .permissionGrant _ => .permissionGrant
  | .credentialBinding _ _ => .credentialBinding
  | .oauthGrant _ _ _ => .oauthGrant
  | .heldExecution _ => .heldExecution
  | .job _ => .job

/-- The row is one that an archived agent must not have. -/
def Kind.live : Kind → Bool
  | .permissionGrant _ => true
  | .credentialBinding _ _ => true
  | .oauthGrant _ _ active => active
  | .heldExecution pending => pending
  | .job queued => queued

/-- The row apart from whether a binding is suspended. -/
def Kind.core : Kind → Kind
  | .credentialBinding credentialId _ => .credentialBinding credentialId false
  | k => k

inductive Change
  | delete
  | revoke
  | withdraw
  | cancel
  | suspend (suspended : Bool)
  deriving DecidableEq, Repr

def Change.apply : Change → Kind → Option Kind
  | .delete, _ => none
  | .revoke, .oauthGrant clientId userId _ => some (.oauthGrant clientId userId false)
  | .withdraw, .heldExecution _ => some (.heldExecution false)
  | .cancel, .job _ => some (.job false)
  | .suspend suspended, .credentialBinding credentialId _ =>
      some (.credentialBinding credentialId suspended)
  | _, k => some k

/-- The change ends no row of the table. -/
def Change.sparesTag : Change → Tag → Bool
  | .delete, _ => false
  | .revoke, .oauthGrant => false
  | .withdraw, .heldExecution => false
  | .cancel, .job => false
  | _, _ => true

/-- What a statement is about: a table, the OAuth grants of a client, one row, or
    the bindings to some credentials. -/
inductive Target
  | table (tag : Tag)
  | pair (clientId : Text)
  | row (id : Nat)
  | bindings (credentials : Text → Bool)

def Target.selects : Target → Nat → Kind → Bool
  | .table tag, _, k => k.tag = tag
  | .pair clientId, _, .oauthGrant clientId' _ _ => clientId' = clientId
  | .row id, id', _ => id' = id
  | .bindings credentials, _, .credentialBinding credentialId _ => credentials credentialId
  | _, _, _ => false

def Target.settles : Target → Change → Bool
  | .table tag, c => !c.sparesTag tag
  | .pair _, c => !c.sparesTag .oauthGrant
  | _, _ => false

theorem tag_core (k : Kind) : k.core.tag = k.tag := by
  cases k <;> rfl

/-- A row that is live after a change was live before and is the same but for a
    suspension. -/
theorem live_of_apply {c : Change} {k k' : Kind} (h : c.apply k = some k')
    (hlive : k'.live = true) :
    k.live = true ∧ k'.core = k.core ∧ c.sparesTag k.tag = true := by
  cases c with
  | delete => exact absurd h (by simp only [Change.apply, reduceCtorEq, not_false_eq_true])
  | revoke | withdraw | cancel | suspend suspended =>
      cases k <;>
        (rw [← Option.some.inj h] at hlive ⊢
         first
         | exact ⟨hlive, rfl, rfl⟩
         | exact absurd hlive Bool.false_ne_true)

theorem apply_of_spares {c : Change} {k : Kind} (h : c.sparesTag k.tag = true) :
    ∃ k', c.apply k = some k' ∧ k'.core = k.core := by
  cases c <;> cases k <;>
    first
    | exact absurd h Bool.false_ne_true
    | exact ⟨_, rfl, rfl⟩

theorem selects_core (target : Target) (id : Nat) (k : Kind) :
    target.selects id k.core = target.selects id k := by
  cases target <;> cases k <;> rfl

theorem not_spares_of_settles {target : Target} {c : Change} {id : Nat} {k : Kind}
    (hsettles : target.settles c = true) (hselects : target.selects id k = true) :
    c.sparesTag k.tag = false := by
  cases target with
  | table tag =>
      have htag : k.tag = tag := of_decide_eq_true hselects
      rw [htag]
      exact Bool.not_eq_true' _ ▸ hsettles
  | pair clientId =>
      cases k with
      | oauthGrant clientId' userId active => exact Bool.not_eq_true' _ ▸ hsettles
      | permissionGrant _ | credentialBinding _ _ | heldExecution _ | job _ =>
          exact absurd hselects Bool.false_ne_true
  | row _ | bindings _ => exact absurd hsettles Bool.false_ne_true

/-- Agents and what carries their id. The keys of archived agents are remembered. -/
def schema : Schema Agent Kind Change Target where
  apply := Change.apply
  live := Kind.live
  core := Kind.core
  spares c k := c.sparesTag k.tag
  selects := Target.selects
  settles := Target.settles
  marks agent := agent.status = .archived
  live_of_apply := live_of_apply
  apply_of_spares := apply_of_spares
  spares_core c k := by rw [tag_core]
  selects_core := selects_core
  not_spares_of_settles := not_spares_of_settles

/-! ## Operations -/

abbrev AgentScript : Type := Script Agent Kind Change Target

/-- The caller: its id, and whether it holds `org:admin`. -/
structure Identity where
  sub : Text
  orgAdmin : Bool
  deriving DecidableEq, Repr

/-- `_load_owned_agent`: the row, for its owner or an admin. -/
def loadOwnedAgent (identity : Identity) (forUpdate : Bool) (next : Agent → AgentScript) :
    AgentScript :=
  .read forUpdate fun agent =>
    if identity.orgAdmin = false ∧ agent.ownerId ≠ some identity.sub then .abort else next agent

/-- `_check_transition`: the row in the status that the verb leaves. -/
def checkTransition (identity : Identity) (forUpdate : Bool) (allowedFrom : ActorStatus)
    (next : AgentScript) : AgentScript :=
  loadOwnedAgent identity forUpdate fun agent =>
    if agent.status = .archived then .abort
    else if agent.status ≠ allowedFrom then .abort
    else next

def setStatus (status : ActorStatus) (next : AgentScript) : AgentScript :=
  .write (fun agent => { agent with status := status }) next

def grantAll (permissions : List Text) (next : AgentScript) : AgentScript :=
  permissions.foldr (fun permission rest => .insert (.permissionGrant permission) rest) next

/-- `DEFAULT_AGENT_PERMISSIONS` -/
def defaultAgentPermissions : List Text :=
  ["capabilities:execute", "capabilities:read", "apis:read", "catalog:import",
    "executions:read", "jobs:read", "events:read", "owner:resources:read", "owner:agents:read",
    "owner:credentials:read", "credentials:connect"].map String.toList

/-- The approver becomes the owner of an agent that has none. -/
def setApproval (approvedBy : Text) (next : AgentScript) : AgentScript :=
  .read true fun _ =>
    .write (fun agent =>
      { status := .active, ownerId := some (agent.ownerId.getD approvedBy) }) next

def approve (identity : Identity) : AgentScript :=
  checkTransition identity true .pending <|
    .list (.table .permissionGrant) fun existingGrants =>
      setApproval identity.sub <|
        if existingGrants = [] then grantAll defaultAgentPermissions .commit else .commit

def deny (identity : Identity) : AgentScript :=
  checkTransition identity true .pending (setStatus .rejected .commit)

def disable (identity : Identity) : AgentScript :=
  checkTransition identity false .active <|
    setStatus .disabled <| .change (.table .job) .cancel .commit

def enable (identity : Identity) : AgentScript :=
  checkTransition identity false .disabled (setStatus .active .commit)

/-- A user who presents the claim token becomes the owner of an unowned agent. -/
def claim (sub : Text) : AgentScript :=
  .read true fun agent =>
    if agent.status = .archived then .abort
    else if agent.ownerId ≠ none then .abort
    else .write (fun agent => { agent with ownerId := some sub }) .commit

/-- `_archive_and_sweep` -/
def archiveAndSweep : AgentScript :=
  setStatus .archived <|
    .change (.table .permissionGrant) .delete <|
    .change (.table .credentialBinding) .delete <|
    .change (.table .heldExecution) .withdraw <|
    .change (.table .oauthGrant) .revoke <|
    .change (.table .job) .cancel .commit

def archive (identity : Identity) : AgentScript :=
  loadOwnedAgent identity false fun agent =>
    if agent.status = .archived then .abort else archiveAndSweep

/-- The first transaction of a purge: the agent is archived. -/
def purgeArchive (identity : Identity) : AgentScript :=
  loadOwnedAgent identity true fun agent =>
    if agent.status = .archived then .commit else archiveAndSweep

/-- The last transaction of a purge: the rows are deleted. -/
def purgeDelete (identity : Identity) : AgentScript :=
  loadOwnedAgent identity true fun _ =>
    .change (.table .permissionGrant) .delete <|
    .change (.table .credentialBinding) .delete <|
    .change (.table .job) .cancel <|
    .change (.table .oauthGrant) .delete <|
    .erase .commit

def replacePermissions (identity : Identity) (permissions : List Text) : AgentScript :=
  loadOwnedAgent identity false fun agent =>
    if agent.status = .archived then .abort
    else .list (.table .permissionGrant) fun _ =>
      .change (.table .permissionGrant) .delete <| grantAll permissions.eraseDups .commit

/-- An update of other columns leaves the owner, and one with an owner may be a
    transfer. `foreign` are the credentials the new owner could not have bound. -/
def updateAgent (identity : Identity) (ownerId : Option (Option Text))
    (foreign : Text → Bool) : AgentScript :=
  loadOwnedAgent identity true fun agent =>
    if agent.status = .archived then .abort
    else if ownerId.getD agent.ownerId = agent.ownerId then .commit
    else if identity.orgAdmin = false then .abort
    else .write (fun row => { row with ownerId := ownerId.getD row.ownerId }) <|
      .change (.table .oauthGrant) .revoke <|
      .change (.bindings foreign) (.suspend true) .commit

/-- `_load_binding_agent`: the agent itself, its owner or an admin. -/
def loadBindingAgent (agentId : Text) (identity : Identity) (next : AgentScript) : AgentScript :=
  if agentId = identity.sub then .read false fun _ => next
  else loadOwnedAgent identity false fun _ => next

def bindCredential (agentId : Text) (identity : Identity) (credentialId : Text) : AgentScript :=
  loadBindingAgent agentId identity <| .insert (.credentialBinding credentialId false) .commit

def resumeCredential (agentId : Text) (identity : Identity) (credentialId : Text) : AgentScript :=
  if agentId = identity.sub ∧ identity.orgAdmin = false then .abort
  else loadBindingAgent agentId identity <|
    .change (.bindings fun c => c = credentialId) (.suspend false) .commit

/-- Consent: the agent is locked and must be active and the user's own. -/
def createGrant (userId clientId : Text) : AgentScript :=
  .read true fun agent =>
    if agent.status ≠ .active ∨ agent.ownerId ≠ some userId then .abort
    else .change (.pair clientId) .revoke <| .insert (.oauthGrant clientId userId true) .commit

/-- The kill switch of one OAuth grant. -/
def revokeGrant (grantId : Nat) : AgentScript := .change (.row grantId) .revoke .commit

/-- The operations on one agent. -/
inductive Verb
  | approve (identity : Identity)
  | deny (identity : Identity)
  | disable (identity : Identity)
  | enable (identity : Identity)
  | claim (sub : Text)
  | archive (identity : Identity)
  | purgeArchive (identity : Identity)
  | purgeDelete (identity : Identity)
  | replacePermissions (identity : Identity) (permissions : List Text)
  | updateAgent (identity : Identity) (ownerId : Option (Option Text)) (foreign : Text → Bool)
  | bindCredential (identity : Identity) (credentialId : Text)
  | resumeCredential (identity : Identity) (credentialId : Text)
  | createGrant (userId clientId : Text)
  | revokeGrant (grantId : Nat)

def Verb.script (agentId : Text) : Verb → AgentScript
  | .approve identity => Agents.approve identity
  | .deny identity => Agents.deny identity
  | .disable identity => Agents.disable identity
  | .enable identity => Agents.enable identity
  | .claim sub => Agents.claim sub
  | .archive identity => Agents.archive identity
  | .purgeArchive identity => Agents.purgeArchive identity
  | .purgeDelete identity => Agents.purgeDelete identity
  | .replacePermissions identity permissions => Agents.replacePermissions identity permissions
  | .updateAgent identity ownerId foreign => Agents.updateAgent identity ownerId foreign
  | .bindCredential identity credentialId => Agents.bindCredential agentId identity credentialId
  | .resumeCredential identity credentialId =>
      Agents.resumeCredential agentId identity credentialId
  | .createGrant userId clientId => Agents.createGrant userId clientId
  | .revokeGrant grantId => Agents.revokeGrant grantId

structure Op where
  agentId : Text
  verb : Verb

/-- The rows of an agent are deleted only after it has been archived. -/
def Verb.marked : Verb → Bool
  | .purgeDelete _ => true
  | _ => false

def programs (op : Op) : Program Text Agent Kind Change Target :=
  ⟨op.agentId, op.verb.marked, op.verb.script op.agentId⟩

abbrev Tables : Type := RowScripts.State Text Agent Kind Change Target

end Agents

end Auth

end JenticOne
