import JenticOne.Library.Machine
import JenticOne.Library.ReadCommitted

/-!
# The Token Service

Issuing a pair of tokens, rotating a refresh token and revoking a token, each as
a transaction that goes statement by statement over the rows of two tables at
READ COMMITTED, with any number of calls under way.

A call's phase says which of its statements is next, or which row of a statement
that has begun. What a call reads of other tables does not bear on the token rows,
so it comes with the action that decides: the clock, the OAuth client, the consent
grant, the actor and its permissions.

`log` is history and nothing reads it: what the committed transactions have done,
latest first.

## Main definitions

* `RefreshToken`, `AccessToken`: The rows.
* `decideRefresh`, `decideRevoke`: What a call does with the row it found.
* `Phase`, `Session`, `World`: What a run is in the middle of.
* `step`: One action.
* `tokenService`: The machine.
-/

namespace JenticOne

namespace Auth

open ReadCommitted

abbrev Time := Int

/-- A generated row id. -/
abbrev Id := String

/-- A row of `refresh_tokens`. -/
structure RefreshToken where
  tokenHash : String
  actorId : String
  actorType : String
  scopes : List String
  tokenFamilyId : String
  expiresAt : Time
  revokedAt : Option Time
  consumedAt : Option Time
  replacedById : Option Id
  createdBy : String
  oauthClientId : Option String
  oauthGrantId : Option String
deriving DecidableEq, Repr

/-- A row of `access_tokens`. -/
structure AccessToken where
  tokenHash : String
  actorId : String
  actorType : String
  scopes : List String
  tokenFamilyId : String
  expiresAt : Time
  revokedAt : Option Time
  createdBy : String
  isEphemeral : Bool
  oauthClientId : Option String
  oauthGrantId : Option String
deriving DecidableEq, Repr

structure TokenConfig where
  accessTtl : Time
  refreshTtl : Time
  hashToken : String → String

def accessTokenPrefix : String := "at_"

def refreshTokenPrefix : String := "rt_"

/-- The issuing client of a token. -/
structure OAuthClient where
  active : Bool
  approved : Bool
  allowedScopes : Option (List String)
deriving DecidableEq, Repr

/-- The consent grant of a token. -/
structure OAuthClientGrant where
  active : Bool
  scopes : List String
deriving DecidableEq, Repr

/-- What a rotation reads outside the token tables. -/
structure Surroundings where
  checkedAt : Time
  client : Option OAuthClient
  grant : Option OAuthClientGrant
  actorActive : Bool
  permissions : List String
  mintedAt : Time
deriving DecidableEq, Repr

/-! ## Decisions -/

def applyScopeCeiling (scopes : List String) : Option (List String) → List String
  | none => scopes
  | some ceiling => scopes.filter (· ∈ ceiling)

/-- The scopes the resolvers enforce: an agent's live permissions or the snapshot,
under both ceilings. -/
def resolveEffectiveScopes (actorType : String) (snapshot permissions : List String)
    (clientCeiling grantCeiling : Option (List String)) : List String :=
  let scopes := if actorType = "agent" then permissions else snapshot
  applyScopeCeiling (applyScopeCeiling scopes clientCeiling) grantCeiling

/-- What `refresh` does with the row it has locked: raise, revoke the family and
raise after the commit, or rotate. -/
inductive Decision
  | raise (detail : String)
  | sweep (detail : String)
  | rotate (scopes : List String)
deriving DecidableEq, Repr

/-- The gates of a rotation past the client: reuse, the consent grant, the actor. -/
def decideRotation (rt : RefreshToken) (clientCeiling : Option (List String))
    (around : Surroundings) : Decision :=
  let rotate grantCeiling :=
    if around.actorActive then
      .rotate (resolveEffectiveScopes rt.actorType rt.scopes around.permissions clientCeiling
        grantCeiling)
    else .raise "actor is not active"
  if rt.consumedAt.isSome then .sweep "refresh token reuse detected"
  else
    match rt.oauthGrantId, around.grant with
    | none, _ => rotate none
    | some _, none => .raise "consent grant has been revoked"
    | some _, some grant =>
        if grant.active then rotate (some grant.scopes)
        else .raise "consent grant has been revoked"

def decideRefresh (found : Option RefreshToken) (clientId : Option String)
    (around : Surroundings) : Decision :=
  match found with
  | none => .raise "refresh token not found or revoked"
  | some rt =>
    if rt.revokedAt.isSome then .raise "refresh token not found or revoked"
    else if rt.expiresAt ≤ around.checkedAt then .raise "refresh token expired"
    else
      match rt.oauthClientId, around.client with
      | none, _ => decideRotation rt none around
      | some _, none => .raise "issuing OAuth client is not active"
      | some issuing, some client =>
          if client.active && client.approved then
            match clientId with
            | none => .raise "client authentication required"
            | some given =>
                if given ≠ issuing then .sweep "client_id mismatch"
                else decideRotation rt client.allowedScopes around
          else .raise "issuing OAuth client is not active"

/-- Whether `revoke` goes on with the row it found. -/
def decideRevoke (revokedAt : Option Time) (owner : String) (actorId : Option String) : Bool :=
  revokedAt.isNone && actorId.all (· = owner)

/-! ## Calls -/

inductive Call
  | issuePair (actorId actorType : String) (scopes : List String)
      (oauthClientId oauthGrantId : Option String)
  | refresh (refreshToken : String) (clientId : Option String)
  | revoke (token : String) (actorId : Option String)
deriving DecidableEq, Repr

/-- What a transaction will have done when it commits. A sweep of a refresh raises
its detail afterwards. -/
inductive Outcome
  | issued (family access refresh : String)
  | rotated (id : Id) (family access refresh : String) (scopes : List String)
  | swept (family : String) (detail : Option String)
  | accessRevoked (id : Id)
  | nothing
deriving DecidableEq, Repr

/-- A pair of tokens that is to be inserted, with the row it replaces and the
scopes to report. -/
structure Mint where
  actorId : String
  actorType : String
  scopes : List String
  family : String
  oauthClientId : Option String
  oauthGrantId : Option String
  now : Time
  parent : Option (Id × List String)
deriving DecidableEq, Repr

/-- The pair that replaces a refresh token. -/
def mintFor (id : Id) (rt : RefreshToken) (scopes : List String) (now : Time) : Mint :=
  { actorId := rt.actorId, actorType := rt.actorType, scopes := rt.scopes,
    family := rt.tokenFamilyId, oauthClientId := rt.oauthClientId, oauthGrantId := rt.oauthGrantId,
    now := now, parent := some (id, scopes) }

def Mint.accessToken (cfg : TokenConfig) (m : Mint) (plain : String) : AccessToken :=
  { tokenHash := cfg.hashToken plain, actorId := m.actorId, actorType := m.actorType,
    scopes := m.scopes, tokenFamilyId := m.family, expiresAt := m.now + cfg.accessTtl,
    revokedAt := none, createdBy := m.actorId, isEphemeral := false,
    oauthClientId := m.oauthClientId, oauthGrantId := m.oauthGrantId }

def Mint.refreshToken (cfg : TokenConfig) (m : Mint) (plain : String) : RefreshToken :=
  { tokenHash := cfg.hashToken plain, actorId := m.actorId, actorType := m.actorType,
    scopes := m.scopes, tokenFamilyId := m.family, expiresAt := m.now + cfg.refreshTtl,
    revokedAt := none, consumedAt := none, replacedById := none, createdBy := m.actorId,
    oauthClientId := m.oauthClientId, oauthGrantId := m.oauthGrantId }

/-- Where a call is: which statement is next, or the rows that are left of one. -/
inductive Phase
  | called
  | locating (remaining : List Id) (found : List (Id × RefreshToken))
  | sweep (family : String) (detail : Option String)
  | sweeping (family : String) (detail : Option String) (remaining : List Id)
  | sweepAccess (family : String) (detail : Option String)
  | sweepingAccess (family : String) (detail : Option String) (remaining : List Id)
  | revokingAccess (id : Id)
  | minting (mint : Mint)
  | minted (mint : Mint) (access : String)
  | consuming (mint : Mint) (access refresh : String) (id newId : Id) (scopes : List String)
  | ready (outcome : Outcome)
  | raising (detail : String)
  | ended
deriving DecidableEq, Repr

structure Session where
  call : Call
  phase : Phase
deriving DecidableEq, Repr

/-- What a committed transaction did to a family. -/
inductive Event
  | rotated (id : Id) (family : String)
  | swept (family : String)
deriving DecidableEq, Repr

/-- Both tables, the calls, the family ids generated so far, and the history. -/
structure World where
  refreshTokens : Rows Id RefreshToken Nat
  accessTokens : Rows Id AccessToken Nat
  sessions : List Session
  families : List String
  log : List Event

def World.initial : World := ⟨Rows.empty, Rows.empty, [], [], []⟩

/-- What happens next in a run. `tx` is the place of a call among the sessions. -/
inductive Action
  | receive (call : Call)
  | issue (tx : Nat) (family : String) (now : Time)
  | beginStatement (tx : Nat)
  | takeRow (tx : Nat) (id : Id) (now : Time)
  | endStatement (tx : Nat)
  | decide (tx : Nat) (around : Surroundings)
  | insertAccess (tx : Nat) (id : Id) (plain : String)
  | insertRefresh (tx : Nat) (id : Id) (plain : String)
  | consume (tx : Nat) (now : Time)
  | commit (tx : Nat)
  | rollback (tx : Nat)
deriving DecidableEq, Repr

namespace World

def setPhase (w : World) (tx : Nat) (call : Call) (phase : Phase) : World :=
  { w with sessions := w.sessions.set tx ⟨call, phase⟩ }

def withRefresh (w : World) (rows : Rows Id RefreshToken Nat) : World :=
  { w with refreshTokens := rows }

def withAccess (w : World) (rows : Rows Id AccessToken Nat) : World :=
  { w with accessTokens := rows }

end World

/-! ## Statements -/

def withHash (hash : String) (rt : RefreshToken) : Bool := rt.tokenHash = hash

/-- The rows of a family that `revoke_family` updates. -/
def inFamily (family : String) (rt : RefreshToken) : Bool :=
  rt.tokenFamilyId = family && rt.revokedAt.isNone

def accessInFamily (family : String) (row : AccessToken) : Bool :=
  row.tokenFamilyId = family && row.revokedAt.isNone

def revokeRefresh (now : Time) (rt : RefreshToken) : RefreshToken :=
  { rt with revokedAt := some now }

def revokeAccess (now : Time) (row : AccessToken) : AccessToken :=
  { row with revokedAt := some now }

def consumeRefresh (now : Time) (newId : Id) (rt : RefreshToken) : RefreshToken :=
  { rt with consumedAt := some now, replacedById := some newId }

/-- The first row a plain `SELECT` by hash sees. -/
def selectRefresh (w : World) (tx : Nat) (hash : String) : Option RefreshToken :=
  ((w.refreshTokens.matching tx (withHash hash)).head?).bind (w.refreshTokens.visible tx)

def selectAccess (w : World) (tx : Nat) (hash : String) : Option (Id × AccessToken) :=
  ((w.accessTokens.matching tx (fun row => row.tokenHash = hash)).head?).bind fun id =>
    (w.accessTokens.visible tx id).map fun row => (id, row)

/-- Where `revoke` goes from its first statement. -/
def revokePhase (cfg : TokenConfig) (w : World) (tx : Nat) (token : String)
    (actorId : Option String) : Phase :=
  if accessTokenPrefix.toList.isPrefixOf token.toList then
    match selectAccess w tx (cfg.hashToken token) with
    | some (id, row) =>
        if decideRevoke row.revokedAt row.actorId actorId then .revokingAccess id
        else .ready .nothing
    | none => .ready .nothing
  else if refreshTokenPrefix.toList.isPrefixOf token.toList then
    match selectRefresh w tx (cfg.hashToken token) with
    | some rt =>
        if decideRevoke rt.revokedAt rt.actorId actorId then .sweep rt.tokenFamilyId none
        else .ready .nothing
    | none => .ready .nothing
  else .ready .nothing

/-- A statement begins: it fixes the rows it is about. -/
def beginPhase (cfg : TokenConfig) (w : World) (tx : Nat) (call : Call) : Phase → Option Phase
  | .called =>
      match call with
      | .refresh token _ =>
          some (.locating (w.refreshTokens.matching tx (withHash (cfg.hashToken token))) [])
      | .revoke token actorId => some (revokePhase cfg w tx token actorId)
      | .issuePair .. => none
  | .sweep family detail =>
      some (.sweeping family detail (w.refreshTokens.matching tx (inFamily family)))
  | .sweepAccess family detail =>
      some (.sweepingAccess family detail (w.accessTokens.matching tx (accessInFamily family)))
  | _ => none

/-- `SELECT .. FOR UPDATE` takes a row: it is locked, and found if it still has the
hash. -/
def locateRow (cfg : TokenConfig) (w : World) (tx : Nat) (call : Call) (id : Id)
    (remaining : List Id) (found : List (Id × RefreshToken)) : Option World :=
  if h : w.refreshTokens.Free tx id then
    match call with
    | .refresh token _ =>
        let row := (w.refreshTokens.visible tx id).filter (withHash (cfg.hashToken token))
        some ((w.withRefresh (Rows.take h)).setPhase tx call
          (.locating (remaining.erase id) (found ++ (row.map fun rt => (id, rt)).toList)))
    | _ => none
  else none

/-- The statement under way takes one of the rows that are left of it. -/
def takeRow (cfg : TokenConfig) (w : World) (tx : Nat) (call : Call) (id : Id) (now : Time) :
    Phase → Option World
  | .locating remaining found =>
      if id ∈ remaining then locateRow cfg w tx call id remaining found else none
  | .sweeping family detail remaining =>
      if id ∈ remaining then
        (w.refreshTokens.updateRow tx (inFamily family) (revokeRefresh now) id).map fun rows =>
          (w.withRefresh rows).setPhase tx call (.sweeping family detail (remaining.erase id))
      else none
  | .sweepingAccess family detail remaining =>
      if id ∈ remaining then
        (w.accessTokens.updateRow tx (accessInFamily family) (revokeAccess now) id).map fun rows =>
          (w.withAccess rows).setPhase tx call (.sweepingAccess family detail (remaining.erase id))
      else none
  | .revokingAccess target =>
      if id = target then
        (w.accessTokens.updateRow tx (fun _ => true) (revokeAccess now) id).map fun rows =>
          (w.withAccess rows).setPhase tx call (.ready (.accessRevoked id))
      else none
  | _ => none

/-- An update that has no row left is followed by the next statement. -/
def endPhase : Phase → Option Phase
  | .sweeping family detail [] => some (.sweepAccess family detail)
  | .sweepingAccess family detail [] => some (.ready (.swept family detail))
  | _ => none

/-- Where `refresh` goes from the row it has found. `scalar_one_or_none` raises on
two rows. -/
def decidePhase (clientId : Option String) (around : Surroundings) :
    List (Id × RefreshToken) → Phase
  | [] => .raising "refresh token not found or revoked"
  | [(id, rt)] =>
      match decideRefresh (some rt) clientId around with
      | .raise detail => .raising detail
      | .sweep detail => .sweep rt.tokenFamilyId (some detail)
      | .rotate scopes => .minting (mintFor id rt scopes around.mintedAt)
  | _ => .raising "multiple rows"

def Outcome.events : Outcome → List Event
  | .rotated id family _ _ _ => [.rotated id family]
  | .swept family _ => [.swept family]
  | _ => []

/-- A transaction ends and keeps what it has written, or drops it. -/
def commit (w : World) (tx : Nat) (call : Call) (outcome : Outcome) : World :=
  { refreshTokens := w.refreshTokens.commit tx
    accessTokens := w.accessTokens.commit tx
    sessions := w.sessions.set tx ⟨call, .ended⟩
    families := w.families
    log := outcome.events ++ w.log }

def rollback (w : World) (tx : Nat) (call : Call) : World :=
  { w with
    refreshTokens := w.refreshTokens.rollback tx
    accessTokens := w.accessTokens.rollback tx
    sessions := w.sessions.set tx ⟨call, .ended⟩ }

/-! ## Steps -/

/-- One action of the session `tx`, which is `call` in phase `phase`. -/
def sessionStep (cfg : TokenConfig) (w : World) (tx : Nat) (call : Call) (phase : Phase) :
    Action → Option World
  | .issue _ family now =>
      match call, phase with
      | .issuePair actorId actorType scopes clientId grantId, .called =>
          if family ∈ w.families then none
          else some { w.setPhase tx call (.minting
            { actorId := actorId, actorType := actorType, scopes := scopes, family := family,
              oauthClientId := clientId, oauthGrantId := grantId, now := now, parent := none })
            with families := family :: w.families }
      | _, _ => none
  | .beginStatement _ => (beginPhase cfg w tx call phase).map (w.setPhase tx call)
  | .takeRow _ id now => takeRow cfg w tx call id now phase
  | .endStatement _ => (endPhase phase).map (w.setPhase tx call)
  | .decide _ around =>
      match call, phase with
      | .refresh _ clientId, .locating [] found =>
          some (w.setPhase tx call (decidePhase clientId around found))
      | _, _ => none
  | .insertAccess _ id plain =>
      match phase with
      | .minting mint =>
          (w.accessTokens.insert tx id (mint.accessToken cfg plain)).map fun rows =>
            (w.withAccess rows).setPhase tx call (.minted mint plain)
      | _ => none
  | .insertRefresh _ newId plain =>
      match phase with
      | .minted mint access =>
          (w.refreshTokens.insert tx newId (mint.refreshToken cfg plain)).map fun rows =>
            (w.withRefresh rows).setPhase tx call (match mint.parent with
              | some (id, scopes) => .consuming mint access plain id newId scopes
              | none => .ready (.issued mint.family access plain))
      | _ => none
  | .consume _ now =>
      match phase with
      | .consuming mint access refresh id newId scopes =>
          (w.refreshTokens.updateRow tx (fun _ => true) (consumeRefresh now newId) id).map
            fun rows => (w.withRefresh rows).setPhase tx call
              (.ready (.rotated id mint.family access refresh scopes))
      | _ => none
  | .commit _ =>
      match phase with
      | .ready outcome => some (commit w tx call outcome)
      | _ => none
  | .rollback _ => if phase = .ended then none else some (rollback w tx call)
  | .receive _ => none

/-- The session an action is of. -/
def Action.tx : Action → Option Nat
  | .receive _ => none
  | .issue tx _ _ | .beginStatement tx | .takeRow tx _ _ | .endStatement tx | .decide tx _
  | .insertAccess tx _ _ | .insertRefresh tx _ _ | .consume tx _ | .commit tx | .rollback tx =>
      some tx

/-- One action in a run, or `none` where it is not enabled. -/
def step (cfg : TokenConfig) (w : World) (a : Action) : Option World :=
  match a, a.tx with
  | .receive call, _ => some { w with sessions := w.sessions ++ [⟨call, .called⟩] }
  | _, some tx =>
      (w.sessions[tx]?).bind fun session => sessionStep cfg w tx session.call session.phase a
  | _, none => none

/-- Runs of any number of calls over the token tables. -/
def tokenService (cfg : TokenConfig) : Machine World Action where
  start w := w = World.initial
  step := step cfg

end Auth

end JenticOne
