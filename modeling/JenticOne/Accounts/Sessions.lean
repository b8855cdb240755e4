import JenticOne.Accounts.PermissionCatalog
import JenticOne.Auth.Verdict
import JenticOne.Library.Machine

/-!
# Login Sessions

A login JWT carries the effective permissions of its user, and they are believed as
long as the token has the session generation of the user's row. The generation is
read before the permissions are, and an edit that takes permissions away moves it on.

So a token that is accepted has no permission that its user has lost since, and the
routes it opens are open to the user's grants as they are stored. This holds at every
interleaving of the two reads of a mint with edits, also with edits that overlap: what
such an edit deletes need not be all that is stored, and it is compared with what it
deleted.

A generation never comes back, so a token that is refused stays refused, even when its
user is enabled again. A password change does not look whether its user is still
active, and the token that it mints for a disabled user is one that comes back to life.

## Main definitions

* `Account`, `LoginToken`, `Deployment`: The rows, the claims and the state.
* `Act`, `step`: The operations, with a mint in two steps.
* `verifyToken`, `enforceIdentityRequirements`: What a request goes through.
* `Later`: What an operation makes of an account.

## Theorems

* `step_spec`: One operation.
* `accepted_within_grants`: What an accepted token may do.
* `refused_stays_refused`: Tokens that are refused.
-/

namespace JenticOne

namespace Accounts

open Auth.Verdict (ActorType)

/-! ## Rows and claims -/

/-- The row of a user, with the user's permission grants. -/
structure Account where
  active : Bool
  deleted : Bool
  sessionGeneration : Nat
  mustChangePassword : Bool
  grants : List String

/-- `UserStatus.accepts_credentials`. -/
def Account.acceptsCredentials (a : Account) : Bool := a.active && !a.deleted

/-- The claims of a login JWT. -/
structure LoginToken where
  sub : String
  permissions : List String
  mustChangePassword : Bool
  sgen : Nat

/-- The arguments of `_mint_session_bundle`, before it reads the grants. -/
structure Minting where
  userId : String
  mustChangePassword : Bool
  sessionGeneration : Nat
deriving DecidableEq

/-- The accounts, the bundles that are being minted and every token that was. -/
structure Deployment where
  accounts : String → Option Account
  minting : List Minting
  tokens : List LoginToken

/-! ## Requests -/

structure Identity where
  sub : String
  permissions : List String
  mustChangePassword : Bool
  actorType : ActorType

/-- `verify_token` of a login JWT, with `_ensure_user_accepts_token`. -/
def verifyToken (s : Deployment) (t : LoginToken) : Option Identity :=
  match s.accounts t.sub with
  | none => none
  | some a =>
      if a.deleted then none
      else if a.active = false then none
      else if t.sgen ≠ a.sessionGeneration then none
      else some ⟨t.sub, t.permissions, t.mustChangePassword, .user⟩

structure Forbidden where
  detail : String
  route : String
  type : String
deriving DecidableEq

/-- `enforce_identity_requirements`. -/
def enforceIdentityRequirements (identity : Identity) (route : String)
    (requiredPermissions : List String) (allowExpiredPassword : Bool)
    (requireActorType : Option ActorType) (typeName : ActorType → String) :
    Except Forbidden Unit :=
  if allowExpiredPassword = false ∧ identity.mustChangePassword then
    .error ⟨"Password rotation required before accessing this resource", route,
      "password_rotation_required"⟩
  else
    match requireActorType.filter fun required => identity.actorType ≠ required with
    | some required =>
        .error ⟨"This endpoint is restricted to " ++ typeName required ++ "s", route, "forbidden"⟩
    | none =>
        if meetsRequirement identity.permissions requiredPermissions then .ok ()
        else .error ⟨"This action requires one of: " ++
          String.intercalate ", " requiredPermissions, route, "forbidden"⟩

/-! ## Operations -/

/-- What changes the accounts and their sessions. The checks that only refuse an
operation to its caller are left out, so nothing here depends on them. -/
inductive Act
  | create (user : String) (mustChangePassword : Bool) (permissions : List String)
  | bootstrapAdmin (user : String)
  | login (user : String)
  | redeem (user : String)
  | refresh (token : LoginToken)
  | changeOwnPassword (user : String)
  | resetPassword (user : String)
  | mint (m : Minting)
  | setAssigned (user : String) (missed permissions : List String)
  | disable (user : String)
  | enable (user : String)
  | delete (user : String)

/-- The grants that `replace_permissions` leaves. Rows that were stored after its delete
began are missed by it. -/
def Account.replacePermissions (a : Account) (missed permissions : List String) : Account :=
  { a with grants := a.grants.filter (fun p => p ∈ missed) ++ permissions }

/-- `revoke_login_sessions`. -/
def Account.revokeLoginSessions (a : Account) : Account :=
  { a with sessionGeneration := a.sessionGeneration + 1 }

/-- The write of `set_assigned`: it ends the sessions if what it deleted is more than
what it stores. -/
def Account.setAssigned (a : Account) (missed permissions : List String) : Account :=
  let new := a.replacePermissions missed permissions
  if reducesEffective (a.grants.filter fun p => p ∉ missed) permissions then
    new.revokeLoginSessions
  else new

/-- The token of a mint, with the grants as they are read then. -/
def Minting.token (m : Minting) (grants : List String) : LoginToken :=
  ⟨m.userId, sorted (computeEffective implicationMap grants), m.mustChangePassword,
    m.sessionGeneration⟩

namespace Deployment

/-- The state with another row for a user. -/
def put (s : Deployment) (user : String) (a : Account) : Deployment :=
  { s with accounts := Function.update s.accounts user (some a) }

/-- The state with another bundle being minted. -/
def startMint (s : Deployment) (m : Minting) : Deployment :=
  { s with minting := m :: s.minting }

end Deployment

/-- One operation, up to the mint that follows it. -/
def step (s : Deployment) : Act → Option Deployment
  | .create user mustChangePassword permissions =>
      if (s.accounts user).isSome then none
      else some (s.put user ⟨true, false, 0, mustChangePassword, permissions⟩)
  | .bootstrapAdmin user =>
      if (s.accounts user).isSome then none
      else some ((s.put user ⟨true, false, 0, false, [orgAdmin]⟩).startMint ⟨user, false, 0⟩)
  | .login user =>
      (s.accounts user).bind fun a =>
        if a.acceptsCredentials then
          some (s.startMint ⟨user, a.mustChangePassword, a.sessionGeneration⟩)
        else none
  | .redeem user =>
      (s.accounts user).bind fun a =>
        if a.acceptsCredentials then
          some ((s.put user { a with mustChangePassword := false }).startMint
            ⟨user, false, a.sessionGeneration⟩)
        else none
  | .refresh token =>
      (s.accounts token.sub).bind fun a =>
        if a.acceptsCredentials ∧ token.sgen = a.sessionGeneration then
          some (s.startMint ⟨token.sub, a.mustChangePassword, a.sessionGeneration⟩)
        else none
  | .changeOwnPassword user =>
      -- Whether the user is active is not looked at here.
      (s.accounts user).bind fun a =>
        if a.mustChangePassword ∧ a.deleted then none
        else some ((s.put user { a.revokeLoginSessions with mustChangePassword := false }).startMint
          ⟨user, false, a.sessionGeneration + 1⟩)
  | .resetPassword user =>
      (s.accounts user).bind fun a =>
        if a.deleted then none
        else some (s.put user { a.revokeLoginSessions with mustChangePassword := true })
  | .mint m =>
      if m ∈ s.minting then
        (s.accounts m.userId).map fun a => { s with tokens := m.token a.grants :: s.tokens }
      else none
  | .setAssigned user missed permissions =>
      (s.accounts user).map fun a => s.put user (a.setAssigned missed permissions)
  | .disable user =>
      (s.accounts user).bind fun a =>
        if a.deleted then none
        else some (s.put user { a.revokeLoginSessions with active := false })
  | .enable user =>
      (s.accounts user).bind fun a =>
        if a.deleted then none else some (s.put user { a with active := true })
  | .delete user =>
      (s.accounts user).bind fun a =>
        if a.deleted then none
        else some (s.put user { a.revokeLoginSessions with active := false, deleted := true })

/-- Runs from an empty deployment. -/
def sessions : Machine Deployment Act where
  start s := s = ⟨fun _ => none, [], []⟩
  step := step

/-! ## One operation -/

/-- What an operation makes of an account: its generation does not go back, and while it
stays the account loses no permission but retired ones, and goes on. -/
structure Later (a a' : Account) : Prop where
  generation : a.sessionGeneration ≤ a'.sessionGeneration
  grants : a.sessionGeneration = a'.sessionGeneration →
    ∀ p, Effective a.grants p → Effective a'.grants p ∨ p ∈ retiredPermissions
  live : a.sessionGeneration = a'.sessionGeneration →
    a.acceptsCredentials = true → a'.acceptsCredentials = true

theorem later_refl (a : Account) : Later a a :=
  ⟨le_refl _, fun _ _ hp => Or.inl hp, fun _ h => h⟩

theorem later_of_eq {a a' : Account} (hgeneration : a'.sessionGeneration = a.sessionGeneration)
    (hgrants : a'.grants = a.grants)
    (hlive : a.acceptsCredentials = true → a'.acceptsCredentials = true) : Later a a' :=
  ⟨le_of_eq hgeneration.symm, fun _ _ hp => Or.inl (hgrants ▸ hp), fun _ => hlive⟩

/-- An account whose sessions are ended. -/
theorem later_of_lt {a a' : Account} (h : a.sessionGeneration < a'.sessionGeneration) :
    Later a a' :=
  ⟨le_of_lt h, fun heq => absurd heq (ne_of_lt h), fun heq => absurd heq (ne_of_lt h)⟩

theorem reducesEffective_eq_false {previous new : List String}
    (h : reducesEffective previous new = false) {p : String} (hp : Effective previous p) :
    Effective new p ∨ p ∈ retiredPermissions := by
  rw [reducesEffective, decide_eq_false_iff_not, not_exists] at h
  by_contra hcon
  rw [not_or] at hcon
  exact h p ⟨mem_effective.mpr hp, fun hnew => hcon.1 (mem_effective.mp hnew), hcon.2⟩

/-- An edit that does not end the sessions takes nothing away, whatever it missed. -/
theorem later_setAssigned (a : Account) (missed permissions : List String) :
    Later a (a.setAssigned missed permissions) := by
  unfold Account.setAssigned
  dsimp only
  by_cases hreduces : reducesEffective (a.grants.filter fun p => p ∉ missed) permissions = true
  · rw [if_pos hreduces]
    exact later_of_lt (Nat.lt_succ_self _)
  · rw [if_neg hreduces]
    rw [Bool.not_eq_true] at hreduces
    refine ⟨le_refl _, fun _ p hp => ?_, fun _ h => h⟩
    -- What was stored was missed or deleted.
    have hsplit : ∀ q ∈ a.grants, q ∈ a.grants.filter (fun p => p ∈ missed) ++
        a.grants.filter fun p => p ∉ missed := by
      intro q hq
      by_cases hmissed : q ∈ missed
      · exact List.mem_append_left _ (List.mem_filter.mpr ⟨hq, decide_eq_true hmissed⟩)
      · exact List.mem_append_right _ (List.mem_filter.mpr ⟨hq, decide_eq_true hmissed⟩)
    rcases effective_append.mp (effective_mono hsplit hp) with hkept | hdeleted
    · exact Or.inl (effective_append.mpr (Or.inl hkept))
    · rcases reducesEffective_eq_false hreduces hdeleted with hnew | hretired
      · exact Or.inl (effective_append.mpr (Or.inr hnew))
      · exact Or.inr hretired

/-- A password change of a user who is no longer active. -/
def Blind (s : Deployment) (act : Act) : Prop :=
  ∃ user a, act = .changeOwnPassword user ∧ s.accounts user = some a ∧ a.acceptsCredentials = false

/-- What one operation does: accounts go on, a mint begins at the generation of its user,
and a token has what its user is granted when it is minted. -/
structure Moves (s : Deployment) (act : Act) (s' : Deployment) : Prop where
  accounts : ∀ user a, s.accounts user = some a → ∃ a', s'.accounts user = some a' ∧ Later a a'
  minting : ∀ m ∈ s'.minting, m ∈ s.minting ∨ ∃ a', s'.accounts m.userId = some a' ∧
    m.sessionGeneration = a'.sessionGeneration ∧ (¬ Blind s act → a'.acceptsCredentials = true)
  tokens : ∀ t ∈ s'.tokens, t ∈ s.tokens ∨ ∃ m ∈ s.minting, ∃ a,
    s'.accounts m.userId = some a ∧ t = m.token a.grants

section Moves

variable {s s' : Deployment} {act : Act} {user : String} {a a' : Account}

theorem accounts_put (h : s.accounts user = some a) (hlater : Later a a') :
    ∀ u b, s.accounts u = some b → ∃ b', (s.put user a').accounts u = some b' ∧ Later b b' := by
  intro u b hb
  by_cases hu : u = user
  · rw [hu, h, Option.some.injEq] at hb
    refine ⟨a', ?_, hb ▸ hlater⟩
    rw [hu]
    exact Function.update_self user (some a') s.accounts
  · refine ⟨b, ?_, later_refl b⟩
    rw [← hb]
    exact Function.update_of_ne hu (some a') s.accounts

theorem accounts_put_new (h : s.accounts user = none) :
    ∀ u b, s.accounts u = some b → ∃ b', (s.put user a').accounts u = some b' ∧ Later b b' := by
  intro u b hb
  have hu : u ≠ user := by
    rintro rfl
    rw [h] at hb
    exact absurd hb (by simp only [reduceCtorEq, not_false_eq_true])
  refine ⟨b, ?_, later_refl b⟩
  rw [← hb]
  exact Function.update_of_ne hu (some a') s.accounts

/-- An operation that only writes a row. -/
theorem moves_put (h : s.accounts user = some a) (hlater : Later a a') :
    Moves s act (s.put user a') :=
  ⟨accounts_put h hlater, fun _ hm => Or.inl hm, fun _ ht => Or.inl ht⟩

/-- An operation that leaves a row and begins a mint for it. -/
theorem moves_startMint (a' : Account) (hput : s.put user a' = s')
    (haccounts : ∀ u b, s.accounts u = some b → ∃ b', s'.accounts u = some b' ∧ Later b b')
    (mustChangePassword : Bool) (hlive : ¬ Blind s act → a'.acceptsCredentials = true) :
    Moves s act (s'.startMint ⟨user, mustChangePassword, a'.sessionGeneration⟩) := by
  refine ⟨haccounts, fun m hm => ?_, fun t ht => Or.inl ?_⟩
  · rcases List.mem_cons.mp hm with rfl | hm
    · refine Or.inr ⟨a', ?_, rfl, hlive⟩
      rw [← hput]
      exact Function.update_self user (some a') s.accounts
    · rw [← hput] at hm
      exact Or.inl hm
  · rw [← hput] at ht
    exact ht

theorem put_self (h : s.accounts user = some a) : s.put user a = s := by
  rw [Deployment.put, ← h, Function.update_eq_self]

/-- Every operation moves the deployment on. -/
theorem step_spec (h : step s act = some s') : Moves s act s' := by
  cases act with
  | create user mustChangePassword permissions =>
      rw [step, Option.ite_none_left_eq_some, Option.not_isSome_iff_eq_none, Option.some.injEq] at h
      rcases h with ⟨hnew, rfl⟩
      exact ⟨accounts_put_new hnew, fun _ hm => Or.inl hm, fun _ ht => Or.inl ht⟩
  | bootstrapAdmin user =>
      rw [step, Option.ite_none_left_eq_some, Option.not_isSome_iff_eq_none, Option.some.injEq] at h
      rcases h with ⟨hnew, rfl⟩
      exact moves_startMint _ rfl (accounts_put_new hnew) false fun _ => rfl
  | login user =>
      rw [step, Option.bind_eq_some_iff] at h
      rcases h with ⟨a, ha, h⟩
      rw [Option.ite_none_right_eq_some, Option.some.injEq] at h
      rcases h with ⟨hlive, rfl⟩
      exact moves_startMint a (put_self ha) (fun u b hb => ⟨b, hb, later_refl b⟩) _ fun _ => hlive
  | redeem user =>
      rw [step, Option.bind_eq_some_iff] at h
      rcases h with ⟨a, ha, h⟩
      rw [Option.ite_none_right_eq_some, Option.some.injEq] at h
      rcases h with ⟨hlive, rfl⟩
      exact moves_startMint { a with mustChangePassword := false } rfl
        (accounts_put ha (later_of_eq rfl rfl id)) false fun _ => hlive
  | refresh token =>
      rw [step, Option.bind_eq_some_iff] at h
      rcases h with ⟨a, ha, h⟩
      rw [Option.ite_none_right_eq_some, Option.some.injEq] at h
      rcases h with ⟨hlive, rfl⟩
      exact moves_startMint a (put_self ha) (fun u b hb => ⟨b, hb, later_refl b⟩) _ fun _ => hlive.1
  | changeOwnPassword user =>
      rw [step, Option.bind_eq_some_iff] at h
      rcases h with ⟨a, ha, h⟩
      rw [Option.ite_none_left_eq_some, Option.some.injEq] at h
      rcases h with ⟨_, rfl⟩
      refine moves_startMint { a.revokeLoginSessions with mustChangePassword := false } rfl
        (accounts_put ha (later_of_lt (Nat.lt_succ_self _))) false fun hblind => ?_
      by_contra hlive
      exact hblind ⟨user, a, rfl, ha, Bool.eq_false_of_not_eq_true hlive⟩
  | resetPassword user =>
      rw [step, Option.bind_eq_some_iff] at h
      rcases h with ⟨a, ha, h⟩
      rw [Option.ite_none_left_eq_some, Option.some.injEq] at h
      rcases h with ⟨_, rfl⟩
      exact moves_put ha (later_of_lt (Nat.lt_succ_self _))
  | mint m =>
      rw [step, Option.ite_none_right_eq_some, Option.map_eq_some_iff] at h
      rcases h with ⟨hm, a, ha, rfl⟩
      refine ⟨fun u b hb => ⟨b, hb, later_refl b⟩, fun _ hm => Or.inl hm, fun t ht => ?_⟩
      rcases List.mem_cons.mp ht with rfl | ht
      · exact Or.inr ⟨m, hm, a, ha, rfl⟩
      · exact Or.inl ht
  | setAssigned user missed permissions =>
      rw [step, Option.map_eq_some_iff] at h
      rcases h with ⟨a, ha, rfl⟩
      exact moves_put ha (later_setAssigned a missed permissions)
  | disable user =>
      rw [step, Option.bind_eq_some_iff] at h
      rcases h with ⟨a, ha, h⟩
      rw [Option.ite_none_left_eq_some, Option.some.injEq] at h
      rcases h with ⟨_, rfl⟩
      exact moves_put ha (later_of_lt (Nat.lt_succ_self _))
  | enable user =>
      rw [step, Option.bind_eq_some_iff] at h
      rcases h with ⟨a, ha, h⟩
      rw [Option.ite_none_left_eq_some, Option.some.injEq] at h
      rcases h with ⟨hdeleted, rfl⟩
      refine moves_put ha (later_of_eq rfl rfl fun _ => ?_)
      rw [Account.acceptsCredentials, Bool.eq_false_of_not_eq_true hdeleted]
      rfl
  | delete user =>
      rw [step, Option.bind_eq_some_iff] at h
      rcases h with ⟨a, ha, h⟩
      rw [Option.ite_none_left_eq_some, Option.some.injEq] at h
      rcases h with ⟨_, rfl⟩
      exact moves_put ha (later_of_lt (Nat.lt_succ_self _))

end Moves

/-! ## Runs -/

/-- What holds between the accounts and what was minted for them. -/
structure Inv (s : Deployment) : Prop where
  minting : ∀ m ∈ s.minting, ∃ a, s.accounts m.userId = some a ∧
    m.sessionGeneration ≤ a.sessionGeneration
  tokens : ∀ t ∈ s.tokens, ∃ a, s.accounts t.sub = some a ∧ t.sgen ≤ a.sessionGeneration ∧
    (t.sgen = a.sessionGeneration →
      ∀ p ∈ t.permissions, Effective a.grants p ∨ p ∈ retiredPermissions)

theorem mem_token {m : Minting} {grants : List String} {p : String} :
    p ∈ (m.token grants).permissions ↔ Effective grants p := by
  rw [← mem_effective]
  exact mem_sorted

theorem inv_moves {s s' : Deployment} {act : Act} (h : Moves s act s') (inv : Inv s) : Inv s' := by
  have hminted : ∀ m ∈ s.minting, ∃ a', s'.accounts m.userId = some a' ∧
      m.sessionGeneration ≤ a'.sessionGeneration := by
    intro m hm
    rcases inv.minting m hm with ⟨a, ha, hle⟩
    rcases h.accounts _ a ha with ⟨a', ha', hlater⟩
    exact ⟨a', ha', le_trans hle hlater.generation⟩
  refine ⟨fun m hm => ?_, fun t ht => ?_⟩
  · rcases h.minting m hm with hm | ⟨a', ha', heq, _⟩
    · exact hminted m hm
    · exact ⟨a', ha', le_of_eq heq⟩
  · rcases h.tokens t ht with ht | ⟨m, hm, a, ha, rfl⟩
    · rcases inv.tokens t ht with ⟨a, ha, hle, hwithin⟩
      rcases h.accounts _ a ha with ⟨a', ha', hlater⟩
      refine ⟨a', ha', le_trans hle hlater.generation, fun heq p hp => ?_⟩
      -- The generation has not moved on in between.
      have hgeneration := hlater.generation
      have hsame : t.sgen = a.sessionGeneration := by omega
      rcases hwithin hsame p hp with hp | hp
      · exact hlater.grants (by omega) p hp
      · exact Or.inr hp
    · rcases hminted m hm with ⟨a', ha', hle⟩
      rw [ha, Option.some.injEq] at ha'
      exact ⟨a, ha, ha' ▸ hle, fun _ p hp => Or.inl (mem_token.mp hp)⟩

theorem inv_of_reachable {s : Deployment} (h : sessions.Reachable s) : Inv s := by
  refine Machine.reachable_invariant (fun s hs => ?_) (fun s act s' inv hstep => ?_) h
  · have hs' : s = ⟨fun _ => none, [], []⟩ := hs
    rw [hs']
    exact ⟨fun m hm => absurd hm List.not_mem_nil, fun t ht => absurd ht List.not_mem_nil⟩
  · exact inv_moves (step_spec hstep) inv

theorem verifyToken_eq_some {s : Deployment} {t : LoginToken} {identity : Identity} :
    verifyToken s t = some identity ↔ ∃ a, s.accounts t.sub = some a ∧
      a.acceptsCredentials = true ∧ t.sgen = a.sessionGeneration ∧
      identity = ⟨t.sub, t.permissions, t.mustChangePassword, .user⟩ := by
  unfold verifyToken
  cases s.accounts t.sub with
  | none => simp only [reduceCtorEq, false_and, exists_false]
  | some a =>
      dsimp only
      rw [Option.ite_none_left_eq_some, Option.ite_none_left_eq_some, Option.ite_none_left_eq_some,
        Option.some.injEq, not_not, Bool.not_eq_true, Bool.not_eq_false]
      constructor
      · rintro ⟨hdeleted, hactive, heq, rfl⟩
        refine ⟨a, rfl, ?_, heq, rfl⟩
        rw [Account.acceptsCredentials, hdeleted, hactive]
        rfl
      · rintro ⟨b, hb, hlive, heq, rfl⟩
        rw [Option.some.injEq] at hb
        rw [← hb, Account.acceptsCredentials, Bool.and_eq_true, Bool.not_eq_true'] at hlive
        exact ⟨hlive.2, hlive.1, hb ▸ heq, rfl⟩

theorem meetsRequirement_iff {permissions required : List String} :
    meetsRequirement permissions required = true ↔ required = [] ∨ Effective permissions orgAdmin ∨
      ∃ p ∈ required, Effective permissions p := by
  rw [meetsRequirement]
  simp only [Bool.or_eq_true, decide_eq_true_eq, List.any_eq_true, mem_effective, or_assoc]

/-- In every run, a token that is accepted has no permission but those that its user is
granted as the rows are stored, and retired ones, and the routes it opens would open for
these grants. -/
theorem accepted_within_grants {s : Deployment} (h : sessions.Reachable s) {t : LoginToken}
    (ht : t ∈ s.tokens) {identity : Identity} (haccepted : verifyToken s t = some identity) :
    ∃ a, s.accounts t.sub = some a ∧
      (∀ p ∈ identity.permissions, Effective a.grants p ∨ p ∈ retiredPermissions) ∧
      ∀ route required allowExpiredPassword requireActorType typeName,
        (∀ p ∈ required, p ∉ retiredPermissions) →
        enforceIdentityRequirements identity route required allowExpiredPassword requireActorType
          typeName = .ok () →
        enforceIdentityRequirements { identity with permissions := a.grants } route required
          allowExpiredPassword requireActorType typeName = .ok () := by
  rcases (inv_of_reachable h).tokens t ht with ⟨a, ha, _, hwithin⟩
  rcases verifyToken_eq_some.mp haccepted with ⟨b, hb, _, heq, rfl⟩
  rw [ha, Option.some.injEq] at hb
  rw [← hb] at heq
  refine ⟨a, ha, hwithin heq, fun route required allow actor typeName hrequired hpass => ?_⟩
  unfold enforceIdentityRequirements at hpass ⊢
  split at hpass
  · exact absurd hpass (by simp only [reduceCtorEq, not_false_eq_true])
  · rename_i hrotation
    rw [if_neg hrotation]
    dsimp only at hpass ⊢
    cases hactor : actor.filter fun required => ActorType.user ≠ required with
    | some required =>
        rw [hactor] at hpass
        exact absurd hpass (by simp only [reduceCtorEq, not_false_eq_true])
    | none =>
        rw [hactor] at hpass
        dsimp only at hpass ⊢
        split at hpass
        · rename_i hmeets
          rw [if_pos]
          rw [meetsRequirement_iff] at hmeets ⊢
          have hkept : ∀ p, Effective t.permissions p → p ∉ retiredPermissions →
              Effective a.grants p :=
            fun p hp hnot => (effective_retired (hwithin heq) hp).resolve_right hnot
          rcases hmeets with hnone | hadmin | ⟨p, hp, heffective⟩
          · exact Or.inl hnone
          · exact Or.inr (Or.inl (hkept _ hadmin (by decide)))
          · exact Or.inr (Or.inr ⟨p, hp, hkept p heffective (hrequired p hp)⟩)
        · exact absurd hpass (by simp only [reduceCtorEq, not_false_eq_true])

/-- A user, a session of the user, and an edit that only adds a permission. -/
def widenedRun : List Act :=
  [.create "usr" false ["users:write"], .login "usr", .mint ⟨"usr", false, 0⟩,
    .setAssigned "usr" [] ["users:write", "audit:read"]]

theorem accepted_within_grants_widened :
    ∃ s t identity a, sessions.runActions ⟨fun _ => none, [], []⟩ widenedRun = some s ∧
      t ∈ s.tokens ∧ verifyToken s t = some identity ∧ s.accounts t.sub = some a ∧
      ∀ p ∈ identity.permissions, Effective a.grants p ∨ p ∈ retiredPermissions := by
  have hrun : ((sessions.runActions ⟨fun _ => none, [], []⟩ widenedRun).any fun s =>
      s.tokens.any fun t => (verifyToken s t).isSome) = true := by
    decide +kernel
  rcases (Option.any_eq_true _ _).mp hrun with ⟨s, hs, htokens⟩
  rcases List.any_eq_true.mp htokens with ⟨t, ht, hsome⟩
  rcases Option.isSome_iff_exists.mp hsome with ⟨identity, hidentity⟩
  have hreach : sessions.Reachable s :=
    Machine.reachable_runActions (Machine.ReachesWhen.start _ rfl) hs
  rcases accepted_within_grants hreach ht hidentity with ⟨a, ha, hwithin, _⟩
  exact ⟨s, t, identity, a, hs, ht, hidentity, ha, hwithin⟩

/-! ## Tokens that are refused -/

/-- A generation of a user is not ahead, and if it is the one of the row, the user's
credentials are accepted. -/
def Standing (s : Deployment) (user : String) (generation : Nat) : Prop :=
  ∃ a, s.accounts user = some a ∧ generation ≤ a.sessionGeneration ∧
    (generation = a.sessionGeneration → a.acceptsCredentials = true)

/-- A generation of a user is over. -/
def Ended (s : Deployment) (user : String) (generation : Nat) : Prop :=
  ∃ a, s.accounts user = some a ∧ generation < a.sessionGeneration

section Refused

variable {s s' : Deployment} {act : Act} {user : String} {generation : Nat}

theorem standing_moves (h : Moves s act s') (hstanding : Standing s user generation) :
    Standing s' user generation := by
  rcases hstanding with ⟨a, ha, hle, hlive⟩
  rcases h.accounts user a ha with ⟨a', ha', hlater⟩
  have hgeneration := hlater.generation
  exact ⟨a', ha', by omega, fun heq => hlater.live (by omega) (hlive (by omega))⟩

theorem ended_moves (h : Moves s act s') (hended : Ended s user generation) :
    Ended s' user generation := by
  rcases hended with ⟨a, ha, hlt⟩
  rcases h.accounts user a ha with ⟨a', ha', hlater⟩
  exact ⟨a', ha', lt_of_lt_of_le hlt hlater.generation⟩

/-- Where no password of a user who is not active is changed, what was minted for a user
stands. -/
theorem standing_of_reachesWhen (h : sessions.ReachesWhen (fun s act => ¬ Blind s act) s) :
    (∀ m ∈ s.minting, Standing s m.userId m.sessionGeneration) ∧
      ∀ t ∈ s.tokens, Standing s t.sub t.sgen := by
  refine Machine.reachesWhen_invariant (P := fun s => (∀ m ∈ s.minting, Standing s m.userId
    m.sessionGeneration) ∧ ∀ t ∈ s.tokens, Standing s t.sub t.sgen) (fun s hs => ?_)
    (fun s act s' hstanding hblind hstep => ?_) h
  · have hs' : s = ⟨fun _ => none, [], []⟩ := hs
    rw [hs']
    exact ⟨fun m hm => absurd hm List.not_mem_nil, fun t ht => absurd ht List.not_mem_nil⟩
  · have hmoves := step_spec hstep
    refine ⟨fun m hm => ?_, fun t ht => ?_⟩
    · rcases hmoves.minting m hm with hm | ⟨a', ha', heq, hlive⟩
      · exact standing_moves hmoves (hstanding.1 m hm)
      · exact ⟨a', ha', le_of_eq heq, fun _ => hlive hblind⟩
    · rcases hmoves.tokens t ht with ht | ⟨m, hm, a, _, rfl⟩
      · exact standing_moves hmoves (hstanding.2 t ht)
      · exact standing_moves hmoves (hstanding.1 m hm)

/-- A token that is refused after a run in which nobody's password was changed while they
were not active is refused after whatever follows. -/
theorem refused_stays_refused (h : sessions.ReachesWhen (fun s act => ¬ Blind s act) s)
    {t : LoginToken} (ht : t ∈ s.tokens) (hrefused : verifyToken s t = none) {acts : List Act}
    (hrun : sessions.runActions s acts = some s') : verifyToken s' t = none := by
  have hended : Ended s t.sub t.sgen := by
    rcases (standing_of_reachesWhen h).2 t ht with ⟨a, ha, hle, hlive⟩
    refine ⟨a, ha, lt_of_le_of_ne hle fun heq => ?_⟩
    rw [verifyToken_eq_some.mpr ⟨a, ha, hlive heq, heq, rfl⟩] at hrefused
    exact absurd hrefused (by simp only [reduceCtorEq, not_false_eq_true])
  have hlater := Machine.runActions_invariant (P := fun s => Ended s t.sub t.sgen)
    (fun act _ s₁ s₂ hs₁ hstep => ended_moves (step_spec hstep) hs₁) hended hrun
  rcases hlater with ⟨a, ha, hlt⟩
  rw [Option.eq_none_iff_forall_ne_some]
  intro identity hsome
  rcases verifyToken_eq_some.mp hsome with ⟨b, hb, _, heq, _⟩
  rw [ha, Option.some.injEq] at hb
  rw [← hb] at heq
  omega

/-- A session of a user who is disabled and enabled again. -/
def disabledRun : List Act :=
  [.create "usr" false ["audit:read"], .login "usr", .mint ⟨"usr", false, 0⟩, .disable "usr"]

/-- Whether an operation is a password change. -/
def Act.changesPassword : Act → Bool
  | .changeOwnPassword _ => true
  | _ => false

theorem refused_stays_refused_enabled :
    ∃ s s' t, sessions.runWhen (fun _ act => !act.changesPassword) ⟨fun _ => none, [], []⟩
        disabledRun = some s ∧ t ∈ s.tokens ∧
      sessions.runActions s [.enable "usr"] = some s' ∧ verifyToken s' t = none := by
  have hrun : ((sessions.runWhen (fun _ act => !act.changesPassword) ⟨fun _ => none, [], []⟩
      disabledRun).any fun s => s.tokens.any fun t => (verifyToken s t).isNone &&
        (sessions.runActions s [.enable "usr"]).isSome) = true := by
    decide +kernel
  rcases (Option.any_eq_true _ _).mp hrun with ⟨s, hs, htokens⟩
  rcases List.any_eq_true.mp htokens with ⟨t, ht, hboth⟩
  rw [Bool.and_eq_true, Option.isNone_iff_eq_none, Option.isSome_iff_exists] at hboth
  rcases hboth with ⟨hrefused, s', hs'⟩
  have hreach : sessions.ReachesWhen (fun s act => ¬ Blind s act) s := by
    refine Machine.reachesWhen_runWhen (fun s act hact => ?_) (Machine.ReachesWhen.start _ rfl) hs
    rintro ⟨user, a, rfl, _⟩
    exact absurd hact Bool.false_ne_true
  exact ⟨s, s', t, hs, ht, hs', refused_stays_refused hreach ht hrefused hs'⟩

/-- A password that is changed while its user is disabled: the token is refused, and
accepted once the user is enabled. -/
def changedRun : List Act :=
  [.create "usr" false ["audit:read"], .disable "usr", .changeOwnPassword "usr",
    .mint ⟨"usr", false, 2⟩]

theorem changed_while_disabled_comes_back :
    ∃ s s' t, sessions.Reachable s ∧ t ∈ s.tokens ∧ verifyToken s t = none ∧
      sessions.runActions s [.enable "usr"] = some s' ∧ verifyToken s' t ≠ none := by
  have hrun : ((sessions.runActions ⟨fun _ => none, [], []⟩ changedRun).any fun s =>
      s.tokens.any fun t => (verifyToken s t).isNone &&
        (sessions.runActions s [.enable "usr"]).any fun s' => (verifyToken s' t).isSome) = true := by
    decide +kernel
  rcases (Option.any_eq_true _ _).mp hrun with ⟨s, hs, htokens⟩
  rcases List.any_eq_true.mp htokens with ⟨t, ht, hboth⟩
  rw [Bool.and_eq_true, Option.isNone_iff_eq_none] at hboth
  rcases (Option.any_eq_true _ _).mp hboth.2 with ⟨s', hs', hsome⟩
  have hreach : sessions.Reachable s :=
    Machine.reachable_runActions (Machine.ReachesWhen.start _ rfl) hs
  exact ⟨s, s', t, hreach, ht, hboth.1, hs', Option.isSome_iff_ne_none.mp hsome⟩

end Refused

end Accounts

end JenticOne
