import JenticOne.Accounts.PermissionCatalog
import JenticOne.Auth.AgentService
import JenticOne.Library.Machine

/-!
# Nobody Grants More Than They Have

Users are granted permissions by users, and agents by whoever owns or approves them.
A user may grant what their own grants come to, and an agent's permissions are judged
by what the token of the caller carries, with a baseline that is free for everyone.
What an agent already holds may be kept without a judgement, and what an agent asked
for when it registered itself is judged when it is approved.

So a group of actors whose grants nobody else writes never comes to more than what its
members had at first, together with the baseline: not by granting to each other, not
through agents that they create or register, and not with tokens that are older than
the grants. Nor does an agent of the group come to `org:admin` or `agents:write`.

The grants of an agent are read and written by different statements. A replacement keeps
what the agent held when it was read, also what it only asked for, so this takes that
the agent still holds it when the replacement is written. Three operations of one owner
on an agent that waits for its approval are enough to get around that.

## Main definitions

* `State`, `Act`, `step`: Grants, tokens, and operations in their parts.
* `Commands`, `HeldBy`: What an actor, and an agent, may do.
* `Own`: Nobody else writes the grants of the group.
* `Inv`: Whatever is stored or under way is within what there was.

## Theorems

* `inv_step`: Every operation.
* `confined`: What a group of actors comes to.
* `replaced_across_approval`: A replacement that keeps what is gone.
-/

namespace JenticOne

namespace Accounts

namespace Confinement

open Auth.Agents (ActorStatus)

/-! ## State -/

/-- An agent, with its permission grants. -/
structure AgentRow where
  status : ActorStatus
  grants : List String

/-- The identity behind a login JWT or the token of an agent. -/
structure Caller where
  sub : String
  permissions : List String
deriving DecidableEq

/-- The grants of a user that `validate_grants` has let through. -/
structure Edit where
  granter : String
  target : String
  permissions : List String
deriving DecidableEq

inductive Request
  | approve
  | replace (permissions : List String)

/-- An operation on the grants of an agent that has read them and checked them. -/
structure Review where
  caller : Caller
  agent : String
  request : Request
  existing : List String

structure State where
  users : String → List String
  agents : String → Option AgentRow
  callers : List Caller
  edits : List Edit
  reviews : Nat → Option Review

/-- Operations. Those that read grants and write them later are in two parts. -/
inductive Act
  | login (user : String)
  | token (agent : String) (ceiling : List String)
  | validate (e : Edit)
  | write (e : Edit) (missed : List String)
  | provision (user : String) (grants : List String)
  | create (caller : Caller) (agent : String) (status : ActorStatus) (permissions : List String)
  | register (agent : String) (scopes : List String)
  | read (i : Nat) (caller : Caller) (agent : String) (request : Request)
  | commit (i : Nat) (missed : List String)
  | deny (agent : String)
  | disable (agent : String)
  | enable (agent : String)
  | archive (agent : String)

namespace State

variable (s : State)

def putAgent (agent : String) (row : AgentRow) : State :=
  { s with agents := Function.update s.agents agent (some row) }

def putUser (user : String) (grants : List String) : State :=
  { s with users := Function.update s.users user grants }

/-- A transition of `_VALID_TRANSITIONS` that leaves the grants. -/
def move (agent : String) (source target : ActorStatus) : Option State :=
  (s.agents agent).bind fun row =>
    if row.status = source then some (s.putAgent agent { row with status := target }) else none

end State

/-- The permissions that `create` grants. -/
def permissionsToGrant (status : ActorStatus) (permissions : List String) : List String :=
  if status = .active then
    if permissions = [] then defaultAgentPermissions else permissions.eraseDups
  else []

/-- The check of an operation on the permissions that it finds. -/
def Request.check (request : Request) (existing caller : List String) : Except GrantError Unit :=
  match request with
  | .approve => checkAgentPermissionGrant (existing.filter fun p => inCatalogue p) caller []
  | .replace permissions => checkAgentPermissionGrant permissions.eraseDups caller existing

/-- The states of an agent in which an operation goes on. -/
def Request.allows (request : Request) (status : ActorStatus) : Bool :=
  match request with
  | .approve => status = .pending
  | .replace _ => status ≠ .archived

/-- What the operation writes. Grants that were stored after its delete began are missed
by it. -/
def Review.apply (r : Review) (missed : List String) (row : AgentRow) : AgentRow :=
  match r.request with
  | .approve => ⟨.active, row.grants ++ if r.existing = [] then defaultAgentPermissions else []⟩
  | .replace permissions =>
      { row with grants := row.grants.filter (fun p => p ∈ missed) ++ permissions.eraseDups }

/-- One step. The checks of ownership only refuse an operation, and neither they nor the
lock that `approve` takes are made use of. -/
def step (s : State) : Act → Option State
  | .login user =>
      some { s with
        callers := ⟨user, sorted (computeEffective implicationMap (s.users user))⟩ :: s.callers }
  | .token agent ceiling =>
      (s.agents agent).bind fun row =>
        if row.status = .active then
          some { s with callers := ⟨agent, row.grants.filter fun p => p ∈ ceiling⟩ :: s.callers }
        else none
  | .validate e =>
      match validateGrants (s.users e.granter) e.permissions with
      | .ok _ => some { s with edits := e :: s.edits }
      | .error _ => none
  | .write e missed =>
      if e ∈ s.edits then
        some (s.putUser e.target
          ((s.users e.target).filter (fun p => p ∈ missed) ++ e.permissions))
      else none
  | .provision user grants => if s.users user = [] then some (s.putUser user grants) else none
  | .create caller agent status permissions =>
      if caller ∈ s.callers ∧ s.agents agent = none ∧ (status = .active ∨ status = .pending) then
        match if status = .active ∧ permissions ≠ [] then
            checkAgentPermissionGrant permissions.eraseDups caller.permissions []
          else .ok () with
        | .ok _ => some (s.putAgent agent ⟨status, permissionsToGrant status permissions⟩)
        | .error _ => none
      else none
  | .register agent scopes =>
      if s.agents agent = none then some (s.putAgent agent ⟨.pending, scopes.eraseDups⟩) else none
  | .read i caller agent request =>
      if caller ∈ s.callers ∧ s.reviews i = none then
        (s.agents agent).bind fun row =>
          if request.allows row.status then
            match request.check row.grants caller.permissions with
            | .ok _ => some { s with
                reviews := Function.update s.reviews i (some ⟨caller, agent, request, row.grants⟩) }
            | .error _ => none
          else none
      else none
  | .commit i missed =>
      (s.reviews i).bind fun r =>
        (s.agents r.agent).map fun row =>
          { s.putAgent r.agent (r.apply missed row) with
            reviews := Function.update s.reviews i none }
  | .deny agent => s.move agent .pending .rejected
  | .disable agent => s.move agent .active .disabled
  | .enable agent => s.move agent .disabled .active
  | .archive agent => (s.agents agent).map fun _ => s.putAgent agent ⟨.archived, []⟩

/-- Runs from a state. -/
def deployment (s₀ : State) : Machine State Act where
  start s := s = s₀
  step := step

/-! ## What actors may do -/

/-- The agent acts, or may be made to act without another judgement. -/
def Live (status : ActorStatus) : Prop := status = .active ∨ status = .disabled

instance (status : ActorStatus) : Decidable (Live status) :=
  inferInstanceAs (Decidable (status = .active ∨ status = .disabled))

def HeldBy (s : State) (agent p : String) : Prop :=
  ∃ row, s.agents agent = some row ∧ Live row.status ∧ Effective row.grants p

/-- What an actor may do, by its grants or by a token. -/
def Commands (s : State) (who p : String) : Prop :=
  Effective (s.users who) p ∨ HeldBy s who p ∨
    ∃ c ∈ s.callers, c.sub = who ∧ Effective c.permissions p

/-- What a replacement keeps because the agent held it is held when it is written. -/
def State.keepsHeld (s : State) (i : Nat) : Bool :=
  (s.reviews i).all fun r =>
    match r.request with
    | .approve => true
    | .replace permissions => permissions.all fun p =>
        p ∉ r.existing || (s.agents r.agent).all fun row => p ∈ row.grants

/-- Nobody else writes the grants of the group, and its replacements keep what is
held. -/
def Own (inside : String → Prop) (s : State) : Act → Prop
  | .write e _ => inside e.target → inside e.granter
  | .provision user _ => ¬ inside user
  | .create caller agent _ _ => inside agent → inside caller.sub
  | .commit i _ => ∀ r, s.reviews i = some r → inside r.agent →
      inside r.caller.sub ∧ s.keepsHeld i = true
  | _ => True

/-! ## What there was -/

section Bounds

variable {inside : String → Prop} {s₀ : State}

/-- What a member of the group could do at first, or anyone may grant. -/
def Bound (inside : String → Prop) (s₀ : State) (p : String) : Prop :=
  (∃ w, inside w ∧ Commands s₀ w p) ∨ Effective defaultAgentPermissions p

/-- A permission that means something is within the bound. -/
def Within (inside : String → Prop) (s₀ : State) (p : String) : Prop :=
  inCatalogue p = true → Bound inside s₀ p

/-- And what only an administrator may put on an agent, the agent had. -/
def WithinFor (inside : String → Prop) (s₀ : State) (agent p : String) : Prop :=
  inCatalogue p = true →
    Bound inside s₀ p ∧ (p ∈ adminOnlyAgentPermissions → HeldBy s₀ agent p)

theorem WithinFor.within {agent p : String} (h : WithinFor inside s₀ agent p) :
    Within inside s₀ p :=
  fun hp => (h hp).1

theorem bound_implied {p q : String} (h : Bound inside s₀ p) (hq : q ∈ implicationMap p) :
    Bound inside s₀ q := by
  rcases h with ⟨w, hw, huser | ⟨row, hrow, hlive, hheld⟩ | ⟨c, hc, hsub, htoken⟩⟩ | hdefault
  · exact Or.inl ⟨w, hw, Or.inl (effective_of_implied huser hq)⟩
  · exact Or.inl ⟨w, hw, Or.inr (Or.inl ⟨row, hrow, hlive, effective_of_implied hheld hq⟩)⟩
  · exact Or.inl ⟨w, hw, Or.inr (Or.inr ⟨c, hc, hsub, effective_of_implied htoken hq⟩)⟩
  · exact Or.inr (effective_of_implied hdefault hq)

/-- What grants within the bound come to is within it. -/
theorem within_effective {grants : List String} (h : ∀ p ∈ grants, Within inside s₀ p)
    {q : String} (hq : Effective grants q) : Within inside s₀ q := by
  refine effective_subset h (fun p hp q hq _ => ?_) hq
  cases hcatalogue : inCatalogue p with
  | false =>
      rw [implicationMap_of_not_inCatalogue hcatalogue] at hq
      exact absurd hq List.not_mem_nil
  | true => exact bound_implied (hp hcatalogue) hq

theorem within_of_retired {p : String} (h : p ∈ retiredPermissions) : Within inside s₀ p := by
  intro hp
  rw [retired_not_inCatalogue h] at hp
  exact absurd hp Bool.false_ne_true

theorem withinFor_of_retired {agent p : String} (h : p ∈ retiredPermissions) :
    WithinFor inside s₀ agent p := by
  intro hp
  rw [retired_not_inCatalogue h] at hp
  exact absurd hp Bool.false_ne_true

/-- The baseline has nothing that is for administrators. -/
theorem withinFor_default {agent p : String} (h : p ∈ defaultAgentPermissions) :
    WithinFor inside s₀ agent p := by
  have hall : ∀ p ∈ defaultAgentPermissions, p ∉ adminOnlyAgentPermissions := by
    decide
  exact fun _ => ⟨Or.inr (effective_of_mem h), fun honly => absurd honly (hall p h)⟩

variable (hadmin : ∀ w, inside w → ¬ Commands s₀ w orgAdmin)

include hadmin

theorem not_bound_orgAdmin : ¬ Bound inside s₀ orgAdmin := by
  rintro (⟨w, hw, hcommands⟩ | hdefault)
  · exact hadmin w hw hcommands
  · rw [effective_orgAdmin] at hdefault
    have hnot : orgAdmin ∉ defaultAgentPermissions := by
      decide
    exact hnot hdefault

/-- What a caller of the group may grant to an agent. -/
theorem withinFor_of_grantable {permissions : List String} {agent p : String}
    (h : ∀ p ∈ permissions, Within inside s₀ p)
    (hgrantable : isAgentPermissionGrantable p (computeEffective implicationMap permissions) =
      true) : WithinFor inside s₀ agent p := by
  intro hp
  rcases isAgentPermissionGrantable_iff.mp hgrantable with hcaller | ⟨honly, hheld | hdefault⟩
  · exact absurd (within_effective h hcaller (by decide)) (not_bound_orgAdmin hadmin)
  · exact ⟨within_effective h hheld hp, fun hadminOnly => absurd hadminOnly honly⟩
  · exact withinFor_default hdefault hp

/-- What the ceiling lets through. -/
theorem withinFor_of_check {requested permissions held : List String} {agent p : String}
    (h : ∀ p ∈ permissions, Within inside s₀ p)
    (hcheck : checkAgentPermissionGrant requested permissions held = .ok ())
    (hp : p ∈ requested) : p ∈ held ∨ WithinFor inside s₀ agent p := by
  rcases checkAgentPermissionGrant_ok hcheck hp with hheld | hretired | ⟨_, hgrantable⟩
  · exact Or.inl hheld
  · exact Or.inr (withinFor_of_retired hretired)
  · exact Or.inr (withinFor_of_grantable hadmin h hgrantable)

end Bounds

/-! ## One step -/

/-- What an operation that is under way may write. -/
structure Reviewed (inside : String → Prop) (s₀ s : State) (r : Review) : Prop where
  stored : s.agents r.agent ≠ none
  approve : r.request = .approve → ∀ row, s.agents r.agent = some row →
    ∀ p ∈ row.grants, WithinFor inside s₀ r.agent p
  replace : ∀ permissions, r.request = .replace permissions →
    ∀ p ∈ permissions, p ∈ r.existing ∨ WithinFor inside s₀ r.agent p

/-- Whatever is stored for the group, carried by its tokens or under way for it is within
what there was. -/
structure Inv (inside : String → Prop) (s₀ s : State) : Prop where
  users : ∀ u, inside u → ∀ p ∈ s.users u, Within inside s₀ p
  agents : ∀ a row, inside a → s.agents a = some row → Live row.status →
    ∀ p ∈ row.grants, WithinFor inside s₀ a p
  callers : ∀ c ∈ s.callers, inside c.sub → ∀ p ∈ c.permissions, Within inside s₀ p
  edits : ∀ e ∈ s.edits, inside e.granter → ∀ p ∈ e.permissions, Within inside s₀ p
  reviews : ∀ i r, s.reviews i = some r → inside r.agent → inside r.caller.sub →
    Reviewed inside s₀ s r

section Steps

variable {inside : String → Prop} {s₀ s s' : State}

theorem inv_caller {c : Caller} (inv : Inv inside s₀ s)
    (hc : inside c.sub → ∀ p ∈ c.permissions, Within inside s₀ p) :
    Inv inside s₀ { s with callers := c :: s.callers } := by
  refine ⟨inv.users, inv.agents, fun c' hc' => ?_, inv.edits, fun i r hr hagent hcaller => ?_⟩
  · rcases List.mem_cons.mp hc' with rfl | hc'
    · exact hc
    · exact inv.callers c' hc'
  · have hreview := inv.reviews i r hr hagent hcaller
    exact ⟨hreview.stored, hreview.approve, hreview.replace⟩

theorem inv_putUser {user : String} {grants : List String} (inv : Inv inside s₀ s)
    (hgrants : inside user → ∀ p ∈ grants, Within inside s₀ p) :
    Inv inside s₀ (s.putUser user grants) := by
  refine ⟨fun u hu p hp => ?_, inv.agents, inv.callers, inv.edits,
    fun i r hr hagent hcaller => ?_⟩
  · by_cases huser : u = user
    · rw [huser] at hu hp
      change p ∈ Function.update s.users user grants user at hp
      rw [Function.update_self] at hp
      exact hgrants hu p hp
    · change p ∈ Function.update s.users user grants u at hp
      rw [Function.update_of_ne huser] at hp
      exact inv.users u hu p hp
  · have hreview := inv.reviews i r hr hagent hcaller
    exact ⟨hreview.stored, hreview.approve, hreview.replace⟩

/-- Another row of an agent: its grants are within what there was if the agent acts, or
if it is about to be approved. -/
theorem inv_putAgent {agent : String} {row : AgentRow} (inv : Inv inside s₀ s)
    (hlive : inside agent → Live row.status → ∀ p ∈ row.grants, WithinFor inside s₀ agent p)
    (hopen : ∀ r, r.agent = agent → inside agent → Reviewed inside s₀ s r →
      r.request = .approve → ∀ p ∈ row.grants, WithinFor inside s₀ agent p) :
    Inv inside s₀ (s.putAgent agent row) := by
  refine ⟨inv.users, fun a row' ha hrow hstatus => ?_, inv.callers, inv.edits,
    fun i r hr hagent hcaller => ?_⟩
  · rcases Machine.update_cases hrow with ⟨rfl, rfl⟩ | ⟨_, hrow⟩
    · exact hlive ha hstatus
    · exact inv.agents a row' ha hrow hstatus
  · have hreview := inv.reviews i r hr hagent hcaller
    refine ⟨fun hnone => ?_, fun happrove row' hrow => ?_, hreview.replace⟩
    · change Function.update s.agents agent (some row) r.agent = none at hnone
      by_cases heq : r.agent = agent
      · rw [heq, Function.update_self] at hnone
        exact absurd hnone (by simp only [reduceCtorEq, not_false_eq_true])
      · rw [Function.update_of_ne heq] at hnone
        exact hreview.stored hnone
    · rcases Machine.update_cases hrow with ⟨heq, rfl⟩ | ⟨_, hrow⟩
      · rw [heq]
        exact hopen r heq (heq ▸ hagent) hreview happrove
      · exact hreview.approve happrove row' hrow

theorem inv_move {agent : String} {source target : ActorStatus} (inv : Inv inside s₀ s)
    (hlive : Live target → Live source) (h : s.move agent source target = some s') :
    Inv inside s₀ s' := by
  rw [State.move, Option.bind_eq_some_iff] at h
  rcases h with ⟨row, hrow, h⟩
  rw [Option.ite_none_right_eq_some, Option.some.injEq] at h
  rcases h with ⟨hstatus, rfl⟩
  refine inv_putAgent inv (fun ha htarget => ?_) fun r heq _ hreview happrove => ?_
  · exact inv.agents agent row ha hrow (hstatus ▸ hlive htarget)
  · rw [← heq] at hrow ⊢
    exact hreview.approve happrove row hrow

/-- A new agent is not under way. -/
theorem inv_newAgent {agent : String} {row : AgentRow} (inv : Inv inside s₀ s)
    (hnone : s.agents agent = none)
    (hlive : inside agent → Live row.status → ∀ p ∈ row.grants, WithinFor inside s₀ agent p) :
    Inv inside s₀ (s.putAgent agent row) := by
  refine inv_putAgent inv hlive fun r heq _ hreview => ?_
  rw [← heq] at hnone
  exact absurd hnone hreview.stored

theorem inv_review {i : Nat} {r : Review} (inv : Inv inside s₀ s)
    (hr : inside r.agent → inside r.caller.sub → Reviewed inside s₀ s r) :
    Inv inside s₀ { s with reviews := Function.update s.reviews i (some r) } := by
  refine ⟨inv.users, inv.agents, inv.callers, inv.edits, fun j r' hr' hagent hcaller => ?_⟩
  rcases Machine.update_cases hr' with ⟨_, rfl⟩ | ⟨_, hr'⟩
  · have hreview := hr hagent hcaller
    exact ⟨hreview.stored, hreview.approve, hreview.replace⟩
  · have hreview := inv.reviews j r' hr' hagent hcaller
    exact ⟨hreview.stored, hreview.approve, hreview.replace⟩

theorem inv_close {i : Nat} (inv : Inv inside s₀ s) :
    Inv inside s₀ { s with reviews := Function.update s.reviews i none } := by
  refine ⟨inv.users, inv.agents, inv.callers, inv.edits, fun j r' hr' hagent hcaller => ?_⟩
  have hold : s.reviews j = some r' := by
    change Function.update s.reviews i none j = some r' at hr'
    by_cases hj : j = i
    · rw [hj, Function.update_self] at hr'
      exact absurd hr' (by simp only [reduceCtorEq, not_false_eq_true])
    · rw [Function.update_of_ne hj] at hr'
      exact hr'
  have hreview := inv.reviews j r' hold hagent hcaller
  exact ⟨hreview.stored, hreview.approve, hreview.replace⟩

/-- What an operation writes was stored, or is within what there was. -/
theorem inv_commit {i : Nat} {r : Review} {row : AgentRow} {missed : List String}
    (inv : Inv inside s₀ s) (hr : s.reviews i = some r) (hrow : s.agents r.agent = some row)
    (hown : inside r.agent → inside r.caller.sub ∧ s.keepsHeld i = true) :
    Inv inside s₀ { s.putAgent r.agent (r.apply missed row) with
      reviews := Function.update s.reviews i none } := by
  have hreview : inside r.agent → Reviewed inside s₀ s r := fun hagent =>
    inv.reviews i r hr hagent (hown hagent).1
  -- What is written over grants within the bound is within the bound.
  have hwrites : inside r.agent → (∀ p ∈ row.grants, WithinFor inside s₀ r.agent p) →
      ∀ p ∈ (r.apply missed row).grants, WithinFor inside s₀ r.agent p := by
    intro hagent hgrants p hp
    cases hrequest : r.request with
    | approve =>
        rw [Review.apply, hrequest, List.mem_append] at hp
        rcases hp with hp | hp
        · exact hgrants p hp
        · split at hp
          · exact withinFor_default hp
          · exact absurd hp List.not_mem_nil
    | replace permissions =>
        rw [Review.apply, hrequest, List.mem_append, List.mem_filter, List.mem_eraseDups] at hp
        rcases hp with ⟨hp, _⟩ | hp
        · exact hgrants p hp
        · rcases (hreview hagent).replace permissions hrequest p hp with hheld | hwithin
          · have hkeeps := (hown hagent).2
            rw [State.keepsHeld, hr, Option.all_some, hrequest, List.all_eq_true] at hkeeps
            have hkept := hkeeps p hp
            rw [hrow, Option.all_some, Bool.or_eq_true, decide_eq_true_eq, decide_eq_true_eq]
              at hkept
            exact hgrants p (hkept.resolve_left fun hnot => hnot hheld)
          · exact hwithin
  refine inv_close (inv_putAgent inv (fun hagent hlive => ?_) fun r' heq hagent hreview' happrove => ?_)
  · refine hwrites hagent ?_
    cases hrequest : r.request with
    | approve => exact (hreview hagent).approve hrequest row hrow
    | replace permissions =>
        rw [Review.apply, hrequest] at hlive
        exact inv.agents r.agent row hagent hrow hlive
  · rw [← heq] at hrow
    exact hwrites hagent (heq ▸ hreview'.approve happrove row hrow)

variable (hadmin : ∀ w, inside w → ¬ Commands s₀ w orgAdmin)

include hadmin

/-- An operation that has checked what it found. -/
theorem reviewed_of_check {caller : Caller} {agent : String} {request : Request} {row : AgentRow}
    (hcaller : ∀ p ∈ caller.permissions, Within inside s₀ p)
    (hrow : s.agents agent = some row)
    (hcheck : request.check row.grants caller.permissions = .ok ()) :
    Reviewed inside s₀ s ⟨caller, agent, request, row.grants⟩ := by
  refine ⟨fun hnone => ?_, fun happrove row' hrow' p hp hcatalogue => ?_, fun permissions heq p hp => ?_⟩
  · rw [hrow] at hnone
    exact absurd hnone (by simp only [reduceCtorEq, not_false_eq_true])
  · dsimp only at happrove hrow'
    rw [hrow, Option.some.injEq] at hrow'
    rw [← hrow'] at hp
    rw [happrove, Request.check] at hcheck
    have hfilter : p ∈ row.grants.filter fun p => inCatalogue p :=
      List.mem_filter.mpr ⟨hp, hcatalogue⟩
    exact (withinFor_of_check hadmin hcaller hcheck hfilter).resolve_left List.not_mem_nil hcatalogue
  · dsimp only at heq
    rw [heq, Request.check] at hcheck
    exact withinFor_of_check hadmin hcaller hcheck (List.mem_eraseDups.mpr hp)

/-- Every operation in a run where nobody else writes the grants of the group. -/
theorem inv_step {act : Act} (inv : Inv inside s₀ s) (hown : Own inside s act)
    (h : step s act = some s') : Inv inside s₀ s' := by
  cases act with
  | login user =>
      rw [step, Option.some.injEq] at h
      rw [← h]
      refine inv_caller inv fun hin p hp => ?_
      rw [mem_sorted, mem_effective] at hp
      exact within_effective (inv.users user hin) hp
  | token agent ceiling =>
      rw [step, Option.bind_eq_some_iff] at h
      rcases h with ⟨row, hrow, h⟩
      rw [Option.ite_none_right_eq_some, Option.some.injEq] at h
      rcases h with ⟨hactive, rfl⟩
      refine inv_caller inv fun hin p hp => ?_
      exact (inv.agents agent row hin hrow (Or.inl hactive) p (List.mem_filter.mp hp).1).within
  | validate e =>
      rw [step] at h
      split at h
      · rename_i hvalid
        rw [Option.some.injEq] at h
        rw [← h]
        refine ⟨inv.users, inv.agents, inv.callers, fun e' he' hin p hp => ?_,
          fun i r hr hagent hcaller => ?_⟩
        · rcases List.mem_cons.mp he' with rfl | he'
          · rcases validateGrants_ok hvalid hp with hretired | ⟨_, heffective⟩
            · exact within_of_retired hretired
            · exact within_effective (inv.users e'.granter hin) heffective
          · exact inv.edits e' he' hin p hp
        · have hreview := inv.reviews i r hr hagent hcaller
          exact ⟨hreview.stored, hreview.approve, hreview.replace⟩
      · exact absurd h (by simp only [reduceCtorEq, not_false_eq_true])
  | write e missed =>
      rw [step, Option.ite_none_right_eq_some, Option.some.injEq] at h
      rcases h with ⟨he, rfl⟩
      refine inv_putUser inv fun hin p hp => ?_
      rcases List.mem_append.mp hp with hp | hp
      · exact inv.users e.target hin p (List.mem_filter.mp hp).1
      · exact inv.edits e he (hown hin) p hp
  | provision user grants =>
      rw [step, Option.ite_none_right_eq_some, Option.some.injEq] at h
      rw [← h.2]
      exact inv_putUser inv fun hin => absurd hin hown
  | create caller agent status permissions =>
      rw [step, Option.ite_none_right_eq_some] at h
      rcases h with ⟨⟨hcaller, hnone, _⟩, h⟩
      split at h
      · rename_i hcheck
        rw [Option.some.injEq] at h
        rw [← h]
        refine inv_newAgent inv hnone fun hin _ p hp => ?_
        dsimp only at hp
        unfold permissionsToGrant at hp
        split at hp
        · rename_i hactive
          split at hp
          · exact withinFor_default hp
          · rename_i hsome
            rw [if_pos ⟨hactive, hsome⟩] at hcheck
            have hwithin := inv.callers caller hcaller (hown hin)
            exact (withinFor_of_check hadmin hwithin hcheck hp).resolve_left List.not_mem_nil
        · exact absurd hp List.not_mem_nil
      · exact absurd h (by simp only [reduceCtorEq, not_false_eq_true])
  | register agent scopes =>
      rw [step, Option.ite_none_right_eq_some, Option.some.injEq] at h
      rcases h with ⟨hnone, rfl⟩
      have hpending : ¬ Live .pending := by
        decide
      exact inv_newAgent inv hnone fun _ hlive => absurd hlive hpending
  | read i caller agent request =>
      rw [step, Option.ite_none_right_eq_some] at h
      rcases h with ⟨⟨hcaller, _⟩, h⟩
      rw [Option.bind_eq_some_iff] at h
      rcases h with ⟨row, hrow, h⟩
      rw [Option.ite_none_right_eq_some] at h
      rcases h with ⟨_, h⟩
      split at h
      · rename_i hcheck
        rw [Option.some.injEq] at h
        rw [← h]
        refine inv_review inv fun _ hin => ?_
        exact reviewed_of_check hadmin (inv.callers caller hcaller hin) hrow hcheck
      · exact absurd h (by simp only [reduceCtorEq, not_false_eq_true])
  | commit i missed =>
      rw [step, Option.bind_eq_some_iff] at h
      rcases h with ⟨r, hr, h⟩
      rw [Option.map_eq_some_iff] at h
      rcases h with ⟨row, hrow, rfl⟩
      exact inv_commit inv hr hrow (hown r hr)
  | deny agent => exact inv_move inv (fun hlive => absurd hlive (by decide)) h
  | disable agent => exact inv_move inv (fun _ => Or.inl rfl) h
  | enable agent => exact inv_move inv (fun _ => Or.inr rfl) h
  | archive agent =>
      rw [step, Option.map_eq_some_iff] at h
      rcases h with ⟨_, _, rfl⟩
      exact inv_putAgent inv (fun _ hlive => absurd hlive (by decide))
        fun _ _ _ _ _ p hp => absurd hp List.not_mem_nil

end Steps

/-! ## Runs -/

theorem inv_start {inside : String → Prop} {s₀ : State} (hedits : s₀.edits = [])
    (hreviews : ∀ i, s₀.reviews i = none) : Inv inside s₀ s₀ := by
  refine ⟨fun u hu p hp _ => ?_, fun a row ha hrow hlive p hp _ => ⟨?_, fun _ => ?_⟩,
    fun c hc hin p hp _ => ?_, fun e he => ?_, fun i r hr => ?_⟩
  · exact Or.inl ⟨u, hu, Or.inl (effective_of_mem hp)⟩
  · exact Or.inl ⟨a, ha, Or.inr (Or.inl ⟨row, hrow, hlive, effective_of_mem hp⟩)⟩
  · exact ⟨row, hrow, hlive, effective_of_mem hp⟩
  · exact Or.inl ⟨c.sub, hin, Or.inr (Or.inr ⟨c, hc, rfl, effective_of_mem hp⟩)⟩
  · rw [hedits] at he
    exact absurd he List.not_mem_nil
  · rw [hreviews i] at hr
    exact absurd hr (by simp only [reduceCtorEq, not_false_eq_true])

/-- A group of actors without an administrator, whose grants nobody else writes, never
comes to more than its members had and the baseline of agents, whatever the others do.
Its agents come to nothing that is for administrators. -/
theorem confined {inside : String → Prop} {s₀ s : State} (hedits : s₀.edits = [])
    (hreviews : ∀ i, s₀.reviews i = none) (hadmin : ∀ w, inside w → ¬ Commands s₀ w orgAdmin)
    (h : (deployment s₀).ReachesWhen (Own inside) s) {who : String} (hwho : inside who) :
    (∀ p, inCatalogue p = true → Commands s who p →
      (∃ w, inside w ∧ Commands s₀ w p) ∨ Effective defaultAgentPermissions p) ∧
    ∀ p ∈ adminOnlyAgentPermissions, HeldBy s who p → HeldBy s₀ who p := by
  have inv : Inv inside s₀ s := by
    refine Machine.reachesWhen_invariant (P := Inv inside s₀) (fun s hs => ?_)
      (fun _ _ _ inv hown hstep => inv_step hadmin inv hown hstep) h
    have hs' : s = s₀ := hs
    rw [hs']
    exact inv_start hedits hreviews
  have hagent : ∀ row, s.agents who = some row → Live row.status →
      ∀ p ∈ row.grants, WithinFor inside s₀ who p := fun row hrow hlive =>
    inv.agents who row hwho hrow hlive
  have hnot := not_bound_orgAdmin hadmin
  refine ⟨fun p hp hcommands => ?_, fun p hp hheld => ?_⟩
  · rcases hcommands with huser | ⟨row, hrow, hlive, hheld⟩ | ⟨c, hc, rfl, htoken⟩
    · exact within_effective (inv.users who hwho) huser hp
    · exact within_effective (fun q hq => (hagent row hrow hlive q hq).within) hheld hp
    · exact within_effective (inv.callers c hc hwho) htoken hp
  · rcases hheld with ⟨row, hrow, hlive, g, hg, hreach⟩
    -- Nothing implies it but `org:admin`, which is not held.
    have hgranted : g = p := by
      rcases Relation.ReflTransGen.cases_tail hreach with heq | ⟨q, hq, hstep⟩
      · exact heq.symm
      · have hq' : Effective row.grants q := ⟨g, hg, hq⟩
        rw [eq_orgAdmin_of_implied hstep hp] at hq'
        exact absurd (within_effective (fun q hq => (hagent row hrow hlive q hq).within) hq'
          (by decide)) hnot
    have hcatalogue : inCatalogue p = true := by
      have hall : ∀ p ∈ adminOnlyAgentPermissions, inCatalogue p = true := by
        decide
      exact hall p hp
    rw [hgranted] at hg
    exact (hagent row hrow hlive p hg hcatalogue).2 hp

/-- A user who manages users, and an agent. -/
def manager : State :=
  ⟨fun u => if u = "usr_a" then ["users:write"] else [],
    fun a => if a = "agt_a" then some ⟨.active, ["jobs:read", "users:read"]⟩ else none, [], [],
    fun _ => none⟩

theorem manager_not_admin (w : String) : ¬ Commands manager w orgAdmin := by
  rintro (huser | ⟨row, hrow, _, hheld⟩ | ⟨_, hc, _⟩)
  · rw [effective_orgAdmin] at huser
    unfold manager at huser
    dsimp only at huser
    split at huser
    · exact absurd huser (by decide)
    · exact absurd huser List.not_mem_nil
  · unfold manager at hrow
    rw [Option.ite_none_right_eq_some, Option.some.injEq] at hrow
    rw [← hrow.2, effective_orgAdmin] at hheld
    exact absurd hheld (by decide)
  · exact nomatch hc

/-- Whether a step is one that a group of all actors may take. -/
def ownStep (s : State) : Act → Bool
  | .provision _ _ => false
  | .commit i _ => s.keepsHeld i
  | _ => true

/-- The user grants to another, and the agent creates one and replaces its grants. -/
def managerRun : List Act :=
  [.login "usr_a", .validate ⟨"usr_a", "usr_b", ["users:read"]⟩,
    .write ⟨"usr_a", "usr_b", ["users:read"]⟩ [], .token "agt_a" ["users:read"],
    .create ⟨"agt_a", ["users:read"]⟩ "agt" .active ["users:read"],
    .read 1 ⟨"agt_a", ["users:read"]⟩ "agt" (.replace ["apis:read", "users:read"]), .commit 1 []]

theorem confined_manager :
    ∃ s, (deployment manager).runWhen ownStep manager managerRun = some s ∧
      (∀ p, inCatalogue p = true → Commands s "agt" p →
        (∃ w, True ∧ Commands manager w p) ∨ Effective defaultAgentPermissions p) ∧
      ∀ p ∈ adminOnlyAgentPermissions, HeldBy s "agt" p → HeldBy manager "agt" p := by
  have hrun : ((deployment manager).runWhen ownStep manager managerRun).isSome = true := by
    decide +kernel
  rcases Option.isSome_iff_exists.mp hrun with ⟨s, hs⟩
  have hreach : (deployment manager).ReachesWhen (Own fun _ => True) s := by
    refine Machine.reachesWhen_runWhen (fun s act hown => ?_) (Machine.ReachesWhen.start _ rfl) hs
    cases act with
    | provision user grants => exact absurd hown Bool.false_ne_true
    | write e missed => exact fun _ => trivial
    | create caller agent status permissions => exact fun _ => trivial
    | commit i missed => exact fun r _ _ => ⟨trivial, hown⟩
    | _ => exact trivial
  exact ⟨s, hs, confined rfl (fun _ => rfl) (fun w _ => manager_not_admin w) hreach trivial⟩

/-- An agent that registered with `org:admin`, two replacements of its grants, of which
one keeps what the other removes, and its approval in between. -/
def acrossApproval : List Act :=
  [.register "agt" [orgAdmin], .login "usr_b", .read 1 ⟨"usr_b", []⟩ "agt" (.replace [orgAdmin]),
    .read 2 ⟨"usr_b", []⟩ "agt" (.replace []), .commit 2 [], .read 3 ⟨"usr_b", []⟩ "agt" .approve,
    .commit 3 [], .commit 1 []]

/-- Where a replacement may keep what the agent no longer holds, an agent comes to
`org:admin` with nobody who has it. -/
theorem replaced_across_approval :
    ∃ s, (deployment manager).Reachable s ∧ (∀ w, ¬ Commands manager w orgAdmin) ∧
      HeldBy s "agt" orgAdmin := by
  have hrun : (((deployment manager).runActions manager acrossApproval).any fun s =>
      (s.agents "agt").any fun row => row.status = .active ∧ orgAdmin ∈ row.grants) = true := by
    decide +kernel
  rcases (Option.any_eq_true _ _).mp hrun with ⟨s, hs, hagent⟩
  rcases (Option.any_eq_true _ _).mp hagent with ⟨row, hrow, hheld⟩
  rw [decide_eq_true_eq] at hheld
  exact ⟨s, Machine.reachable_runActions (Machine.ReachesWhen.start _ rfl) hs, manager_not_admin,
    row, hrow, Or.inl hheld.1, effective_of_mem hheld.2⟩

end Confinement

end Accounts

end JenticOne
