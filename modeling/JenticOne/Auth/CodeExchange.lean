import JenticOne.Library.Machine
import JenticOne.Library.Text
import JenticOne.Library.Margins

/-!
# The Exchange of an Authorization Code

`AuthorizeService.exchange_code`, called any number of times on one code. A call
takes the code's row with its lock, checks it against what is presented, marks it
consumed, checks the consent grant if there is one, reads the user and commits;
then it issues the tokens in a transaction of its own, which may be attempted
again when it is rolled back. Between any two of these a call may fail, for its
own reasons or by a crash, and what its open transaction has written is lost.

What the other tables hold is read anew at each step, and may be anything.

A call is consumed and committed under one lock, so the row tells each later call
that it has been; and up to the commit nothing that the call did is seen by
anyone, so that a call which raises until then leaves no trace.

## Main definitions

* `AuthorizationCode`, `Request`, `Reads`: The row, what is presented, and what
  is read elsewhere.
* `checkCode`, `checkProof`, `checkGrant`: The checks, with their errors.
* `Phase`, `machine`: The calls, step by step.
* `MintsOnce`: What has to be true of every state.

## Theorems

* `inv_goto`, `inv_lock`, `inv_commit`, `inv_issue`: What the steps keep.
* `usable_of_unlocked`: A code that is neither consumed nor locked is exchanged.
* `mintsOnce`: The law.
-/

namespace JenticOne

namespace Auth

namespace CodeExchange

/-! ## Rows and requests -/

structure AuthorizationCode where
  id : Text
  userId : Text
  clientId : Text
  redirectUri : Text
  codeChallenge : Text
  scopes : Text
  nonce : Option Text
  grantId : Option Text
  consumedAt : Option Int
  expiresAt : Int
  deriving DecidableEq

/-- What a call presents with the code. -/
structure Request where
  codeVerifier : Text
  redirectUri : Text
  clientId : Text
  oauthClientId : Option Text
  deriving DecidableEq

structure OAuthClientGrant where
  id : Text
  status : Text
  oauthClientId : Text
  agentId : Text
  scopes : List Text
  deriving DecidableEq

structure OAuthClient where
  active : Bool
  approvalStatus : Text
  deriving DecidableEq

structure User where
  id : Text
  email : Text
  deriving DecidableEq

/-- What is read of other tables: whether the redirect is registered now, the
    consent grant, its client, the agent's status with whether its owner is
    active, the scopes that are in effect, and the user. -/
structure Reads where
  registered : Bool
  grant : Option OAuthClientGrant
  oauthClient : Option OAuthClient
  agent : Option (Text × Bool)
  effectiveScopes : List Text
  user : Option User
  deriving DecidableEq

/-- What is kept of a consent grant. -/
structure GrantLeg where
  grantId : Text
  agentId : Text
  scopes : List Text
  effectiveScopes : List Text
  deriving DecidableEq

inductive ActorType
  | agent
  | user
  deriving DecidableEq

/-- What a token pair is issued for. -/
structure Mint where
  actorId : Text
  actorType : ActorType
  scopes : List Text
  oauthClientId : Option Text
  oauthGrantId : Option Text
  deriving DecidableEq

/-- The claims of an identity token that depend on the exchange. -/
structure IdToken where
  sub : Text
  email : Text
  aud : Text
  nonce : Option Text
  deriving DecidableEq

/-- What is returned beside the tokens. -/
structure Response where
  idToken : Option IdToken
  scopes : List Text
  deriving DecidableEq

/-! ## Checks -/

/-- The row that was found, or the error. -/
def checkCode (row : Option AuthorizationCode) (request : Request) (now : Int) :
    Except Text AuthorizationCode :=
  match row with
  | none => .error "authorization code not found".toList
  | some code =>
      if code.consumedAt.isSome then .error "authorization code already used".toList
      else if code.expiresAt ≤ now then .error "authorization code expired".toList
      else if code.clientId ≠ request.clientId then .error "client_id mismatch".toList
      else if code.redirectUri ≠ request.redirectUri then .error "redirect_uri mismatch".toList
      else .ok code

/-- The redirect is still registered, and the verifier is that of the challenge:
    `_verify_pkce`. -/
def checkProof (s256 : Text → Text) (code : AuthorizationCode) (request : Request)
    (registered : Bool) : Except Text Unit :=
  if registered = false then
    .error "redirect_uri is no longer registered for this client".toList
  else if s256 request.codeVerifier ≠ code.codeChallenge then
    .error "PKCE verification failed".toList
  else .ok ()

/-- The consent grant and all that it depends on. -/
def checkGrant (code : AuthorizationCode) (request : Request) (reads : Reads) :
    Except Text (Option GrantLeg) :=
  match code.grantId with
  | none => .ok none
  | some _ =>
      match reads.grant with
      | none => .error "consent grant is not active".toList
      | some grant =>
          if grant.status ≠ "active".toList then .error "consent grant is not active".toList
          else if grant.oauthClientId ≠ request.clientId then
            .error "consent grant client mismatch".toList
          else if reads.oauthClient.all fun client =>
              !client.active || decide (client.approvalStatus ≠ "approved".toList) then
            .error "issuing OAuth client is not active".toList
          else if reads.agent.all fun agent =>
              decide (agent.1 ≠ "active".toList) || !agent.2 then
            .error "granted agent is not active".toList
          else .ok (some ⟨grant.id, grant.agentId, grant.scopes, reads.effectiveScopes⟩)

/-- The words of a text. -/
def words (s : Text) : List Text := (s.splitOnP Margins.isspace).filter (· ≠ [])

/-- The scopes of a plain code. -/
def userScopes (code : AuthorizationCode) : List Text :=
  if code.scopes = [] then ["openid".toList] else words code.scopes

def mint (code : AuthorizationCode) (request : Request) (leg : Option GrantLeg) (user : User) :
    Mint :=
  match leg with
  | some leg => ⟨leg.agentId, .agent, leg.scopes, request.oauthClientId, some leg.grantId⟩
  | none => ⟨user.id, .user, userScopes code, request.oauthClientId, none⟩

def response (code : AuthorizationCode) (request : Request) (leg : Option GrantLeg)
    (user : User) : Response :=
  match leg with
  | some leg => ⟨none, leg.effectiveScopes⟩
  | none => ⟨some ⟨user.id, user.email, request.clientId, code.nonce⟩, userScopes code⟩

/-! ## Calls -/

/-- How far a call has come: its transaction has begun; the row is found under its
    lock, the proof checked, the row consumed, the grant checked, the user read,
    all this committed; the tokens are being issued, with the attempts that were
    rolled back, and are issued. What has raised has been as far as that. -/
inductive Phase
  | began
  | found (code : AuthorizationCode)
  | proved (code : AuthorizationCode)
  | consumed (code : AuthorizationCode)
  | granted (code : AuthorizationCode) (leg : Option GrantLeg)
  | ready (code : AuthorizationCode) (leg : Option GrantLeg) (user : Option User)
  | committed (code : AuthorizationCode) (leg : Option GrantLeg) (user : Option User)
  | minting (code : AuthorizationCode) (leg : Option GrantLeg) (user : User) (attempt : Nat)
  | issued (code : AuthorizationCode) (leg : Option GrantLeg) (user : User)
  | returned (response : Response)
  | raised (error : Option Text) (after : Phase)
  deriving DecidableEq

/-- How far that is. -/
def Phase.rank : Phase → Nat
  | .began => 0
  | .found _ => 1
  | .proved _ => 2
  | .consumed _ => 3
  | .granted _ _ => 4
  | .ready _ _ _ => 5
  | .committed _ _ _ => 6
  | .minting _ _ _ _ => 7
  | .issued _ _ _ => 8
  | .returned _ => 9
  | .raised _ after => after.rank

/-- The call has ended. -/
def Phase.ended : Phase → Bool
  | .returned _ => true
  | .raised _ _ => true
  | _ => false

/-- The row that an open transaction has. -/
def Phase.code : Phase → Option AuthorizationCode
  | .found code => some code
  | .proved code => some code
  | .consumed code => some code
  | .granted code _ => some code
  | .ready code _ _ => some code
  | _ => none

structure Call where
  request : Request
  /-- The time that is read before the transaction begins. -/
  now : Int
  phase : Phase
  deriving DecidableEq

/-- The committed row of the code, who has its lock, the calls, and the token
    pairs that have been issued, with the calls that issued them. -/
structure State where
  row : Option AuthorizationCode
  holder : Option Nat
  calls : Nat → Option Call
  issued : List (Nat × Mint)

inductive Action
  | begin_ (c : Nat) (request : Request) (now : Int)
  | statement (c : Nat) (reads : Reads)
  /-- The transaction that issues the tokens is rolled back by a transient failure. -/
  | retry (c : Nat)
  | fail (c : Nat)
  deriving DecidableEq

def State.goto (s : State) (c : Nat) (call : Call) (p : Phase) : State :=
  { s with calls := Function.update s.calls c (some { call with phase := p }) }

/-- The lock is given back. -/
def State.unlock (s : State) (c : Nat) : State :=
  { s with holder := if s.holder = some c then none else s.holder }

/-- The call raises: what is open of it is rolled back. -/
def State.raise (s : State) (c : Nat) (call : Call) (error : Option Text) : State :=
  (s.unlock c).goto c call (.raised error call.phase)

/-- The retries of `run_in_transaction`. -/
def retries : Nat := 2

/-- The next step of a call, unless it waits for the lock. -/
def statement (s256 : Text → Text) (s : State) (c : Nat) (call : Call) (reads : Reads) :
    Option State :=
  match call.phase with
  | .began =>
      if s.row.isSome ∧ s.holder.isSome then none
      else
        match checkCode s.row call.request call.now with
        | .error e => some (s.raise c call (some e))
        | .ok code => some ({ s with holder := some c }.goto c call (.found code))
  | .found code =>
      match checkProof s256 code call.request reads.registered with
      | .error e => some (s.raise c call (some e))
      | .ok _ => some (s.goto c call (.proved code))
  | .proved code => some (s.goto c call (.consumed { code with consumedAt := some call.now }))
  | .consumed code =>
      match checkGrant code call.request reads with
      | .error e => some (s.raise c call (some e))
      | .ok leg => some (s.goto c call (.granted code leg))
  | .granted code leg => some (s.goto c call (.ready code leg reads.user))
  | .ready code leg user =>
      some (({ s with row := some code }.unlock c).goto c call (.committed code leg user))
  | .committed code leg user =>
      match user with
      | none => some (s.raise c call (some "user not found".toList))
      | some user => some (s.goto c call (.minting code leg user 0))
  | .minting code leg user _ =>
      some ({ s with issued := (c, mint code call.request leg user) :: s.issued }.goto c call
        (.issued code leg user))
  | .issued code leg user => some (s.goto c call (.returned (response code call.request leg user)))
  | .returned _ => none
  | .raised _ _ => none

def step (s256 : Text → Text) (s : State) : Action → Option State
  | .begin_ c request now =>
      if s.calls c = none then some (s.goto c ⟨request, now, .began⟩ .began) else none
  | .statement c reads => (s.calls c).bind fun call => statement s256 s c call reads
  | .retry c =>
      (s.calls c).bind fun call =>
        match call.phase with
        | .minting code leg user attempt =>
            if attempt < retries then some (s.goto c call (.minting code leg user (attempt + 1)))
            else some (s.raise c call none)
        | _ => none
  | .fail c =>
      (s.calls c).bind fun call =>
        if call.phase.ended then none else some (s.raise c call none)

/-- Runs in which the row is there at the start. -/
def machine (s256 : Text → Text) (code : AuthorizationCode) : Machine State Action where
  start s := s = ⟨some code, none, fun _ => none, []⟩
  step := step s256

/-! ## The law -/

/-- The call presented what the code asks for, before it expired. -/
structure Presented (s256 : Text → Text) (code : AuthorizationCode) (call : Call) : Prop where
  unused : code.consumedAt = none
  before : call.now < code.expiresAt
  client : call.request.clientId = code.clientId
  redirect : call.request.redirectUri = code.redirectUri
  proof : s256 call.request.codeVerifier = code.codeChallenge

/-- What an exchange has to read to go through: a redirect that is registered, a
    grant that holds if the code has one, and a user. -/
structure GoodReads (code : AuthorizationCode) (request : Request) (reads : Reads) : Prop where
  registered : reads.registered = true
  grant : ∃ leg, checkGrant code request reads = .ok leg
  user : reads.user.isSome = true

/-- A new call that presents what the code asks for, and reads what it has to,
    issues tokens. -/
def Usable (s256 : Text → Text) (code : AuthorizationCode) (s : State) : Prop :=
  ∀ c request now reads, s.calls c = none → Presented s256 code ⟨request, now, .began⟩ →
    GoodReads code request reads →
    ∃ s' pair, (machine s256 code).runActions s
      (.begin_ c request now :: List.replicate 8 (.statement c reads)) = some s' ∧
      (c, pair) ∈ s'.issued

/-- What has to be true of every state. -/
structure MintsOnce (s256 : Text → Text) (code : AuthorizationCode) (s : State) : Prop where
  once : s.issued.length ≤ 1
  presented : ∀ x ∈ s.issued, ∃ call, s.calls x.1 = some call ∧ Presented s256 code call
  /-- A call that raises before its commit changes no row and keeps no lock. -/
  traceless : ∀ c a s', step s256 s a = some s' → ∀ call call', s.calls c = some call →
    s'.calls c = some call' → call.phase.ended = false → call'.phase.ended = true →
    call'.phase.rank < 6 → s'.row = s.row ∧ s'.holder ≠ some c ∧ s'.issued = s.issued
  /-- Where every call has ended by raising before its commit, the code is usable. -/
  usable : (∀ c call, s.calls c = some call → call.phase.ended = true ∧ call.phase.rank < 6) →
    Usable s256 code s

/-! ## The invariant -/

section Invariant

variable (s256 : Text → Text) (code : AuthorizationCode)

/-- A call has the lock from the row on to its commit. -/
def Phase.holds (p : Phase) : Prop := 1 ≤ p.rank ∧ p.rank ≤ 5 ∧ p.ended = false

/-- What a call knows, by how far it has come. -/
structure Knows (call : Call) : Prop where
  checked : 1 ≤ call.phase.rank → code.consumedAt = none ∧ call.now < code.expiresAt ∧
    call.request.clientId = code.clientId ∧ call.request.redirectUri = code.redirectUri
  proved : 2 ≤ call.phase.rank → s256 call.request.codeVerifier = code.codeChallenge
  found : ∀ code', call.phase.code = some code' → call.phase.rank ≤ 2 → code' = code
  consumed : ∀ code', call.phase.code = some code' → 3 ≤ call.phase.rank →
    code'.consumedAt = some call.now

structure Inv (s : State) : Prop where
  knows : ∀ c call, s.calls c = some call → Knows s256 code call
  /-- Until a call has committed, the row is as it was; from then on it is consumed. -/
  row : s.row = some code ∨ ∃ c call, s.calls c = some call ∧ 6 ≤ call.phase.rank
  consumed : ∀ c call, s.calls c = some call → 6 ≤ call.phase.rank →
    ∃ code', s.row = some code' ∧ code'.consumedAt.isSome
  holder : ∀ c call, s.calls c = some call → call.phase.holds → s.holder = some c
  held : ∀ c, s.holder = some c → ∃ call, s.calls c = some call ∧ call.phase.holds
  /-- While a call has the lock, the row is as it was. -/
  fresh : ∀ c call, s.calls c = some call → call.phase.holds → s.row = some code
  once : ∀ c call c' call', s.calls c = some call → s.calls c' = some call' →
    6 ≤ call.phase.rank → 6 ≤ call'.phase.rank → c = c'
  issued : s.issued = [] ∨ ∃ c call pair, s.issued = [(c, pair)] ∧ s.calls c = some call ∧
    8 ≤ call.phase.rank

end Invariant

section Steps

variable {s256 : Text → Text} {code : AuthorizationCode} {s s' : State} {c : Nat} {call : Call}
  {p : Phase}

@[simp] theorem goto_row : (s.goto c call p).row = s.row := rfl

@[simp] theorem goto_holder : (s.goto c call p).holder = s.holder := rfl

@[simp] theorem goto_issued : (s.goto c call p).issued = s.issued := rfl

@[simp] theorem goto_self : (s.goto c call p).calls c = some { call with phase := p } :=
  Function.update_self _ _ _

theorem goto_calls {c' : Nat} {call' : Call} (h : (s.goto c call p).calls c' = some call') :
    c' = c ∧ call' = { call with phase := p } ∨ c' ≠ c ∧ s.calls c' = some call' := by
  by_cases hc : c' = c
  · rw [hc, goto_self] at h
    exact .inl ⟨hc, (Option.some.inj h).symm⟩
  · refine .inr ⟨hc, ?_⟩
    rw [State.goto] at h
    dsimp only at h
    rwa [Function.update_of_ne hc] at h

theorem goto_of_ne {c' : Nat} (h : c' ≠ c) : (s.goto c call p).calls c' = s.calls c' :=
  Function.update_of_ne h _ _

theorem not_holds_of_ended (h : p.ended = true) : ¬ p.holds := by
  intro hp
  rw [hp.2.2] at h
  exact absurd h Bool.false_ne_true

/-- A call that goes on without committing: what the others have stays as it is. -/
theorem inv_keep (h : Inv s256 code s) (holder : Option Nat) (issued : List (Nat × Mint))
    (hcall : s.calls c = some call ∨ s.calls c = none ∧ call.phase.rank = 0)
    (hknows : Knows s256 code { call with phase := p })
    (hrank : 6 ≤ p.rank ↔ 6 ≤ call.phase.rank)
    (hother : ∀ c', c' ≠ c → (holder = some c' ↔ s.holder = some c'))
    (hself : holder = some c ↔ p.holds) (hfresh : p.holds → s.row = some code)
    (hissued : issued = s.issued ∧ (8 ≤ call.phase.rank → 8 ≤ p.rank) ∨
      s.issued = [] ∧ ∃ pair, issued = [(c, pair)] ∧ 8 ≤ p.rank) :
    Inv s256 code ({ s with holder := holder, issued := issued }.goto c call p) := by
  have hprev : ∀ call', s.calls c = some call' → call' = call := by
    intro call' hc'
    rcases hcall with hc | ⟨hc, _⟩
    · exact Option.some.inj (hc'.symm.trans hc)
    · rw [hc] at hc'
      exact absurd hc' (by simp only [reduceCtorEq, not_false_eq_true])
  -- A call that has committed had committed before.
  have hbefore : ∀ c' call',
      ({ s with holder := holder, issued := issued }.goto c call p).calls c' = some call' →
      6 ≤ call'.phase.rank → ∃ call₀, s.calls c' = some call₀ ∧ 6 ≤ call₀.phase.rank := by
    intro c' call' hc' hrank'
    rcases goto_calls hc' with ⟨rfl, rfl⟩ | ⟨_, hc'⟩
    · rcases hcall with hc | ⟨_, hzero⟩
      · exact ⟨call, hc, hrank.mp hrank'⟩
      · have hle := hrank.mp hrank'
        omega
    · exact ⟨call', hc', hrank'⟩
  refine ⟨?_, ?_, ?_, ?_, ?_, ?_, ?_, ?_⟩
  · intro c' call' hc'
    rcases goto_calls hc' with ⟨_, rfl⟩ | ⟨_, hc'⟩
    · exact hknows
    · exact h.knows c' call' hc'
  · rcases h.row with hrow | ⟨c', call', hc', hrank'⟩
    · exact .inl hrow
    · by_cases hcc : c' = c
      · rw [hcc] at hc'
        rw [hprev call' hc'] at hrank'
        exact .inr ⟨c, _, goto_self, hrank.mpr hrank'⟩
      · exact .inr ⟨c', call', (goto_of_ne hcc).trans hc', hrank'⟩
  · intro c' call' hc' hrank'
    rcases hbefore c' call' hc' hrank' with ⟨call₀, hc₀, hrank₀⟩
    exact h.consumed c' call₀ hc₀ hrank₀
  · intro c' call' hc' hholds
    rcases goto_calls hc' with ⟨rfl, rfl⟩ | ⟨hne, hc'⟩
    · exact hself.mpr hholds
    · exact (hother c' hne).mpr (h.holder c' call' hc' hholds)
  · intro c' hc'
    by_cases hcc : c' = c
    · rw [hcc] at hc' ⊢
      exact ⟨_, goto_self, hself.mp hc'⟩
    · rcases h.held c' ((hother c' hcc).mp hc') with ⟨call', hcall', hholds⟩
      exact ⟨call', (goto_of_ne hcc).trans hcall', hholds⟩
  · intro c' call' hc' hholds
    rcases goto_calls hc' with ⟨rfl, rfl⟩ | ⟨_, hc'⟩
    · exact hfresh hholds
    · exact h.fresh c' call' hc' hholds
  · intro c₁ call₁ c₂ call₂ hc₁ hc₂ hrank₁ hrank₂
    rcases hbefore c₁ call₁ hc₁ hrank₁ with ⟨before₁, hb₁, hbrank₁⟩
    rcases hbefore c₂ call₂ hc₂ hrank₂ with ⟨before₂, hb₂, hbrank₂⟩
    exact h.once c₁ before₁ c₂ before₂ hb₁ hb₂ hbrank₁ hbrank₂
  · rcases hissued with ⟨hsame, hup⟩ | ⟨_, pair, hpair, hup⟩
    · rcases h.issued with hnone | ⟨c', call', pair, hone, hc', hrank'⟩
      · exact .inl (hsame.trans hnone)
      · by_cases hcc : c' = c
        · rw [hcc] at hone hc'
          rw [hprev call' hc'] at hrank'
          exact .inr ⟨c, _, pair, hsame.trans hone, goto_self, hup hrank'⟩
        · exact .inr ⟨c', call', pair, hsame.trans hone, (goto_of_ne hcc).trans hc', hrank'⟩
    · exact .inr ⟨c, _, pair, hpair, goto_self, hup⟩

/-- A step within what a call has. -/
theorem inv_goto (h : Inv s256 code s) (hcall : s.calls c = some call)
    (hknows : Knows s256 code { call with phase := p })
    (hrank : 6 ≤ p.rank ↔ 6 ≤ call.phase.rank) (hholds : p.holds ↔ call.phase.holds)
    (hissued : 8 ≤ call.phase.rank → 8 ≤ p.rank) : Inv s256 code (s.goto c call p) := by
  refine inv_keep h s.holder s.issued (.inl hcall) hknows hrank
    (fun _ _ => Iff.rfl) ?_ (fun hp => h.fresh c call hcall (hholds.mp hp)) (.inl ⟨rfl, hissued⟩)
  constructor
  · intro hc
    rcases h.held c hc with ⟨call', hc', hp⟩
    rw [Option.some.inj (hc'.symm.trans hcall)] at hp
    exact hholds.mpr hp
  · intro hp
    exact h.holder c call hcall (hholds.mp hp)

/-- What a call knows does not go when it raises. -/
theorem knows_raised (h : Knows s256 code call) (error : Option Text) :
    Knows s256 code { call with phase := .raised error call.phase } where
  checked := h.checked
  proved := h.proved
  found _ hcode := absurd hcode (by simp only [Phase.code, reduceCtorEq, not_false_eq_true])
  consumed _ hcode := absurd hcode (by simp only [Phase.code, reduceCtorEq, not_false_eq_true])

theorem inv_raise (h : Inv s256 code s) (hcall : s.calls c = some call) (error : Option Text) :
    Inv s256 code (s.raise c call error) := by
  refine inv_keep h _ s.issued (.inl hcall) (knows_raised (h.knows c call hcall) error)
    Iff.rfl ?_ ?_ (fun hp => absurd hp (not_holds_of_ended rfl)) (.inl ⟨rfl, id⟩)
  · intro c' hne
    by_cases hc : s.holder = some c
    · rw [if_pos hc, hc]
      exact ⟨fun he => absurd he (by simp only [reduceCtorEq, not_false_eq_true]),
        fun he => absurd (Option.some.inj he).symm hne⟩
    · rw [if_neg hc]
  · refine ⟨fun hc => ?_, fun hp => absurd hp (not_holds_of_ended rfl)⟩
    by_cases hheld : s.holder = some c
    · rw [if_pos hheld] at hc
      exact absurd hc (by simp only [reduceCtorEq, not_false_eq_true])
    · rw [if_neg hheld] at hc
      exact absurd hc hheld

theorem inv_begin (h : Inv s256 code s) (hcall : s.calls c = none) (request : Request)
    (now : Int) : Inv s256 code (s.goto c ⟨request, now, .began⟩ .began) := by
  refine inv_keep h s.holder s.issued (.inr ⟨hcall, rfl⟩) ?_ Iff.rfl
    (fun _ _ => Iff.rfl) ?_ (fun hp => absurd hp.1 (by simp [Phase.rank])) (.inl ⟨rfl, id⟩)
  · exact ⟨fun hle => absurd hle (by simp [Phase.rank]),
      fun hle => absurd hle (by simp [Phase.rank]),
      fun _ hcode => absurd hcode (by simp only [Phase.code, reduceCtorEq, not_false_eq_true]),
      fun _ hcode => absurd hcode (by simp only [Phase.code, reduceCtorEq, not_false_eq_true])⟩
  · refine ⟨fun hc => ?_, fun hp => absurd hp.1 (by simp [Phase.rank])⟩
    rcases h.held c hc with ⟨call', hc', _⟩
    rw [hcall] at hc'
    exact absurd hc' (by simp only [reduceCtorEq, not_false_eq_true])

/-- What the first checks have found. -/
theorem checkCode_ok {row : Option AuthorizationCode} {request : Request} {now : Int}
    {code' : AuthorizationCode} (h : checkCode row request now = .ok code') :
    row = some code' ∧ code'.consumedAt = none ∧ now < code'.expiresAt ∧
      request.clientId = code'.clientId ∧ request.redirectUri = code'.redirectUri := by
  unfold checkCode at h
  cases row with
  | none => exact absurd h (by simp only [reduceCtorEq, not_false_eq_true])
  | some found =>
      dsimp only at h
      split at h
      · exact absurd h (by simp only [reduceCtorEq, not_false_eq_true])
      · next hunused =>
          split at h
          · exact absurd h (by simp only [reduceCtorEq, not_false_eq_true])
          · next hbefore =>
              split at h
              · exact absurd h (by simp only [reduceCtorEq, not_false_eq_true])
              · next hclient =>
                  split at h
                  · exact absurd h (by simp only [reduceCtorEq, not_false_eq_true])
                  · next hredirect =>
                      rw [← Except.ok.inj h]
                      exact ⟨rfl, by simpa using hunused, not_le.mp hbefore,
                        (not_not.mp hclient).symm, (not_not.mp hredirect).symm⟩

theorem checkProof_ok {code' : AuthorizationCode} {request : Request} {registered : Bool} {u : Unit}
    (h : checkProof s256 code' request registered = .ok u) :
    s256 request.codeVerifier = code'.codeChallenge := by
  unfold checkProof at h
  split at h
  · exact absurd h (by simp only [reduceCtorEq, not_false_eq_true])
  · split at h
    · exact absurd h (by simp only [reduceCtorEq, not_false_eq_true])
    · next hproof => exact not_not.mp hproof

/-- The row is found under its lock. -/
theorem inv_lock (h : Inv s256 code s) (hcall : s.calls c = some call)
    (hphase : call.phase = .began) (hfree : s.holder = none) {code' : AuthorizationCode}
    (hcheck : checkCode s.row call.request call.now = .ok code') :
    Inv s256 code ({ s with holder := some c }.goto c call (.found code')) := by
  rcases checkCode_ok hcheck with ⟨hrow, hunused, hbefore, hclient, hredirect⟩
  -- The row has not been consumed, so no call has committed.
  have hcode : s.row = some code := by
    rcases h.row with hcode | ⟨c', call', hc', hrank⟩
    · exact hcode
    · rcases h.consumed c' call' hc' hrank with ⟨code'', hrow', hconsumed⟩
      rw [hrow] at hrow'
      rw [← Option.some.inj hrow', hunused] at hconsumed
      exact absurd hconsumed Bool.false_ne_true
  have heq : code' = code := Option.some.inj (hrow.symm.trans hcode)
  refine inv_keep h _ s.issued (.inl hcall) ?_ ?_ ?_
    ⟨fun _ => ⟨le_refl 1, by simp [Phase.rank], rfl⟩, fun _ => rfl⟩ (fun _ => hcode)
    (.inl ⟨rfl, ?_⟩)
  · refine ⟨fun _ => ?_, fun hle => absurd hle (by simp [Phase.rank]), fun code'' hc _ => ?_,
      fun _ _ hle => absurd hle (by simp [Phase.rank])⟩
    · rw [heq] at hunused hbefore hclient hredirect
      exact ⟨hunused, hbefore, hclient, hredirect⟩
    · exact (Option.some.inj hc).symm.trans heq
  · rw [hphase]
    simp [Phase.rank]
  · intro c' hne
    rw [hfree]
    exact ⟨fun he => absurd (Option.some.inj he).symm hne,
      fun he => absurd he (by simp only [reduceCtorEq, not_false_eq_true])⟩
  · rw [hphase]
    simp [Phase.rank]

/-- What was written is put in the place of the row, which nobody had changed. -/
theorem inv_commit (h : Inv s256 code s) (hcall : s.calls c = some call)
    {code' : AuthorizationCode} {leg : Option GrantLeg} {user : Option User}
    (hphase : call.phase = .ready code' leg user) :
    Inv s256 code (({ s with row := some code' }.unlock c).goto c call
      (.committed code' leg user)) := by
  have hholds : call.phase.holds := by
    rw [hphase]
    exact ⟨by simp [Phase.rank], le_refl 5, rfl⟩
  have hheld := h.holder c call hcall hholds
  have hrow := h.fresh c call hcall hholds
  have hknows := h.knows c call hcall
  have hconsumed : code'.consumedAt = some call.now := by
    refine hknows.consumed code' ?_ ?_
    · rw [hphase]
      rfl
    · rw [hphase]
      simp [Phase.rank]
  have hchecked := hknows.checked hholds.1
  -- No call had committed, since the row was not consumed.
  have hnone : ∀ c' call', s.calls c' = some call' → ¬ 6 ≤ call'.phase.rank := by
    intro c' call' hc' hrank
    rcases h.consumed c' call' hc' hrank with ⟨code'', hrow', hused⟩
    rw [hrow] at hrow'
    rw [← Option.some.inj hrow', hchecked.1] at hused
    exact absurd hused Bool.false_ne_true
  have hunlocked : (if s.holder = some c then none else s.holder) = none := if_pos hheld
  have hothers : ∀ c' call', c' ≠ c → s.calls c' = some call' → ¬ call'.phase.holds := by
    intro c' call' hne hc' hp
    have heq := h.holder c' call' hc' hp
    rw [hheld] at heq
    exact hne (Option.some.inj heq).symm
  refine ⟨?_, .inr ⟨c, _, goto_self, le_refl 6⟩, ?_, ?_, ?_, ?_, ?_, ?_⟩
  · intro c' call' hc'
    rcases goto_calls hc' with ⟨_, rfl⟩ | ⟨_, hc'⟩
    · refine ⟨fun _ => hchecked, fun _ => hknows.proved ?_,
        fun _ hcode => absurd hcode (by simp only [Phase.code, reduceCtorEq, not_false_eq_true]),
        fun _ hcode => absurd hcode (by simp only [Phase.code, reduceCtorEq, not_false_eq_true])⟩
      rw [hphase]
      simp [Phase.rank]
    · exact h.knows c' call' hc'
  · intro c' call' _ _
    refine ⟨code', rfl, ?_⟩
    rw [hconsumed]
    rfl
  · intro c' call' hc' hp
    rcases goto_calls hc' with ⟨_, rfl⟩ | ⟨hne, hc'⟩
    · exact absurd hp.2.1 (by simp [Phase.rank])
    · exact absurd hp (hothers c' call' hne hc')
  · intro c' hc'
    change (if s.holder = some c then none else s.holder) = some c' at hc'
    rw [hunlocked] at hc'
    exact absurd hc' (by simp only [reduceCtorEq, not_false_eq_true])
  · intro c' call' hc' hp
    rcases goto_calls hc' with ⟨_, rfl⟩ | ⟨hne, hc'⟩
    · exact absurd hp.2.1 (by simp [Phase.rank])
    · exact absurd hp (hothers c' call' hne hc')
  · intro c₁ call₁ c₂ call₂ hc₁ hc₂ hrank₁ hrank₂
    rcases goto_calls hc₁ with ⟨rfl, _⟩ | ⟨_, hc₁⟩
    · rcases goto_calls hc₂ with ⟨rfl, _⟩ | ⟨_, hc₂⟩
      · rfl
      · exact absurd hrank₂ (hnone c₂ call₂ hc₂)
    · exact absurd hrank₁ (hnone c₁ call₁ hc₁)
  · rcases h.issued with hissued | ⟨c', call', pair, _, hc', hrank⟩
    · exact .inl hissued
    · exact absurd (le_trans (by decide) hrank) (hnone c' call' hc')

/-- The tokens are issued by the one call that has committed. -/
theorem inv_issue (h : Inv s256 code s) (hcall : s.calls c = some call)
    {code' : AuthorizationCode} {leg : Option GrantLeg} {user : User} {attempt : Nat}
    (hphase : call.phase = .minting code' leg user attempt) (pair : Mint) :
    Inv s256 code ({ s with issued := (c, pair) :: s.issued }.goto c call
      (.issued code' leg user)) := by
  have hrank : call.phase.rank = 7 := by
    rw [hphase]
    rfl
  have hnot : ¬ call.phase.holds := by
    intro hp
    have hle := hp.2.1
    omega
  have hnone : s.issued = [] := by
    rcases h.issued with hnone | ⟨c', call', _, _, hc', hrank'⟩
    · exact hnone
    · have hc := h.once c' call' c call hc' hcall (by omega) (by omega)
      rw [hc] at hc'
      rw [Option.some.inj (hc'.symm.trans hcall)] at hrank'
      omega
  have hknows := h.knows c call hcall
  refine inv_keep h s.holder _ (.inl hcall) ?_ ?_ (fun _ _ => Iff.rfl) ?_ ?_
    (.inr ⟨hnone, pair, by rw [hnone], le_refl 8⟩)
  · exact ⟨fun _ => hknows.checked (by omega), fun _ => hknows.proved (by omega),
      fun _ hcode => absurd hcode (by simp only [Phase.code, reduceCtorEq, not_false_eq_true]),
      fun _ hcode => absurd hcode (by simp only [Phase.code, reduceCtorEq, not_false_eq_true])⟩
  · rw [hrank]
    simp [Phase.rank]
  · refine ⟨fun hc => ?_, fun hp => absurd hp.2.1 (by simp [Phase.rank])⟩
    rcases h.held c hc with ⟨call', hc', hp⟩
    rw [Option.some.inj (hc'.symm.trans hcall)] at hp
    exact absurd hp hnot
  · exact fun hp => absurd hp.2.1 (by simp [Phase.rank])

/-- A read between the row's consumption and the commit. -/
theorem inv_read (h : Inv s256 code s) (hcall : s.calls c = some call)
    (hrank : 3 ≤ call.phase.rank) (hopen : call.phase.holds) (hp : 3 ≤ p.rank) (hholds : p.holds)
    (hcode : p.code = call.phase.code) : Inv s256 code (s.goto c call p) := by
  have hknows := h.knows c call hcall
  have hle := hopen.2.1
  have hple := hholds.2.1
  refine inv_goto h hcall ⟨fun _ => hknows.checked (by omega), fun _ => hknows.proved (by omega),
    fun _ _ hlt => ?_, fun code' hc _ => hknows.consumed code' (hcode ▸ hc) hrank⟩ ?_
    ⟨fun _ => hopen, fun _ => hholds⟩ ?_
  · change p.rank ≤ 2 at hlt
    omega
  · omega
  · omega

/-- A step after the commit. -/
theorem inv_after (h : Inv s256 code s) (hcall : s.calls c = some call)
    (hrank : 6 ≤ call.phase.rank) (hp : call.phase.rank ≤ p.rank) (hcode : p.code = none) :
    Inv s256 code (s.goto c call p) := by
  have hknows := h.knows c call hcall
  refine inv_goto h hcall ⟨fun _ => hknows.checked (by omega), fun _ => hknows.proved (by omega),
    fun code' hc _ => ?_, fun code' hc _ => ?_⟩ ?_ ?_ (fun hle => by omega)
  · change p.code = some code' at hc
    rw [hcode] at hc
    exact absurd hc (by simp only [reduceCtorEq, not_false_eq_true])
  · change p.code = some code' at hc
    rw [hcode] at hc
    exact absurd hc (by simp only [reduceCtorEq, not_false_eq_true])
  · omega
  · constructor
    · intro hholds
      have hle := hholds.2.1
      omega
    · intro hholds
      have hle := hholds.2.1
      omega

/-- The next step of a call, by how far it has come. -/
theorem inv_statement (h : Inv s256 code s) (hcall : s.calls c = some call) {reads : Reads}
    (hstep : statement s256 s c call reads = some s') : Inv s256 code s' := by
  have hknows := h.knows c call hcall
  unfold statement at hstep
  cases hphase : call.phase with
  | began =>
      rw [hphase] at hstep
      dsimp only at hstep
      split at hstep
      · exact absurd hstep (by simp only [reduceCtorEq, not_false_eq_true])
      · next hwait =>
          split at hstep
          · rw [← Option.some.inj hstep]
            exact inv_raise h hcall _
          · next code' hcheck =>
              rw [← Option.some.inj hstep]
              refine inv_lock h hcall hphase ?_ hcheck
              by_contra hheld
              refine hwait ⟨?_, Option.isSome_iff_ne_none.mpr hheld⟩
              rw [(checkCode_ok hcheck).1]
              rfl
  | found code' =>
      rw [hphase] at hstep
      dsimp only at hstep
      split at hstep
      · rw [← Option.some.inj hstep]
        exact inv_raise h hcall _
      · next hcheck =>
          rw [← Option.some.inj hstep]
          have hcode : code' = code := by
            refine hknows.found code' ?_ ?_ <;> rw [hphase]
            · rfl
            · simp [Phase.rank]
          have hchecked : 1 ≤ call.phase.rank := by
            rw [hphase]
            simp [Phase.rank]
          refine inv_goto h hcall ⟨fun _ => hknows.checked hchecked, fun _ => ?_,
            fun code'' hc _ => ?_, fun _ _ hle => absurd hle ?_⟩ ?_ ?_ ?_
          · rw [checkProof_ok hcheck, hcode]
          · exact (Option.some.inj hc).symm.trans hcode
          · simp [Phase.rank]
          · rw [hphase]
            simp [Phase.rank]
          · rw [hphase]
            simp [Phase.holds, Phase.rank, Phase.ended]
          · rw [hphase]
            simp [Phase.rank]
  | proved code' =>
      rw [hphase] at hstep
      rw [← Option.some.inj hstep]
      refine inv_goto h hcall ⟨fun _ => hknows.checked ?_, fun _ => hknows.proved ?_,
        fun _ _ hle => absurd hle ?_, fun code'' hcode _ => ?_⟩ ?_ ?_ ?_
      · rw [hphase]
        simp [Phase.rank]
      · rw [hphase]
        simp [Phase.rank]
      · simp [Phase.rank]
      · rw [← Option.some.inj hcode]
      · rw [hphase]
        simp [Phase.rank]
      · rw [hphase]
        simp [Phase.holds, Phase.rank, Phase.ended]
      · rw [hphase]
        simp [Phase.rank]
  | consumed code' =>
      rw [hphase] at hstep
      dsimp only at hstep
      split at hstep
      · rw [← Option.some.inj hstep]
        exact inv_raise h hcall _
      · rw [← Option.some.inj hstep]
        have hopen : call.phase.holds ∧ 3 ≤ call.phase.rank := by
          rw [hphase]
          simp [Phase.holds, Phase.rank, Phase.ended]
        refine inv_read h hcall hopen.2 hopen.1 ?_ ?_ ?_
        · simp [Phase.rank]
        · simp [Phase.holds, Phase.rank, Phase.ended]
        · rw [hphase]
          rfl
  | granted code' leg =>
      rw [hphase] at hstep
      rw [← Option.some.inj hstep]
      have hopen : call.phase.holds ∧ 3 ≤ call.phase.rank := by
        rw [hphase]
        simp [Phase.holds, Phase.rank, Phase.ended]
      refine inv_read h hcall hopen.2 hopen.1 ?_ ?_ ?_
      · simp [Phase.rank]
      · simp [Phase.holds, Phase.rank, Phase.ended]
      · rw [hphase]
        rfl
  | ready code' leg user =>
      rw [hphase] at hstep
      rw [← Option.some.inj hstep]
      exact inv_commit h hcall hphase
  | committed code' leg user =>
      rw [hphase] at hstep
      dsimp only at hstep
      split at hstep
      · rw [← Option.some.inj hstep]
        exact inv_raise h hcall _
      · rw [← Option.some.inj hstep]
        refine inv_after h hcall ?_ ?_ rfl <;> rw [hphase] <;> simp [Phase.rank]
  | minting code' leg user attempt =>
      rw [hphase] at hstep
      rw [← Option.some.inj hstep]
      exact inv_issue h hcall hphase _
  | issued code' leg user =>
      rw [hphase] at hstep
      rw [← Option.some.inj hstep]
      refine inv_after h hcall ?_ ?_ rfl <;> rw [hphase] <;> simp [Phase.rank]
  | returned r =>
      rw [hphase] at hstep
      exact absurd hstep (by simp only [reduceCtorEq, not_false_eq_true])
  | raised e after =>
      rw [hphase] at hstep
      exact absurd hstep (by simp only [reduceCtorEq, not_false_eq_true])

theorem inv_step (h : Inv s256 code s) {a : Action} (hstep : step s256 s a = some s') :
    Inv s256 code s' := by
  cases a with
  | begin_ c request now =>
      rw [step] at hstep
      split at hstep
      · next hnone =>
          rw [← Option.some.inj hstep]
          exact inv_begin h hnone request now
      · exact absurd hstep (by simp only [reduceCtorEq, not_false_eq_true])
  | statement c reads =>
      rcases Option.bind_eq_some_iff.mp hstep with ⟨call, hcall, hstatement⟩
      exact inv_statement h hcall hstatement
  | retry c =>
      rcases Option.bind_eq_some_iff.mp hstep with ⟨call, hcall, hretry⟩
      split at hretry
      · next code' leg user attempt hphase =>
          split at hretry
          · rw [← Option.some.inj hretry]
            refine inv_after h hcall ?_ ?_ rfl <;> rw [hphase] <;> simp [Phase.rank]
          · rw [← Option.some.inj hretry]
            exact inv_raise h hcall _
      · exact absurd hretry (by simp only [reduceCtorEq, not_false_eq_true])
  | fail c =>
      rcases Option.bind_eq_some_iff.mp hstep with ⟨call, hcall, hfail⟩
      split at hfail
      · exact absurd hfail (by simp only [reduceCtorEq, not_false_eq_true])
      · rw [← Option.some.inj hfail]
        exact inv_raise h hcall _

theorem inv_start (h : (machine s256 code).start s) : Inv s256 code s := by
  have hs : s = ⟨some code, none, fun _ => none, []⟩ := h
  have hnone : ∀ {c call}, s.calls c ≠ some call := by
    intro c call hc
    rw [hs] at hc
    exact absurd hc (by simp only [reduceCtorEq, not_false_eq_true])
  refine ⟨fun _ _ hc => absurd hc hnone, .inl (by rw [hs]), fun _ _ hc => absurd hc hnone,
    fun _ _ hc => absurd hc hnone, fun c hc => ?_, fun _ _ hc => absurd hc hnone,
    fun _ _ _ _ hc => absurd hc hnone, .inl (by rw [hs])⟩
  rw [hs] at hc
  exact absurd hc (by simp only [reduceCtorEq, not_false_eq_true])

theorem inv_reachable (h : (machine s256 code).Reachable s) : Inv s256 code s :=
  Machine.reachable_invariant (fun _ hs => inv_start hs) (fun _ _ _ hi hs => inv_step hi hs) h

/-! ## What a call leaves when it raises -/

theorem raise_holder {error : Option Text} : (s.raise c call error).holder ≠ some c := by
  change (if s.holder = some c then none else s.holder) ≠ some c
  split
  · exact fun he => absurd he (by simp only [reduceCtorEq, not_false_eq_true])
  · next hne => exact hne

/-- A statement raises, or the call goes on, or it has committed. -/
theorem statement_cases {reads : Reads} (h : statement s256 s c call reads = some s') :
    (∃ error, s' = s.raise c call error) ∨
      ∃ t p, s' = State.goto t c call p ∧ t.calls = s.calls ∧ (p.ended = false ∨ 6 ≤ p.rank) := by
  unfold statement at h
  split at h
  · split at h
    · exact absurd h (by simp only [reduceCtorEq, not_false_eq_true])
    · split at h
      · exact .inl ⟨_, (Option.some.inj h).symm⟩
      · exact .inr ⟨_, _, (Option.some.inj h).symm, rfl, .inl rfl⟩
  · split at h
    · exact .inl ⟨_, (Option.some.inj h).symm⟩
    · exact .inr ⟨_, _, (Option.some.inj h).symm, rfl, .inl rfl⟩
  · exact .inr ⟨_, _, (Option.some.inj h).symm, rfl, .inl rfl⟩
  · split at h
    · exact .inl ⟨_, (Option.some.inj h).symm⟩
    · exact .inr ⟨_, _, (Option.some.inj h).symm, rfl, .inl rfl⟩
  · exact .inr ⟨_, _, (Option.some.inj h).symm, rfl, .inl rfl⟩
  · exact .inr ⟨_, _, (Option.some.inj h).symm, rfl, .inl rfl⟩
  · split at h
    · exact .inl ⟨_, (Option.some.inj h).symm⟩
    · exact .inr ⟨_, _, (Option.some.inj h).symm, rfl, .inl rfl⟩
  · exact .inr ⟨_, _, (Option.some.inj h).symm, rfl, .inl rfl⟩
  · exact .inr ⟨_, _, (Option.some.inj h).symm, rfl, .inr (by simp [Phase.rank])⟩
  · exact absurd h (by simp only [reduceCtorEq, not_false_eq_true])
  · exact absurd h (by simp only [reduceCtorEq, not_false_eq_true])

/-- So does a step. -/
theorem step_cases {a : Action} (h : step s256 s a = some s') :
    ∃ c call, (∃ error, s' = s.raise c call error) ∨
      ∃ t p, s' = State.goto t c call p ∧ t.calls = s.calls ∧ (p.ended = false ∨ 6 ≤ p.rank) := by
  cases a with
  | begin_ c request now =>
      rw [step] at h
      split at h
      · exact ⟨c, _, .inr ⟨_, _, (Option.some.inj h).symm, rfl, .inl rfl⟩⟩
      · exact absurd h (by simp only [reduceCtorEq, not_false_eq_true])
  | statement c reads =>
      rcases Option.bind_eq_some_iff.mp h with ⟨call, _, hstatement⟩
      exact ⟨c, call, statement_cases hstatement⟩
  | retry c =>
      rcases Option.bind_eq_some_iff.mp h with ⟨call, _, hretry⟩
      split at hretry
      · split at hretry
        · exact ⟨c, call, .inr ⟨_, _, (Option.some.inj hretry).symm, rfl, .inl rfl⟩⟩
        · exact ⟨c, call, .inl ⟨_, (Option.some.inj hretry).symm⟩⟩
      · exact absurd hretry (by simp only [reduceCtorEq, not_false_eq_true])
  | fail c =>
      rcases Option.bind_eq_some_iff.mp h with ⟨call, _, hfail⟩
      split at hfail
      · exact absurd hfail (by simp only [reduceCtorEq, not_false_eq_true])
      · exact ⟨c, call, .inl ⟨_, (Option.some.inj hfail).symm⟩⟩

/-- A call that ends before its commit has raised, and has left no trace. -/
theorem traceless_of_step {a : Action} (h : step s256 s a = some s') {call' : Call}
    (hcall : s.calls c = some call) (hcall' : s'.calls c = some call')
    (hopen : call.phase.ended = false) (hended : call'.phase.ended = true)
    (hbefore : call'.phase.rank < 6) :
    s'.row = s.row ∧ s'.holder ≠ some c ∧ s'.issued = s.issued := by
  have hmoved : ∀ {t : State} {c' : Nat} {call₀ : Call} {p : Phase}, t.calls = s.calls →
      (t.goto c' call₀ p).calls c = some call' → c = c' ∧ call'.phase = p := by
    intro t c' call₀ p ht hgoto
    rcases goto_calls hgoto with ⟨hc, rfl⟩ | ⟨_, hsame⟩
    · exact ⟨hc, rfl⟩
    · rw [ht, hcall] at hsame
      rw [Option.some.inj hsame, hended] at hopen
      exact absurd hopen (by decide)
  rcases step_cases h with ⟨c', call₀, ⟨error, rfl⟩ | ⟨t, p, rfl, ht, hp⟩⟩
  · rw [(hmoved (t := s.unlock c') rfl hcall').1]
    exact ⟨rfl, raise_holder, rfl⟩
  · have hphase := (hmoved ht hcall').2
    rw [hphase] at hended hbefore
    rcases hp with hp | hp
    · rw [hended] at hp
      exact absurd hp (by decide)
    · omega

/-! ## A code that is still usable -/

/-- A statement of a run. -/
theorem run_statement (s256 : Text → Text) (code : AuthorizationCode) (reads : Reads) {t : State}
    (hcall : s.calls c = some call)
    (hs : statement s256 s c call reads = some (t.goto c call p)) :
    (∀ acts, (machine s256 code).runActions s (.statement c reads :: acts) =
      (machine s256 code).runActions (t.goto c call p) acts) ∧
      (t.goto c call p).calls c = some { call with phase := p } := by
  refine ⟨fun acts => ?_, goto_self⟩
  have hstep : (machine s256 code).step s (.statement c reads) = some (t.goto c call p) := by
    change (s.calls c).bind _ = _
    rw [hcall]
    exact hs
  rw [Machine.runActions_cons, hstep, Option.bind_some]

/-- A code that is neither consumed nor locked is exchanged by a call that
    presents what it asks for. -/
theorem usable_of_unlocked (hrow : s.row = some code) (hholder : s.holder = none) :
    Usable s256 code s := by
  intro c request now reads hnone hpresented hreads
  rcases hreads.grant with ⟨leg, hleg⟩
  rcases Option.isSome_iff_exists.mp hreads.user with ⟨user, huser⟩
  obtain ⟨call, hcall⟩ : ∃ call : Call, call = ⟨request, now, .began⟩ := ⟨_, rfl⟩
  obtain ⟨used, hused⟩ : ∃ used : AuthorizationCode,
    used = { code with consumedAt := some now } := ⟨_, rfl⟩
  have hcheck : checkCode (s.goto c call .began).row request now = .ok code := by
    rw [goto_row, hrow]
    unfold checkCode
    dsimp only
    rw [if_neg (by rw [hpresented.unused]; exact Bool.false_ne_true),
      if_neg (not_le.mpr hpresented.before), if_neg (not_not.mpr hpresented.client.symm),
      if_neg (not_not.mpr hpresented.redirect.symm)]
  have hproof : checkProof s256 code request reads.registered = .ok () := by
    unfold checkProof
    rw [hreads.registered, if_neg (by decide), if_neg (not_not.mpr hpresented.proof)]
  have hgrant : checkGrant used request reads = .ok leg := by
    rw [hused]
    exact hleg
  have hbegin : (machine s256 code).step s (.begin_ c request now) =
      some (s.goto c call .began) := by
    rw [hcall]
    exact if_pos hnone
  have hat : (s.goto c call .began).calls c = some call := by
    rw [hcall]
    exact goto_self
  have hfree : ¬ ((s.goto c call .began).row.isSome ∧ (s.goto c call .began).holder.isSome) := by
    rw [goto_holder, hholder]
    exact fun hwait => absurd hwait.2 Bool.false_ne_true
  rw [hcall] at hat hfree hcheck
  rcases run_statement s256 code reads hat (by
    rw [statement]
    dsimp only
    rw [if_neg hfree, hcheck]) with ⟨hrun₁, hat₁⟩
  rcases run_statement s256 code reads hat₁ (by
    rw [statement]
    dsimp only
    rw [hproof]) with ⟨hrun₂, hat₂⟩
  rcases run_statement s256 code reads hat₂ rfl with ⟨hrun₃, hat₃⟩
  rcases run_statement s256 code reads hat₃ (by
    rw [statement]
    dsimp only
    rw [← hused, hgrant]) with ⟨hrun₄, hat₄⟩
  rcases run_statement s256 code reads hat₄ rfl with ⟨hrun₅, hat₅⟩
  rcases run_statement s256 code reads hat₅ rfl with ⟨hrun₆, hat₆⟩
  rcases run_statement s256 code reads hat₆ (by
    rw [statement]
    dsimp only
    rw [huser]) with ⟨hrun₇, hat₇⟩
  rcases run_statement s256 code reads hat₇ rfl with ⟨hrun₈, _⟩
  refine ⟨_, mint used request leg user, Eq.trans ?_ (hrun₈ []), List.mem_cons_self⟩
  rw [Machine.runActions_cons, hbegin, Option.bind_some, hcall, List.replicate_succ, hrun₁]
  rw [List.replicate_succ, hrun₂, List.replicate_succ, hrun₃, List.replicate_succ, hrun₄]
  rw [List.replicate_succ, hrun₅, List.replicate_succ, hrun₆, List.replicate_succ, hrun₇]
  rfl

end Steps

variable {s256 : Text → Text} {code : AuthorizationCode} {s : State}

/-- **An authorization code mints once.** Whatever the order of the calls' steps, and
    wherever they fail: at most one call issues a token pair; it presented the
    code's client, redirect and verifier before the code expired; a call that
    raises before its commit changes no row and keeps no lock; and while no call
    has done more than that, a new call exchanges the code. -/
theorem mintsOnce (h : (machine s256 code).Reachable s) : MintsOnce s256 code s := by
  have hinv := inv_reachable h
  refine ⟨?_, fun x hx => ?_, fun c a s' hstep call call' hcall hcall' hopen hended hbefore =>
    traceless_of_step hstep hcall hcall' hopen hended hbefore, fun hall => ?_⟩
  · rcases hinv.issued with hnone | ⟨c, call, pair, hone, _, _⟩
    · rw [hnone]
      exact Nat.zero_le 1
    · rw [hone]
      exact le_refl 1
  · rcases hinv.issued with hnone | ⟨c, call, pair, hone, hcall, hrank⟩
    · rw [hnone] at hx
      exact absurd hx List.not_mem_nil
    · rw [hone] at hx
      rw [List.mem_singleton.mp hx]
      have hknows := hinv.knows c call hcall
      rcases hknows.checked (by omega) with ⟨hunused, hbefore, hclient, hredirect⟩
      exact ⟨call, hcall, hunused, hbefore, hclient, hredirect, hknows.proved (by omega)⟩
  · refine usable_of_unlocked ?_ ?_
    · rcases hinv.row with hrow | ⟨c, call, hcall, hrank⟩
      · exact hrow
      · have hlt := (hall c call hcall).2
        omega
    · by_contra hheld
      rcases Option.ne_none_iff_exists'.mp hheld with ⟨c, hc⟩
      rcases hinv.held c hc with ⟨call, hcall, hholds⟩
      exact not_holds_of_ended (hall c call hcall).1 hholds

section Examples

def verifier : Text := "dBjftJeZ4CVP-mB92K27uhbUJU1p1r_wW1gFWFOEjXk".toList

def challenge : Text := "E9Melhoa2OwvFrEMTJguCHaoeK1t8URWbuGJSstw-cM".toList

/-- The challenge of the one verifier. -/
def knownS256 (v : Text) : Text := if v = verifier then challenge else []

/-- A code without a consent grant. -/
def plainCode : AuthorizationCode where
  id := "acd_1".toList
  userId := "usr_1".toList
  clientId := "app".toList
  redirectUri := "https://app/cb".toList
  codeChallenge := challenge
  scopes := "openid".toList
  nonce := none
  grantId := none
  consumedAt := none
  expiresAt := 600

def request (v : Text) : Request := ⟨v, "https://app/cb".toList, "app".toList, none⟩

def reads : Reads :=
  ⟨true, none, none, none, [], some ⟨"usr_1".toList, "a@b.c".toList⟩⟩

/-- A call with another verifier raises, and one with the verifier waits for the
    lock and issues the tokens. -/
def twoCalls : List Action :=
  [.begin_ 0 (request "guess".toList) 5, .begin_ 1 (request verifier) 6, .statement 0 reads,
    .statement 0 reads] ++ List.replicate 8 (.statement 1 reads)

end Examples

theorem mintsOnce_twoCalls :
    ∃ s, (machine knownS256 plainCode).runActions ⟨some plainCode, none, fun _ => none, []⟩
        twoCalls = some s ∧
      s.issued = [(1, ⟨"usr_1".toList, .user, ["openid".toList], none, none⟩)] ∧
      MintsOnce knownS256 plainCode s := by
  have hrun : (machine knownS256 plainCode).runActions ⟨some plainCode, none, fun _ => none, []⟩
      twoCalls = some _ := rfl
  refine ⟨_, hrun, ?_, mintsOnce (Machine.reachable_runActions (.start _ rfl) hrun)⟩
  rfl

end CodeExchange

end Auth

end JenticOne
