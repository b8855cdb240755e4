import JenticOne.Library.Machine

/-!
# Token Refresh

A credential's OAuth grant is one row of tokens. A call that needs an access
token has read the row at some earlier time. If the token that it read is fresh
it uses that. Otherwise it takes the credential's lock, reads the row again, and
uses the row's token where that is fresh or has been written since; only if it is
neither does the call send the row's refresh token to the vendor, and what the
vendor answers is stored and committed before the lock is given back.

A row that is missing or revoked has no grant. The call fails then, unless the
credential's provider keeps no row and mints from a reference to the account.

A reconnect exchanges its code with the vendor first, and takes the lock to store
the grant that it has been issued. A revocation takes the lock to drop the row or
to mark it.

A call that waits for the lock changes nothing, so that here it comes into a run
with its check of what it has read, at whatever time that was, and is there when
it gets the lock.

## Main definitions

* `TokenRow`, `Resolved`: The row, and what a call has read of it.
* `State`: The row, the call that has the lock, and what the vendor has done.
* `step`: One step of a call, a reconnect, a revocation or the vendor.
* `sentToken`, `requests`, `returned`: What a step sends and gives back.

## Theorems

* `step_answer`, `step_commit`, `step_store`: What a step can do.
* `reread_spec`, `request_eq_some`: What a call goes on with, and sends.
-/

namespace JenticOne

namespace Credentials

namespace Refresh

/-- A token under a nonce. -/
structure Cipher where
  nonce : Nat
  plain : Nat
  deriving DecidableEq

/-- The row of the grant. -/
structure TokenRow where
  encryptedAccessToken : Cipher
  encryptedRefreshToken : Option Cipher
  expiresAt : Option Int
  revoked : Bool
  deriving DecidableEq

/-- What a call knows of the credential. -/
structure Resolved where
  encryptedAccessToken : Option Cipher
  encryptedRefreshToken : Option Cipher
  tokenExpiresAt : Option Int
  /-- There is a reference to the account. -/
  providerAccountRef : Bool
  /-- The provider mints from it, and sends no refresh token. -/
  mintsFromAccountRef : Bool
  deriving DecidableEq

/-- What the vendor has issued. -/
structure RefreshResult where
  accessToken : Nat
  refreshToken : Option Nat
  expiresAt : Option Int
  deriving DecidableEq

/-- How far the call with the lock has come. -/
inductive Phase
  /-- The row is to be read again. -/
  | locked
  /-- The provider is to be called. -/
  | refreshing
  /-- A refresh token is on its way to the vendor, or the account reference. -/
  | sent (token : Option Nat)
  /-- The answer is to be stored. -/
  | answered (result : RefreshResult)
  deriving DecidableEq

/-- The call that has the lock. -/
structure Call where
  resolved : Resolved
  skew : Int
  phase : Phase
  deriving DecidableEq

structure State where
  /-- The row as last committed. -/
  row : Option TokenRow
  /-- The call that has the credential's lock. -/
  holder : Option Call
  /-- The grants that reconnects have been issued and not stored. -/
  exchanged : List RefreshResult
  /-- The refresh tokens that the vendor has refreshed with. -/
  spent : List Nat
  /-- Those of them whose answer has been received. -/
  answered : List Nat
  /-- The access and refresh tokens that the vendor issues next. -/
  nextAccess : Nat
  nextRefresh : Nat
  deriving DecidableEq

/-! ## Freshness -/

/-- `_is_fresh`. -/
def isFresh (expiresAt : Option Int) (skew now : Int) : Bool :=
  expiresAt.all fun expiresAt => now < expiresAt - skew

/-- `_is_valid`. -/
def isValid (resolved : Resolved) (skew now : Int) : Bool :=
  resolved.encryptedAccessToken.isSome && isFresh resolved.tokenExpiresAt skew now

/-- The row's token is used: it is fresh, or it has been written since the call
    read the row and has not expired. -/
def rowUsable (row : TokenRow) (resolved : Resolved) (skew now : Int) : Bool :=
  isFresh row.expiresAt skew now ||
    (some row.encryptedAccessToken ≠ resolved.encryptedAccessToken &&
      row.expiresAt.all fun expiresAt => now < expiresAt)

/-! ## Writes -/

/-- `encrypt`. -/
def encrypt (nonce token : Nat) : Cipher := ⟨nonce, token⟩

/-- `update_tokens`. -/
def updateTokens (row : TokenRow) (result : RefreshResult) (nonce : Nat) : TokenRow where
  encryptedAccessToken := encrypt nonce result.accessToken
  encryptedRefreshToken :=
    (result.refreshToken.map (encrypt (nonce + 1))).or row.encryptedRefreshToken
  expiresAt := result.expiresAt
  revoked := false

/-- `create`. -/
def createTokens (result : RefreshResult) (nonce : Nat) : TokenRow where
  encryptedAccessToken := encrypt nonce result.accessToken
  encryptedRefreshToken := result.refreshToken.map (encrypt (nonce + 1))
  expiresAt := result.expiresAt
  revoked := false

/-! ## Steps -/

inductive Action
  /-- A call uses what it has read. -/
  | useOwn (resolved : Resolved) (skew now : Int)
  /-- A call cannot, and has taken the lock. -/
  | lock (resolved : Resolved) (skew now : Int)
  /-- It reads the row again. -/
  | reread (now : Int)
  /-- The provider is called. -/
  | send
  /-- The vendor answers with new tokens. -/
  | answer (expiresAt : Option Int)
  /-- The vendor refuses, or is not reached. -/
  | refuse
  /-- The vendor refreshes, and its answer is not received. -/
  | loseAnswer
  /-- The answer is stored and committed. -/
  | commit (nonce : Nat)
  /-- A reconnect exchanges its code. -/
  | exchangeCode (refresh : Bool) (expiresAt : Option Int)
  /-- A reconnect stores its grant, or discards it. -/
  | storeGrant (i nonce : Nat)
  | discardGrant (i : Nat)
  /-- The row is dropped, or marked. -/
  | revoke (drop : Bool)

/-- The lock is given back. -/
def State.release (s : State) : State := { s with holder := none }

/-- The row under the lock has a grant to refresh, or none is needed. -/
def reread (row : Option TokenRow) (call : Call) (now : Int) : Option Call :=
  match row with
  | none =>
    if call.resolved.providerAccountRef && call.resolved.mintsFromAccountRef then
      some { call with
        resolved := { call.resolved with
          encryptedAccessToken := none, encryptedRefreshToken := none, tokenExpiresAt := none }
        phase := .refreshing }
    else none
  | some row =>
    if row.revoked || rowUsable row call.resolved call.skew now then none
    else some { call with
      resolved := { call.resolved with
        encryptedAccessToken := some row.encryptedAccessToken
        encryptedRefreshToken := row.encryptedRefreshToken
        tokenExpiresAt := row.expiresAt }
      phase := .refreshing }

/-- `_do_refresh`, up to the vendor: the refresh token, or `some none` for the
    account reference, or `none` where there is neither. -/
def request (resolved : Resolved) : Option (Option Nat) :=
  if resolved.mintsFromAccountRef then
    if resolved.providerAccountRef then some none else none
  else resolved.encryptedRefreshToken.map fun c => some c.plain

/-- The tokens that the vendor issues next. -/
def State.issue (s : State) (refresh : Bool) (expiresAt : Option Int) : RefreshResult where
  accessToken := s.nextAccess
  refreshToken := if refresh then some s.nextRefresh else none
  expiresAt := expiresAt

/-- The vendor has issued them. -/
def State.issued (s : State) (refresh : Bool) : State :=
  { s with
    nextAccess := s.nextAccess + 1
    nextRefresh := if refresh then s.nextRefresh + 1 else s.nextRefresh }

/-- One step. A vendor rotates refresh tokens, and refreshes with each once. -/
def step (s : State) : Action → Option State
  | .useOwn resolved skew now => if isValid resolved skew now then some s else none
  | .lock resolved skew now =>
    if s.holder = none ∧ isValid resolved skew now = false then
      some { s with holder := some ⟨resolved, skew, .locked⟩ }
    else none
  | .reread now => do
    let call ← s.holder
    if call.phase = .locked then some { s with holder := reread s.row call now } else none
  | .send => do
    let call ← s.holder
    if call.phase = .refreshing then
      some { s with holder := (request call.resolved).map fun t => { call with phase := .sent t } }
    else none
  | .answer expiresAt => do
    let call ← s.holder
    match call.phase with
    | .sent token =>
      if token.all (· ∉ s.spent) then
        some { s.issued token.isSome with
          holder := some { call with phase := .answered (s.issue token.isSome expiresAt) }
          spent := token.toList ++ s.spent
          answered := token.toList ++ s.answered }
      else none
    | _ => none
  | .refuse => do
    let call ← s.holder
    match call.phase with
    | .sent _ => some s.release
    | _ => none
  | .loseAnswer => do
    let call ← s.holder
    match call.phase with
    | .sent token =>
      if token.all (· ∉ s.spent) then
        some { (s.issued token.isSome).release with spent := token.toList ++ s.spent }
      else none
    | _ => none
  | .commit nonce => do
    let call ← s.holder
    match call.phase with
    | .answered result =>
      some { s with row := s.row.map (updateTokens · result nonce), holder := none }
    | _ => none
  | .exchangeCode refresh expiresAt =>
    some { s.issued refresh with exchanged := s.exchanged ++ [s.issue refresh expiresAt] }
  | .storeGrant i nonce => do
    let grant ← s.exchanged[i]?
    if s.holder = none then
      some { s with
        row := some ((s.row.map (updateTokens · grant nonce)).getD (createTokens grant nonce))
        exchanged := s.exchanged.eraseIdx i }
    else none
  | .discardGrant i => some { s with exchanged := s.exchanged.eraseIdx i }
  | .revoke drop =>
    if s.holder = none then
      some { s with row := if drop then none else s.row.map fun row => { row with revoked := true } }
    else none

/-- The calls of any processes on one credential, which may have a row with the
    last tokens that were issued. -/
def machine : Machine State Action where
  start s := s.holder = none ∧ s.exchanged = [] ∧ s.spent = [] ∧ s.answered = [] ∧
    (∀ row, s.row = some row → row.encryptedAccessToken.plain + 1 = s.nextAccess ∧
      ∀ c, row.encryptedRefreshToken = some c → c.plain < s.nextRefresh)
  step := step

/-! ## What a step sends and gives back -/

/-- The vendor is called. -/
def requests (s : State) : Action → Option (Option Nat)
  | .send => s.holder.bind fun call =>
    if call.phase = .refreshing then request call.resolved else none
  | _ => none

/-- The refresh token that is sent. -/
def sentToken (s : State) (a : Action) : Option Nat := (requests s a).join

/-- The access token that a call returns. -/
def returned (s : State) : Action → Option Nat
  | .useOwn resolved _ _ => resolved.encryptedAccessToken.map Cipher.plain
  | .reread now => s.holder.bind fun call =>
    s.row.bind fun row =>
      if !row.revoked && rowUsable row call.resolved call.skew now then
        some row.encryptedAccessToken.plain
      else none
  | .commit _ => s.holder.bind fun call =>
    match call.phase with
    | .answered result => some result.accessToken
    | _ => none
  | _ => none

/-! ## What a step does -/

variable {s s' : State}

theorem step_lock {resolved : Resolved} {skew now : Int}
    (h : step s (.lock resolved skew now) = some s') :
    s.holder = none ∧ s' = { s with holder := some ⟨resolved, skew, .locked⟩ } := by
  obtain ⟨hif, h⟩ := Option.ite_none_right_eq_some.mp h
  exact ⟨hif.1, (Option.some.inj h).symm⟩

theorem step_reread {now : Int} (h : step s (.reread now) = some s') :
    ∃ call, s.holder = some call ∧ call.phase = .locked ∧
      s' = { s with holder := reread s.row call now } := by
  obtain ⟨call, hcall, h⟩ := Option.bind_eq_some_iff.mp h
  obtain ⟨hif, h⟩ := Option.ite_none_right_eq_some.mp h
  exact ⟨call, hcall, hif, (Option.some.inj h).symm⟩

theorem step_send (h : step s .send = some s') :
    ∃ call, s.holder = some call ∧ call.phase = .refreshing ∧
      s' = { s with
        holder := (request call.resolved).map fun t => { call with phase := .sent t } } := by
  obtain ⟨call, hcall, h⟩ := Option.bind_eq_some_iff.mp h
  obtain ⟨hif, h⟩ := Option.ite_none_right_eq_some.mp h
  exact ⟨call, hcall, hif, (Option.some.inj h).symm⟩

theorem step_answer {expiresAt : Option Int} (h : step s (.answer expiresAt) = some s') :
    ∃ call token, s.holder = some call ∧ call.phase = .sent token ∧
      s' = { s.issued token.isSome with
        holder := some { call with phase := .answered (s.issue token.isSome expiresAt) }
        spent := token.toList ++ s.spent
        answered := token.toList ++ s.answered } := by
  obtain ⟨call, hcall, h⟩ := Option.bind_eq_some_iff.mp h
  split at h
  · next token hphase =>
      obtain ⟨-, h⟩ := Option.ite_none_right_eq_some.mp h
      exact ⟨call, token, hcall, hphase, (Option.some.inj h).symm⟩
  · exact absurd h (by simp only [reduceCtorEq, not_false_eq_true])

theorem step_refuse (h : step s .refuse = some s') :
    ∃ call token, s.holder = some call ∧ call.phase = .sent token ∧ s' = s.release := by
  obtain ⟨call, hcall, h⟩ := Option.bind_eq_some_iff.mp h
  split at h
  · next token hphase => exact ⟨call, token, hcall, hphase, (Option.some.inj h).symm⟩
  · exact absurd h (by simp only [reduceCtorEq, not_false_eq_true])

theorem step_loseAnswer (h : step s .loseAnswer = some s') :
    ∃ call token, s.holder = some call ∧ call.phase = .sent token ∧
      s' = { (s.issued token.isSome).release with spent := token.toList ++ s.spent } := by
  obtain ⟨call, hcall, h⟩ := Option.bind_eq_some_iff.mp h
  split at h
  · next token hphase =>
      obtain ⟨-, h⟩ := Option.ite_none_right_eq_some.mp h
      exact ⟨call, token, hcall, hphase, (Option.some.inj h).symm⟩
  · exact absurd h (by simp only [reduceCtorEq, not_false_eq_true])

theorem step_commit {nonce : Nat} (h : step s (.commit nonce) = some s') :
    ∃ call result, s.holder = some call ∧ call.phase = .answered result ∧
      s' = { s with row := s.row.map (updateTokens · result nonce), holder := none } := by
  obtain ⟨call, hcall, h⟩ := Option.bind_eq_some_iff.mp h
  split at h
  · next result hphase => exact ⟨call, result, hcall, hphase, (Option.some.inj h).symm⟩
  · exact absurd h (by simp only [reduceCtorEq, not_false_eq_true])

theorem step_store {i nonce : Nat} (h : step s (.storeGrant i nonce) = some s') :
    ∃ grant, s.exchanged[i]? = some grant ∧ s.holder = none ∧
      s' = { s with
        row := some ((s.row.map (updateTokens · grant nonce)).getD (createTokens grant nonce))
        exchanged := s.exchanged.eraseIdx i } := by
  obtain ⟨grant, hgrant, h⟩ := Option.bind_eq_some_iff.mp h
  obtain ⟨hif, h⟩ := Option.ite_none_right_eq_some.mp h
  exact ⟨grant, hgrant, hif, (Option.some.inj h).symm⟩

theorem step_revoke {drop : Bool} (h : step s (.revoke drop) = some s') :
    s.holder = none ∧ s' = { s with
      row := if drop then none else s.row.map fun row => { row with revoked := true } } := by
  obtain ⟨hif, h⟩ := Option.ite_none_right_eq_some.mp h
  exact ⟨hif, (Option.some.inj h).symm⟩

/-- The row that a call goes on with: it has a grant that is not revoked, or
    there is none and none is needed. -/
theorem reread_spec {row : Option TokenRow} {call call' : Call} {now : Int}
    (h : reread row call now = some call') :
    call'.phase = .refreshing ∧
      ((∃ r, row = some r ∧ r.revoked = false ∧
          call'.resolved.encryptedRefreshToken = r.encryptedRefreshToken) ∨
        row = none ∧ call'.resolved.encryptedRefreshToken = none ∧
          call'.resolved.providerAccountRef = true ∧
          call'.resolved.mintsFromAccountRef = true) := by
  rw [reread.eq_def] at h
  split at h
  · obtain ⟨hif, h⟩ := Option.ite_none_right_eq_some.mp h
    rw [Bool.and_eq_true] at hif
    rw [← Option.some.inj h]
    exact ⟨rfl, .inr ⟨rfl, rfl, hif.1, hif.2⟩⟩
  · next r =>
      obtain ⟨hif, h⟩ := Option.ite_none_left_eq_some.mp h
      rw [Bool.or_eq_true, not_or, Bool.not_eq_true] at hif
      rw [← Option.some.inj h]
      exact ⟨rfl, .inl ⟨r, rfl, hif.1, rfl⟩⟩

theorem request_eq_some {resolved : Resolved} {t : Option Nat} (h : request resolved = some t) :
    t = none ∧ resolved.mintsFromAccountRef = true ∧ resolved.providerAccountRef = true ∨
      ∃ c, resolved.encryptedRefreshToken = some c ∧ t = some c.plain := by
  rw [request] at h
  by_cases hm : resolved.mintsFromAccountRef = true
  · rw [if_pos hm] at h
    obtain ⟨href, h⟩ := Option.ite_none_right_eq_some.mp h
    exact .inl ⟨(Option.some.inj h).symm, hm, href⟩
  · rw [if_neg hm] at h
    obtain ⟨c, hc, h⟩ := Option.map_eq_some_iff.mp h
    exact .inr ⟨c, hc, h.symm⟩

end Refresh

end Credentials

end JenticOne
