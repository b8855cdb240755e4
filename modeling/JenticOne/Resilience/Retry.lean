import JenticOne.Library.Margins

/-!
# Retries

`RetryRunner.run` over `HttpRunner`: an upstream call is attempted again after a
failure that is known to have sent nothing, and after any transient failure where
the method is idempotent, as long as attempts and time are left.

The clock is read anew wherever the code reads it, and a script says what each
attempt meets and what is read around it, so that a call is a function of its
script. What has to be true of a call is then one statement about the attempts it
made, the sleeps it started and how it ended. The budget is tested before the
sleep is started, and a sleep that is started later ends later.

Durations and times are rational numbers.

## Main definitions

* `mapTransportError`: The error for a failure of the client.
* `parseRetryAfterSeconds`: The wait an upstream asks for.
* `RetryRunner`, `body`, `run`: The configured runner, one round of its loop, and
  the loop.
* `Call.Safe`: What has to be true of a call.

## Theorems

* `body_ok`: When a round ends with another attempt.
* `run_safe`: Every call is safe.
* `not_asClaimed`: It is not so with fewer attempts than one, or with sleeps
  measured from their start.
-/

namespace JenticOne

namespace Resilience

/-! ## Failures -/

/-- The failures of the client, by the class that is raised. -/
inductive TransportFailure
  | poolTimeout
  | connectTimeout
  | readTimeout
  | writeTimeout
  | connectError
  | readError
  | writeError
  | closeError
  | proxyError
  | unsupportedProtocol
  | localProtocolError
  | remoteProtocolError
  | decodingError
  | tooManyRedirects
  | httpStatusError
  | upstreamHostUnresolvedError
  deriving DecidableEq

namespace TransportFailure

def name : TransportFailure → Text
  | poolTimeout => "PoolTimeout".toList
  | connectTimeout => "ConnectTimeout".toList
  | readTimeout => "ReadTimeout".toList
  | writeTimeout => "WriteTimeout".toList
  | connectError => "ConnectError".toList
  | readError => "ReadError".toList
  | writeError => "WriteError".toList
  | closeError => "CloseError".toList
  | proxyError => "ProxyError".toList
  | unsupportedProtocol => "UnsupportedProtocol".toList
  | localProtocolError => "LocalProtocolError".toList
  | remoteProtocolError => "RemoteProtocolError".toList
  | decodingError => "DecodingError".toList
  | tooManyRedirects => "TooManyRedirects".toList
  | httpStatusError => "HTTPStatusError".toList
  | upstreamHostUnresolvedError => "UpstreamHostUnresolvedError".toList

def isTimeoutException (exc : TransportFailure) : Bool :=
  exc ∈ [poolTimeout, connectTimeout, readTimeout, writeTimeout]

def isNetworkError (exc : TransportFailure) : Bool :=
  exc ∈ [connectError, readError, writeError, closeError]

end TransportFailure

/-- The classes of errors that a retry distinguishes. -/
inductive ErrorClass
  | brokerError
  | upstreamTimeoutError
  | upstreamTransportError
  deriving DecidableEq

structure BrokerError where
  cls : ErrorClass
  detail : Text
  type : Text
  preSend : Bool := false
  localOnly : Bool := false
  deriving DecidableEq

def transportErrorDetail (exc : TransportFailure) : Text :=
  "Upstream transport error (".toList ++ exc.name ++ ")".toList

def mapTransportError (exc : TransportFailure) : BrokerError :=
  if exc = .poolTimeout then
    { cls := .upstreamTimeoutError
      detail := "The broker's upstream connection pool had no free connection in time.".toList
      type := "upstream_connect_failed".toList
      preSend := true
      localOnly := true }
  else if exc = .connectTimeout then
    { cls := .upstreamTimeoutError
      detail := "The upstream connection could not be established in time.".toList
      type := "upstream_connect_failed".toList
      preSend := true }
  else if exc.isTimeoutException then
    { cls := .upstreamTimeoutError
      detail := "The upstream did not respond within the deadline.".toList
      type := "upstream_timeout".toList }
  else if exc ∈ [.connectError, .proxyError, .upstreamHostUnresolvedError] then
    { cls := .upstreamTransportError
      detail := "The upstream connection could not be established.".toList
      type := "upstream_connect_failed".toList
      preSend := true }
  else if exc.isNetworkError || exc = .remoteProtocolError then
    { cls := .upstreamTransportError
      detail := transportErrorDetail exc
      type := "upstream_transport_error".toList }
  else
    { cls := .brokerError
      detail := transportErrorDetail exc
      type := "upstream_request_invalid".toList }

structure RunnerResult where
  statusCode : Int
  body : List UInt8
  headers : List (Text × Text)
  deriving DecidableEq

/-- What an attempt meets: a response, a failure of the client, or an error that
    is raised around the client, which none marks as raised before sending. -/
inductive Wire
  | response (result : RunnerResult)
  | failure (exc : TransportFailure)
  | raised (error : BrokerError) (sent : error.preSend = false)

/-- The outcome of an attempt. -/
abbrev Outcome := Except BrokerError RunnerResult

/-- `HttpRunner.run`. -/
def httpRun : Wire → Outcome
  | .response result => .ok result
  | .failure exc => .error (mapTransportError exc)
  | .raised error _ => .error error

/-! ## The wait an upstream asks for -/

/-- A floating-point number, as far as rounding it up goes. -/
inductive FloatValue
  | finite (x : ℚ)
  | notFinite

/-- What is called of the language's library. -/
structure Stdlib where
  upper : Text → Text
  lower : Text → Text
  /-- The time a date is, where it is one. -/
  parsedate : Text → Option ℚ
  /-- The number a text is, where it is one. -/
  float : Text → Option FloatValue

/-- What the arithmetic of a round may raise. -/
inductive Fault
  | resetNotFinite
  | backoffOverflow
  deriving DecidableEq

def maxRetryAfterS : Int := 86400

/-- The digits before and after the point of a delay. -/
def delaySeconds (raw : Text) : Option (Text × Text) :=
  let parts := raw.partition '.'
  let isDigits (s : Text) : Bool := !s.isEmpty && s.all Char.isDigit
  if isDigits parts.1 && (!parts.2.1 || isDigits parts.2.2) then some (parts.1, parts.2.2)
  else none

/-- `parse_retry_after`. -/
def parseRetryAfter (std : Stdlib) (value : Option Text) (now : ℚ) : Option Int :=
  match value with
  | none => none
  | some value =>
      let raw := Margins.trim Margins.isspace value
      if raw = [] then none
      else
        match delaySeconds raw with
        | some (digits, fraction) =>
            let whole := digits.dropWhile (· = '0')
            if 5 < whole.length then some maxRetryAfterS
            else
              let seconds := Nat.ofDigitChars 10 whole 0 +
                if Text.strip '0' fraction = [] then 0 else 1
              some (min (seconds : Int) maxRetryAfterS)
        | none =>
            match std.parsedate raw with
            | none => none
            | some date => some (min (max 0 ⌈date - now⌉) maxRetryAfterS)

/-- `_from_reset_epoch`: rounding up what is not finite raises. -/
def fromResetEpoch (std : Stdlib) (value : Option Text) (now : ℚ) :
    Except Fault (Option Int) :=
  match value with
  | none => .ok none
  | some value =>
      let raw := Margins.trim Margins.isspace value
      if raw = [] then .ok none
      else
        match std.float raw with
        | none => .ok none
        | some .notFinite => .error .resetNotFinite
        | some (.finite reset) => .ok (some ⌈reset - now⌉)

/-- `_get`. -/
def getHeader (std : Stdlib) (headers : List (Text × Text)) (name : Text) : Option Text :=
  match headers.lookup name with
  | some value => some value
  | none => (headers.find? fun header => std.lower header.1 = std.lower name).map (·.2)

/-- `parse_retry_after_seconds`. -/
def parseRetryAfterSeconds (std : Stdlib) (headers : List (Text × Text)) (now : ℚ)
    (cap : Option ℚ) : Except Fault (Option Int) := do
  let seconds ←
    match parseRetryAfter std (getHeader std headers "retry-after".toList) now with
    | some seconds => .ok (some seconds)
    | none => fromResetEpoch std (getHeader std headers "x-ratelimit-reset".toList) now
  match seconds with
  | none => .ok none
  | some seconds =>
      match cap with
      | none => .ok (some (max 0 seconds))
      | some cap => .ok (some (min (max 0 seconds) (max 0 ⌊cap⌋)))

/-! ## The runner -/

def idempotentMethods : List Text :=
  ["GET".toList, "HEAD".toList, "PUT".toList, "DELETE".toList, "OPTIONS".toList, "TRACE".toList]

/-- What the runner is configured with. -/
structure RetryConfig where
  maxAttempts : Int
  baseBackoffS : ℚ
  maxBackoffS : ℚ
  retryStatuses : List Int
  deadlineS : ℚ

structure RetryRunner where
  maxAttempts : Int
  baseBackoffS : ℚ
  maxBackoffS : ℚ
  retryStatuses : List Int
  deadlineS : ℚ

/-- `RetryRunner.__init__`. -/
def RetryRunner.new (cfg : RetryConfig) : RetryRunner where
  maxAttempts := max 1 cfg.maxAttempts
  baseBackoffS := max 0 cfg.baseBackoffS
  maxBackoffS := max 0 cfg.maxBackoffS
  retryStatuses := if cfg.retryStatuses = [] then [429, 502, 503, 504] else cfg.retryStatuses
  deadlineS := cfg.deadlineS

/-- An attempt: what it meets, and what is read around it. -/
structure Attempt where
  wire : Wire
  /-- The time of day when the headers are read. -/
  wallAt : ℚ
  /-- The clock when the wait asked for is capped. -/
  capAt : ℚ
  /-- A draw between 0 and 1. -/
  draw : ℚ
  /-- The clock when the delay is capped. -/
  backoffAt : ℚ
  /-- The clock when the budget is tested. -/
  testAt : ℚ
  /-- The clock when the sleep starts. -/
  sleepAt : ℚ

/-- How a call ends: with an outcome, or with what the runner itself raises. -/
inductive Ending
  | outcome (out : Outcome)
  | fault (f : Fault)

def isIdempotent (std : Stdlib) (method : Text) : Bool := std.upper method ∈ idempotentMethods

def remaining (deadline : Option ℚ) (now : ℚ) : Option ℚ :=
  deadline.map fun deadline => max 0 (deadline - now)

namespace RetryRunner

variable (r : RetryRunner)

def shouldRetryError (exc : BrokerError) (idempotent : Bool) : Bool :=
  if exc.cls = .upstreamTimeoutError ∨ exc.cls = .upstreamTransportError then
    exc.preSend || idempotent
  else false

def shouldRetryStatus (statusCode : Int) (idempotent : Bool) : Bool :=
  statusCode ∈ r.retryStatuses && idempotent

/-- The wait that is asked for, or a part of the exponential one: `2 ** 1024` is no
    floating-point number. -/
def base (attempt : Nat) (hint : Option Int) (draw : ℚ) : Except Fault ℚ :=
  match hint with
  | some hint => .ok hint
  | none =>
      if 1024 ≤ attempt - 1 then .error .backoffOverflow
      else .ok (min (r.baseBackoffS * 2 ^ (attempt - 1)) r.maxBackoffS * draw)

/-- The delay before the next attempt. -/
def backoff (attempt : Nat) (hint : Option Int) (deadline : Option ℚ) (a : Attempt) :
    Except Fault ℚ :=
  match r.base attempt hint a.draw with
  | .error f => .error f
  | .ok base =>
      match remaining deadline a.backoffAt with
      | none => .ok (max 0 base)
      | some left => .ok (max 0 (min base left))

def hasBudget (attempt : Nat) (delay : ℚ) (deadline : Option ℚ) (now : ℚ) : Bool :=
  if r.maxAttempts ≤ attempt then false
  else
    match remaining deadline now with
    | none => true
    | some left => !decide (left ≤ delay)

/-- A round of the loop: the delay before the next one, or how the call ends. -/
def body (std : Stdlib) (idempotent : Bool) (deadline : Option ℚ) (attempt : Nat) (a : Attempt) :
    Except Ending ℚ :=
  match httpRun a.wire with
  | .error exc =>
      if shouldRetryError exc idempotent then
        match r.backoff attempt none deadline a with
        | .error f => .error (.fault f)
        | .ok delay =>
            if r.hasBudget attempt delay deadline a.testAt then .ok delay
            else .error (.outcome (.error exc))
      else .error (.outcome (.error exc))
  | .ok result =>
      if r.shouldRetryStatus result.statusCode idempotent then
        match parseRetryAfterSeconds std result.headers a.wallAt (remaining deadline a.capAt) with
        | .error f => .error (.fault f)
        | .ok hint =>
            match r.backoff attempt hint deadline a with
            | .error f => .error (.fault f)
            | .ok delay =>
                if r.hasBudget attempt delay deadline a.testAt then .ok delay
                else .error (.outcome (.ok result))
      else .error (.outcome (.ok result))

end RetryRunner

/-- A sleep, when the budget was tested for it, and when it started. -/
structure Sleep where
  delay : ℚ
  testedAt : ℚ
  startedAt : ℚ

/-- A call: the attempts it made and the sleeps it started, in their order, and
    how it ended. -/
structure Call where
  attempts : List Attempt
  sleeps : List Sleep
  ending : Ending

/-- An attempt, a sleep if there is a delay, and the rest of the call. -/
def Call.after (c : Call) (a : Attempt) (delay : ℚ) : Call where
  attempts := a :: c.attempts
  sleeps := if 0 < delay then ⟨delay, a.testAt, a.sleepAt⟩ :: c.sleeps else c.sleeps
  ending := c.ending

section Body

variable {r : RetryRunner} {std : Stdlib} {idempotent : Bool} {deadline : Option ℚ}
  {attempt : Nat} {a : Attempt} {delay : ℚ} {ending : Ending}

theorem backoff_nonneg {hint : Option Int} (h : r.backoff attempt hint deadline a = .ok delay) :
    0 ≤ delay := by
  unfold RetryRunner.backoff at h
  split at h
  · exact absurd h (by simp only [reduceCtorEq, not_false_eq_true])
  · split at h <;> exact Except.ok.inj h ▸ le_max_left _ _

/-- The delay is always computed where attempts are few. -/
theorem backoff_ok (r : RetryRunner) (hint : Option Int) (deadline : Option ℚ) (a : Attempt)
    (h : attempt ≤ 1024) :
    ∃ delay, r.backoff attempt hint deadline a = .ok delay := by
  have hbase : ∃ base, r.base attempt hint a.draw = .ok base := by
    cases hint with
    | none => exact ⟨_, if_neg (by omega)⟩
    | some hint => exact ⟨hint, rfl⟩
  rcases hbase with ⟨base, hbase⟩
  unfold RetryRunner.backoff
  rw [hbase]
  dsimp only
  split <;> exact ⟨_, rfl⟩

theorem hasBudget_spec {now : ℚ} (hdelay : 0 ≤ delay)
    (h : r.hasBudget attempt delay deadline now = true) :
    (attempt : Int) < r.maxAttempts ∧ ∀ d, deadline = some d → now + delay < d := by
  unfold RetryRunner.hasBudget at h
  split at h
  · exact absurd h Bool.false_ne_true
  · next hattempt =>
      refine ⟨not_le.mp hattempt, fun d hd => ?_⟩
      rw [hd] at h
      have hleft : ¬ max 0 (d - now) ≤ delay := by
        intro hle
        rw [remaining, Option.map_some] at h
        dsimp only at h
        rw [decide_eq_true hle] at h
        exact absurd h Bool.false_ne_true
      rcases lt_max_iff.mp (not_le.mp hleft) with hneg | hlt
      · exact absurd hdelay (not_le.mpr hneg)
      · linarith

theorem shouldRetryError_preSend {exc : BrokerError}
    (h : RetryRunner.shouldRetryError exc false = true) : exc.preSend = true := by
  unfold RetryRunner.shouldRetryError at h
  split at h
  · rwa [Bool.or_false] at h
  · exact absurd h Bool.false_ne_true

/-- What is raised before sending is raised by the client. -/
theorem failure_of_preSend {w : Wire} {exc : BrokerError} (h : httpRun w = .error exc)
    (hsend : exc.preSend = true) :
    ∃ failure, w = .failure failure ∧ (mapTransportError failure).preSend = true := by
  cases w with
  | response result => exact absurd h (by simp only [httpRun, reduceCtorEq, not_false_eq_true])
  | failure failure =>
      refine ⟨failure, rfl, ?_⟩
      rw [← Except.error.inj h] at hsend
      exact hsend
  | raised error sent =>
      rw [← Except.error.inj h, sent] at hsend
      exact absurd hsend Bool.false_ne_true

/-- When a round ends with another attempt: there are attempts and time left, and
    the attempt sent nothing or can be repeated. -/
theorem body_ok (h : r.body std idempotent deadline attempt a = .ok delay) :
    (attempt : Int) < r.maxAttempts ∧
      (∀ d, deadline = some d → a.testAt + delay < d) ∧
      (idempotent = false → ∃ failure, a.wire = .failure failure ∧
        (mapTransportError failure).preSend = true) := by
  unfold RetryRunner.body at h
  cases hout : httpRun a.wire with
  | error exc =>
      rw [hout] at h
      dsimp only at h
      split at h
      · next hretry =>
          split at h
          · exact absurd h (by simp only [reduceCtorEq, not_false_eq_true])
          · next delay' hdelay =>
              split at h
              · next hbudget =>
                  rw [Except.ok.inj h] at hdelay hbudget
                  rcases hasBudget_spec (backoff_nonneg hdelay) hbudget with ⟨hlt, htime⟩
                  refine ⟨hlt, htime, fun hidem => ?_⟩
                  rw [hidem] at hretry
                  exact failure_of_preSend hout (shouldRetryError_preSend hretry)
              · exact absurd h (by simp only [reduceCtorEq, not_false_eq_true])
      · exact absurd h (by simp only [reduceCtorEq, not_false_eq_true])
  | ok result =>
      rw [hout] at h
      dsimp only at h
      split at h
      · next hretry =>
          split at h
          · exact absurd h (by simp only [reduceCtorEq, not_false_eq_true])
          · split at h
            · exact absurd h (by simp only [reduceCtorEq, not_false_eq_true])
            · next delay' hdelay =>
                split at h
                · next hbudget =>
                    rw [Except.ok.inj h] at hdelay hbudget
                    rcases hasBudget_spec (backoff_nonneg hdelay) hbudget with ⟨hlt, htime⟩
                    refine ⟨hlt, htime, fun hidem => ?_⟩
                    rw [hidem, RetryRunner.shouldRetryStatus, Bool.and_false] at hretry
                    exact absurd hretry Bool.false_ne_true
                · exact absurd h (by simp only [reduceCtorEq, not_false_eq_true])
      · exact absurd h (by simp only [reduceCtorEq, not_false_eq_true])

/-- The headers of the response, if there is one, are read without error. -/
def Attempt.Readable (std : Stdlib) (a : Attempt) : Prop :=
  ∀ result, a.wire = .response result →
    ∀ cap f, parseRetryAfterSeconds std result.headers a.wallAt cap ≠ .error f

/-- How a call ends where the round is its last one. -/
theorem body_error (h : r.body std idempotent deadline attempt a = .error ending)
    (hread : a.Readable std) (hfew : attempt ≤ 1024) : ending = .outcome (httpRun a.wire) := by
  unfold RetryRunner.body at h
  cases hout : httpRun a.wire with
  | error exc =>
      rw [hout] at h
      dsimp only at h
      rcases backoff_ok r none deadline a hfew with ⟨delay, hdelay⟩
      rw [hdelay] at h
      dsimp only at h
      split at h
      · split at h
        · exact absurd h (by simp only [reduceCtorEq, not_false_eq_true])
        · exact (Except.error.inj h).symm
      · exact (Except.error.inj h).symm
  | ok result =>
      have hwire : a.wire = .response result := by
        cases hw : a.wire with
        | response result' =>
            rw [hw] at hout
            rw [Except.ok.inj hout]
        | failure failure =>
            rw [hw] at hout
            exact absurd hout (by simp only [httpRun, reduceCtorEq, not_false_eq_true])
        | raised error sent =>
            rw [hw] at hout
            exact absurd hout (by simp only [httpRun, reduceCtorEq, not_false_eq_true])
      rw [hout] at h
      dsimp only at h
      split at h
      · split at h
        · next f hhint => exact absurd hhint (hread result hwire _ f)
        · next hint hhint =>
            rcases backoff_ok r hint deadline a hfew with ⟨delay, hdelay⟩
            rw [hdelay] at h
            dsimp only at h
            split at h
            · exact absurd h (by simp only [reduceCtorEq, not_false_eq_true])
            · exact (Except.error.inj h).symm
      · exact (Except.error.inj h).symm

end Body

/-! ## The loop -/

/-- The loop after some attempts, by a script of what each attempt meets. -/
def RetryRunner.loop (r : RetryRunner) (std : Stdlib) (idempotent : Bool) (deadline : Option ℚ)
    (script : Nat → Attempt) (attempt : Nat) : Call :=
  match _h : r.body std idempotent deadline (attempt + 1) (script attempt) with
  | .error ending => ⟨[script attempt], [], ending⟩
  | .ok delay =>
      (RetryRunner.loop r std idempotent deadline script (attempt + 1)).after (script attempt) delay
termination_by (r.maxAttempts - attempt).toNat
decreasing_by
  have hlt := (body_ok _h).1
  omega

def RetryRunner.deadline (r : RetryRunner) (startAt : ℚ) : Option ℚ :=
  if 0 < r.deadlineS then some (startAt + r.deadlineS) else none

/-- `RetryRunner.run`, called at a time. -/
def RetryRunner.run (r : RetryRunner) (std : Stdlib) (method : Text) (startAt : ℚ)
    (script : Nat → Attempt) : Call :=
  r.loop std (isIdempotent std method) (r.deadline startAt) script 0

/-- What has to be true of a call by a runner that is configured so. -/
structure Call.Safe (cfg : RetryConfig) (std : Stdlib) (method : Text) (startAt : ℚ)
    (script : Nat → Attempt) (c : Call) : Prop where
  /-- The attempts are those of the script, one after the other. -/
  made : c.attempts = (List.range c.attempts.length).map script
  attempts : (c.attempts.length : Int) ≤ max 1 cfg.maxAttempts
  /-- Where the method is not idempotent, the attempts before the last one have
      sent nothing. -/
  unsent : std.upper method ∉ idempotentMethods → ∀ a ∈ c.attempts.dropLast,
    ∃ failure, a.wire = .failure failure ∧ (mapTransportError failure).preSend = true
  /-- A sleep that starts when the budget is tested for it ends before the deadline. -/
  sleeps : ∀ s ∈ c.sleeps, 0 < cfg.deadlineS → s.testedAt + s.delay < startAt + cfg.deadlineS
  /-- The call ends with the outcome of its last attempt. -/
  ending : ∃ a, c.attempts.getLast? = some a ∧
    (a.Readable std → c.attempts.length ≤ 1024 → c.ending = .outcome (httpRun a.wire))

section Loop

variable {r : RetryRunner} {std : Stdlib} {idempotent : Bool} {deadline : Option ℚ}
  {script : Nat → Attempt}

/-- The rest of a call, after some attempts. -/
structure Call.Rest (r : RetryRunner) (std : Stdlib) (idempotent : Bool) (deadline : Option ℚ)
    (script : Nat → Attempt) (attempt : Nat) (c : Call) : Prop where
  made : c.attempts = (List.range' attempt c.attempts.length).map script
  some_made : c.attempts ≠ []
  attempts : (attempt : Int) < r.maxAttempts → (attempt + c.attempts.length : Int) ≤ r.maxAttempts
  unsent : idempotent = false → ∀ a ∈ c.attempts.dropLast,
    ∃ failure, a.wire = .failure failure ∧ (mapTransportError failure).preSend = true
  sleeps : ∀ s ∈ c.sleeps, ∀ d, deadline = some d → s.testedAt + s.delay < d
  ending : ∀ a, c.attempts.getLast? = some a → a.Readable std →
    attempt + c.attempts.length ≤ 1024 → c.ending = .outcome (httpRun a.wire)

theorem loop_error {attempt : Nat} {ending : Ending}
    (h : r.body std idempotent deadline (attempt + 1) (script attempt) = .error ending) :
    r.loop std idempotent deadline script attempt = ⟨[script attempt], [], ending⟩ := by
  rw [RetryRunner.loop]
  split
  · next ending' h' =>
      rw [h] at h'
      rw [Except.error.inj h']
  · next delay h' =>
      rw [h] at h'
      exact absurd h' (by simp only [reduceCtorEq, not_false_eq_true])

theorem loop_ok {attempt : Nat} {delay : ℚ}
    (h : r.body std idempotent deadline (attempt + 1) (script attempt) = .ok delay) :
    r.loop std idempotent deadline script attempt =
      (r.loop std idempotent deadline script (attempt + 1)).after (script attempt) delay := by
  rw [RetryRunner.loop]
  split
  · next ending h' =>
      rw [h] at h'
      exact absurd h' (by simp only [reduceCtorEq, not_false_eq_true])
  · next delay' h' =>
      rw [h] at h'
      rw [Except.ok.inj h']

/-- A round that ends the call. -/
theorem rest_error {attempt : Nat} {ending : Ending}
    (h : r.body std idempotent deadline (attempt + 1) (script attempt) = .error ending) :
    Call.Rest r std idempotent deadline script attempt ⟨[script attempt], [], ending⟩ where
  made := rfl
  some_made := List.cons_ne_nil _ _
  attempts hlt := by
    rw [List.length_singleton]
    omega
  unsent _ a ha := absurd ha List.not_mem_nil
  sleeps s hs := absurd hs List.not_mem_nil
  ending a ha hread hfew := by
    rw [List.getLast?_singleton] at ha
    rw [← Option.some.inj ha] at hread ⊢
    exact body_error h hread hfew

/-- A round after which there is another one. -/
theorem rest_after {attempt : Nat} {delay : ℚ} {c : Call}
    (h : r.body std idempotent deadline (attempt + 1) (script attempt) = .ok delay)
    (hc : c.Rest r std idempotent deadline script (attempt + 1)) :
    (c.after (script attempt) delay).Rest r std idempotent deadline script attempt := by
  rcases body_ok h with ⟨hlt, htime, hunsent⟩
  refine ⟨?_, List.cons_ne_nil _ _, ?_, ?_, ?_, ?_⟩
  · rw [Call.after, List.length_cons, List.range'_succ, List.map_cons, ← hc.made]
  · intro _
    have hle := hc.attempts (by omega)
    rw [Call.after, List.length_cons]
    omega
  · intro hidem a ha
    rw [Call.after, List.dropLast_cons_of_ne_nil hc.some_made] at ha
    rcases List.mem_cons.mp ha with rfl | hrest
    · exact hunsent hidem
    · exact hc.unsent hidem a hrest
  · intro s hs d hd
    rw [Call.after] at hs
    dsimp only at hs
    split at hs
    · rcases List.mem_cons.mp hs with rfl | hrest
      · exact htime d hd
      · exact hc.sleeps s hrest d hd
    · exact hc.sleeps s hs d hd
  · intro a ha hread hfew
    rw [Call.after, List.getLast?_cons_of_ne_nil hc.some_made] at ha
    rw [Call.after, List.length_cons] at hfew
    exact hc.ending a ha hread (by omega)

theorem rest_loop (attempt : Nat) :
    (r.loop std idempotent deadline script attempt).Rest r std idempotent deadline script
      attempt := by
  -- Each round that is followed by another one has fewer attempts left.
  induction hleft : (r.maxAttempts - attempt).toNat using Nat.strong_induction_on
    generalizing attempt with
  | _ left ih =>
      cases h : r.body std idempotent deadline (attempt + 1) (script attempt) with
      | error ending =>
          rw [loop_error h]
          exact rest_error h
      | ok delay =>
          rw [loop_ok h]
          have hlt := (body_ok h).1
          exact rest_after h (ih _ (by omega) _ rfl)

end Loop

/-- **A retry repeats nothing that may have been acted on.** Whatever the attempts
    meet and whenever the clock is read: the attempts are at most those configured,
    and at least one; those before the last one have sent nothing, if the method
    is not idempotent; no sleep is as long as what was left till the deadline
    when the budget was tested for it; and the call ends as its last attempt did. -/
theorem run_safe (cfg : RetryConfig) (std : Stdlib) (method : Text) (startAt : ℚ)
    (script : Nat → Attempt) :
    ((RetryRunner.new cfg).run std method startAt script).Safe cfg std method startAt script := by
  have hrest := @rest_loop (RetryRunner.new cfg) std (isIdempotent std method)
    ((RetryRunner.new cfg).deadline startAt) script 0
  refine ⟨?_, ?_, ?_, ?_, ?_⟩
  · rw [RetryRunner.run, List.range_eq_range']
    exact hrest.made
  · have hle := hrest.attempts (lt_of_lt_of_le Int.one_pos (le_max_left _ _))
    rw [RetryRunner.run]
    simpa [RetryRunner.new] using hle
  · intro hmethod
    exact hrest.unsent (decide_eq_false hmethod)
  · intro s hs hdeadline
    exact hrest.sleeps s hs _ (if_pos hdeadline)
  · refine ⟨_, List.getLast?_eq_some_getLast hrest.some_made, fun hread hfew => ?_⟩
    exact hrest.ending _ (List.getLast?_eq_some_getLast hrest.some_made) hread
      (by rw [Nat.zero_add]; exact hfew)

/-- What a call would have to be with the attempts counted from none, and the sleeps
    measured from their start. -/
structure Call.AsClaimed (cfg : RetryConfig) (std : Stdlib) (method : Text) (startAt : ℚ)
    (c : Call) : Prop where
  attempts : (c.attempts.length : Int) ≤ cfg.maxAttempts
  unsent : std.upper method ∉ idempotentMethods → ∀ a ∈ c.attempts.dropLast,
    ∃ failure, a.wire = .failure failure ∧ (mapTransportError failure).preSend = true
  sleeps : ∀ s ∈ c.sleeps, 0 < cfg.deadlineS → s.startedAt + s.delay < startAt + cfg.deadlineS
  ending : ∃ a, c.attempts.getLast? = some a ∧ c.ending = .outcome (httpRun a.wire)

section Examples

def plain : Stdlib := ⟨id, id, fun _ => none, fun _ => none⟩

/-- No attempts are configured. -/
def noAttempts : RetryConfig := ⟨0, 1, 5, [], 10⟩

/-- Two attempts in ten seconds, eight seconds or a part of them apart. -/
def twoAttempts : RetryConfig := ⟨2, 8, 8, [], 10⟩

/-- A connection is refused at 5, and the clock reads 7 when the sleep starts. -/
def refused : Attempt := ⟨.failure .connectError, 5, 5, 1 / 2, 5, 5, 7⟩

def answered : Attempt := ⟨.response ⟨200, [], []⟩, 11, 11, 0, 11, 11, 11⟩

def refusedFirst (attempt : Nat) : Attempt := if attempt = 0 then refused else answered

theorem body_refused :
    (RetryRunner.new twoAttempts).body plain true (some (0 + 10)) 1 refused = .ok 4 := by
  have hdelay : (RetryRunner.new twoAttempts).backoff 1 none (some (0 + 10)) refused = .ok 4 := by
    have hok : ((RetryRunner.new twoAttempts).backoff 1 none (some (0 + 10)) refused).toOption =
        some 4 := by decide +kernel
    cases h : (RetryRunner.new twoAttempts).backoff 1 none (some (0 + 10)) refused with
    | error f =>
        rw [h] at hok
        exact absurd hok (by simp only [Except.toOption, reduceCtorEq, not_false_eq_true])
    | ok delay =>
        rw [h] at hok
        rw [Option.some.inj hok]
  have hbudget : (RetryRunner.new twoAttempts).hasBudget 1 4 (some (0 + 10)) refused.testAt =
      true := by decide +kernel
  have hretry : RetryRunner.shouldRetryError (mapTransportError .connectError) true = true := rfl
  unfold RetryRunner.body
  rw [show httpRun refused.wire = .error (mapTransportError .connectError) from rfl]
  dsimp only
  rw [if_pos hretry, hdelay]
  dsimp only
  rw [if_pos hbudget]

end Examples

/-- One attempt is made where none is configured, and a sleep of four seconds that
    fits when it is tested, at 5, ends at 11 if it starts at 7. -/
theorem not_asClaimed :
    ¬ ((RetryRunner.new noAttempts).run plain "GET".toList 0 fun _ => answered).AsClaimed
        noAttempts plain "GET".toList 0 ∧
      ¬ ((RetryRunner.new twoAttempts).run plain "GET".toList 0 refusedFirst).AsClaimed
        twoAttempts plain "GET".toList 0 := by
  constructor
  · intro h
    have hattempts := h.attempts
    rw [RetryRunner.run, @loop_error _ _ _ _ _ _ (.outcome (.ok ⟨200, [], []⟩)) rfl] at hattempts
    exact absurd hattempts (by decide)
  · intro h
    have hdeadline : (RetryRunner.new twoAttempts).deadline 0 = some (0 + 10) :=
      if_pos (by decide +kernel)
    have hsleep := h.sleeps ⟨4, 5, 7⟩ (by
      rw [RetryRunner.run, hdeadline, loop_ok body_refused, Call.after]
      dsimp only
      rw [if_pos (by norm_num)]
      exact List.mem_cons_self) (by decide +kernel)
    norm_num [twoAttempts] at hsleep

end Resilience

end JenticOne
