import JenticOne.Library.Dict
import JenticOne.Library.Machine

/-!
# The Authorization Caches

A short-TTL cache with a bound on its entries, whose misses are loaded from the
database by a single flight: the first caller of an idle key runs the load, the
others wait for its outcome. `AgentRuleEvaluator`, `CachedTokenValidator`,
`CachedActorStatus` and `CachingCredentialDeriver` are this one cache with keys,
stamps and evictions of their own.

The event loop runs one task at a time, so what happens between two awaits is one
step: a lookup up to its first wait, one statement of a load's database read, a
load's end with the store and the release of its key, a waiter that wakes up, and
an eviction. A load reads the database when its statements run and stores what it
read some steps later. Nothing that evicts looks at the loads under way.

A tick counts the steps. The ticks at which a lookup started, a read began and an
eviction was made are history and nothing reads them.

## Main definitions

* `AuthCache`: What tells one cache from another.
* `Lookup`, `World`: The callers and the cache.
* `step`: One action.
* `authCache`: The machine.
* `agentRuleEvaluator`, `cachedTokenValidator`, `cachedActorStatus`,
  `cachingCredentialDeriver`: The four caches.
-/

namespace JenticOne

namespace Broker

namespace AuthCache

/-- A monotonic clock's reading, in microseconds. -/
abbrev Time := Int

/-- What tells one cache from another: the key a request is cached under, the
    key it is loaded under, what the resolver can answer, what an eviction drops,
    and whether an entry is stamped when its load starts or when it is stored. -/
structure Kind (R K F V I : Type) where
  key : R → K
  flightKey : R → F
  possible : R → V → Bool
  evicts : I → K → V → Bool
  stampedAtStart : Bool
  cacheTtl : Time
  maxEntries : Nat
  maxInFlight : Nat

/-- A cached answer; `readAt` is the tick at which its read began. -/
structure CacheEntry (V : Type) where
  value : V
  cachedAt : Time
  readAt : Nat
deriving DecidableEq, Repr

/-- Where a caller is: it waits for the lookup that leads its flight, it runs the
    load itself (what its read has observed so far, and when the read began), or
    it is done. -/
inductive Phase (V : Type)
  | waiting (leader : Nat)
  | loading (coalesced : Bool) (started : Time) (observed : Option (V × Nat))
  | answered (value : V) (readAt : Nat)
  | failed
  | cancelled
deriving DecidableEq, Repr

structure Lookup (R V : Type) where
  request : R
  startedAt : Nat
  phase : Phase V
deriving DecidableEq, Repr

/-- The database, the cache, the flights by their leader's place among the
    lookups, the lookups, the evictions made so far and the tick. -/
structure World (R K F V I : Type) where
  db : R → V
  cache : Dict K (CacheEntry V)
  inFlight : Dict F Nat
  lookups : List (Lookup R V)
  invalidations : List (Nat × I)
  tick : Nat

/-- What happens next in a run. `l` is the place of a lookup. -/
inductive Action (R V I : Type)
  | change (changes : List (R × V))
  | lookup (request : R) (now started : Time)
  | observe (l : Nat)
  | finish (l : Nat) (now : Time)
  | fail (l : Nat)
  | wake (l : Nat) (started : Time)
  | cancel (l : Nat)
  | invalidate (i : I)
deriving DecidableEq, Repr

variable {R K F V I : Type} [DecidableEq R] [DecidableEq K] [DecidableEq F]

namespace World

def initial (db : R → V) : World R K F V I := ⟨db, Dict.empty, Dict.empty, [], [], 0⟩

/-- Move lookup `l`, which is `x`, to another phase. -/
def setPhase (w : World R K F V I) (l : Nat) (x : Lookup R V) (phase : Phase V) :
    World R K F V I :=
  { w with lookups := w.lookups.set l { x with phase := phase } }

end World

/-- Drop the oldest entries past the bound. -/
def bounded (maxEntries : Nat) (cache : Dict K (CacheEntry V)) : Dict K (CacheEntry V) where
  items := cache.items.drop (cache.items.length - maxEntries)
  nodup := cache.nodup.sublist ((List.drop_sublist _ _).map Prod.fst)

/-- `_store`: insert or refresh an entry and evict past the bound. -/
def store (C : Kind R K F V I) (cache : Dict K (CacheEntry V)) (key : K)
    (entry : CacheEntry V) : Dict K (CacheEntry V) :=
  bounded C.maxEntries (cache.set key entry)

/-- An entry that is still fresh. -/
def hit (C : Kind R K F V I) (w : World R K F V I) (request : R) (now : Time) :
    Option (CacheEntry V) :=
  (w.cache.get? (C.key request)).filter (fun e => now - e.cachedAt < C.cacheTtl)

/-- `SingleFlight.do` up to its first wait, for the lookup at `l`: join the flight
    of the key, or lead one, or run the load alone where the map is full. -/
def singleFlightDo (C : Kind R K F V I) (w : World R K F V I) (l : Nat) (request : R)
    (started : Time) : Phase V × Dict F Nat :=
  match w.inFlight.get? (C.flightKey request) with
  | some leader => (.waiting leader, w.inFlight)
  | none =>
      if C.maxInFlight ≤ w.inFlight.items.length then (.loading false started none, w.inFlight)
      else (.loading true started none, w.inFlight.set (C.flightKey request) l)

/-- The removal of a flight's own entry when its leader is done. -/
def release (C : Kind R K F V I) (inFlight : Dict F Nat) (l : Nat) (request : R) : Dict F Nat :=
  if inFlight.get? (C.flightKey request) = some l then inFlight.erase (C.flightKey request)
  else inFlight

/-- A lookup: answered by a fresh entry, which becomes the most recently used, or
    handed to the single flight. -/
def stepLookup (C : Kind R K F V I) (w : World R K F V I) (request : R) (now started : Time) :
    World R K F V I :=
  match hit C w request now with
  | some e => { w with
      cache := w.cache.set (C.key request) e
      lookups := w.lookups ++ [⟨request, w.tick, .answered e.value e.readAt⟩] }
  | none =>
      let (phase, inFlight) := singleFlightDo C w w.lookups.length request started
      { w with inFlight := inFlight, lookups := w.lookups ++ [⟨request, w.tick, phase⟩] }

/-- A statement of a load's read sees the database as it is; the first one begins
    the read. -/
def stepObserve (w : World R K F V I) (l : Nat) (x : Lookup R V) : Option (World R K F V I) :=
  match x.phase with
  | .loading coalesced started observed =>
      some (w.setPhase l x (.loading coalesced started
        (some (w.db x.request, (observed.map Prod.snd).getD w.tick))))
  | _ => none

/-- A load that has read stores its answer and returns it. -/
def stepFinish (C : Kind R K F V I) (w : World R K F V I) (l : Nat) (x : Lookup R V)
    (now : Time) : Option (World R K F V I) :=
  match x.phase with
  | .loading _ started (some (value, readAt)) =>
      some { w.setPhase l x (.answered value readAt) with
        cache := store C w.cache (C.key x.request)
          ⟨value, if C.stampedAtStart then started else now, readAt⟩
        inFlight := release C w.inFlight l x.request }
  | _ => none

/-- A load that raises, or whose caller is cancelled, stores nothing. -/
def stepDrop (C : Kind R K F V I) (w : World R K F V I) (l : Nat) (x : Lookup R V)
    (phase : Phase V) : World R K F V I :=
  { w.setPhase l x phase with inFlight := release C w.inFlight l x.request }

/-- A waiter whose flight is over: it has the leader's answer or exception, or
    goes on to another flight where the leader was cancelled. -/
def stepWake (C : Kind R K F V I) (w : World R K F V I) (l : Nat) (x : Lookup R V)
    (started : Time) (leader : Nat) : Option (World R K F V I) :=
  match (w.lookups[leader]?).map Lookup.phase with
  | some (.answered value readAt) => some (w.setPhase l x (.answered value readAt))
  | some .failed => some (w.setPhase l x .failed)
  | some .cancelled =>
      let (phase, inFlight) := singleFlightDo C w l x.request started
      some { w.setPhase l x phase with inFlight := inFlight }
  | _ => none

/-- One action before the tick moves on. -/
def act (C : Kind R K F V I) (w : World R K F V I) : Action R V I → Option (World R K F V I)
  | .change changes =>
      if changes.all (fun x => C.possible x.1 x.2) then
        some { w with db := changes.foldl (fun db x => Function.update db x.1 x.2) w.db }
      else none
  | .lookup request now started => some (stepLookup C w request now started)
  | .observe l =>
      match w.lookups[l]? with
      | some x => stepObserve w l x
      | none => none
  | .finish l now =>
      match w.lookups[l]? with
      | some x => stepFinish C w l x now
      | none => none
  | .fail l =>
      match w.lookups[l]? with
      | some x =>
          match x.phase with
          | .loading .. => some (stepDrop C w l x .failed)
          | _ => none
      | none => none
  | .wake l started =>
      match w.lookups[l]? with
      | some x =>
          match x.phase with
          | .waiting leader => stepWake C w l x started leader
          | _ => none
      | none => none
  | .cancel l =>
      match w.lookups[l]? with
      | some x =>
          match x.phase with
          | .loading .. => some (stepDrop C w l x .cancelled)
          | .waiting _ => some (w.setPhase l x .cancelled)
          | _ => none
      | none => none
  | .invalidate i => some { w with
      cache := w.cache.filter (fun k e => !C.evicts i k e.value)
      invalidations := (w.tick, i) :: w.invalidations }

/-- One action in a run, or `none` where it is not enabled. -/
def step (C : Kind R K F V I) (w : World R K F V I) (a : Action R V I) :
    Option (World R K F V I) :=
  (act C w a).map fun w' => { w' with tick := w.tick + 1 }

/-- Runs of any number of lookups over one cache. -/
def authCache (C : Kind R K F V I) : Machine (World R K F V I) (Action R V I) where
  start w := ∃ db, (∀ r, C.possible r (db r)) ∧ w = World.initial db
  step := step C

end AuthCache

open AuthCache

/-! ## The four caches -/

/-- A NUL character, which joins the parts of a key. -/
def nul : String := String.singleton (Char.ofNat 0)

def defaultMaxInFlight : Nat := 10000

/-- The settings of a cache. -/
structure CacheConfig where
  cacheTtl : Time
  maxEntries : Nat

/-- What `_get_rules` is asked for. -/
structure RuleRequest where
  agentId : String
  credentialId : String
  ruleSetId : Option String
deriving DecidableEq, Repr

/-- `cache_key` of `_get_rules`. -/
def ruleKey (r : RuleRequest) : String :=
  match r.ruleSetId with
  | some ruleSetId => "set" ++ nul ++ ruleSetId
  | none => "binding" ++ nul ++ r.agentId ++ nul ++ r.credentialId

/-- The `invalidate_*` calls of `AgentRuleEvaluator`, and `clear`. -/
inductive RuleInvalidation
  | binding (agentId credentialId : String)
  | agent (agentId : String)
  | credential (credentialId : String)
  | ruleSet (ruleSetId : String)
  | clear
deriving DecidableEq, Repr

def RuleInvalidation.evicts (i : RuleInvalidation) (key : String) : Bool :=
  match i with
  | .binding agentId credentialId => key = "binding" ++ nul ++ agentId ++ nul ++ credentialId
  | .agent agentId => ("binding" ++ nul ++ agentId ++ nul).toList.isPrefixOf key.toList
  | .credential credentialId => ("binding" ++ nul).toList.isPrefixOf key.toList &&
      (nul ++ credentialId).toList.isSuffixOf key.toList
  | .ruleSet ruleSetId => key = "set" ++ nul ++ ruleSetId
  | .clear => true

/-- The cache of `AgentRuleEvaluator`, over the type of a rule. -/
def agentRuleEvaluator (cfg : CacheConfig) (ρ : Type) :
    Kind RuleRequest String String (List ρ) RuleInvalidation where
  key := ruleKey
  flightKey := ruleKey
  possible _ _ := true
  evicts i key _ := i.evicts key
  stampedAtStart := false
  cacheTtl := cfg.cacheTtl
  maxEntries := cfg.maxEntries
  maxInFlight := defaultMaxInFlight

/-- What the token validator reads of an identity. -/
structure Identity where
  sub : String
  active : Bool
  expiresAt : Option Int
deriving DecidableEq, Repr

inductive TokenInvalidation
  | token (token : String)
  | actor (actorId : String)
  | clear
deriving DecidableEq, Repr

/-- The cache of `CachedTokenValidator`. A token is one actor's, so a read of it
    finds that actor or nobody. -/
def cachedTokenValidator (cfg : CacheConfig) (sha256 actorOf : String → String) :
    Kind String String String (Option Identity) TokenInvalidation where
  key := sha256
  flightKey := sha256
  possible token resolved := resolved.all (fun identity => identity.sub = actorOf token)
  evicts i key resolved :=
    match i with
    | .token token => key = sha256 token
    | .actor actorId => resolved.all (fun identity => identity.sub = actorId)
    | .clear => true
  stampedAtStart := true
  cacheTtl := cfg.cacheTtl
  maxEntries := cfg.maxEntries
  maxInFlight := defaultMaxInFlight

structure StatusRequest where
  actorId : String
  actorType : String
deriving DecidableEq, Repr

inductive StatusInvalidation
  | actor (actorId : String)
  | clear
deriving DecidableEq, Repr

/-- The cache of `CachedActorStatus`. Its flights go by a text of the key. -/
def cachedActorStatus (cfg : CacheConfig) :
    Kind StatusRequest (String × String) String Bool StatusInvalidation where
  key r := (r.actorType, r.actorId)
  flightKey r := r.actorType ++ ":" ++ r.actorId
  possible _ _ := true
  evicts i key _ :=
    match i with
    | .actor actorId => key.2 = actorId
    | .clear => true
  stampedAtStart := true
  cacheTtl := cfg.cacheTtl
  maxEntries := cfg.maxEntries
  maxInFlight := defaultMaxInFlight

structure DerivationRequest where
  agentId : String
  vendor : String
  name : String
  version : String
deriving DecidableEq, Repr

/-- `_make_key`. -/
def derivationKey (r : DerivationRequest) : String :=
  r.agentId ++ nul ++ r.vendor ++ nul ++ r.name ++ nul ++ r.version

inductive DerivationInvalidation
  | agent (agentId : String)
  | credential (credentialId : String)
  | clear
deriving DecidableEq, Repr

/-- The cache of `CachingCredentialDeriver`, over the type of a derivation. Any
    credential may matter to any entry, so a change of one clears the cache. -/
def cachingCredentialDeriver (cfg : CacheConfig) (δ : Type) :
    Kind DerivationRequest String String δ DerivationInvalidation where
  key := derivationKey
  flightKey := derivationKey
  possible _ _ := true
  evicts i key _ :=
    match i with
    | .agent agentId => (agentId ++ nul).toList.isPrefixOf key.toList
    | .credential _ => true
    | .clear => true
  stampedAtStart := false
  cacheTtl := cfg.cacheTtl
  maxEntries := cfg.maxEntries
  maxInFlight := defaultMaxInFlight

end Broker

end JenticOne
