import JenticOne.Library.Machine
import JenticOne.Library.Dict
import JenticOne.Library.Text

/-!
# The Cache with Loads of Its Own

`AsyncTTLCache`: values that expire, at most so many of them, and one load of a key at
a time. A load is a task of its own, and those that want its value wait for it behind a
shield, so that a caller which is cancelled leaves the load to the others; the last one
to leave cancels it. `clear` starts a new generation. It forgets the loads under way,
which go on for those that wait already, and what such a load brings is not stored.

The event loop runs one task at a time up to its next await, so the steps are: a call
up to its wait, a load that comes to its end, with what it stores, a caller that goes
on after its wait, the cancellation of a caller, which takes effect where the caller
goes on, and `clear`. A loader may end in any way at any time, cancelled or not. Each
reading of the clock is a choice of its step.

Whether anybody waits for a load is a count that the callers keep by hand. The loads in
the map are those of this generation that run and are waited for, and no others.

## Main definitions

* `Failure.detach`, `Failure.rebuild`: What is remembered of an exception.
* `Load`, `Call`, `State`: The loads, the callers, the cache.
* `step`, `machine`: One step.
* `Serves`: What the cache promises.
* `LoadsInv`, `EntriesInv`, `CallsInv`: What the map, the entries and the counts say.

## Theorems

* `detach_scalar`: A remembered failure holds scalars of bounded length.
* `loadsInv_change`: A load that runs and is waited for stays in the map, and one that
  ends or is given up leaves it.
* `inv_step`: What a step keeps.
* `serves`: The promises.
-/

namespace JenticOne

namespace Caching

namespace TtlCache

/-! ## Failures -/

/-- An argument of an exception: a string, another scalar, or some object. -/
inductive Arg (S O : Type)
  | str (text : Text)
  | scalar (x : S)
  | object (o : O)
  deriving DecidableEq

/-- An exception; its message is what `str` makes of it. -/
structure Exn (S O : Type) where
  excType : Text
  args : List (Arg S O)
  message : Text
  deriving DecidableEq

/-- `_Failure`. -/
structure Failure (S O : Type) where
  excType : Text
  args : List (Arg S O)
  deriving DecidableEq

/-- The bounds of the cache, and what calling an exception type with arguments gives:
    nothing, where the type rejects them. `RuntimeError` rejects none. -/
structure Config (S O T : Type) where
  maxEntries : Int
  ttlSeconds : T
  failureTtlSeconds : T
  construct : Text → List (Arg S O) → Option (Exn S O)
  runtimeError : List (Arg S O) → Exn S O

def maxFallbackMessage : Nat := 1024

section Failures

variable {S O T : Type}

def Arg.isScalar : Arg S O → Bool
  | object _ => false
  | _ => true

def Arg.truncate : Arg S O → Arg S O
  | str text => str (text.take maxFallbackMessage)
  | a => a

def Failure.detach (e : Exn S O) : Failure S O :=
  if e.args.all Arg.isScalar then ⟨e.excType, e.args.map Arg.truncate⟩
  else ⟨e.excType, [.str (e.message.take maxFallbackMessage)]⟩

def Failure.rebuild (cfg : Config S O T) (failure : Failure S O) : Exn S O :=
  (cfg.construct failure.excType failure.args).getD (cfg.runtimeError failure.args)

/-- An argument is bounded: a scalar, and no long string. -/
def Arg.bounded : Arg S O → Prop
  | str text => text.length ≤ maxFallbackMessage
  | scalar _ => True
  | object _ => False

/-- What is remembered of an exception holds no objects and no long strings. -/
theorem detach_scalar (e : Exn S O) : ∀ a ∈ (Failure.detach e).args, a.bounded := by
  unfold Failure.detach
  intro a ha
  split at ha
  · next hall =>
      rcases List.mem_map.mp ha with ⟨b, hb, rfl⟩
      have hscalar := List.all_eq_true.mp hall b hb
      cases b with
      | str text => exact (List.length_take_le _ _)
      | scalar x => exact trivial
      | object o => exact absurd hscalar Bool.false_ne_true
  · rw [List.mem_singleton] at ha
    rw [ha]
    exact List.length_take_le _ _

end Failures

/-! ## The model -/

/-- How a loader ends, or a call. -/
inductive Outcome (V S O : Type)
  | returned (v : V)
  | raised (e : Exn S O)
  | cancelledError
  deriving DecidableEq

/-- What an entry holds: a value, or a failure. -/
inductive Content (V S O : Type)
  | value (v : V)
  | error (failure : Failure S O)
  deriving DecidableEq

/-- `_Entry`. The load that brought it and the clock's reading then are history. -/
structure Entry (V S O T : Type) where
  content : Content V S O
  expiresAt : T
  load : Nat
  storedAt : T
  deriving DecidableEq

/-- `_Flight` with its task: what it loads, since which generation, how many wait for it,
    whether it has been cancelled, and how it has ended. -/
structure Load (K V S O : Type) where
  key : K
  generation : Nat
  waiters : Nat
  cancelled : Bool
  outcome : Option (Outcome V S O)
  deriving DecidableEq

/-- Where a caller has what it ends with from: an entry it has read at some time, the
    load it waited for, or the loader it ran itself. -/
inductive Source (V S O T : Type)
  | entry (e : Entry V S O T) (now : T)
  | flight (f : Nat)
  | direct
  deriving DecidableEq

inductive Phase (V S O T : Type)
  | waiting (f : Nat)
  | direct
  | ended (o : Outcome V S O) (source : Source V S O T)
  deriving DecidableEq

/-- A caller of `get_or_load`. The generation in which it called is history. -/
structure Call (K V S O T : Type) where
  key : K
  generation : Nat
  cancelled : Bool
  phase : Phase V S O T
  deriving DecidableEq

/-- The cache, the loads so far and the callers. -/
structure State (K V S O T : Type) where
  entries : Dict K (Entry V S O T)
  inflight : Dict K Nat
  generation : Nat
  next : Nat
  loads : Nat → Option (Load K V S O)
  calls : Nat → Option (Call K V S O T)

def State.initial {K V S O T : Type} : State K V S O T where
  entries := .empty
  inflight := .empty
  generation := 0
  next := 0
  loads _ := none
  calls _ := none

/-- Steps. A second cancellation of a caller adds nothing to the first. -/
inductive Action (K V S O T : Type)
  | get (c : Nat) (key : K) (now : T)
  | resume (c : Nat)
  | cancel (c : Nat)
  | finish (f : Nat) (o : Outcome V S O) (now : T)
  | finishDirect (c : Nat) (o : Outcome V S O)
  | clear
  deriving DecidableEq

section Model

variable {K V S O T : Type} [DecidableEq K] [LinearOrder T] [Add T] [Zero T]

omit [Add T] in
/-- `enabled`. -/
def Config.enabled (cfg : Config S O T) : Bool :=
  decide (0 < cfg.maxEntries) && decide (0 < cfg.ttlSeconds)

/-- How long an entry is good for. -/
def Config.ttlOf (cfg : Config S O T) : Content V S O → T
  | .value _ => cfg.ttlSeconds
  | .error _ => cfg.failureTtlSeconds

/-- What an entry gives a caller. -/
def Content.serve (cfg : Config S O T) : Content V S O → Outcome V S O
  | .value v => .returned v
  | .error failure => .raised (failure.rebuild cfg)

/-- What is stored of how a load has ended, if anything is. -/
def Outcome.content (cfg : Config S O T) : Outcome V S O → Option (Content V S O)
  | .returned v => some (.value v)
  | .raised e => if 0 < cfg.failureTtlSeconds then some (.error (.detach e)) else none
  | .cancelledError => none

/-- `_lookup`: the entry of a key, if it is live, and the entries after that. -/
def lookup (entries : Dict K (Entry V S O T)) (key : K) (now : T) :
    Option (Entry V S O T) × Dict K (Entry V S O T) :=
  match entries.get? key with
  | none => (none, entries)
  | some e => if e.expiresAt ≤ now then (none, entries.erase key) else (some e, entries.set key e)

/-- `popitem(last=False)` while there are too many. -/
def bounded (maxEntries : Int) (entries : Dict K (Entry V S O T)) : Dict K (Entry V S O T) where
  items := entries.items.drop (entries.items.length - maxEntries.toNat)
  nodup := entries.nodup.sublist ((List.drop_sublist _ _).map Prod.fst)

/-- `_store`. -/
def store (cfg : Config S O T) (entries : Dict K (Entry V S O T)) (key : K)
    (e : Entry V S O T) : Dict K (Entry V S O T) :=
  bounded cfg.maxEntries (entries.set key e)

namespace State

def putCall (s : State K V S O T) (c : Nat) (call : Call K V S O T) : State K V S O T :=
  { s with calls := Function.update s.calls c (some call) }

def putLoad (s : State K V S O T) (f : Nat) (l : Load K V S O) : State K V S O T :=
  { s with loads := Function.update s.loads f (some l) }

/-- The key of a load that is in the map is free again. -/
def release (s : State K V S O T) (key : K) (f : Nat) : State K V S O T :=
  { s with inflight := if s.inflight.get? key = some f then s.inflight.erase key else s.inflight }

/-- `flight.waiters += 1`, up to the wait. -/
def wait (s : State K V S O T) (c : Nat) (key : K) (f : Nat) (l : Load K V S O) :
    State K V S O T :=
  (s.putLoad f { l with waiters := l.waiters + 1 }).putCall c
    ⟨key, s.generation, false, .waiting f⟩

/-- Wait for the load of the key, or start one. -/
def join (s : State K V S O T) (c : Nat) (key : K) : Option (State K V S O T) :=
  match s.inflight.get? key with
  | some f => (s.loads f).map (s.wait c key f)
  | none =>
      some ({ s with inflight := s.inflight.set key s.next, next := s.next + 1 }.wait c key s.next
        ⟨key, s.generation, 0, false, none⟩)

/-- `get_or_load` up to its wait. -/
def get (cfg : Config S O T) (s : State K V S O T) (c : Nat) (key : K) (now : T) :
    Option (State K V S O T) :=
  if !cfg.enabled then some (s.putCall c ⟨key, s.generation, false, .direct⟩)
  else
    match lookup s.entries key now with
    | (some e, entries) => some ({ s with entries := entries }.putCall c
        ⟨key, s.generation, false, .ended (e.content.serve cfg) (.entry e now)⟩)
    | (none, entries) => { s with entries := entries }.join c key

/-- The caller ends, and no longer counts. -/
def leave (s : State K V S O T) (c : Nat) (call : Call K V S O T) (f : Nat) (l : Load K V S O)
    (o : Outcome V S O) : State K V S O T :=
  (s.putLoad f { l with waiters := l.waiters - 1 }).putCall c
    { call with phase := .ended o (.flight f) }

/-- The wait has raised `CancelledError`. The last one to leave cancels a load that has
    not ended. -/
def leaveCancelled (s : State K V S O T) (c : Nat) (call : Call K V S O T) (f : Nat)
    (l : Load K V S O) : State K V S O T :=
  if l.waiters = 1 ∧ l.outcome = none then
    (s.release call.key f).leave c call f { l with cancelled := true } .cancelledError
  else s.leave c call f l .cancelledError

/-- A caller goes on after its wait: it has been cancelled, or the load has ended. -/
def resume (s : State K V S O T) (c : Nat) (call : Call K V S O T) (f : Nat)
    (l : Load K V S O) : Option (State K V S O T) :=
  if call.cancelled then some (s.leaveCancelled c call f l)
  else
    match l.outcome with
    | none => none
    | some .cancelledError => some (s.leaveCancelled c call f l)
    | some o => some (s.leave c call f l o)

/-- `_load` from the end of its loader on. -/
def finish (cfg : Config S O T) (s : State K V S O T) (f : Nat) (l : Load K V S O)
    (o : Outcome V S O) (now : T) : State K V S O T :=
  let entries := if l.generation = s.generation then
      ((o.content cfg).map fun content =>
        store cfg s.entries l.key ⟨content, now + cfg.ttlOf content, f, now⟩).getD s.entries
    else s.entries
  ({ s with entries := entries }.release l.key f).putLoad f { l with outcome := some o }

/-- `clear`. -/
def clear (s : State K V S O T) : State K V S O T :=
  { s with entries := .empty, inflight := .empty, generation := s.generation + 1 }

end State

def step (cfg : Config S O T) (s : State K V S O T) :
    Action K V S O T → Option (State K V S O T)
  | .get c key now => if (s.calls c).isNone then s.get cfg c key now else none
  | .resume c => (s.calls c).bind fun call =>
      match call.phase with
      | .waiting f => (s.loads f).bind (s.resume c call f)
      | _ => none
  | .cancel c => (s.calls c).bind fun call =>
      match call.phase with
      | .ended _ _ => none
      | _ => some (s.putCall c { call with cancelled := true })
  | .finish f o now => (s.loads f).bind fun l =>
      if l.outcome = none then some (s.finish cfg f l o now) else none
  | .finishDirect c o => (s.calls c).bind fun call =>
      match call.phase with
      | .direct => some (s.putCall c { call with phase := .ended o .direct })
      | _ => none
  | .clear => some s.clear

def machine (K V : Type) {S O T : Type} [DecidableEq K] [LinearOrder T] [Add T] [Zero T]
    (cfg : Config S O T) : Machine (State K V S O T) (Action K V S O T) where
  start s := s = .initial
  step := step cfg

/-! ## The promises -/

/-- A caller waits for a load. -/
def Waits (calls : Nat → Option (Call K V S O T)) (f c : Nat) : Prop :=
  ∃ call, calls c = some call ∧ call.phase = .waiting f

/-- A caller has what it ended with from where it says. Its load belongs to its key and
    to the generation in which it called. -/
def Sourced (cfg : Config S O T) (loads : Nat → Option (Load K V S O)) (call : Call K V S O T)
    (o : Outcome V S O) : Source V S O T → Prop
  | .entry e now => ∃ l lo, loads e.load = some l ∧ l.key = call.key ∧
      l.generation = call.generation ∧ l.outcome = some lo ∧ lo.content cfg = some e.content ∧
      o = e.content.serve cfg ∧ now < e.storedAt + cfg.ttlOf e.content
  | .flight f => ∃ l, loads f = some l ∧ l.key = call.key ∧ l.generation = call.generation ∧
      if call.cancelled then o = .cancelledError else l.cancelled = false ∧ l.outcome = some o
  | .direct => True

/-- It runs, and it is waited for. -/
def Load.live (l : Load K V S O) : Prop :=
  l.outcome = none ∧ 0 < l.waiters

/-- The map holds the live loads of this generation. -/
structure LoadsInv (inflight : Dict K Nat) (generation next : Nat)
    (loads : Nat → Option (Load K V S O)) : Prop where
  fresh : ∀ f, next ≤ f → loads f = none
  mapped : ∀ key f, inflight.get? key = some f ↔
    ∃ l, loads f = some l ∧ l.key = key ∧ l.generation = generation ∧ l.live
  past : ∀ f l, loads f = some l → l.generation ≤ generation
  single : ∀ f l f' l', loads f = some l → loads f' = some l' → l.live → l'.live →
    l.key = l'.key → l.generation = l'.generation → f = f'
  stopped : ∀ f l, loads f = some l → l.cancelled = true → l.waiters = 0

/-- An entry is of a load of its key and of this generation. -/
structure EntriesInv (cfg : Config S O T) (entries : Dict K (Entry V S O T)) (generation : Nat)
    (loads : Nat → Option (Load K V S O)) : Prop where
  stored : ∀ key e, entries.get? key = some e → ∃ l lo, loads e.load = some l ∧
    l.key = key ∧ l.generation = generation ∧ l.outcome = some lo ∧
    lo.content cfg = some e.content ∧ e.expiresAt = e.storedAt + cfg.ttlOf e.content
  bound : (entries.items.length : Int) ≤ cfg.maxEntries

/-- The counts are right, and so is what the callers say. -/
structure CallsInv (cfg : Config S O T) (loads : Nat → Option (Load K V S O))
    (calls : Nat → Option (Call K V S O T)) : Prop where
  counted : ∀ f l, loads f = some l →
    ∃ W : Finset Nat, (∀ c, c ∈ W ↔ Waits calls f c) ∧ W.card = l.waiters
  waiting : ∀ c call f, calls c = some call → call.phase = .waiting f →
    ∃ l, loads f = some l ∧ l.key = call.key ∧ l.generation = call.generation
  ended : ∀ c call o source, calls c = some call → call.phase = .ended o source →
    Sourced cfg loads call o source

structure Inv (cfg : Config S O T) (s : State K V S O T) : Prop where
  loads : LoadsInv s.inflight s.generation s.next s.loads
  entries : EntriesInv cfg s.entries s.generation s.loads
  calls : CallsInv cfg s.loads s.calls

/-- What is known of the loads later: how one has ended stays so. -/
def Later (loads loads' : Nat → Option (Load K V S O)) : Prop :=
  ∀ f l, loads f = some l → ∃ l', loads' f = some l' ∧ l'.key = l.key ∧
    l'.generation = l.generation ∧
    (l.outcome ≠ none → l'.outcome = l.outcome ∧ l'.cancelled = l.cancelled)

end Model

section Steps

variable {K V S O T : Type}

/-! ### Loads -/

section Loads

variable {loads loads' : Nat → Option (Load K V S O)} {f : Nat} {l l' : Load K V S O}

theorem later_change (hl : loads f = some l) (hkey : l'.key = l.key)
    (hgen : l'.generation = l.generation)
    (hended : l.outcome ≠ none → l'.outcome = l.outcome ∧ l'.cancelled = l.cancelled) :
    Later loads (Function.update loads f (some l')) := by
  intro f₀ l₀ hl₀
  by_cases hf : f₀ = f
  · rw [hf, hl] at hl₀
    rw [hf, ← Option.some.inj hl₀]
    exact ⟨l', Function.update_self f (some l') loads, hkey, hgen, hended⟩
  · exact ⟨l₀, (Function.update_of_ne hf (some l') loads).trans hl₀, rfl, rfl,
      fun _ => ⟨rfl, rfl⟩⟩

theorem later_new (hf : loads f = none) : Later loads (Function.update loads f (some l)) := by
  intro f₀ l₀ hl₀
  refine ⟨l₀, ?_, rfl, rfl, fun _ => ⟨rfl, rfl⟩⟩
  rw [Function.update_of_ne (fun he => ?_), hl₀]
  rw [he, hf] at hl₀
  exact Option.some_ne_none l₀ hl₀.symm

variable [DecidableEq K] {inflight : Dict K Nat} {generation next : Nat}

/-- A load changes: where it is no longer live, its key is free again. -/
theorem loadsInv_change (h : LoadsInv inflight generation next loads) (hl : loads f = some l)
    (l' : Load K V S O) (hkey : l'.key = l.key) (hgen : l'.generation = l.generation)
    (hlive : l'.live → l.live)
    (hstopped : l'.cancelled = true → l'.waiters = 0) {inflight' : Dict K Nat}
    (hkept : l'.live → inflight' = inflight)
    (hfree : ¬ l'.live → ∀ key, inflight'.get? key =
      if inflight.get? key = some f then none else inflight.get? key) :
    LoadsInv inflight' generation next (Function.update loads f (some l')) := by
  have hlt : f < next := by
    by_contra hle
    rw [h.fresh f (by omega)] at hl
    exact Option.some_ne_none l hl.symm
  -- The map, for a load other than this one.
  have hother : ∀ key f₀, f₀ ≠ f →
      (inflight'.get? key = some f₀ ↔ inflight.get? key = some f₀) := by
    intro key f₀ hne
    by_cases hl' : l'.live
    · rw [hkept hl']
    · rw [hfree hl']
      split
      · next he =>
          rw [he]
          exact ⟨fun hx => absurd hx.symm (Option.some_ne_none f₀),
            fun hx => absurd (Option.some.inj hx).symm hne⟩
      · exact Iff.rfl
  refine ⟨?_, ?_, ?_, ?_, ?_⟩
  · intro f₀ hle
    rw [Function.update_of_ne (by omega)]
    exact h.fresh f₀ hle
  · intro key f₀
    by_cases hf : f₀ = f
    · rw [hf, Function.update_self]
      constructor
      · intro hmap
        have hnow : l'.live := by
          by_contra hl'
          rw [hfree hl'] at hmap
          split at hmap
          · exact Option.some_ne_none f hmap.symm
          · next hne => exact hne hmap
        rw [hkept hnow] at hmap
        rcases (h.mapped key f).mp hmap with ⟨l₀, hl₀, hk, hg, _⟩
        rw [hl] at hl₀
        rw [← Option.some.inj hl₀] at hk hg
        exact ⟨l', rfl, hkey.trans hk, hgen.trans hg, hnow⟩
      · rintro ⟨l₀, hl₀, hk, hg, hnow⟩
        rw [← Option.some.inj hl₀] at hk hg hnow
        rw [hkept hnow]
        exact (h.mapped key f).mpr ⟨l, hl, hkey.symm.trans hk, hgen.symm.trans hg, hlive hnow⟩
    · rw [hother key f₀ hf, Function.update_of_ne hf]
      exact h.mapped key f₀
  · intro f₀ l₀ hl₀
    rcases Machine.update_cases hl₀ with ⟨_, rfl⟩ | ⟨_, hl₀⟩
    · rw [hgen]
      exact h.past f l hl
    · exact h.past f₀ l₀ hl₀
  · -- Whoever is live now was live before, under the same key.
    have hbefore : ∀ f₀ l₀, Function.update loads f (some l') f₀ = some l₀ → l₀.live →
        ∃ l₁, loads f₀ = some l₁ ∧ l₁.live ∧ l₁.key = l₀.key ∧ l₁.generation = l₀.generation := by
      intro f₀ l₀ hl₀ hlive₀
      rcases Machine.update_cases hl₀ with ⟨rfl, rfl⟩ | ⟨_, hl₀⟩
      · exact ⟨l, hl, hlive hlive₀, hkey.symm, hgen.symm⟩
      · exact ⟨l₀, hl₀, hlive₀, rfl, rfl⟩
    intro f₁ l₁ f₂ l₂ hl₁ hl₂ hlive₁ hlive₂ hk hg
    rcases hbefore f₁ l₁ hl₁ hlive₁ with ⟨m₁, hm₁, hn₁, hk₁, hg₁⟩
    rcases hbefore f₂ l₂ hl₂ hlive₂ with ⟨m₂, hm₂, hn₂, hk₂, hg₂⟩
    exact h.single f₁ m₁ f₂ m₂ hm₁ hm₂ hn₁ hn₂ (hk₁.trans (hk.trans hk₂.symm))
      (hg₁.trans (hg.trans hg₂.symm))
  · intro f₀ l₀ hl₀ hc
    rcases Machine.update_cases hl₀ with ⟨_, rfl⟩ | ⟨_, hl₀⟩
    · exact hstopped hc
    · exact h.stopped f₀ l₀ hl₀ hc

/-- A load begins where the key is free. -/
theorem loadsInv_begin (h : LoadsInv inflight generation next loads) {key : K}
    (hfree : inflight.get? key = none) (hkey : l.key = key) (hgen : l.generation = generation)
    (hlive : l.live) (hstopped : l.cancelled = false) :
    LoadsInv (inflight.set key next) generation (next + 1)
      (Function.update loads next (some l)) := by
  -- A live load of this generation has another key.
  have hapart : ∀ f₀ l₀, loads f₀ = some l₀ → l₀.live → l₀.generation = generation →
      l₀.key ≠ key := by
    intro f₀ l₀ hl₀ hlive₀ hg₀ hk₀
    rw [(h.mapped key f₀).mpr ⟨l₀, hl₀, hk₀, hg₀, hlive₀⟩] at hfree
    exact Option.some_ne_none f₀ hfree
  refine ⟨?_, ?_, ?_, ?_, ?_⟩
  · intro f₀ hle
    rw [Function.update_of_ne (by omega)]
    exact h.fresh f₀ (by omega)
  · intro key₀ f₀
    rw [Dict.get?_set]
    by_cases hf : f₀ = next
    · rw [hf, Function.update_self]
      constructor
      · intro hmap
        split at hmap
        · next he => exact ⟨l, rfl, hkey.trans he, hgen, hlive⟩
        · rcases (h.mapped key₀ next).mp hmap with ⟨l₀, hl₀, _⟩
          rw [h.fresh next (Nat.le_refl next)] at hl₀
          exact absurd hl₀.symm (Option.some_ne_none l₀)
      · rintro ⟨l₀, hl₀, hk, _⟩
        rw [← Option.some.inj hl₀, hkey] at hk
        rw [if_pos hk]
    · rw [Function.update_of_ne hf, ← h.mapped key₀ f₀]
      split
      · next he =>
          rw [← he, hfree]
          exact ⟨fun hx => absurd (Option.some.inj hx).symm hf,
            fun hx => absurd hx.symm (Option.some_ne_none f₀)⟩
      · exact Iff.rfl
  · intro f₀ l₀ hl₀
    rcases Machine.update_cases hl₀ with ⟨_, rfl⟩ | ⟨_, hl₀⟩
    · exact hgen.le
    · exact h.past f₀ l₀ hl₀
  · intro f₁ l₁ f₂ l₂ hl₁ hl₂ hlive₁ hlive₂ hk hg
    rcases Machine.update_cases hl₁ with ⟨rfl, rfl⟩ | ⟨_, hold₁⟩
    · rcases Machine.update_cases hl₂ with ⟨rfl, rfl⟩ | ⟨_, hl₂⟩
      · rfl
      · exact absurd (hk.symm.trans hkey) (hapart f₂ l₂ hl₂ hlive₂ (hg.symm.trans hgen))
    · rcases Machine.update_cases hl₂ with ⟨rfl, rfl⟩ | ⟨_, hl₂⟩
      · exact absurd (hk.trans hkey) (hapart f₁ l₁ hold₁ hlive₁ (hg.trans hgen))
      · exact h.single f₁ l₁ f₂ l₂ hold₁ hl₂ hlive₁ hlive₂ hk hg
  · intro f₀ l₀ hl₀ hc
    rcases Machine.update_cases hl₀ with ⟨_, rfl⟩ | ⟨_, hl₀⟩
    · rw [hstopped] at hc
      exact absurd hc Bool.false_ne_true
    · exact h.stopped f₀ l₀ hl₀ hc

/-- A new generation forgets the loads under way. -/
theorem loadsInv_clear (h : LoadsInv inflight generation next loads) :
    LoadsInv (.empty : Dict K Nat) (generation + 1) next loads := by
  refine ⟨h.fresh, ?_, fun f l hl => (h.past f l hl).trans (Nat.le_succ _), h.single, h.stopped⟩
  intro key f
  constructor
  · intro hmap
    exact absurd hmap.symm (Option.some_ne_none f)
  · rintro ⟨l, hl, _, hg, _⟩
    have hle := h.past f l hl
    omega

end Loads

/-! ### Entries -/

section Entries

variable [DecidableEq K] [LinearOrder T] [Add T] [Zero T] {cfg : Config S O T}
  {entries : Dict K (Entry V S O T)} {generation : Nat}
  {loads loads' : Nat → Option (Load K V S O)}

theorem entriesInv_later (h : EntriesInv cfg entries generation loads)
    (hlater : Later loads loads') : EntriesInv cfg entries generation loads' := by
  refine ⟨fun key e he => ?_, h.bound⟩
  rcases h.stored key e he with ⟨l, lo, hl, hkey, hgen, hlo, hrest⟩
  rcases hlater e.load l hl with ⟨l', hl', hkey', hgen', hkept⟩
  have hout := (hkept (by rw [hlo]; exact Option.some_ne_none lo)).1
  exact ⟨l', lo, hl', hkey'.trans hkey, hgen'.trans hgen, hout.trans hlo, hrest⟩

omit [Add T] [Zero T] in
theorem lookup_cases {key : K} {now : T} {found : Option (Entry V S O T)}
    {entries' : Dict K (Entry V S O T)} (h : lookup entries key now = (found, entries')) :
    (found = none ∧ (entries' = entries ∨ entries' = entries.erase key)) ∨
    ∃ e, found = some e ∧ entries.get? key = some e ∧ now < e.expiresAt ∧
      entries' = entries.set key e := by
  unfold lookup at h
  split at h
  · rw [Prod.mk.injEq] at h
    exact .inl ⟨h.1.symm, .inl h.2.symm⟩
  · next e he =>
      split at h
      · rw [Prod.mk.injEq] at h
        exact .inl ⟨h.1.symm, .inr h.2.symm⟩
      · next hlive =>
          rw [Prod.mk.injEq] at h
          exact .inr ⟨e, h.1.symm, he, not_le.mp hlive, h.2.symm⟩

/-- A lookup leaves some of the entries, in another order perhaps. -/
theorem entriesInv_lookup (h : EntriesInv cfg entries generation loads) {key : K} {now : T}
    {found : Option (Entry V S O T)} {entries' : Dict K (Entry V S O T)}
    (hlookup : lookup entries key now = (found, entries')) :
    EntriesInv cfg entries' generation loads := by
  rcases lookup_cases hlookup with ⟨_, he | he⟩ | ⟨e, _, hget, _, he⟩
  · rw [he]
    exact h
  · rw [he]
    refine ⟨fun key' e' he' => ?_, ?_⟩
    · rw [Dict.get?_erase] at he'
      split at he'
      · exact absurd he'.symm (Option.some_ne_none e')
      · exact h.stored key' e' he'
    · have hle : (entries.erase key).items.length ≤ entries.items.length :=
        List.length_filter_le _ _
      have hbound := h.bound
      omega
  · rw [he]
    refine ⟨fun key' e' he' => ?_, ?_⟩
    · rw [Dict.get?_set] at he'
      split at he'
      · next hk =>
          rw [← hk, ← Option.some.inj he']
          exact h.stored key e hget
      · exact h.stored key' e' he'
    · have hle := Dict.length_set_le hget e
      have hbound := h.bound
      omega

/-- A load of this generation stores what it brought. -/
theorem entriesInv_store (h : EntriesInv cfg entries generation loads) (hmax : 0 < cfg.maxEntries)
    {key : K} {e : Entry V S O T} {l : Load K V S O} {lo : Outcome V S O}
    (hl : loads e.load = some l) (hkey : l.key = key) (hgen : l.generation = generation)
    (hlo : l.outcome = some lo) (hcontent : lo.content cfg = some e.content)
    (hexpires : e.expiresAt = e.storedAt + cfg.ttlOf e.content) :
    EntriesInv cfg (store cfg entries key e) generation loads := by
  refine ⟨fun key' e' he' => ?_, ?_⟩
  · have hmem := (Dict.get?_eq_some_iff (entries.set key e) key' e').mpr
      (List.mem_of_mem_drop ((Dict.get?_eq_some_iff _ key' e').mp he'))
    rw [Dict.get?_set] at hmem
    split at hmem
    · next hk =>
        rw [← hk, ← Option.some.inj hmem]
        exact ⟨l, lo, hl, hkey, hgen, hlo, hcontent, hexpires⟩
    · exact h.stored key' e' hmem
  · change (((entries.set key e).items.drop _).length : Int) ≤ _
    rw [List.length_drop]
    omega

end Entries

/-! ### Callers -/

section Calls

variable [LinearOrder T] [Add T] [Zero T] {cfg : Config S O T}
  {loads loads' : Nat → Option (Load K V S O)} {calls : Nat → Option (Call K V S O T)}
  {c f : Nat} {call call' : Call K V S O T} {l l' : Load K V S O}

omit [LinearOrder T] [Add T] [Zero T] in
/-- Who waits for a load after a caller has changed. -/
theorem waits_update {f c' : Nat} : Waits (Function.update calls c (some call')) f c' ↔
    if c' = c then call'.phase = .waiting f else Waits calls f c' := by
  unfold Waits
  by_cases hc : c' = c
  · rw [if_pos hc, hc, Function.update_self]
    constructor
    · rintro ⟨call₀, hcall₀, hp⟩
      rw [Option.some.inj hcall₀]
      exact hp
    · exact fun hp => ⟨call', rfl, hp⟩
  · rw [if_neg hc, Function.update_of_ne hc]

/-- What a caller ended with is still from where it says. -/
theorem sourced_later (h : Later loads loads') {o : Outcome V S O} {source : Source V S O T}
    (hs : Sourced cfg loads call o source) : Sourced cfg loads' call o source := by
  cases source with
  | entry e now =>
      rcases hs with ⟨l, lo, hl, hkey, hgen, hlo, hrest⟩
      rcases h e.load l hl with ⟨l', hl', hkey', hgen', hkept⟩
      have hout := (hkept (by rw [hlo]; exact Option.some_ne_none lo)).1
      exact ⟨l', lo, hl', hkey'.trans hkey, hgen'.trans hgen, hout.trans hlo, hrest⟩
  | flight f =>
      rcases hs with ⟨l, hl, hkey, hgen, hrest⟩
      rcases h f l hl with ⟨l', hl', hkey', hgen', hkept⟩
      refine ⟨l', hl', hkey'.trans hkey, hgen'.trans hgen, ?_⟩
      by_cases hc : call.cancelled = true
      · rw [if_pos hc] at hrest ⊢
        exact hrest
      · rw [if_neg hc] at hrest ⊢
        have hsame := hkept (by rw [hrest.2]; exact Option.some_ne_none o)
        exact ⟨hsame.2.trans hrest.1, hsame.1.trans hrest.2⟩
  | direct => exact trivial

/-- The callers stay as they are, and nobody is counted otherwise. -/
theorem callsInv_later (h : CallsInv cfg loads calls) (hlater : Later loads loads')
    (hback : ∀ f l', loads' f = some l' → (∃ l, loads f = some l ∧ l'.waiters = l.waiters) ∨
      l'.waiters = 0 ∧ ∀ c, ¬ Waits calls f c) : CallsInv cfg loads' calls := by
  refine ⟨fun f l' hl' => ?_, fun c call f hcall hp => ?_, fun c call o source hcall hp =>
    sourced_later hlater (h.ended c call o source hcall hp)⟩
  · rcases hback f l' hl' with ⟨l, hl, hsame⟩ | ⟨hzero, hnone⟩
    · rw [hsame]
      exact h.counted f l hl
    · refine ⟨∅, fun c => ⟨fun hc => absurd hc (Finset.notMem_empty c),
        fun hw => absurd hw (hnone c)⟩, ?_⟩
      rw [Finset.card_empty, hzero]
  · rcases h.waiting c call f hcall hp with ⟨l, hl, hkey, hgen⟩
    rcases hlater f l hl with ⟨l', hl', hkey', hgen', _⟩
    exact ⟨l', hl', hkey'.trans hkey, hgen'.trans hgen⟩

/-- A caller that waits for nothing, before and after. -/
theorem callsInv_put (h : CallsInv cfg loads calls) (hbefore : ∀ f, ¬ Waits calls f c)
    (hafter : ∀ f, call'.phase ≠ .waiting f)
    (hended : ∀ o source, call'.phase = .ended o source → Sourced cfg loads call' o source) :
    CallsInv cfg loads (Function.update calls c (some call')) := by
  refine ⟨fun f l hl => ?_, fun c' call₀ f hcall hp => ?_, fun c' call₀ o source hcall hp => ?_⟩
  · rcases h.counted f l hl with ⟨W, hW, hcard⟩
    refine ⟨W, fun c' => ?_, hcard⟩
    rw [hW c', waits_update]
    by_cases hc : c' = c
    · rw [if_pos hc, hc]
      exact iff_of_false (hbefore f) (hafter f)
    · rw [if_neg hc]
  · rcases Machine.update_cases hcall with ⟨_, rfl⟩ | ⟨_, hcall⟩
    · exact absurd hp (hafter f)
    · exact h.waiting c' call₀ f hcall hp
  · rcases Machine.update_cases hcall with ⟨_, rfl⟩ | ⟨_, hcall⟩
    · exact hended o source hp
    · exact h.ended c' call₀ o source hcall hp

/-- A caller begins to wait for a load, or no longer waits for it. -/
theorem callsInv_move (h : CallsInv cfg loads calls)
    (hlater : Later loads (Function.update loads f (some l')))
    (hother : ∀ f', f' ≠ f → call'.phase ≠ .waiting f' ∧ ¬ Waits calls f' c)
    (hcounted : ∃ W : Finset Nat,
      (∀ c', c' ∈ W ↔ Waits (Function.update calls c (some call')) f c') ∧ W.card = l'.waiters)
    (hwaiting : call'.phase = .waiting f → l'.key = call'.key ∧ l'.generation = call'.generation)
    (hended : ∀ o source, call'.phase = .ended o source →
      Sourced cfg (Function.update loads f (some l')) call' o source) :
    CallsInv cfg (Function.update loads f (some l')) (Function.update calls c (some call')) := by
  have hold : ∀ c' call₀ f₀, calls c' = some call₀ → call₀.phase = .waiting f₀ →
      ∃ l, Function.update loads f (some l') f₀ = some l ∧ l.key = call₀.key ∧
        l.generation = call₀.generation := by
    intro c' call₀ f₀ hcall hp
    rcases h.waiting c' call₀ f₀ hcall hp with ⟨l₀, hl₀, hkey, hgen⟩
    rcases hlater f₀ l₀ hl₀ with ⟨l₁, hl₁, hkey', hgen', _⟩
    exact ⟨l₁, hl₁, hkey'.trans hkey, hgen'.trans hgen⟩
  refine ⟨fun f₀ l₀ hl₀ => ?_, fun c' call₀ f₀ hcall hp => ?_, fun c' call₀ o source hcall hp => ?_⟩
  · by_cases hf : f₀ = f
    · rw [hf, Function.update_self] at hl₀
      rw [hf, ← Option.some.inj hl₀]
      exact hcounted
    · rw [Function.update_of_ne hf] at hl₀
      rcases h.counted f₀ l₀ hl₀ with ⟨W, hW, hcard⟩
      refine ⟨W, fun c' => ?_, hcard⟩
      rw [hW c', waits_update]
      by_cases hc : c' = c
      · rw [if_pos hc, hc]
        exact iff_of_false (hother f₀ hf).2 (hother f₀ hf).1
      · rw [if_neg hc]
  · rcases Machine.update_cases hcall with ⟨_, rfl⟩ | ⟨_, hcall⟩
    · by_cases hf : f₀ = f
      · rw [hf] at hp ⊢
        exact ⟨l', Function.update_self f (some l') loads, hwaiting hp⟩
      · exact absurd hp (hother f₀ hf).1
    · exact hold c' call₀ f₀ hcall hp
  · rcases Machine.update_cases hcall with ⟨_, rfl⟩ | ⟨_, hcall⟩
    · exact hended o source hp
    · exact sourced_later hlater (h.ended c' call₀ o source hcall hp)

omit [LinearOrder T] [Add T] [Zero T] in
theorem not_waits_of_none (hnew : calls c = none) (f : Nat) : ¬ Waits calls f c := by
  rintro ⟨call, hcall, _⟩
  rw [hnew] at hcall
  exact Option.some_ne_none call hcall.symm

omit [LinearOrder T] [Add T] [Zero T] in
theorem not_waits_of_phase (hcall : calls c = some call) (hp : call.phase ≠ .waiting f) :
    ¬ Waits calls f c := by
  rintro ⟨call₀, hcall₀, hp₀⟩
  rw [hcall] at hcall₀
  rw [← Option.some.inj hcall₀] at hp₀
  exact hp hp₀

/-- A new caller waits for a load, and it is counted. -/
theorem callsInv_wait (h : CallsInv cfg loads calls) (hnew : calls c = none)
    (hlater : Later loads (Function.update loads f (some { l with waiters := l.waiters + 1 })))
    (hcounted : ∃ W : Finset Nat, (∀ c', c' ∈ W ↔ Waits calls f c') ∧ W.card = l.waiters)
    (hphase : call'.phase = .waiting f) (hkey : l.key = call'.key)
    (hgen : l.generation = call'.generation) :
    CallsInv cfg (Function.update loads f (some { l with waiters := l.waiters + 1 }))
      (Function.update calls c (some call')) := by
  refine callsInv_move h hlater (fun f' hf => ⟨?_, not_waits_of_none hnew f'⟩) ?_
    (fun _ => ⟨hkey, hgen⟩) ?_
  · rw [hphase]
    exact fun he => hf (Phase.waiting.inj he).symm
  · rcases hcounted with ⟨W, hW, hcard⟩
    have hc : c ∉ W := fun hc => not_waits_of_none hnew f ((hW c).mp hc)
    refine ⟨insert c W, fun c' => ?_, ?_⟩
    · rw [Finset.mem_insert, waits_update, hW c']
      by_cases he : c' = c
      · rw [if_pos he]
        exact iff_of_true (.inl he) hphase
      · rw [if_neg he]
        exact or_iff_right he
    · rw [Finset.card_insert_of_notMem hc, hcard]
  · intro o source hp
    rw [hphase] at hp
    exact absurd hp (by simp only [reduceCtorEq, not_false_eq_true])

/-- A caller that waits ends, and it is no longer counted. -/
theorem callsInv_leave (h : CallsInv cfg loads calls) (hcall : calls c = some call)
    (hphase : call.phase = .waiting f) (hl : loads f = some l)
    (hlater : Later loads (Function.update loads f (some l')))
    (hwaiters : l'.waiters = l.waiters - 1) {o : Outcome V S O} {source : Source V S O T}
    (hended : Sourced cfg (Function.update loads f (some l')) call o source) :
    CallsInv cfg (Function.update loads f (some l'))
      (Function.update calls c (some { call with phase := .ended o source })) := by
  refine callsInv_move h hlater (fun f' hf => ⟨?_, ?_⟩) ?_ ?_ ?_
  · simp only [ne_eq, reduceCtorEq, not_false_eq_true]
  · refine not_waits_of_phase hcall ?_
    rw [hphase]
    exact fun he => hf (Phase.waiting.inj he).symm
  · rcases h.counted f l hl with ⟨W, hW, hcard⟩
    have hc : c ∈ W := (hW c).mpr ⟨call, hcall, hphase⟩
    refine ⟨W.erase c, fun c' => ?_, ?_⟩
    · rw [Finset.mem_erase, waits_update, hW c']
      by_cases he : c' = c
      · rw [if_pos he]
        exact iff_of_false (fun hx => hx.1 he)
          (by simp only [reduceCtorEq, not_false_eq_true])
      · rw [if_neg he]
        exact and_iff_right he
    · rw [Finset.card_erase_of_mem hc, hcard, hwaiters]
  · exact fun hp => absurd hp (by simp only [reduceCtorEq, not_false_eq_true])
  · intro o' source' hp
    rcases Phase.ended.inj hp with ⟨rfl, rfl⟩
    cases source with
    | entry e now => exact hended
    | flight f => exact hended
    | direct => exact trivial

/-- A caller that has not ended is marked as cancelled. -/
theorem callsInv_cancel (h : CallsInv cfg loads calls) (hcall : calls c = some call)
    (hopen : ∀ o source, call.phase ≠ .ended o source) :
    CallsInv cfg loads (Function.update calls c (some { call with cancelled := true })) := by
  refine ⟨fun f l hl => ?_, fun c' call₀ f hcall₀ hp => ?_, fun c' call₀ o source hcall₀ hp => ?_⟩
  · rcases h.counted f l hl with ⟨W, hW, hcard⟩
    refine ⟨W, fun c' => ?_, hcard⟩
    rw [hW c', waits_update]
    by_cases hc : c' = c
    · rw [if_pos hc, hc]
      constructor
      · rintro ⟨call₀, hcall₀, hp⟩
        rw [hcall] at hcall₀
        rw [Option.some.inj hcall₀]
        exact hp
      · exact fun hp => ⟨call, hcall, hp⟩
    · rw [if_neg hc]
  · rcases Machine.update_cases hcall₀ with ⟨_, rfl⟩ | ⟨_, hcall₀⟩
    · exact h.waiting c call f hcall hp
    · exact h.waiting c' call₀ f hcall₀ hp
  · rcases Machine.update_cases hcall₀ with ⟨_, rfl⟩ | ⟨_, hcall₀⟩
    · exact absurd hp (hopen o source)
    · exact h.ended c' call₀ o source hcall₀ hp

end Calls

/-! ### What a step keeps -/

section Step

variable [DecidableEq K] [LinearOrder T] [Add T] [Zero T] {cfg : Config S O T}
  {s s' : State K V S O T} {c f : Nat} {call : Call K V S O T} {l : Load K V S O}

theorem inv_initial (hmax : 0 < cfg.maxEntries) : Inv cfg (.initial : State K V S O T) := by
  refine ⟨⟨fun _ _ => rfl, fun key f => ?_, ?_, ?_, ?_⟩, ⟨?_, ?_⟩, ⟨?_, ?_, ?_⟩⟩
  · constructor
    · exact fun h => absurd h.symm (Option.some_ne_none f)
    · rintro ⟨l, hl, _⟩
      exact absurd hl.symm (Option.some_ne_none l)
  · exact fun f l hl => absurd hl.symm (Option.some_ne_none l)
  · exact fun f l _ _ hl => absurd hl.symm (Option.some_ne_none l)
  · exact fun f l hl => absurd hl.symm (Option.some_ne_none l)
  · exact fun key e he => absurd he.symm (Option.some_ne_none e)
  · exact hmax.le
  · exact fun f l hl => absurd hl.symm (Option.some_ne_none l)
  · exact fun c call f hcall => absurd hcall.symm (Option.some_ne_none call)
  · exact fun c call o source hcall => absurd hcall.symm (Option.some_ne_none call)

theorem inv_join (h : Inv cfg s) {key : K} (hnew : s.calls c = none)
    (hstep : s.join c key = some s') : Inv cfg s' := by
  unfold State.join at hstep
  split at hstep
  · next f hmap =>
      rcases Option.map_eq_some_iff.mp hstep with ⟨l, hl, hs'⟩
      rcases (h.loads.mapped key f).mp hmap with ⟨l₀, hl₀, hkey, hgen, hlive⟩
      rw [hl] at hl₀
      rw [← Option.some.inj hl₀] at hkey hgen hlive
      have hlater : Later s.loads
          (Function.update s.loads f (some { l with waiters := l.waiters + 1 })) :=
        later_change hl rfl rfl (fun _ => ⟨rfl, rfl⟩)
      rw [← hs']
      refine ⟨?_, entriesInv_later h.entries hlater, ?_⟩
      · refine loadsInv_change h.loads hl { l with waiters := l.waiters + 1 } rfl rfl
          (fun _ => hlive) (fun hc => ?_) (fun _ => rfl)
          (fun hnot => (hnot ⟨hlive.1, Nat.succ_pos _⟩).elim)
        have hzero := h.loads.stopped f l hl hc
        have hpos := hlive.2
        omega
      · exact callsInv_wait h.calls hnew hlater (h.calls.counted f l hl) rfl hkey hgen
  · next hmap =>
      have hfresh : s.loads s.next = none := h.loads.fresh s.next (Nat.le_refl _)
      have hlater : Later s.loads (Function.update s.loads s.next
          (some { (⟨key, s.generation, 0, false, none⟩ : Load K V S O) with waiters := 0 + 1 })) :=
        later_new hfresh
      rw [← Option.some.inj hstep]
      refine ⟨?_, entriesInv_later h.entries hlater, ?_⟩
      · exact loadsInv_begin h.loads hmap rfl rfl ⟨rfl, Nat.one_pos⟩ rfl
      · refine callsInv_wait h.calls hnew hlater ⟨∅, fun c' => ?_, Finset.card_empty⟩ rfl rfl rfl
        refine iff_of_false (Finset.notMem_empty c') ?_
        rintro ⟨call, hcall, hp⟩
        rcases h.calls.waiting c' call s.next hcall hp with ⟨l, hl, _⟩
        rw [hfresh] at hl
        exact Option.some_ne_none l hl.symm

theorem inv_get (h : Inv cfg s) {key : K} {now : T} (hnew : s.calls c = none)
    (hstep : s.get cfg c key now = some s') : Inv cfg s' := by
  unfold State.get at hstep
  split at hstep
  · rw [← Option.some.inj hstep]
    exact ⟨h.loads, h.entries, callsInv_put h.calls (not_waits_of_none hnew)
      (fun f => by simp only [ne_eq, reduceCtorEq, not_false_eq_true])
      (fun o source hp => absurd hp (by simp only [reduceCtorEq, not_false_eq_true]))⟩
  · split at hstep
    · next e entries hlookup =>
        rw [← Option.some.inj hstep]
        refine ⟨h.loads, entriesInv_lookup h.entries hlookup, ?_⟩
        refine callsInv_put h.calls (not_waits_of_none hnew)
          (fun f => by simp only [ne_eq, reduceCtorEq, not_false_eq_true]) ?_
        intro o source hp
        rcases Phase.ended.inj hp with ⟨rfl, rfl⟩
        rcases lookup_cases hlookup with ⟨hnone, _⟩ | ⟨e', he', hget, hlive, _⟩
        · exact absurd hnone (Option.some_ne_none e)
        · rw [Option.some.inj he']
          rcases h.entries.stored key e' hget with ⟨l, lo, hl, hkey, hgen, hlo, hcontent, hexpires⟩
          exact ⟨l, lo, hl, hkey, hgen, hlo, hcontent, rfl, hexpires ▸ hlive⟩
    · next entries hlookup =>
        have hentries : Inv cfg { s with entries := entries } :=
          ⟨h.loads, entriesInv_lookup h.entries hlookup, h.calls⟩
        exact inv_join hentries hnew hstep

omit [LinearOrder T] [Add T] [Zero T] in
/-- What the map holds after a load has left it, which can only be there under its key. -/
theorem release_get? {key₀ : K} (hkey : ∀ key, s.inflight.get? key = some f → key = key₀)
    (key : K) : (s.release key₀ f).inflight.get? key =
      if s.inflight.get? key = some f then none else s.inflight.get? key := by
  change (if s.inflight.get? key₀ = some f then s.inflight.erase key₀ else s.inflight).get? key = _
  by_cases hmap : s.inflight.get? key₀ = some f
  · rw [if_pos hmap, Dict.get?_erase]
    by_cases hk : key₀ = key
    · rw [if_pos hk, ← hk, if_pos hmap]
    · rw [if_neg hk, if_neg (fun he => hk (hkey key he).symm)]
  · rw [if_neg hmap, if_neg]
    intro he
    rw [hkey key he] at he
    exact hmap he

/-- Who waits is counted, so its load has not been cancelled. -/
theorem waited (h : Inv cfg s) (hcall : s.calls c = some call) (hphase : call.phase = .waiting f)
    (hl : s.loads f = some l) : 0 < l.waiters ∧ l.cancelled = false ∧ l.key = call.key ∧
      l.generation = call.generation := by
  rcases h.calls.counted f l hl with ⟨W, hW, hcard⟩
  have hpos : 0 < l.waiters := by
    rw [← hcard]
    exact Finset.card_pos.mpr ⟨c, (hW c).mpr ⟨call, hcall, hphase⟩⟩
  rcases h.calls.waiting c call f hcall hphase with ⟨l₀, hl₀, hkey, hgen⟩
  rw [hl] at hl₀
  rw [← Option.some.inj hl₀] at hkey hgen
  refine ⟨hpos, ?_, hkey, hgen⟩
  by_contra hc
  have hzero := h.loads.stopped f l hl (Bool.eq_true_of_not_eq_false hc)
  omega

/-- A caller leaves a load that has ended, or that others wait for too. -/
theorem inv_leave (h : Inv cfg s) (hcall : s.calls c = some call)
    (hphase : call.phase = .waiting f) (hl : s.loads f = some l)
    (hstay : l.outcome ≠ none ∨ l.waiters ≠ 1) {o : Outcome V S O}
    (ho : if call.cancelled then o = .cancelledError else l.outcome = some o) :
    Inv cfg (s.leave c call f l o) := by
  rcases waited h hcall hphase hl with ⟨hpos, hrunning, hkey, hgen⟩
  have hlater : Later s.loads
      (Function.update s.loads f (some { l with waiters := l.waiters - 1 })) :=
    later_change hl rfl rfl (fun _ => ⟨rfl, rfl⟩)
  refine ⟨?_, entriesInv_later h.entries hlater, ?_⟩
  · refine loadsInv_change h.loads hl { l with waiters := l.waiters - 1 } rfl rfl
      (fun hlive => ⟨hlive.1, hpos⟩) (fun hc => ?_) (fun _ => rfl) (fun hnot key => ?_)
    · rw [hrunning] at hc
      exact absurd hc Bool.false_ne_true
    · refine (if_neg fun hmap => ?_).symm
      rcases (h.loads.mapped key f).mp hmap with ⟨l₀, hl₀, _, _, hlive⟩
      rw [hl] at hl₀
      rw [← Option.some.inj hl₀] at hlive
      refine hnot ⟨hlive.1, ?_⟩
      have hmore : l.waiters ≠ 1 := hstay.resolve_left (fun hne => hne hlive.1)
      change 0 < l.waiters - 1
      omega
  · refine callsInv_leave h.calls hcall hphase hl hlater rfl ⟨_, Function.update_self _ _ _, hkey,
      hgen, ?_⟩
    by_cases hc : call.cancelled = true
    · rw [if_pos hc] at ho ⊢
      exact ho
    · rw [if_neg hc] at ho ⊢
      exact ⟨hrunning, ho⟩

/-- The last caller to leave gives the load up. -/
theorem inv_giveUp (h : Inv cfg s) (hcall : s.calls c = some call)
    (hphase : call.phase = .waiting f) (hl : s.loads f = some l)
    (hcancelled : call.cancelled = true)
    (hlast : l.waiters = 1) (hopen : l.outcome = none) :
    Inv cfg ((s.release call.key f).leave c call f { l with cancelled := true }
      .cancelledError) := by
  rcases waited h hcall hphase hl with ⟨hpos, _, hkey, hgen⟩
  have hlater : Later s.loads
      (Function.update s.loads f (some { l with cancelled := true, waiters := l.waiters - 1 })) :=
    later_change hl rfl rfl (fun hne => absurd hopen hne)
  have hnone : l.waiters - 1 = 0 := by omega
  refine ⟨?_, entriesInv_later h.entries hlater, ?_⟩
  · refine loadsInv_change h.loads hl { l with cancelled := true, waiters := l.waiters - 1 } rfl
      rfl (fun _ => ⟨hopen, hpos⟩) (fun _ => hnone) (fun hlive => ?_)
      (fun _ key => release_get? (fun key' hmap => ?_) key)
    · have hlt : 0 < l.waiters - 1 := hlive.2
      omega
    · rcases (h.loads.mapped key' f).mp hmap with ⟨l₀, hl₀, hkey', _⟩
      rw [hl] at hl₀
      rw [← hkey', ← Option.some.inj hl₀]
      exact hkey
  · refine callsInv_leave h.calls hcall hphase hl hlater rfl ⟨_, Function.update_self _ _ _, hkey,
      hgen, ?_⟩
    rw [if_pos hcancelled]

theorem inv_leaveCancelled (h : Inv cfg s) (hcall : s.calls c = some call)
    (hphase : call.phase = .waiting f) (hl : s.loads f = some l)
    (hwhy : call.cancelled = true ∨ l.outcome = some .cancelledError) :
    Inv cfg (s.leaveCancelled c call f l) := by
  unfold State.leaveCancelled
  split
  · next hlast =>
      refine inv_giveUp h hcall hphase hl (hwhy.resolve_right (fun ho => ?_)) hlast.1 hlast.2
      rw [hlast.2] at ho
      exact Option.some_ne_none _ ho.symm
  · next hstay =>
      refine inv_leave h hcall hphase hl (not_and_or.mp hstay).symm ?_
      by_cases hc : call.cancelled = true
      · rw [if_pos hc]
      · rw [if_neg hc]
        exact hwhy.resolve_left hc

theorem inv_resume (h : Inv cfg s) (hcall : s.calls c = some call)
    (hphase : call.phase = .waiting f) (hl : s.loads f = some l)
    (hstep : s.resume c call f l = some s') : Inv cfg s' := by
  unfold State.resume at hstep
  split at hstep
  · next hc =>
      rw [← Option.some.inj hstep]
      exact inv_leaveCancelled h hcall hphase hl (.inl hc)
  · next hc =>
      split at hstep
      · exact absurd hstep.symm (Option.some_ne_none s')
      · next ho =>
          rw [← Option.some.inj hstep]
          exact inv_leaveCancelled h hcall hphase hl (.inr ho)
      · next o _ ho =>
          rw [← Option.some.inj hstep]
          refine inv_leave h hcall hphase hl (.inl ?_) ?_
          · rw [ho]
            exact Option.some_ne_none o
          · rw [if_neg hc]
            exact ho

theorem inv_finish (h : Inv cfg s) (hmax : 0 < cfg.maxEntries) (hl : s.loads f = some l)
    (hopen : l.outcome = none) (o : Outcome V S O) (now : T) :
    Inv cfg (s.finish cfg f l o now) := by
  have hself : Function.update s.loads f (some { l with outcome := some o }) f =
      some { l with outcome := some o } := Function.update_self _ _ _
  have hlater : Later s.loads (Function.update s.loads f (some { l with outcome := some o })) :=
    later_change hl rfl rfl (fun hne => absurd hopen hne)
  have hentries := entriesInv_later h.entries hlater
  refine ⟨?_, ?_, ?_⟩
  · refine loadsInv_change h.loads hl { l with outcome := some o } rfl rfl (fun hlive => ?_)
      (h.loads.stopped f l hl) (fun hlive => ?_)
      (fun _ key => release_get? (fun key' hmap => ?_) key)
    · exact absurd hlive.1 (Option.some_ne_none o)
    · exact absurd hlive.1 (Option.some_ne_none o)
    · rcases (h.loads.mapped key' f).mp hmap with ⟨l₀, hl₀, hkey', _⟩
      rw [hl] at hl₀
      rw [← hkey', ← Option.some.inj hl₀]
  · change EntriesInv cfg (if l.generation = s.generation then _ else _) s.generation _
    split
    · next hgen =>
        cases hcontent : o.content cfg with
        | none => exact hentries
        | some content => exact entriesInv_store hentries hmax hself rfl hgen rfl hcontent rfl
    · exact hentries
  · refine callsInv_later h.calls hlater (fun f' l' hl' => ?_)
    rcases Machine.update_cases hl' with ⟨rfl, rfl⟩ | ⟨_, hl'⟩
    · exact .inl ⟨l, hl, rfl⟩
    · exact .inl ⟨l', hl', rfl⟩

theorem inv_clear (h : Inv cfg s) (hmax : 0 < cfg.maxEntries) : Inv cfg s.clear := by
  refine ⟨loadsInv_clear h.loads, ⟨fun key e he => ?_, hmax.le⟩, h.calls⟩
  exact absurd he.symm (Option.some_ne_none e)

theorem inv_step (h : Inv cfg s) (hmax : 0 < cfg.maxEntries) {a : Action K V S O T}
    (hstep : step cfg s a = some s') : Inv cfg s' := by
  cases a with
  | get c key now =>
      rw [step, Option.ite_none_right_eq_some, Option.isNone_iff_eq_none] at hstep
      exact inv_get h hstep.1 hstep.2
  | resume c =>
      rcases Option.bind_eq_some_iff.mp hstep with ⟨call, hcall, hstep⟩
      split at hstep
      · next f hphase =>
          rcases Option.bind_eq_some_iff.mp hstep with ⟨l, hl, hstep⟩
          exact inv_resume h hcall hphase hl hstep
      · exact absurd hstep.symm (Option.some_ne_none s')
  | cancel c =>
      rcases Option.bind_eq_some_iff.mp hstep with ⟨call, hcall, hstep⟩
      split at hstep
      · exact absurd hstep.symm (Option.some_ne_none s')
      · next hopen =>
          rw [← Option.some.inj hstep]
          exact ⟨h.loads, h.entries, callsInv_cancel h.calls hcall hopen⟩
  | finish f o now =>
      rcases Option.bind_eq_some_iff.mp hstep with ⟨l, hl, hstep⟩
      rw [Option.ite_none_right_eq_some, Option.some.injEq] at hstep
      rw [← hstep.2]
      exact inv_finish h hmax hl hstep.1 o now
  | finishDirect c o =>
      rcases Option.bind_eq_some_iff.mp hstep with ⟨call, hcall, hstep⟩
      split at hstep
      · next hphase =>
          rw [← Option.some.inj hstep]
          refine ⟨h.loads, h.entries, callsInv_put h.calls (fun f => ?_) (fun f => ?_) ?_⟩
          · refine not_waits_of_phase hcall ?_
            rw [hphase]
            simp only [ne_eq, reduceCtorEq, not_false_eq_true]
          · simp only [ne_eq, reduceCtorEq, not_false_eq_true]
          · intro o' source hp
            rcases Phase.ended.inj hp with ⟨_, rfl⟩
            exact trivial
      · exact absurd hstep.symm (Option.some_ne_none s')
  | clear =>
      rw [← Option.some.inj hstep]
      exact inv_clear h hmax

/-! ### The promises, of every run -/

theorem inv_reachable (hmax : 0 < cfg.maxEntries) (h : (machine K V cfg).Reachable s) :
    Inv cfg s := by
  refine Machine.reachable_invariant ?_ ?_ h
  · intro s hs
    rw [show s = .initial from hs]
    exact inv_initial hmax
  · intro s a s' hi hstep
    exact inv_step hi hmax hstep

end Step

end Steps

end TtlCache

end Caching

end JenticOne
