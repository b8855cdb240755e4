import JenticOne.Library.Machine
import JenticOne.Library.ReadCommitted
import JenticOne.Registry.Template

/-!
# Host Ownership

A host is served by one vendor at a time. A revision that goes live, by a
promote, by an import of a specification that has an origin or by the rollback
of an overlay, is held to it: the hosts it indexes are locked one after another,
then the live revisions of other vendors are searched for them, and only if
there is none is the revision made the current one of its API. The locks are
advisory, keyed by a hash of the host, and last until the transaction ends.

Hosts are compared as they are stored. What is locked is the host without the
dots at the end of its name, and what is searched for is that host without a dot
and with one.

The rows of `apis` are kept by their current revision, and an API without one has
no row here. A revision's state and the checks that read it, as those of the
host change guard, are among the reasons for which a transaction may be rolled
back at any time. A revision is not deleted: one that is gone is one that nobody
promotes.

## Main definitions

* `splitPort`, `canonicalHost`, `hostVariants`: The spellings of a host.
* `hostKey`: What a host is up to its spelling.
* `Op`, `Phase`, `State`: The transactions, and the tables with the locks.
* `findLiveHostsOfOtherVendors`: The search.
* `statement`, `machine`: One statement of a transaction, and the runs.

## Theorems

* `hostKey_of_spelt`: A host in the stored spelling is locked as what it is.
* `mem_hostVariants`: It is searched for by every host with its lock.
-/

namespace JenticOne

namespace Registry

namespace HostOwnership

/-! ## Spellings -/

section Spellings

variable (lib : Stdlib)

/-- `_split_port`: a host with another colon before its port is an address. -/
def splitPort (host : Text) : Text × Option Text :=
  let (name, sep, port) := host.rpartition ':'
  if sep && (port ≠ [] && port.all lib.isdigit) && !name.contains ':' then (name, some port)
  else (host, none)

def joinPort (name : Text) (port : Option Text) : Text := name ++ port.elim [] (':' :: ·)

/-- `_canonical_host` -/
def canonicalHost (host : Text) : Text :=
  let (name, port) := splitPort lib host
  if name.contains ':' then host else joinPort (name.rstrip '.') port

/-- `_host_variants` -/
def hostVariants (canonical : Text) : List Text :=
  let (name, port) := splitPort lib canonical
  if name.contains ':' then [canonical] else [canonical, joinPort (name ++ ['.']) port]

/-- The port is the default one of the scheme. -/
def defaultPort (scheme port : Text) : Bool :=
  (lib.int? port).any fun n => schemeDefaultPorts.lookup scheme = some n

/-- A host up to letter case, the default port and dots at the end of its name. -/
def hostKey (scheme host : Text) : Text :=
  let (name, port) := splitPort lib (lib.lower host)
  if name.contains ':' then lib.lower host
  else joinPort (name.rstrip '.') (port.filter fun p => !defaultPort lib scheme p)

/-- A host is stored in lower case, without the default port, and with at most
    one dot at the end of its name. -/
structure Spelt (scheme host : Text) : Prop where
  lower : lib.lower host = host
  port : ∀ p, (splitPort lib host).2 = some p → defaultPort lib scheme p = false
  dots : ¬ ['.', '.'] <:+ (splitPort lib host).1

variable {lib}

/-- What is taken for the port has digits only and what is before it no colon;
    without one the host is as it is. -/
theorem splitPort_spec (host : Text) :
    (∃ name port, splitPort lib host = (name, some port) ∧ host = joinPort name (some port) ∧
      ':' ∉ name ∧ ':' ∉ port ∧ port ≠ [] ∧ port.all lib.isdigit = true) ∨
      splitPort lib host = (host, none) := by
  by_cases hmem : ':' ∈ host
  · rcases Text.rpartition_of_mem hmem with ⟨name, port, hhost, hport, hparts⟩
    unfold splitPort
    rw [hparts]
    dsimp only
    split
    · next h =>
        rw [Bool.true_and, Bool.and_eq_true, Bool.and_eq_true, decide_eq_true_eq,
          Bool.not_eq_true', ← Bool.not_eq_true, List.contains_iff_mem] at h
        exact .inl ⟨name, port, rfl, hhost, h.2, hport, h.1.1, h.1.2⟩
    · exact .inr rfl
  · right
    unfold splitPort
    rw [Text.rpartition_of_not_mem hmem]
    rfl

/-- A name without a colon and a port of digits are told apart again. -/
theorem splitPort_joinPort {name port : Text} (hname : ':' ∉ name) (hport : ':' ∉ port)
    (hne : port ≠ []) (hdigits : port.all lib.isdigit = true) :
    splitPort lib (joinPort name (some port)) = (name, some port) := by
  have hparts : Text.rpartition ':' (joinPort name (some port)) = (name, true, port) :=
    Text.rpartition_append hport name
  have hcolon : name.contains ':' = false := by
    rw [Bool.eq_false_iff, ne_eq, List.contains_iff_mem]
    exact hname
  unfold splitPort
  rw [hparts]
  dsimp only
  rw [hcolon, hdigits, decide_eq_true hne]
  rfl

theorem splitPort_of_not_mem {name : Text} (hname : ':' ∉ name) :
    splitPort lib name = (name, none) := by
  unfold splitPort
  rw [Text.rpartition_of_not_mem hname]
  rfl

theorem not_mem_rstrip {c d : Char} {s : Text} (h : c ∉ s) : c ∉ s.rstrip d :=
  fun hc => h ((List.rdropWhile_prefix _ s).subset hc)

/-- A host in the stored spelling is locked as what it is. -/
theorem hostKey_of_spelt {scheme host : Text} (h : Spelt lib scheme host) :
    hostKey lib scheme host = canonicalHost lib host := by
  unfold hostKey canonicalHost
  rw [h.lower]
  dsimp only
  have hport : (splitPort lib host).2.filter (fun p => !defaultPort lib scheme p) =
      (splitPort lib host).2 := by
    cases hp : (splitPort lib host).2 with
    | none => rfl
    | some p =>
        rw [Option.filter_some, h.port p hp]
        rfl
  rw [hport]

/-- With at most one dot at its end a text has none or the one. -/
theorem eq_rstrip_of_dots {name : Text} (h : ¬ ['.', '.'] <:+ name) :
    name = name.rstrip '.' ∨ name = name.rstrip '.' ++ ['.'] := by
  have hname : name.rdropWhile (· = '.') ++ name.rtakeWhile (· = '.') = name :=
    List.rdropWhile_append_rtakeWhile
  have hdots : ∀ c ∈ name.rtakeWhile (· = '.'), c = '.' := by
    intro c hc
    have hdot := List.mem_rtakeWhile_imp hc
    exact of_decide_eq_true hdot
  unfold Text.rstrip
  rcases hrun : name.rtakeWhile (· = '.') with _ | ⟨c, rest⟩
  · left
    rw [hrun, List.append_nil] at hname
    exact hname.symm
  · rw [hrun] at hname hdots
    have hc : c = '.' := hdots c List.mem_cons_self
    cases rest with
    | nil =>
        right
        rw [hc] at hname
        exact hname.symm
    | cons d rest =>
        -- There are two dots at the end.
        exfalso
        have hall : c :: d :: rest = List.replicate (rest.length + 2) '.' :=
          List.eq_replicate_iff.mpr ⟨rfl, hdots⟩
        rw [hall, List.replicate_add] at hname
        exact h ⟨_, by rw [← hname, List.append_assoc]; rfl⟩

/-- A host in the stored spelling is searched for by every host with its lock. -/
theorem mem_hostVariants {scheme host : Text} (h : Spelt lib scheme host) :
    host ∈ hostVariants lib (canonicalHost lib host) := by
  rcases @splitPort_spec lib host with
    ⟨name, port, hsplit, hhost, hname, hport, hne, hdigits⟩ | hsplit
  · have hdots := h.dots
    rw [hsplit] at hdots
    have hcolon : ∀ {s : Text}, ':' ∉ s → s.contains ':' = false := by
      intro s hs
      rw [Bool.eq_false_iff, ne_eq, List.contains_iff_mem]
      exact hs
    have hcanonical : canonicalHost lib host = joinPort (name.rstrip '.') (some port) := by
      unfold canonicalHost
      rw [hsplit]
      dsimp only
      rw [hcolon hname]
      rfl
    unfold hostVariants
    rw [hcanonical, splitPort_joinPort (not_mem_rstrip hname) hport hne hdigits]
    dsimp only
    rw [hcolon (not_mem_rstrip hname), hhost]
    rcases eq_rstrip_of_dots hdots with hstrip | hstrip
    · rw [← hstrip]
      exact List.mem_cons_self
    · rw [← hstrip]
      exact List.mem_cons_of_mem _ List.mem_cons_self
  · have hdots := h.dots
    rw [hsplit] at hdots
    by_cases hmem : ':' ∈ host
    · have hcolon : host.contains ':' = true := List.contains_iff_mem.mpr hmem
      have hcanonical : canonicalHost lib host = host := by
        unfold canonicalHost
        rw [hsplit]
        dsimp only
        rw [if_pos hcolon]
      unfold hostVariants
      rw [hcanonical, hsplit]
      dsimp only
      rw [if_pos hcolon]
      exact List.mem_cons_self
    · have hcolon : ∀ {s : Text}, ':' ∉ s → ¬ s.contains ':' = true :=
        fun hs hc => hs (List.contains_iff_mem.mp hc)
      have hcanonical : canonicalHost lib host = host.rstrip '.' := by
        unfold canonicalHost
        rw [hsplit]
        dsimp only
        rw [if_neg (hcolon hmem)]
        exact List.append_nil _
      unfold hostVariants
      rw [hcanonical, splitPort_of_not_mem (not_mem_rstrip hmem)]
      dsimp only
      rw [if_neg (hcolon (not_mem_rstrip hmem))]
      rcases eq_rstrip_of_dots hdots with hstrip | hstrip
      · rw [← hstrip]
        exact List.mem_cons_self
      · refine List.mem_cons_of_mem _ (List.mem_singleton.mpr ?_)
        rw [← hstrip]
        exact (List.append_nil _).symm

end Spellings

/-! ## Tables -/

/-- The identity of an API. -/
structure ApiId where
  vendor : Text
  name : Text
  version : Text
  deriving DecidableEq

/-- A row of the URL index, by its host. The scheme is that of the server URL the
    row was built from; it is not stored. -/
structure IndexRow where
  scheme : Text
  host : Option Text
  deriving DecidableEq

/-- The host of a row that matches requests to it: not a template, not empty. -/
def IndexRow.concreteHost (row : IndexRow) : Option Text :=
  row.host.filter fun host => !host.contains '{' && host ≠ []

structure Revision where
  api : ApiId
  rows : List IndexRow

/-- The host that a search has found, and the API that serves it. -/
structure LiveHostOwner where
  host : Text
  api : ApiId
  deriving DecidableEq

/-- `_concrete_hosts` -/
def concreteHosts (rows : List IndexRow) : List Text :=
  (rows.filterMap IndexRow.concreteHost).dedup

/-- The hosts that are locked, in the order in which they are. -/
def canonicalHosts (lib : Stdlib) (rows : List IndexRow) : List Text :=
  (((concreteHosts rows).map (canonicalHost lib)).dedup).insertionSort (· ≤ ·)

/-- An import, which creates a revision and makes it the current one when the
    specification has an origin and is not held for review; a promote; and the
    rollback of an overlay, from the revision it was confirmed with to the one
    that was superseded. -/
inductive Op
  | importSpec (api : ApiId) (rows : List IndexRow) (goesLive : Bool)
  | promote (api : ApiId) (revision : Nat)
  | rollback (api : ApiId) (confirmed superseded : Nat)

def Op.api : Op → ApiId
  | .importSpec api _ _ => api
  | .promote api _ => api
  | .rollback api _ _ => api

def Op.creates : Op → Bool
  | .importSpec _ _ _ => true
  | _ => false

def Op.goesLive : Op → Bool
  | .importSpec _ _ goesLive => goesLive
  | _ => true

/-- The write of a rollback is a compare-and-set. -/
def Op.expects : Op → Option Nat → Bool
  | .rollback _ confirmed _, current => current = some confirmed
  | _, _ => true

/-- The revision a transaction is about, and what it indexes. -/
structure Candidate where
  id : Nat
  rows : List IndexRow

/-- How far a transaction has come. -/
inductive Phase
  | begun
  /-- The revision is known, or created. -/
  | loaded (c : Candidate)
  /-- The hosts still to be locked; then comes the search. -/
  | locking (c : Candidate) (todo : List Text)
  /-- The search has found nothing. -/
  | cleared (c : Candidate)
  /-- All but the commit is done. -/
  | finished (c : Candidate)

def Phase.candidate? : Phase → Option Candidate
  | .begun => none
  | .loaded c => some c
  | .locking c _ => some c
  | .cleared c => some c
  | .finished c => some c

structure Tx where
  op : Op
  phase : Phase

structure State where
  revisions : Nat → Option Revision
  nextId : Nat
  /-- The current revisions. -/
  apis : ReadCommitted.Rows ApiId Nat Nat
  hostLocks : Int → Option Nat
  txs : Nat → Option Tx

/-- The text methods of the language, and the hash of the advisory locks. -/
structure World where
  lib : Stdlib
  hashtext : Text → Int

variable (w : World)

/-- The revision that an API serves. -/
def State.live (s : State) (api : ApiId) : Option Revision :=
  (s.apis.committed.get? api).bind s.revisions

def lockKey (host : Text) : Int := w.hashtext ("registry.url_index.host:".toList ++ host)

/-- `find_live_hosts_of_other_vendors`, once the hosts are locked. -/
def findLiveHostsOfOtherVendors (s : State) (c : Candidate) (vendor : Text) :
    List LiveHostOwner :=
  let candidates := (canonicalHosts w.lib c.rows).flatMap (hostVariants w.lib)
  s.apis.committed.items.flatMap fun (api, current) =>
    if api.vendor ≠ vendor ∧ current ≠ c.id then
      ((((s.revisions current).elim [] Revision.rows).filterMap IndexRow.host).filter
        (· ∈ candidates)).map fun host => ⟨host, api⟩
    else []

/-! ## Statements -/

def State.put (s : State) (tx : Nat) (t : Tx) : State :=
  { s with txs := Function.update s.txs tx (some t) }

/-- The end of a transaction: its host locks are given back. -/
def State.release (s : State) (tx : Nat) : State :=
  { s with
    hostLocks := fun key => if s.hostLocks key = some tx then none else s.hostLocks key
    txs := Function.update s.txs tx none }

def State.abort (s : State) (tx : Nat) : State :=
  { s.release tx with apis := s.apis.rollback tx }

def State.commit (s : State) (tx : Nat) (op : Op) (c : Candidate) : State :=
  { s.release tx with
    apis := s.apis.commit tx
    revisions :=
      if op.creates then Function.update s.revisions c.id (some ⟨op.api, c.rows⟩)
      else s.revisions }

/-- The revision of the API, or there is none. -/
def State.loadRevision (s : State) (tx : Nat) (op : Op) (id : Nat) : State :=
  match (s.revisions id).filter fun r => r.api = op.api with
  | some r => s.put tx ⟨op, .loaded ⟨id, r.rows⟩⟩
  | none => s.abort tx

/-- What comes before the hosts are looked at. An import locks the row of its API
    first; an overlay has been confirmed with the current revision. -/
def load (s : State) (tx : Nat) (op : Op) : Option State :=
  match op with
  | .importSpec api rows _ =>
      if h : s.apis.Free tx api then
        some (State.put { s with apis := ReadCommitted.Rows.take h, nextId := s.nextId + 1 } tx
          ⟨op, .loaded ⟨s.nextId, rows⟩⟩)
      else none
  | .promote _ revision => some (s.loadRevision tx op revision)
  | .rollback api confirmed superseded =>
      if s.apis.committed.get? api = some confirmed then some (s.loadRevision tx op superseded)
      else some (s.abort tx)

/-- The next host is locked, once no other transaction has it. -/
def lockHost (s : State) (tx : Nat) (op : Op) (c : Candidate) (host : Text) (todo : List Text) :
    Option State :=
  let key := lockKey w host
  if s.hostLocks key = none ∨ s.hostLocks key = some tx then
    some (State.put { s with hostLocks := Function.update s.hostLocks key (some tx) } tx
      ⟨op, .locking c todo⟩)
  else none

/-- The revision becomes the current one, once no other transaction has the row. -/
def setCurrentRevision (s : State) (tx : Nat) (op : Op) (c : Candidate) : Option State :=
  if h : s.apis.Free tx op.api then
    if op.expects (s.apis.visible tx op.api) then
      some (State.put { s with apis := ReadCommitted.Rows.write h c.id } tx ⟨op, .finished c⟩)
    else some (s.abort tx)
  else none

/-- The next statement of a transaction. -/
def statement (s : State) (tx : Nat) (t : Tx) : Option State :=
  match t.phase with
  | .begun => load s tx t.op
  | .loaded c =>
      if t.op.goesLive then some (s.put tx ⟨t.op, .locking c (canonicalHosts w.lib c.rows)⟩)
      else some (s.put tx ⟨t.op, .finished c⟩)
  | .locking c (host :: todo) => lockHost w s tx t.op c host todo
  | .locking c [] =>
      if findLiveHostsOfOtherVendors w s c t.op.api.vendor = [] then
        some (s.put tx ⟨t.op, .cleared c⟩)
      else some (s.abort tx)
  | .cleared c => setCurrentRevision s tx t.op c
  | .finished c => some (s.commit tx t.op c)

inductive Action
  | begin_ (tx : Nat) (op : Op)
  | statement (tx : Nat)
  | rollback (tx : Nat)

def step (s : State) : Action → Option State
  | .begin_ tx op => if (s.txs tx).isNone then some (s.put tx ⟨op, .begun⟩) else none
  | .statement tx => (s.txs tx).bind (statement w s tx)
  | .rollback tx => (s.txs tx).map fun _ => s.abort tx

def State.empty : State := ⟨fun _ => none, 0, .empty, fun _ => none, fun _ => none⟩

/-- Runs from an empty registry. -/
def machine : Machine State Action := ⟨fun s => s = .empty, step w⟩

end HostOwnership

end Registry

end JenticOne
