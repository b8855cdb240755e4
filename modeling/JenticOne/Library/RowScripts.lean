import JenticOne.Library.Machine

/-!
# Transactions Around One Row

Transactions at READ COMMITTED that are about one row of a main table each, and
about the dependent rows that carry its key. A transaction is a script: what it
does next may depend on what it has read. It reads the main row with or without
taking the row's lock, writes or erases it, which takes the lock, lists, changes
and inserts dependent rows, and commits.

What a transaction has written is beside the committed tables until it commits,
and every statement sees what is committed when it begins with what its own
transaction has written. The lock is held to the end of the transaction. A write
sets columns of the row as it is once the lock is held.

A change of a dependent row may spare it or end its life; it never revives one.
So it does not matter which of two transactions that change one row comes first,
and no locks of dependent rows are modelled. Whatever makes a statement fail, a
unique index or a check on other data, ends the transaction; here a transaction
may end at any time.

A script is `Safe` if no row that it may find leads it to a commit that breaks
what is asked of it. While the script has the lock, nobody else writes the row,
and dependent rows that it has swept stay swept as long as no one else commits
new ones. `Inv` says this of every open transaction.

## Main definitions

* `Schema`: The dependent rows and their changes.
* `Script`, `Tx`, `State`: Transactions and the tables.
* `run`: One statement.
* `machine`: Transactions side by side.
* `Spec`, `Safe`: What is asked of a script.
* `Fits`, `Inv`: What is known of an open transaction.
* `Idle`: No transaction is open.

## Theorems

* `view_live`: What a live row was before the changes.
* `inv_begin`, `inv_drop`, `inv_run`, `inv_commit`: What the steps keep.
* `reachesWhen_spec`: Safe programs keep what is asked.
-/

namespace RowScripts

/-- Dependent rows of a main table with rows `ρ`: their bodies `δ`, the changes
    `χ` that are made to them and the sets `θ` that a statement is about. The
    core of a body is what a change that spares it leaves. -/
structure Schema (ρ δ χ θ : Type) where
  apply : χ → δ → Option δ
  live : δ → Bool
  core : δ → δ
  spares : χ → δ → Bool
  selects : θ → Nat → δ → Bool
  /-- Nothing in the set outlives the change. -/
  settles : θ → χ → Bool
  /-- The main rows whose keys are remembered. -/
  marks : ρ → Bool
  live_of_apply : ∀ {c d d'}, apply c d = some d' → live d' = true →
    live d = true ∧ core d' = core d ∧ spares c d = true
  apply_of_spares : ∀ {c d}, spares c d = true → ∃ d', apply c d = some d' ∧ core d' = core d
  spares_core : ∀ c d, spares c (core d) = spares c d
  selects_core : ∀ t id d, selects t id (core d) = selects t id d
  not_spares_of_settles : ∀ {t c id d}, settles t c = true → selects t id d = true →
    spares c d = false

/-- What a transaction does from here on. -/
inductive Script (ρ δ χ θ : Type)
  | commit
  | abort
  | read (lock : Bool) (next : ρ → Script ρ δ χ θ)
  | list (target : θ) (next : List δ → Script ρ δ χ θ)
  | write (f : ρ → ρ) (next : Script ρ δ χ θ)
  | erase (next : Script ρ δ χ θ)
  | change (target : θ) (c : χ) (next : Script ρ δ χ θ)
  | insert (body : δ) (next : Script ρ δ χ θ)

/-- A script for the row of a key. One that is `marked` begins only once the row
    has been one of those remembered. -/
structure Program (κ ρ δ χ θ : Type) where
  key : κ
  marked : Bool
  script : Script ρ δ χ θ

/-- A dependent row. -/
structure Row (κ δ : Type) where
  owner : κ
  body : δ
  deriving DecidableEq

/-- An open transaction. `row` is what it has made of the main row, if anything;
    `swept` are the sets it has settled since it took the lock. -/
structure Tx (κ ρ δ χ θ : Type) where
  key : κ
  marked : Bool
  script : Script ρ δ χ θ
  row : Option (Option ρ)
  changes : Nat → List χ
  inserts : Nat → Option δ
  swept : List θ

structure State (κ ρ δ χ θ : Type) where
  rows : κ → Option ρ
  /-- Who has the lock of a main row. -/
  holder : κ → Option Nat
  dependents : Nat → Option (Row κ δ)
  /-- The next identifier of a dependent row. -/
  next : Nat
  txs : Nat → Option (Tx κ ρ δ χ θ)
  /-- The keys whose committed row has been one to remember. -/
  marked : κ → Bool

section Statements

variable {κ ρ δ χ θ : Type} [DecidableEq κ] (S : Schema ρ δ χ θ)

/-- A body after changes. -/
def settle (cs : List χ) (d : δ) : Option δ := cs.foldlM (fun d c => S.apply c d) d

/-- The main row as the transaction sees it. -/
def State.found (s : State κ ρ δ χ θ) (t : Tx κ ρ δ χ θ) : Option ρ := t.row.getD (s.rows t.key)

/-- A dependent row as the transaction sees it. -/
def State.view (s : State κ ρ δ χ θ) (t : Tx κ ρ δ χ θ) (id : Nat) : Option (Row κ δ) :=
  (((t.inserts id).map (Row.mk t.key)).or (s.dependents id)).bind fun r =>
    (settle S (t.changes id) r.body).map (Row.mk r.owner)

/-- A statement about the set is about the row. -/
def State.hits (s : State κ ρ δ χ θ) (t : Tx κ ρ δ χ θ) (target : θ) (id : Nat) : Bool :=
  (s.view S t id).any fun r => decide (r.owner = t.key) && S.selects target id r.body

/-- The bodies of a set. -/
def State.listed (s : State κ ρ δ χ θ) (t : Tx κ ρ δ χ θ) (target : θ) : List δ :=
  ((List.range s.next).filter (s.hits S t target)).filterMap fun id =>
    (s.view S t id).map Row.body

def State.put (s : State κ ρ δ χ θ) (tx : Nat) (t : Tx κ ρ δ χ θ) : State κ ρ δ χ θ :=
  { s with txs := Function.update s.txs tx (some t) }

def State.lock (s : State κ ρ δ χ θ) (tx : Nat) (key : κ) : State κ ρ δ χ θ :=
  { s with holder := Function.update s.holder key (some tx) }

/-- The row is locked by nobody else. -/
def State.Free (s : State κ ρ δ χ θ) (tx : Nat) (key : κ) : Prop :=
  s.holder key = none ∨ s.holder key = some tx

instance (s : State κ ρ δ χ θ) (tx : Nat) (key : κ) : Decidable (s.Free tx key) :=
  inferInstanceAs (Decidable (_ ∨ _))

/-- The end of a transaction: its lock is released. -/
def State.drop (s : State κ ρ δ χ θ) (tx : Nat) (t : Tx κ ρ δ χ θ) : State κ ρ δ χ θ :=
  { s with
    holder := if s.holder t.key = some tx then Function.update s.holder t.key none else s.holder
    txs := Function.update s.txs tx none }

/-- What it has written is put in the place of what was. -/
def State.commit (s : State κ ρ δ χ θ) (tx : Nat) (t : Tx κ ρ δ χ θ) : State κ ρ δ χ θ :=
  { s.drop tx t with
    rows := Function.update s.rows t.key (s.found t)
    dependents := s.view S t
    marked := if (s.found t).any S.marks then Function.update s.marked t.key true else s.marked }

def Tx.goto (t : Tx κ ρ δ χ θ) (next : Script ρ δ χ θ) : Tx κ ρ δ χ θ := { t with script := next }

/-- One statement of an open transaction, unless it waits for a lock. -/
def run (s : State κ ρ δ χ θ) (tx : Nat) (t : Tx κ ρ δ χ θ) : Option (State κ ρ δ χ θ) :=
  match t.script with
  | .commit => some (s.commit S tx t)
  | .abort => some (s.drop tx t)
  | .read lock next =>
      match s.found t with
      | none => some (s.drop tx t)
      | some row =>
          if lock then
            if s.Free tx t.key then some ((s.lock tx t.key).put tx (t.goto (next row))) else none
          else some (s.put tx (t.goto (next row)))
  | .list target next => some (s.put tx (t.goto (next (s.listed S t target))))
  | .write f next =>
      match s.found t with
      -- No row is left to be written: the flush fails.
      | none => some (s.drop tx t)
      | some row =>
          if s.Free tx t.key then
            some ((s.lock tx t.key).put tx { t.goto next with row := some (some (f row)) })
          else none
  | .erase next =>
      match s.found t with
      | none => some (s.put tx (t.goto next))
      | some _ =>
          if s.Free tx t.key then
            some ((s.lock tx t.key).put tx { t.goto next with row := some none })
          else none
  | .change target c next =>
      some (s.put tx { t.goto next with
        changes := fun id => if s.hits S t target id then t.changes id ++ [c] else t.changes id
        swept := if s.holder t.key = some tx ∧ S.settles target c then target :: t.swept
          else t.swept })
  | .insert body next =>
      some { s.put tx { t.goto next with inserts := Function.update t.inserts s.next (some body) }
        with next := s.next + 1 }

/-- A transaction that has done nothing yet. -/
def Program.start (p : Program κ ρ δ χ θ) : Tx κ ρ δ χ θ :=
  ⟨p.key, p.marked, p.script, none, fun _ => [], fun _ => none, []⟩

/-- Steps: a transaction begins with one of the operations, runs a statement, or
    is rolled back. -/
inductive Action (ι : Type)
  | begin_ (tx : Nat) (op : ι)
  | statement (tx : Nat)
  | rollback (tx : Nat)
  deriving DecidableEq, Repr

variable {ι : Type} (programs : ι → Program κ ρ δ χ θ)

def step (s : State κ ρ δ χ θ) : Action ι → Option (State κ ρ δ χ θ)
  | .begin_ tx op =>
      if (s.txs tx).isNone ∧ ((programs op).marked = true → s.marked (programs op).key = true) then
        some (s.put tx (programs op).start)
      else none
  | .statement tx => (s.txs tx).bind (run S s tx)
  | .rollback tx => (s.txs tx).map (s.drop tx)

def machine (start : State κ ρ δ χ θ → Prop) : Machine (State κ ρ δ χ θ) (Action ι) where
  start := start
  step := step S programs

end Statements

/-! ## What is asked of a script -/

/-- A transaction that has the lock: the committed row, the row as it has made
    it, the sets that it has swept and the bodies that it has inserted. -/
structure Held (ρ δ θ : Type) where
  base : ρ
  row : Option ρ
  swept : List θ
  inserted : List δ

/-- What is known of a transaction: what it has inserted without the lock, or
    what it has done with it. -/
inductive Stage (ρ δ θ : Type)
  | free (inserted : List δ)
  | held (h : Held ρ δ θ)

/-- What may be found, and what a commit must be like. A row is found under the
    lock by a marked or an unmarked script; a row that is overwritten as the
    lock is taken becomes another. Two inserted bodies may be together. -/
structure Spec (ρ δ θ : Type) where
  /-- The sets whose sweeps count. -/
  tracks : θ → Bool
  finds : Bool → ρ → Prop
  overwrites : ρ → ρ → Prop
  together : δ → δ → Prop
  commitFree : List δ → Prop
  commitHeld : Held ρ δ θ → Prop

section Safe

variable {κ ρ δ χ θ : Type} [DecidableEq κ] (S : Schema ρ δ χ θ) (P : Spec ρ δ θ) (marked : Bool)

/-- The script commits only as is asked, whatever it finds. -/
def Safe : Script ρ δ χ θ → Stage ρ δ θ → Prop
  | .commit, .free inserted => P.commitFree inserted
  | .commit, .held h => P.commitHeld h
  | .abort, _ => True
  | .read false next, .free inserted => ∀ row, Safe (next row) (.free inserted)
  | .read true next, .free inserted =>
      ∀ row, P.finds marked row → Safe (next row) (.held ⟨row, some row, [], inserted⟩)
  | .read _ next, .held h => ∀ row, h.row = some row → Safe (next row) (.held h)
  | .list _ next, stage => ∀ bodies, Safe (next bodies) stage
  | .write f next, .free inserted => ∀ row, P.finds marked row → P.overwrites row (f row) →
      Safe next (.held ⟨row, some (f row), [], inserted⟩)
  | .write f next, .held h =>
      ∀ row, h.row = some row → Safe next (.held { h with row := some (f row) })
  | .erase next, .free inserted => Safe next (.free inserted) ∧
      ∀ row, P.finds marked row → Safe next (.held ⟨row, none, [], inserted⟩)
  | .erase next, .held h => Safe next (.held { h with row := none })
  | .change _ _ next, .free inserted => Safe next (.free inserted)
  | .change target c next, .held h =>
      Safe next (.held { h with
        swept := if S.settles target c && P.tracks target then target :: h.swept else h.swept })
  | .insert body next, .free inserted => (∀ d ∈ inserted, P.together body d ∧ P.together d body) ∧
      Safe next (.free (body :: inserted))
  | .insert body next, .held h => (∀ d ∈ h.inserted, P.together body d ∧ P.together d body) ∧
      Safe next (.held { h with inserted := body :: h.inserted })

/-- A script that gives up is safe. -/
theorem safe_abort {S : Schema ρ δ χ θ} {P : Spec ρ δ θ} {marked : Bool}
    {stage : Stage ρ δ θ} : Safe S P marked (.abort : Script ρ δ χ θ) stage := by
  cases stage <;> (rw [Safe]; trivial)

end Safe

section Fits

variable {κ ρ δ χ θ : Type} [DecidableEq κ] (S : Schema ρ δ χ θ) (P : Spec ρ δ θ)

/-- What the transaction has inserted is among the bodies, and may be together. -/
structure Inserted (t : Tx κ ρ δ χ θ) (bodies : List δ) : Prop where
  mem : ∀ id d, t.inserts id = some d → d ∈ bodies
  together : ∀ id id' d d', id ≠ id' → t.inserts id = some d → t.inserts id' = some d' →
    P.together d d'

/-- What a transaction with the lock may rely on. -/
structure FitsHeld (s : State κ ρ δ χ θ) (tx : Nat) (t : Tx κ ρ δ χ θ) (h : Held ρ δ θ) :
    Prop where
  holds : s.holder t.key = some tx
  base : s.rows t.key = some h.base
  row : s.found t = h.row
  /-- No live row is left of a set that has been swept. -/
  swept : ∀ target ∈ h.swept, target ∈ t.swept ∧ P.tracks target = true ∧ ∀ id r, s.dependents id = some r →
    r.owner = t.key → S.selects target id r.body = true → S.live r.body = true →
    ∃ c ∈ t.changes id, S.spares c r.body = false
  inserted : Inserted P t h.inserted

def Fits (s : State κ ρ δ χ θ) (tx : Nat) (t : Tx κ ρ δ χ θ) : Stage ρ δ θ → Prop
  | .free inserted => s.holder t.key ≠ some tx ∧ t.row = none ∧ Inserted P t inserted
  | .held h => FitsHeld S P s tx t h

structure Inv (s : State κ ρ δ χ θ) : Prop where
  held : ∀ key tx, s.holder key = some tx → ∃ t, s.txs tx = some t ∧ t.key = key
  fresh : ∀ id, s.next ≤ id → s.dependents id = none
  pending : ∀ tx t id d, s.txs tx = some t → t.inserts id = some d →
    id < s.next ∧ s.dependents id = none
  apart : ∀ tx t tx' t' id d, s.txs tx = some t → s.txs tx' = some t' → tx ≠ tx' →
    t.inserts id = some d → t'.inserts id = none
  remembered : ∀ tx t, s.txs tx = some t → t.marked = true → s.marked t.key = true
  safe : ∀ tx t, s.txs tx = some t →
    ∃ stage, Safe S P t.marked t.script stage ∧ Fits S P s tx t stage

end Fits

/-! ## Views -/

section Views

variable {κ ρ δ χ θ : Type} [DecidableEq κ] {S : Schema ρ δ χ θ} {s : State κ ρ δ χ θ}
  {t : Tx κ ρ δ χ θ}

theorem settle_live {cs : List χ} {d d' : δ} (h : settle S cs d = some d')
    (hlive : S.live d' = true) :
    S.live d = true ∧ S.core d' = S.core d ∧ ∀ c ∈ cs, S.spares c d = true := by
  induction cs generalizing d with
  | nil =>
      rw [settle, List.foldlM_nil] at h
      rw [Option.some.inj h]
      exact ⟨hlive, rfl, fun c hc => absurd hc List.not_mem_nil⟩
  | cons c cs ih =>
      rw [settle, List.foldlM_cons] at h
      rcases Option.bind_eq_some_iff.mp h with ⟨d₁, happly, hrest⟩
      rcases ih hrest with ⟨hlive₁, hcore₁, hspares₁⟩
      rcases S.live_of_apply happly hlive₁ with ⟨hlive₀, hcore₀, hspares₀⟩
      refine ⟨hlive₀, hcore₁.trans hcore₀, fun c' hc' => ?_⟩
      rcases List.mem_cons.mp hc' with rfl | hc'
      · exact hspares₀
      · rw [← S.spares_core c' d, ← hcore₀, S.spares_core]
        exact hspares₁ c' hc'

theorem settle_of_spares {cs : List χ} {d : δ} (h : ∀ c ∈ cs, S.spares c d = true) :
    ∃ d', settle S cs d = some d' ∧ S.core d' = S.core d := by
  induction cs generalizing d with
  | nil => exact ⟨d, rfl, rfl⟩
  | cons c cs ih =>
      rcases S.apply_of_spares (h c List.mem_cons_self) with ⟨d₁, happly, hcore₁⟩
      have hrest : ∀ c' ∈ cs, S.spares c' d₁ = true := by
        intro c' hc'
        rw [← S.spares_core c' d₁, hcore₁, S.spares_core]
        exact h c' (List.mem_cons_of_mem _ hc')
      rcases ih hrest with ⟨d', hsettle, hcore⟩
      refine ⟨d', ?_, hcore.trans hcore₁⟩
      rw [settle, List.foldlM_cons, happly]
      exact hsettle

/-- A live row that the transaction sees is one that it has inserted or one that
    is committed, which its changes have spared. -/
theorem view_live {id : Nat} {r : Row κ δ} (h : s.view S t id = some r)
    (hlive : S.live r.body = true) :
    ∃ d, S.live d = true ∧ S.core r.body = S.core d ∧ (∀ c ∈ t.changes id, S.spares c d = true) ∧
      (t.inserts id = some d ∧ r.owner = t.key ∨
        t.inserts id = none ∧ s.dependents id = some ⟨r.owner, d⟩) := by
  unfold State.view at h
  rcases Option.bind_eq_some_iff.mp h with ⟨r₀, hr₀, hmap⟩
  rcases Option.map_eq_some_iff.mp hmap with ⟨d', hsettle, rfl⟩
  rcases settle_live hsettle hlive with ⟨hlive₀, hcore, hspares⟩
  refine ⟨r₀.body, hlive₀, hcore, hspares, ?_⟩
  cases hinserts : t.inserts id with
  | none =>
      rw [hinserts, Option.map_none, Option.none_or] at hr₀
      exact .inr ⟨rfl, hr₀⟩
  | some d =>
      rw [hinserts, Option.map_some, Option.some_or] at hr₀
      rw [← Option.some.inj hr₀]
      exact .inl ⟨rfl, rfl⟩

/-- A row that is not seen was not there. -/
theorem view_eq_none {id : Nat} (hinserts : t.inserts id = none) (h : s.dependents id = none) :
    s.view S t id = none := by
  unfold State.view
  rw [hinserts, h]
  rfl

/-- After a change that settles a set, no committed row of it is spared. -/
theorem not_spared_of_settles {target : θ} {c : χ} {id : Nat} {r : Row κ δ}
    (hsettles : S.settles target c = true) (hinserts : t.inserts id = none)
    (hr : s.dependents id = some r) (howner : r.owner = t.key)
    (hselects : S.selects target id r.body = true) :
    ∃ c' ∈ (if s.hits S t target id then t.changes id ++ [c] else t.changes id),
      S.spares c' r.body = false := by
  by_contra hall
  have hspares : ∀ c' ∈ (if s.hits S t target id then t.changes id ++ [c] else t.changes id),
      S.spares c' r.body = true := by
    intro c' hc'
    by_contra hc
    exact hall ⟨c', hc', Bool.not_eq_true _ ▸ hc⟩
  have hold : ∀ c' ∈ t.changes id, S.spares c' r.body = true := by
    intro c' hc'
    refine hspares c' ?_
    split
    · exact List.mem_append_left _ hc'
    · exact hc'
  -- Spared by all that has been done, the row is seen, so it is changed now.
  rcases settle_of_spares hold with ⟨d', hsettle, hcore⟩
  have hview : s.view S t id = some ⟨r.owner, d'⟩ := by
    unfold State.view
    rw [hinserts, hr, Option.map_none, Option.none_or, Option.bind_some, hsettle]
    rfl
  have hhits : s.hits S t target id = true := by
    rw [State.hits, hview, Option.any_some, Bool.and_eq_true, decide_eq_true_eq]
    refine ⟨howner, ?_⟩
    rw [← S.selects_core, hcore, S.selects_core]
    exact hselects
  rw [if_pos hhits] at hspares
  have hc := hspares c (List.mem_append_right _ List.mem_cons_self)
  rw [S.not_spares_of_settles hsettles hselects] at hc
  exact Bool.false_ne_true hc

end Views

/-! ## What the steps keep -/

section Steps

variable {κ ρ δ χ θ : Type} [DecidableEq κ] {S : Schema ρ δ χ θ} {P : Spec ρ δ θ}
  {s s₁ : State κ ρ δ χ θ} {tx : Nat} {t t' : Tx κ ρ δ χ θ} {stage : Stage ρ δ θ}

theorem put_self : (s.put tx t).txs tx = some t := Function.update_self _ _ _

theorem put_of_ne {tx₁ : Nat} (hne : tx₁ ≠ tx) : (s.put tx t).txs tx₁ = s.txs tx₁ :=
  Function.update_of_ne hne _ _

/-- What is known of a transaction rests on the committed tables and its lock. -/
theorem fits_of_agree (hrows : s₁.rows t.key = s.rows t.key)
    (hdependents : s₁.dependents = s.dependents)
    (hholder : s₁.holder t.key = some tx ↔ s.holder t.key = some tx)
    (h : Fits S P s tx t stage) : Fits S P s₁ tx t stage := by
  cases stage with
  | free inserted => exact ⟨fun hholds => h.1 (hholder.mp hholds), h.2⟩
  | held held =>
      have h : FitsHeld S P s tx t held := h
      exact {
        holds := hholder.mpr h.holds
        base := hrows.trans h.base
        row := by
          rw [State.found, hrows]
          exact h.row
        swept := by
          rw [hdependents]
          exact h.swept
        inserted := h.inserted }

/-- A transaction has written its row only under the lock. -/
theorem holds_of_row (h : Inv S P s) (ht : s.txs tx = some t) (hrow : t.row ≠ none) :
    s.holder t.key = some tx := by
  rcases h.safe tx t ht with ⟨stage, _, hfits⟩
  cases stage with
  | free inserted => exact absurd hfits.2.1 hrow
  | held held => exact FitsHeld.holds hfits

/-- A step that leaves the committed tables and concerns one transaction. -/
theorem inv_put (h : Inv S P s) (hrows : s₁.rows = s.rows)
    (hdependents : s₁.dependents = s.dependents) (htxs : s₁.txs = s.txs)
    (hnext : s.next ≤ s₁.next)
    (hholder : s₁.holder = s.holder ∨
      s.Free tx t'.key ∧ s₁.holder = Function.update s.holder t'.key (some tx))
    (hkey : ∀ t, s.txs tx = some t → t.key = t'.key)
    (hpending : ∀ id d, t'.inserts id = some d → id < s₁.next ∧ s.dependents id = none)
    (hapart : ∀ tx₁ t₁ id d, tx₁ ≠ tx → s.txs tx₁ = some t₁ → t'.inserts id = some d →
      t₁.inserts id = none)
    (hmarked : s₁.marked = s.marked) (hremembered : t'.marked = true → s.marked t'.key = true)
    (hsafe : ∃ stage, Safe S P t'.marked t'.script stage ∧ Fits S P s₁ tx t' stage) :
    Inv S P (s₁.put tx t') := by
  have hget : ∀ {tx₁ t₁}, (s₁.put tx t').txs tx₁ = some t₁ →
      tx₁ = tx ∧ t₁ = t' ∨ tx₁ ≠ tx ∧ s.txs tx₁ = some t₁ := by
    intro tx₁ t₁ h₁
    by_cases he : tx₁ = tx
    · rw [he, put_self] at h₁
      exact .inl ⟨he, (Option.some.inj h₁).symm⟩
    · rw [put_of_ne he, htxs] at h₁
      exact .inr ⟨he, h₁⟩
  have hother : ∀ {tx₁ key}, tx₁ ≠ tx → (s₁.holder key = some tx₁ ↔ s.holder key = some tx₁) := by
    intro tx₁ key hne
    rcases hholder with hsame | ⟨hfree, hlock⟩
    · rw [hsame]
    · rw [hlock, Function.update_apply]
      split
      · rename_i he
        rw [he, Option.some.injEq]
        constructor
        · exact fun heq => absurd heq.symm hne
        · intro heq
          rcases hfree with hnone | hself
          · rw [hnone] at heq
            exact absurd heq (by simp only [reduceCtorEq, not_false_eq_true])
          · rw [hself] at heq
            exact absurd (Option.some.inj heq).symm hne
      · exact Iff.rfl
  exact {
    held := by
      intro key tx₁ hlock
      change s₁.holder key = some tx₁ at hlock
      by_cases he : tx₁ = tx
      · refine ⟨t', ?_, ?_⟩
        · rw [he, put_self]
        · rcases hholder with hsame | ⟨_, hupdate⟩
          · rw [hsame, he] at hlock
            rcases h.held key tx hlock with ⟨t, ht, hk⟩
            rw [← hkey t ht, hk]
          · rw [hupdate, Function.update_apply] at hlock
            split at hlock
            · rename_i hk
              exact hk.symm
            · rw [he] at hlock
              rcases h.held key tx hlock with ⟨t, ht, hk⟩
              rw [← hkey t ht, hk]
      · rcases h.held key tx₁ ((hother he).mp hlock) with ⟨t₁, ht₁, hk⟩
        refine ⟨t₁, ?_, hk⟩
        rw [put_of_ne he, htxs]
        exact ht₁
    fresh := by
      intro id hid
      change s₁.dependents id = none
      rw [hdependents]
      exact h.fresh id (le_trans hnext hid)
    pending := by
      intro tx₁ t₁ id d ht₁ hd
      change id < s₁.next ∧ s₁.dependents id = none
      rw [hdependents]
      rcases hget ht₁ with ⟨_, rfl⟩ | ⟨_, hold⟩
      · exact hpending id d hd
      · exact ⟨lt_of_lt_of_le (h.pending tx₁ t₁ id d hold hd).1 hnext,
          (h.pending tx₁ t₁ id d hold hd).2⟩
    apart := by
      intro tx₁ t₁ tx₂ t₂ id d ht₁ ht₂ hne hd
      rcases hget ht₁ with ⟨rfl, rfl⟩ | ⟨hne₁, hold₁⟩
      · rcases hget ht₂ with ⟨he, _⟩ | ⟨hne₂, hold₂⟩
        · exact absurd he.symm hne
        · exact hapart tx₂ t₂ id d hne₂ hold₂ hd
      · rcases hget ht₂ with ⟨rfl, rfl⟩ | ⟨_, hold₂⟩
        · cases hd₂ : t₂.inserts id with
          | none => rfl
          | some d₂ =>
              rw [hapart tx₁ t₁ id d₂ hne₁ hold₁ hd₂] at hd
              exact absurd hd (by simp only [reduceCtorEq, not_false_eq_true])
        · exact h.apart tx₁ t₁ tx₂ t₂ id d hold₁ hold₂ hne hd
    remembered := by
      intro tx₁ t₁ ht₁ hm
      change s₁.marked t₁.key = true
      rw [hmarked]
      rcases hget ht₁ with ⟨_, rfl⟩ | ⟨_, hold⟩
      · exact hremembered hm
      · exact h.remembered tx₁ t₁ hold hm
    safe := by
      intro tx₁ t₁ ht₁
      rcases hget ht₁ with ⟨rfl, rfl⟩ | ⟨hne, hold⟩
      · rcases hsafe with ⟨stage, hsafe, hfits⟩
        exact ⟨stage, hsafe, fits_of_agree (s := s₁) rfl rfl Iff.rfl hfits⟩
      · rcases h.safe tx₁ t₁ hold with ⟨stage, hsafe, hfits⟩
        exact ⟨stage, hsafe,
          fits_of_agree (congrFun hrows _) hdependents (hother hne) hfits⟩ }

/-- The end of one transaction, where the committed tables are changed by it in
    a way that the others do not notice. -/
theorem inv_end (h : Inv S P s) (ht : s.txs tx = some t) {dependents : Nat → Option (Row κ δ)}
    {rows : κ → Option ρ} {marked : κ → Bool}
    (hfresh : ∀ id, s.dependents id = none → t.inserts id = none → dependents id = none)
    (hmarked : ∀ key, s.marked key = true → marked key = true)
    (hfits : ∀ tx₁ t₁ stage, tx₁ ≠ tx → s.txs tx₁ = some t₁ → Fits S P s tx₁ t₁ stage →
      Fits S P { s.drop tx t with rows := rows, dependents := dependents, marked := marked }
        tx₁ t₁ stage) :
    Inv S P { s.drop tx t with rows := rows, dependents := dependents, marked := marked } := by
  have hget : ∀ {tx₁ t₁}, (s.drop tx t).txs tx₁ = some t₁ → tx₁ ≠ tx ∧ s.txs tx₁ = some t₁ := by
    intro tx₁ t₁ h₁
    change Function.update s.txs tx none tx₁ = some t₁ at h₁
    rw [Function.update_apply] at h₁
    split at h₁
    · exact absurd h₁ (by simp only [reduceCtorEq, not_false_eq_true])
    · rename_i hne
      exact ⟨hne, h₁⟩
  exact {
    held := by
      intro key tx₁ hlock
      have hold : s.holder key = some tx₁ ∧ tx₁ ≠ tx := by
        change (if s.holder t.key = some tx then Function.update s.holder t.key none
          else s.holder) key = some tx₁ at hlock
        split at hlock
        · rw [Function.update_apply] at hlock
          split at hlock
          · exact absurd hlock (by simp only [reduceCtorEq, not_false_eq_true])
          · rename_i hne
            refine ⟨hlock, fun he => ?_⟩
            rw [he] at hlock
            rcases h.held key tx hlock with ⟨t₁, ht₁, hk⟩
            rw [ht] at ht₁
            rw [← Option.some.inj ht₁] at hk
            exact hne hk.symm
        · rename_i hnot
          refine ⟨hlock, fun he => ?_⟩
          rw [he] at hlock
          rcases h.held key tx hlock with ⟨t₁, ht₁, hk⟩
          rw [ht] at ht₁
          rw [← Option.some.inj ht₁] at hk
          rw [hk] at hnot
          exact hnot hlock
      rcases h.held key tx₁ hold.1 with ⟨t₁, ht₁, hk⟩
      refine ⟨t₁, ?_, hk⟩
      change Function.update s.txs tx none tx₁ = some t₁
      rw [Function.update_of_ne hold.2]
      exact ht₁
    fresh := by
      intro id hid
      refine hfresh id (h.fresh id hid) ?_
      cases hd : t.inserts id with
      | none => rfl
      | some d => exact absurd (h.pending tx t id d ht hd).1 (not_lt.mpr hid)
    pending := by
      intro tx₁ t₁ id d ht₁ hd
      rcases hget ht₁ with ⟨hne, hold⟩
      rcases h.pending tx₁ t₁ id d hold hd with ⟨hlt, hnone⟩
      exact ⟨hlt, hfresh id hnone (h.apart tx₁ t₁ tx t id d hold ht hne hd)⟩
    apart := by
      intro tx₁ t₁ tx₂ t₂ id d ht₁ ht₂ hne hd
      exact h.apart tx₁ t₁ tx₂ t₂ id d (hget ht₁).2 (hget ht₂).2 hne hd
    remembered := by
      intro tx₁ t₁ ht₁ hm
      exact hmarked _ (h.remembered tx₁ t₁ (hget ht₁).2 hm)
    safe := by
      intro tx₁ t₁ ht₁
      rcases hget ht₁ with ⟨hne, hold⟩
      rcases h.safe tx₁ t₁ hold with ⟨stage, hsafe, hfit⟩
      exact ⟨stage, hsafe, hfits tx₁ t₁ stage hne hold hfit⟩ }

/-- The lock of another transaction is still held. -/
theorem holder_drop {tx₁ : Nat} {key : κ} (hne : tx₁ ≠ tx) :
    (s.drop tx t).holder key = some tx₁ ↔ s.holder key = some tx₁ := by
  unfold State.drop
  dsimp only
  split
  · rename_i hself
    rw [Function.update_apply]
    split
    · rename_i he
      rw [he, hself, Option.some.injEq]
      exact ⟨fun hc => absurd hc (by simp only [reduceCtorEq, not_false_eq_true]),
        fun hc => absurd hc.symm hne⟩
    · exact Iff.rfl
  · exact Iff.rfl

theorem inv_drop (h : Inv S P s) (ht : s.txs tx = some t) : Inv S P (s.drop tx t) :=
  @inv_end _ _ _ _ _ _ _ _ _ _ _ h ht s.dependents s.rows s.marked (fun _ hnone _ => hnone)
    (fun _ hm => hm) fun _ _ _ hne _ hfits => fits_of_agree (s := s) rfl rfl (holder_drop hne) hfits

/-- A commit, where no other transaction has swept a set that the committed
    transaction has inserted into. -/
theorem inv_commit (h : Inv S P s) (ht : s.txs tx = some t)
    (hquiet : ∀ tx₁ t₁, tx₁ ≠ tx → s.txs tx₁ = some t₁ → s.holder t₁.key = some tx₁ →
      t₁.key = t.key → ∀ id d, t.inserts id = some d → ∀ target ∈ t₁.swept,
        P.tracks target = true → S.selects target id d = false) :
    Inv S P (s.commit S tx t) := by
  refine inv_end h ht (fun id hnone hinserts => view_eq_none hinserts hnone) ?_ ?_
  · intro key hm
    split
    · rw [Function.update_apply]
      split
      · rfl
      · exact hm
    · exact hm
  intro tx₁ t₁ stage hne ht₁ hfits
  cases stage with
  | free inserted => exact ⟨fun hc => hfits.1 ((holder_drop hne).mp hc), hfits.2⟩
  | held held =>
      have hfits : FitsHeld S P s tx₁ t₁ held := hfits
      have hrow : Function.update s.rows t.key (s.found t) t₁.key = s.rows t₁.key := by
        rw [Function.update_apply]
        split
        · rename_i hk
          -- The other one has the lock, so this one has not written the row.
          have hnone : t.row = none := by
            by_contra hwritten
            have hself := holds_of_row h ht hwritten
            rw [← hk, hfits.holds] at hself
            exact hne (Option.some.inj hself)
          rw [State.found, hnone, hk]
          rfl
        · rfl
      exact {
        holds := (holder_drop hne).mpr hfits.holds
        base := hrow.trans hfits.base
        row := by
          change t₁.row.getD (Function.update s.rows t.key (s.found t) t₁.key) = held.row
          rw [hrow]
          exact hfits.row
        swept := by
          intro target htarget
          rcases hfits.swept target htarget with ⟨hswept, htracks, hchanged⟩
          refine ⟨hswept, htracks, fun id r hr howner hselects hlive => ?_⟩
          rcases view_live hr hlive with ⟨d, hlive₀, hcore, _, ⟨hinserted, hown⟩ | ⟨_, hold⟩⟩
          · have hnot := hquiet tx₁ t₁ hne ht₁ hfits.holds (howner.symm.trans hown) id d hinserted
              target hswept htracks
            rw [← S.selects_core, ← hcore, S.selects_core, hselects] at hnot
            exact absurd hnot.symm Bool.false_ne_true
          · have hselects₀ : S.selects target id d = true := by
              rw [← S.selects_core, ← hcore, S.selects_core]
              exact hselects
            rcases hchanged id ⟨r.owner, d⟩ hold howner hselects₀ hlive₀ with ⟨c, hc, hspares⟩
            refine ⟨c, hc, ?_⟩
            rw [← S.spares_core, hcore, S.spares_core]
            exact hspares
        inserted := hfits.inserted }

/-- `inv_put` for a statement that inserts nothing. -/
theorem inv_put_same (h : Inv S P s) (ht : s.txs tx = some t) (hkey : t'.key = t.key)
    (hinserts : t'.inserts = t.inserts) (hmarked : t'.marked = t.marked)
    (hs₁ : s₁ = s ∨ s.Free tx t.key ∧ s₁ = s.lock tx t.key)
    (hsafe : ∃ stage, Safe S P t'.marked t'.script stage ∧ Fits S P s₁ tx t' stage) :
    Inv S P (s₁.put tx t') := by
  have hself : ∀ t₀, s.txs tx = some t₀ → t₀.key = t'.key := by
    intro t₀ ht₀
    rw [ht] at ht₀
    rw [← Option.some.inj ht₀, hkey]
  have hapart : ∀ tx₁ t₁ id d, tx₁ ≠ tx → s.txs tx₁ = some t₁ → t'.inserts id = some d →
      t₁.inserts id = none := by
    intro tx₁ t₁ id d hne ht₁ hd
    rw [hinserts] at hd
    exact h.apart tx t tx₁ t₁ id d ht ht₁ (Ne.symm hne) hd
  have hremembered : t'.marked = true → s.marked t'.key = true := by
    rw [hmarked, hkey]
    exact h.remembered tx t ht
  rcases hs₁ with rfl | ⟨hfree, rfl⟩
  · exact inv_put h rfl rfl rfl (le_refl _) (.inl rfl) hself
      (fun id d hd => h.pending tx t id d ht (hinserts ▸ hd)) hapart rfl hremembered hsafe
  · refine inv_put h rfl rfl rfl (le_refl _) (.inr ⟨hkey ▸ hfree, ?_⟩) hself
      (fun id d hd => h.pending tx t id d ht (hinserts ▸ hd)) hapart rfl hremembered hsafe
    rw [hkey]
    rfl

/-- What the row's lock gives to a transaction that has only inserted so far. -/
theorem fitsHeld_lock {inserted : List δ} {base : ρ} {row : Option ρ}
    (hfits : Fits S P s tx t (.free inserted)) (hbase : s.rows t.key = some base)
    (hkey : t'.key = t.key) (hinserts : t'.inserts = t.inserts)
    (hrow : t'.row.getD (s.rows t.key) = row) :
    Fits S P (s.lock tx t.key) tx t' (.held ⟨base, row, [], inserted⟩) :=
  show FitsHeld S P (s.lock tx t.key) tx t' ⟨base, row, [], inserted⟩ from {
    holds := by
      rw [hkey]
      exact Function.update_self _ _ _
    base := by
      rw [hkey]
      exact hbase
    row := by
      rw [State.found, hkey]
      exact hrow
    swept := fun target htarget => absurd htarget List.not_mem_nil
    inserted := by
      rcases hfits.2.2 with ⟨hmem, htogether⟩
      exact ⟨hinserts ▸ hmem, hinserts ▸ htogether⟩ }

/-- Taking the lock again changes nothing. -/
theorem lock_of_holds (h : s.holder t.key = some tx) : s.lock tx t.key = s := by
  rw [State.lock, ← h, Function.update_eq_self]

/-- What a transaction with the lock knows when it has gone on. -/
theorem fitsHeld_goto {held held' : Held ρ δ θ} (hfits : FitsHeld S P s tx t held)
    (hkey : t'.key = t.key) (hinserts : t'.inserts = t.inserts)
    (hchanges : t'.changes = t.changes) (hswept : t'.swept = t.swept)
    (hbase : held'.base = held.base) (hrow : t'.row.getD (s.rows t.key) = held'.row)
    (hsets : held'.swept = held.swept) (hbodies : held'.inserted = held.inserted) :
    FitsHeld S P s tx t' held' where
  holds := hkey ▸ hfits.holds
  base := by
    rw [hkey, hbase]
    exact hfits.base
  row := by
    rw [State.found, hkey]
    exact hrow
  swept := by
    rw [hsets, hswept, hchanges, hkey]
    exact hfits.swept
  inserted := by
    rw [hbodies]
    exact ⟨hinserts ▸ hfits.inserted.mem, hinserts ▸ hfits.inserted.together⟩

theorem fits_free_goto {inserted : List δ} (hfits : Fits S P s tx t (.free inserted))
    (hkey : t'.key = t.key) (hinserts : t'.inserts = t.inserts) (hrow : t'.row = t.row) :
    Fits S P s tx t' (.free inserted) := by
  refine ⟨?_, hrow.trans hfits.2.1, ⟨hinserts ▸ hfits.2.2.mem, hinserts ▸ hfits.2.2.together⟩⟩
  rw [hkey]
  exact hfits.1

/-- What has been inserted, with one body more. -/
theorem inserted_insert {bodies : List δ} {body : δ} (h : Inserted P t bodies)
    (hfresh : ∀ d, t.inserts s.next ≠ some d)
    (htogether : ∀ d ∈ bodies, P.together body d ∧ P.together d body)
    (hinserts : t'.inserts = Function.update t.inserts s.next (some body)) :
    Inserted P t' (body :: bodies) where
  mem id d hd := by
    rw [hinserts, Function.update_apply] at hd
    split at hd
    · rw [Option.some.inj hd]
      exact List.mem_cons_self
    · exact List.mem_cons_of_mem _ (h.mem id d hd)
  together id id' d d' hne hd hd' := by
    rw [hinserts, Function.update_apply] at hd hd'
    split at hd
    · rename_i hid
      split at hd'
      · rename_i hid'
        exact absurd (hid.trans hid'.symm) hne
      · rw [← Option.some.inj hd]
        exact (htogether d' (h.mem id' d' hd')).1
    · split at hd'
      · rw [← Option.some.inj hd']
        exact (htogether d (h.mem id d hd)).2
      · exact h.together id id' d d' hne hd hd'

section Run

variable {s' : State κ ρ δ χ θ} (h : Inv S P s) (ht : s.txs tx = some t)

include h ht

/-- What is found without having written is the committed row. -/
theorem found_of_free {inserted : List δ} (hfits : Fits S P s tx t (.free inserted)) :
    s.found t = s.rows t.key := by
  rw [State.found, hfits.2.1]
  rfl

theorem inv_read {lock : Bool} {next : ρ → Script ρ δ χ θ} (hscript : t.script = .read lock next)
    (hfinds : ∀ row, s.rows t.key = some row → P.finds t.marked row)
    (hrun : run S s tx t = some s') : Inv S P s' := by
  rcases h.safe tx t ht with ⟨stage, hsafe, hfits⟩
  rw [hscript] at hsafe
  rw [run, hscript] at hrun
  dsimp only at hrun
  split at hrun
  · rw [← Option.some.inj hrun]
    exact inv_drop h ht
  · rename_i row hfound
    cases stage with
    | free inserted =>
        have hbase : s.rows t.key = some row := (found_of_free h ht hfits).symm.trans hfound
        cases lock with
        | false =>
            rw [if_neg Bool.false_ne_true] at hrun
            rw [← Option.some.inj hrun]
            exact inv_put_same h ht rfl rfl rfl (.inl rfl) ⟨.free inserted, hsafe row,
              fits_free_goto hfits rfl rfl rfl⟩
        | true =>
            rw [if_pos rfl] at hrun
            split at hrun
            · rename_i hfree
              rw [← Option.some.inj hrun]
              refine inv_put_same h ht rfl rfl rfl (.inr ⟨hfree, rfl⟩)
                ⟨_, hsafe row (hfinds row hbase), fitsHeld_lock hfits hbase rfl rfl ?_⟩
              exact hfound
            · exact absurd hrun (by simp only [reduceCtorEq, not_false_eq_true])
    | held held =>
        have hfits : FitsHeld S P s tx t held := hfits
        have hrow : held.row = some row := hfits.row.symm.trans hfound
        have hnext : Safe S P t.marked (next row) (.held held) := by
          cases lock with
          | false => exact hsafe row hrow
          | true => exact hsafe row hrow
        have hgone : Inv S P (s.put tx (t.goto (next row))) :=
          inv_put_same h ht rfl rfl rfl (.inl rfl) ⟨.held held, hnext,
            fitsHeld_goto hfits rfl rfl rfl rfl rfl hfits.row rfl rfl⟩
        split at hrun
        · rw [if_pos (show s.Free tx t.key from .inr hfits.holds), lock_of_holds hfits.holds]
            at hrun
          rw [← Option.some.inj hrun]
          exact hgone
        · rw [← Option.some.inj hrun]
          exact hgone

theorem inv_list {target : θ} {next : List δ → Script ρ δ χ θ}
    (hscript : t.script = .list target next) (hrun : run S s tx t = some s') : Inv S P s' := by
  rcases h.safe tx t ht with ⟨stage, hsafe, hfits⟩
  rw [hscript] at hsafe
  rw [run, hscript] at hrun
  rw [← Option.some.inj hrun]
  refine inv_put_same h ht rfl rfl rfl (.inl rfl) ⟨stage, ?_, ?_⟩
  · cases stage with
    | free inserted => exact hsafe _
    | held held => exact hsafe _
  · cases stage with
    | free inserted => exact fits_free_goto hfits rfl rfl rfl
    | held held =>
        have hfits : FitsHeld S P s tx t held := hfits
        exact fitsHeld_goto hfits rfl rfl rfl rfl rfl hfits.row rfl rfl

theorem inv_write {f : ρ → ρ} {next : Script ρ δ χ θ} (hscript : t.script = .write f next)
    (hfinds : ∀ row, s.rows t.key = some row → P.finds t.marked row)
    (hover : s.holder t.key ≠ some tx → ∀ row, s.rows t.key = some row → P.overwrites row (f row))
    (hrun : run S s tx t = some s') : Inv S P s' := by
  rcases h.safe tx t ht with ⟨stage, hsafe, hfits⟩
  rw [hscript] at hsafe
  rw [run, hscript] at hrun
  dsimp only at hrun
  split at hrun
  · rw [← Option.some.inj hrun]
    exact inv_drop h ht
  · rename_i row hfound
    split at hrun
    · rename_i hfree
      rw [← Option.some.inj hrun]
      cases stage with
      | free inserted =>
          have hbase : s.rows t.key = some row := (found_of_free h ht hfits).symm.trans hfound
          exact inv_put_same h ht rfl rfl rfl (.inr ⟨hfree, rfl⟩)
            ⟨_, hsafe row (hfinds row hbase) (hover hfits.1 row hbase),
              fitsHeld_lock hfits hbase rfl rfl rfl⟩
      | held held =>
          have hfits : FitsHeld S P s tx t held := hfits
          rw [lock_of_holds hfits.holds]
          exact inv_put_same h ht rfl rfl rfl (.inl rfl)
            ⟨_, hsafe row (hfits.row.symm.trans hfound),
              fitsHeld_goto hfits rfl rfl rfl rfl rfl rfl rfl rfl⟩
    · exact absurd hrun (by simp only [reduceCtorEq, not_false_eq_true])

theorem inv_erase {next : Script ρ δ χ θ} (hscript : t.script = .erase next)
    (hfinds : ∀ row, s.rows t.key = some row → P.finds t.marked row)
    (hrun : run S s tx t = some s') : Inv S P s' := by
  rcases h.safe tx t ht with ⟨stage, hsafe, hfits⟩
  rw [hscript] at hsafe
  rw [run, hscript] at hrun
  dsimp only at hrun
  split at hrun
  · rename_i hfound
    rw [← Option.some.inj hrun]
    cases stage with
    | free inserted =>
        exact inv_put_same h ht rfl rfl rfl (.inl rfl) ⟨.free inserted, hsafe.1,
          fits_free_goto hfits rfl rfl rfl⟩
    | held held =>
        have hfits : FitsHeld S P s tx t held := hfits
        exact inv_put_same h ht rfl rfl rfl (.inl rfl)
          ⟨_, hsafe, fitsHeld_goto hfits rfl rfl rfl rfl rfl hfound rfl rfl⟩
  · rename_i row hfound
    split at hrun
    · rename_i hfree
      rw [← Option.some.inj hrun]
      cases stage with
      | free inserted =>
          have hbase : s.rows t.key = some row := (found_of_free h ht hfits).symm.trans hfound
          exact inv_put_same h ht rfl rfl rfl (.inr ⟨hfree, rfl⟩)
            ⟨_, hsafe.2 row (hfinds row hbase), fitsHeld_lock hfits hbase rfl rfl rfl⟩
      | held held =>
          have hfits : FitsHeld S P s tx t held := hfits
          rw [lock_of_holds hfits.holds]
          exact inv_put_same h ht rfl rfl rfl (.inl rfl)
            ⟨_, hsafe, fitsHeld_goto hfits rfl rfl rfl rfl rfl rfl rfl rfl⟩
    · exact absurd hrun (by simp only [reduceCtorEq, not_false_eq_true])

theorem inv_change {target : θ} {c : χ} {next : Script ρ δ χ θ}
    (hscript : t.script = .change target c next) (hrun : run S s tx t = some s') :
    Inv S P s' := by
  rcases h.safe tx t ht with ⟨stage, hsafe, hfits⟩
  rw [hscript] at hsafe
  rw [run, hscript] at hrun
  rw [← Option.some.inj hrun]
  cases stage with
  | free inserted =>
      exact inv_put_same h ht rfl rfl rfl (.inl rfl)
        ⟨.free inserted, hsafe, fits_free_goto hfits rfl rfl rfl⟩
  | held held =>
      have hfits : FitsHeld S P s tx t held := hfits
      refine inv_put_same h ht rfl rfl rfl (.inl rfl) ⟨_, hsafe, ?_⟩
      exact show FitsHeld S P s tx _ _ from {
        holds := hfits.holds
        base := hfits.base
        row := hfits.row
        swept := by
          intro target' htarget'
          -- The set that is settled now, or one that has been before.
          have hcases : target' = target ∧ S.settles target c = true ∧ P.tracks target = true ∨
              target' ∈ held.swept := by
            dsimp only at htarget'
            split at htarget'
            · rename_i hboth
              rw [Bool.and_eq_true] at hboth
              exact (List.mem_cons.mp htarget').imp (fun he => ⟨he, hboth⟩) id
            · exact .inr htarget'
          rcases hcases with ⟨rfl, hsettles, htracks⟩ | hold
          · refine ⟨?_, htracks, fun id r hr howner hselects _ => ?_⟩
            · dsimp only
              rw [if_pos ⟨hfits.holds, hsettles⟩]
              exact List.mem_cons_self
            · cases hinserts : t.inserts id with
              | none => exact not_spared_of_settles hsettles hinserts hr howner hselects
              | some d =>
                  rw [(h.pending tx t id d ht hinserts).2] at hr
                  exact absurd hr (by simp only [reduceCtorEq, not_false_eq_true])
          · rcases hfits.swept target' hold with ⟨hswept, htracks, hchanged⟩
            refine ⟨?_, htracks, fun id r hr howner hselects hlive => ?_⟩
            · dsimp only
              split
              · exact List.mem_cons_of_mem _ hswept
              · exact hswept
            · rcases hchanged id r hr howner hselects hlive with ⟨c', hc', hspares⟩
              refine ⟨c', ?_, hspares⟩
              dsimp only
              split
              · exact List.mem_append_left _ hc'
              · exact hc'
        inserted := ⟨hfits.inserted.mem, hfits.inserted.together⟩ }

theorem inv_insert {body : δ} {next : Script ρ δ χ θ} (hscript : t.script = .insert body next)
    (hrun : run S s tx t = some s') : Inv S P s' := by
  rcases h.safe tx t ht with ⟨stage, hsafe, hfits⟩
  rw [hscript] at hsafe
  rw [run, hscript] at hrun
  rw [← Option.some.inj hrun]
  have hfresh : ∀ d, t.inserts s.next ≠ some d :=
    fun d hd => absurd (h.pending tx t s.next d ht hd).1 (lt_irrefl _)
  change Inv S P (State.put { s with next := s.next + 1 } tx _)
  refine inv_put h rfl rfl rfl (Nat.le_succ _) (.inl rfl) ?_ ?_ ?_ rfl (h.remembered tx t ht) ?_
  · intro t₀ ht₀
    rw [ht] at ht₀
    rw [← Option.some.inj ht₀]
    rfl
  · intro id d hd
    dsimp only at hd
    rw [Function.update_apply] at hd
    split at hd
    · rename_i hid
      rw [hid]
      exact ⟨Nat.lt_succ_self _, h.fresh _ (le_refl _)⟩
    · exact ⟨Nat.lt_succ_of_lt (h.pending tx t id d ht hd).1, (h.pending tx t id d ht hd).2⟩
  · intro tx₁ t₁ id d hne ht₁ hd
    dsimp only at hd
    rw [Function.update_apply] at hd
    split at hd
    · rename_i hid
      cases hd₁ : t₁.inserts id with
      | none => rfl
      | some d₁ =>
          have := (h.pending tx₁ t₁ id d₁ ht₁ hd₁).1
          omega
    · exact h.apart tx t tx₁ t₁ id d ht ht₁ (Ne.symm hne) hd
  · cases stage with
    | free inserted =>
        exact ⟨_, hsafe.2, hfits.1, hfits.2.1, inserted_insert hfits.2.2 hfresh hsafe.1 rfl⟩
    | held held =>
        have hfits : FitsHeld S P s tx t held := hfits
        exact ⟨_, hsafe.2, show FitsHeld S P _ tx _ _ from {
          holds := hfits.holds
          base := hfits.base
          row := hfits.row
          swept := hfits.swept
          inserted := inserted_insert hfits.inserted hfresh hsafe.1 rfl }⟩

/-- A statement that is not a commit keeps the invariant. -/
theorem inv_run (hcommit : t.script ≠ .commit)
    (hfinds : ∀ row, s.rows t.key = some row → P.finds t.marked row)
    (hover : ∀ f next, t.script = .write f next → s.holder t.key ≠ some tx →
      ∀ row, s.rows t.key = some row → P.overwrites row (f row))
    (hrun : run S s tx t = some s') : Inv S P s' := by
  cases hscript : t.script with
  | commit => exact absurd hscript hcommit
  | abort =>
      rw [run, hscript] at hrun
      rw [← Option.some.inj hrun]
      exact inv_drop h ht
  | read lock next => exact inv_read h ht hscript hfinds hrun
  | list target next => exact inv_list h ht hscript hrun
  | write f next => exact inv_write h ht hscript hfinds (hover f next hscript) hrun
  | erase next => exact inv_erase h ht hscript hfinds hrun
  | change target c next => exact inv_change h ht hscript hrun
  | insert body next => exact inv_insert h ht hscript hrun

end Run

/-- A transaction begins. -/
theorem inv_begin {p : Program κ ρ δ χ θ} (h : Inv S P s) (hnew : s.txs tx = none)
    (hmarked : p.marked = true → s.marked p.key = true)
    (hsafe : Safe S P p.marked p.script (.free [])) : Inv S P (s.put tx p.start) := by
  refine inv_put h rfl rfl rfl (le_refl _) (.inl rfl) ?_ ?_ ?_ rfl hmarked
    ⟨.free [], hsafe, ?_⟩
  · intro t ht
    rw [hnew] at ht
    exact absurd ht (by simp only [reduceCtorEq, not_false_eq_true])
  · exact fun id d hd => absurd hd (by simp only [Program.start, reduceCtorEq, not_false_eq_true])
  · exact fun _ _ id d _ _ hd =>
      absurd hd (by simp only [Program.start, reduceCtorEq, not_false_eq_true])
  · refine ⟨fun hholds => ?_, rfl, ?_, ?_⟩
    · rcases h.held _ tx hholds with ⟨t, ht, _⟩
      rw [hnew] at ht
      exact absurd ht (by simp only [reduceCtorEq, not_false_eq_true])
    · exact fun id d hd =>
        absurd hd (by simp only [Program.start, reduceCtorEq, not_false_eq_true])
    · exact fun id _ d _ _ hd =>
        absurd hd (by simp only [Program.start, reduceCtorEq, not_false_eq_true])

/-- No transaction is open. -/
structure Idle (s : State κ ρ δ χ θ) : Prop where
  txs : ∀ tx, s.txs tx = none
  holder : ∀ key, s.holder key = none
  fresh : ∀ id, s.next ≤ id → s.dependents id = none

theorem inv_of_idle (h : Idle s) : Inv S P s where
  held key tx hlock := by
    rw [h.holder key] at hlock
    exact absurd hlock (by simp only [reduceCtorEq, not_false_eq_true])
  fresh := h.fresh
  pending tx t id d ht := by
    rw [h.txs tx] at ht
    exact absurd ht (by simp only [reduceCtorEq, not_false_eq_true])
  apart tx t tx' t' id d ht := by
    rw [h.txs tx] at ht
    exact absurd ht (by simp only [reduceCtorEq, not_false_eq_true])
  remembered tx t ht := by
    rw [h.txs tx] at ht
    exact absurd ht (by simp only [reduceCtorEq, not_false_eq_true])
  safe tx t ht := by
    rw [h.txs tx] at ht
    exact absurd ht (by simp only [reduceCtorEq, not_false_eq_true])

/-- Only a commit changes the committed tables. -/
theorem run_tables {s' : State κ ρ δ χ θ} (hcommit : t.script ≠ .commit)
    (hrun : run S s tx t = some s') :
    s'.rows = s.rows ∧ s'.dependents = s.dependents ∧ s'.marked = s.marked := by
  cases hscript : t.script with
  | commit => exact absurd hscript hcommit
  | abort | list target next | change target c next | insert body next =>
      rw [run, hscript] at hrun
      rw [← Option.some.inj hrun]
      exact ⟨rfl, rfl, rfl⟩
  | read lock next =>
      rw [run, hscript] at hrun
      dsimp only at hrun
      split at hrun
      · rw [← Option.some.inj hrun]
        exact ⟨rfl, rfl, rfl⟩
      · split at hrun
        · split at hrun
          · rw [← Option.some.inj hrun]
            exact ⟨rfl, rfl, rfl⟩
          · exact absurd hrun (by simp only [reduceCtorEq, not_false_eq_true])
        · rw [← Option.some.inj hrun]
          exact ⟨rfl, rfl, rfl⟩
  | write f next | erase next =>
      rw [run, hscript] at hrun
      dsimp only at hrun
      split at hrun
      · rw [← Option.some.inj hrun]
        exact ⟨rfl, rfl, rfl⟩
      · split at hrun
        · rw [← Option.some.inj hrun]
          exact ⟨rfl, rfl, rfl⟩
        · exact absurd hrun (by simp only [reduceCtorEq, not_false_eq_true])

/-- **Safe programs keep what is asked.** A property of the committed tables that
    every commit keeps holds in all states of the runs whose steps meet a
    condition, if the programs are safe and the condition and the property give
    what the programs rely on. -/
theorem reachesWhen_spec {ι : Type} {programs : ι → Program κ ρ δ χ θ}
    {start : State κ ρ δ χ θ → Prop} {ok : State κ ρ δ χ θ → Action ι → Prop}
    {Q : State κ ρ δ χ θ → Prop} (hstart : ∀ s, start s → Inv S P s ∧ Q s)
    (htables : ∀ s s' : State κ ρ δ χ θ, s'.rows = s.rows → s'.dependents = s.dependents →
      s'.marked = s.marked → Q s → Q s')
    (hsafe : ∀ op, Safe S P (programs op).marked (programs op).script (.free []))
    (hfinds : ∀ s key row m, Q s → s.rows key = some row → (m = true → s.marked key = true) →
      P.finds m row)
    (hover : ∀ s tx t f next, ok s (.statement tx) → s.txs tx = some t →
      t.script = .write f next → s.holder t.key ≠ some tx →
      ∀ row, s.rows t.key = some row → P.overwrites row (f row))
    (hcommit : ∀ s tx t, Inv S P s → Q s → ok s (.statement tx) → s.txs tx = some t →
      t.script = .commit → Q (s.commit S tx t) ∧
      ∀ tx₁ t₁, tx₁ ≠ tx → s.txs tx₁ = some t₁ → s.holder t₁.key = some tx₁ → t₁.key = t.key →
        ∀ id d, t.inserts id = some d → ∀ target ∈ t₁.swept, P.tracks target = true →
          S.selects target id d = false)
    {s : State κ ρ δ χ θ} (h : (machine S programs start).ReachesWhen ok s) :
    Inv S P s ∧ Q s := by
  refine Machine.reachesWhen_invariant (P := fun s => Inv S P s ∧ Q s) hstart ?_ h
  rintro s a s' ⟨hinv, hQ⟩ hok hstep
  cases a with
  | begin_ tx op =>
      simp only [machine, step, Option.ite_none_right_eq_some, Option.some.injEq,
        Option.isNone_iff_eq_none] at hstep
      rcases hstep with ⟨⟨hnew, hmarked⟩, rfl⟩
      exact ⟨inv_begin hinv hnew hmarked (hsafe op), htables s _ rfl rfl rfl hQ⟩
  | statement tx =>
      rcases Option.bind_eq_some_iff.mp hstep with ⟨t, ht, hrun⟩
      by_cases hscript : t.script = .commit
      · rcases hcommit s tx t hinv hQ hok ht hscript with ⟨hnext, hquiet⟩
        rw [run, hscript] at hrun
        rw [← Option.some.inj hrun]
        exact ⟨inv_commit hinv ht hquiet, hnext⟩
      · rcases run_tables hscript hrun with ⟨hrows, hdependents, hmarked⟩
        refine ⟨inv_run hinv ht hscript ?_ ?_ hrun, htables _ _ hrows hdependents hmarked hQ⟩
        · exact fun row hrow => hfinds s t.key row t.marked hQ hrow (hinv.remembered tx t ht)
        · exact fun f next hf hfree row hrow => hover s tx t f next hok ht hf hfree row hrow
  | rollback tx =>
      rcases Option.map_eq_some_iff.mp hstep with ⟨t, ht, rfl⟩
      exact ⟨inv_drop hinv ht, htables s _ rfl rfl rfl hQ⟩

end Steps

end RowScripts
