import Mathlib

/-!
# Tables Under a Primary Key

A database table as the list of its rows together with the fact that no two
rows share a key, and the statements a transaction makes against it: reading
the row of a key, updating every row that meets a condition, and inserting a
row whose key is not taken.

The row type and its key are parameters. An update must leave keys alone, and
says so with a proof that is filled in by computation where the update names
other fields. Reading after an update is then the update of what was read,
which is what `get_updateWhere` says; what a caller proves about a table goes
through that lemma and its twin for insertion.

## Main definitions

* `Table`: Rows with distinct keys.
* `Table.get`: The row of a key.
* `Table.updateWhere`: Update every row meeting a condition.
* `Table.insert`: Add a row unless its key is taken.
* `Table.deleteWhere`: Remove every row meeting a condition.

## Theorems

* `get_eq_some_iff`: Reading a key finds exactly the row that carries it.
* `get_updateWhere`: Reading after an update.
* `get_insert`: Reading after an insertion.
-/

/-- Rows of type `ρ`, no two under one key. -/
structure Table {ρ κ : Type*} (key : ρ → κ) where
  rows : List ρ
  nodup : (rows.map key).Nodup
deriving DecidableEq, Repr

namespace Table

variable {ρ κ : Type*} [DecidableEq κ] {key : ρ → κ}

instance : Membership ρ (Table key) := ⟨fun t r => r ∈ t.rows⟩

def empty : Table key := ⟨[], List.nodup_nil⟩

/-- The row of a key, if there is one. -/
def get (t : Table key) (k : κ) : Option ρ :=
  t.rows.find? (fun r => key r = k)

/-- Apply `f`, which leaves keys alone, to every row that meets `p`. -/
def updateWhere (t : Table key) (p : ρ → Bool) (f : ρ → ρ)
    (hkey : ∀ r, key (f r) = key r := by exact fun _ => rfl) : Table key where
  rows := t.rows.map (fun r => if p r then f r else r)
  nodup := by
    have hsame : key ∘ (fun r => if p r then f r else r) = key := by
      funext r
      by_cases hp : p r
      · simp only [Function.comp_apply, if_pos hp, hkey]
      · simp only [Function.comp_apply, if_neg hp]
    rw [List.map_map, hsame]
    exact t.nodup

/-- Remove every row that meets `p`. -/
def deleteWhere (t : Table key) (p : ρ → Bool) : Table key where
  rows := t.rows.filter (fun r => !p r)
  nodup := t.nodup.sublist (List.filter_sublist.map key)

theorem get_eq_none_iff (t : Table key) (k : κ) : t.get k = none ↔ ∀ r ∈ t, key r ≠ k := by
  unfold get
  rw [List.find?_eq_none]
  simp only [decide_eq_true_eq]
  exact Iff.rfl

theorem get_eq_some_iff (t : Table key) (k : κ) (r : ρ) :
    t.get k = some r ↔ r ∈ t ∧ key r = k := by
  constructor
  · intro h
    have hk := List.find?_some h
    simp only [decide_eq_true_eq] at hk
    exact ⟨List.mem_of_find?_eq_some h, hk⟩
  · rintro ⟨hmem, hk⟩
    cases hg : t.get k with
    | none => exact absurd hk ((get_eq_none_iff t k).mp hg r hmem)
    | some s =>
        have hs := List.find?_some hg
        simp only [decide_eq_true_eq] at hs
        rw [List.inj_on_of_nodup_map t.nodup (List.mem_of_find?_eq_some hg) hmem (hs.trans hk.symm)]

theorem get_key {t : Table key} {k : κ} {r : ρ} (h : t.get k = some r) : key r = k :=
  ((get_eq_some_iff t k r).mp h).2

/-- Add a row, or `none` where its key is already taken. -/
def insert (t : Table key) (r : ρ) : Option (Table key) :=
  if h : t.get (key r) = none then
    some { rows := t.rows ++ [r]
           nodup := by
             rw [List.map_append, List.nodup_append]
             refine ⟨t.nodup, List.nodup_singleton _, fun a ha b hb => ?_⟩
             rcases List.mem_map.mp ha with ⟨x, hx, rfl⟩
             rw [List.map_singleton, List.mem_singleton] at hb
             rw [hb]
             exact (get_eq_none_iff t (key r)).mp h x hx }
  else none

omit [DecidableEq κ] in
theorem mem_updateWhere {t : Table key} {p : ρ → Bool} {f : ρ → ρ}
    (hkey : ∀ r, key (f r) = key r) {x : ρ} :
    x ∈ t.updateWhere p f hkey ↔ ∃ r ∈ t, (if p r then f r else r) = x :=
  List.mem_map

theorem get_updateWhere (t : Table key) (p : ρ → Bool) (f : ρ → ρ)
    (hkey : ∀ r, key (f r) = key r) (k : κ) :
    (t.updateWhere p f hkey).get k = (t.get k).map (fun r => if p r then f r else r) := by
  have hsame : ∀ r, key (if p r then f r else r) = key r := by
    intro r
    by_cases hp : p r
    · rw [if_pos hp, hkey]
    · rw [if_neg hp]
  unfold get updateWhere
  rw [List.find?_map]
  congr 1
  refine congrArg (fun q => List.find? q t.rows) ?_
  funext r
  simp only [Function.comp_apply, hsame]

theorem insert_eq_some {t t' : Table key} {r : ρ} (h : t.insert r = some t') :
    t.get (key r) = none ∧ t'.rows = t.rows ++ [r] := by
  unfold insert at h
  split at h
  · rename_i hfree
    rw [Option.some.injEq] at h
    rw [← h]
    exact ⟨hfree, rfl⟩
  · exact absurd h (by simp only [reduceCtorEq, not_false_eq_true])

theorem insert_ne_none {t : Table key} {r : ρ} (h : t.get (key r) = none) : t.insert r ≠ none := by
  unfold insert
  rw [dif_pos h]
  simp only [ne_eq, reduceCtorEq, not_false_eq_true]

theorem mem_insert {t t' : Table key} {r x : ρ} (h : t.insert r = some t') :
    x ∈ t' ↔ x ∈ t ∨ x = r := by
  have hrows := (insert_eq_some h).2
  change x ∈ t'.rows ↔ x ∈ t.rows ∨ x = r
  rw [hrows, List.mem_append, List.mem_singleton]

theorem get_insert {t t' : Table key} {r : ρ} (h : t.insert r = some t') (k : κ) :
    t'.get k = if key r = k then some r else t.get k := by
  by_cases hk : key r = k
  · rw [if_pos hk, get_eq_some_iff, mem_insert h]
    exact ⟨Or.inr rfl, hk⟩
  · rw [if_neg hk]
    unfold get
    rw [(insert_eq_some h).2, List.find?_append]
    simp [hk]

end Table
