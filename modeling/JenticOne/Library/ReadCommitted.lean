import JenticOne.Library.Dict

/-!
# Rows at READ COMMITTED

A table that transactions change at READ COMMITTED: every statement sees the
rows that were committed when it began, with what its own transaction has
written, and a row that a statement changes or locks stays locked until its
transaction ends.

A statement is taken row by row. It begins with the keys of the rows that meet
its condition; each of them is then taken once no other transaction has it
locked, and its condition is checked again on the row as it is by then. A row
that came to be in between is not among the keys.

What a transaction has written is kept beside the committed rows until it
commits. `owned` is the invariant of the whole: nothing is written that is not
locked, so no two transactions write one row, and a commit changes no row that
another transaction has locked.

## Main definitions

* `Rows`: Committed rows, what transactions have written, and locks.
* `visible`, `matching`: What a statement sees.
* `take`, `write`, `insert`: What a statement does to a row.
* `updateRow`: One row of an update.
* `commit`, `rollback`: The ends of a transaction.

## Theorems

* `mem_matching`: The keys a statement begins with.
* `committed_commit`: A commit puts what was written in the place of what was.
* `committed_commit_of_lock`: A row another transaction has locked stays.
-/

namespace Dict

variable {κ ν : Type*} [DecidableEq κ]

/-- The items of both, those of the second where both have a key. -/
def override (d e : Dict κ ν) : Dict κ ν := e.items.foldl (fun acc x => acc.set x.1 x.2) d

theorem get?_foldl_set {l : List (κ × ν)} (h : (l.map Prod.fst).Nodup) (d : Dict κ ν) (k : κ) :
    (l.foldl (fun acc x => acc.set x.1 x.2) d).get? k =
      ((l.find? (fun x => x.1 = k)).map Prod.snd).or (d.get? k) := by
  induction l generalizing d with
  | nil => rfl
  | cons x rest ih =>
      rw [List.map_cons, List.nodup_cons] at h
      rw [List.foldl_cons, ih h.2, get?_set, List.find?_cons]
      by_cases hx : x.1 = k
      · -- The key is not in the rest, so the item just stored is read.
        have hnone : rest.find? (fun y => decide (y.1 = k)) = none := by
          rw [List.find?_eq_none]
          intro y hy hk
          rw [decide_eq_true_eq] at hk
          exact h.1 (List.mem_map.mpr ⟨y, hy, hk.trans hx.symm⟩)
        rw [hnone, decide_eq_true hx, if_pos hx]
        rfl
      · rw [decide_eq_false hx, if_neg hx]

theorem get?_override (d e : Dict κ ν) (k : κ) :
    (d.override e).get? k = (e.get? k).or (d.get? k) :=
  get?_foldl_set e.nodup d k

/-- A sum over both is at most the two sums. -/
theorem sumBy_override_le (d e : Dict κ ν) (f : κ → ν → Nat) :
    (d.override e).sumBy f ≤ d.sumBy f + e.sumBy f := by
  unfold override
  have h : ∀ (l : List (κ × ν)) (d : Dict κ ν),
      (l.foldl (fun acc x => acc.set x.1 x.2) d).sumBy f ≤
        d.sumBy f + (l.map fun x => f x.1 x.2).sum := by
    intro l
    induction l with
    | nil =>
        intro d
        simp only [List.foldl_nil, List.map_nil, List.sum_nil, Nat.add_zero, Nat.le_refl]
    | cons x rest ih =>
        intro d
        have hrest := ih (d.set x.1 x.2)
        have hset := sumBy_set d f x.1 x.2
        rw [List.foldl_cons, List.map_cons, List.sum_cons]
        omega
  exact h e.items d

theorem mem_keys_iff {d : Dict κ ν} {k : κ} :
    k ∈ d.items.map Prod.fst ↔ ∃ v, d.get? k = some v := by
  rw [List.mem_map]
  constructor
  · rintro ⟨x, hx, hk⟩
    rw [← hk]
    exact ⟨x.2, (get?_eq_some_iff d x.1 x.2).mpr hx⟩
  · rintro ⟨v, hv⟩
    exact ⟨(k, v), (get?_eq_some_iff d k v).mp hv, rfl⟩

end Dict

namespace ReadCommitted

/-- Rows of type `ρ` under keys `κ`, changed by transactions `τ`. -/
structure Rows (κ ρ τ : Type*) [DecidableEq κ] where
  committed : Dict κ ρ
  writes : τ → Dict κ ρ
  lock : κ → Option τ
  owned : ∀ tx k r, (writes tx).get? k = some r → lock k = some tx

namespace Rows

variable {κ ρ τ : Type*} [DecidableEq κ] [DecidableEq τ]

def empty : Rows κ ρ τ where
  committed := Dict.empty
  writes _ := Dict.empty
  lock _ := none
  owned _ k _ h := absurd h (by
    rw [Dict.get?_empty]
    simp only [reduceCtorEq, not_false_eq_true])

variable (rows : Rows κ ρ τ) (tx : τ)

/-- The row of a key as a statement of the transaction sees it. -/
def visible (k : κ) : Option ρ := ((rows.writes tx).get? k).or (rows.committed.get? k)

/-- The keys of the rows that meet the condition of a statement as it begins. -/
def matching (p : ρ → Bool) : List κ :=
  ((rows.committed.items.map Prod.fst ++ (rows.writes tx).items.map Prod.fst).filter
    fun k => (rows.visible tx k).any p).dedup

/-- No other transaction has the row locked. -/
def Free (k : κ) : Prop := rows.lock k = none ∨ rows.lock k = some tx

instance (k : κ) : Decidable (rows.Free tx k) := inferInstanceAs (Decidable (_ ∨ _))

variable {rows tx}

/-- Lock a row that is free. -/
def take {k : κ} (h : rows.Free tx k) : Rows κ ρ τ where
  committed := rows.committed
  writes := rows.writes
  lock := Function.update rows.lock k (some tx)
  owned t j r hj := by
    have howned := rows.owned t j r hj
    rw [Function.update_apply]
    split
    · next hjk =>
        rw [hjk] at howned
        rcases h with hnone | hself
        · rw [hnone] at howned
          exact absurd howned (by simp only [reduceCtorEq, not_false_eq_true])
        · rw [← hself]
          exact howned
    · exact howned

/-- Lock a row that is free and write it. -/
def write {k : κ} (h : rows.Free tx k) (r : ρ) : Rows κ ρ τ where
  committed := rows.committed
  writes := Function.update rows.writes tx ((rows.writes tx).set k r)
  lock := Function.update rows.lock k (some tx)
  owned t j r' hj := by
    rw [Function.update_apply] at hj ⊢
    by_cases hjk : j = k
    · rw [if_pos hjk]
      by_cases ht : t = tx
      · rw [ht]
      · rw [if_neg ht] at hj
        have howned := rows.owned t j r' hj
        rw [hjk] at howned
        rcases h with hnone | hself
        · rw [hnone] at howned
          exact absurd howned (by simp only [reduceCtorEq, not_false_eq_true])
        · rw [← hself]
          exact howned
    · rw [if_neg hjk]
      by_cases ht : t = tx
      · rw [if_pos ht, Dict.get?_set, if_neg (Ne.symm hjk)] at hj
        rw [ht]
        exact rows.owned tx j r' hj
      · rw [if_neg ht] at hj
        exact rows.owned t j r' hj

variable (rows tx)

/-- A row under a key that nothing has. -/
def insert (k : κ) (r : ρ) : Option (Rows κ ρ τ) :=
  if h : rows.lock k = none ∧ rows.committed.get? k = none then
    have hfree : rows.Free tx k := .inl h.1
    some (write hfree r)
  else none

/-- One row of an update: taken when it is free, and changed if it still meets the
condition. -/
def updateRow (p : ρ → Bool) (f : ρ → ρ) (k : κ) : Option (Rows κ ρ τ) :=
  if h : rows.Free tx k then
    match (rows.visible tx k).filter p with
    | some r => some (write h (f r))
    | none => some (take h)
  else none

/-- What the transaction has written is committed, and its locks are given back. -/
def commit : Rows κ ρ τ where
  committed := rows.committed.override (rows.writes tx)
  writes := Function.update rows.writes tx Dict.empty
  lock k := if rows.lock k = some tx then none else rows.lock k
  owned t k r h := by
    rw [Function.update_apply] at h
    by_cases ht : t = tx
    · rw [if_pos ht, Dict.get?_empty] at h
      exact absurd h (by simp only [reduceCtorEq, not_false_eq_true])
    · rw [if_neg ht] at h
      have howned := rows.owned t k r h
      rw [howned, if_neg fun he => ht (Option.some.inj he)]

/-- What the transaction has written is dropped. -/
def rollback : Rows κ ρ τ where
  committed := rows.committed
  writes := Function.update rows.writes tx Dict.empty
  lock k := if rows.lock k = some tx then none else rows.lock k
  owned t k r h := by
    rw [Function.update_apply] at h
    by_cases ht : t = tx
    · rw [if_pos ht, Dict.get?_empty] at h
      exact absurd h (by simp only [reduceCtorEq, not_false_eq_true])
    · rw [if_neg ht] at h
      have howned := rows.owned t k r h
      rw [howned, if_neg fun he => ht (Option.some.inj he)]

variable {rows tx}

/-! ## What a statement sees -/

omit [DecidableEq τ] in
theorem mem_matching {p : ρ → Bool} {k : κ} :
    k ∈ rows.matching tx p ↔ ∃ r, rows.visible tx k = some r ∧ p r = true := by
  rw [matching, List.mem_dedup, List.mem_filter, Option.any_eq_true]
  refine and_iff_right_of_imp ?_
  rintro ⟨r, hr, -⟩
  rw [visible, Option.or_eq_some_iff] at hr
  rw [List.mem_append, Dict.mem_keys_iff, Dict.mem_keys_iff]
  rcases hr with hr | ⟨-, hr⟩
  · exact .inr ⟨r, hr⟩
  · exact .inl ⟨r, hr⟩

omit [DecidableEq τ] in
/-- A transaction that has written nothing sees what is committed. -/
theorem visible_of_empty (h : rows.writes tx = Dict.empty) (k : κ) :
    rows.visible tx k = rows.committed.get? k := by
  rw [visible, h, Dict.get?_empty, Option.none_or]

omit [DecidableEq τ] in
theorem visible_of_written {k : κ} {r : ρ} (h : (rows.writes tx).get? k = some r) :
    rows.visible tx k = some r := by
  rw [visible, h, Option.some_or]

omit [DecidableEq τ] in
theorem visible_of_unwritten {k : κ} (h : (rows.writes tx).get? k = none) :
    rows.visible tx k = rows.committed.get? k := by
  rw [visible, h, Option.none_or]

/-! ## What a statement does -/

section Taken

variable {k : κ} (h : rows.Free tx k)

omit [DecidableEq τ] in
@[simp] theorem committed_take : (take h).committed = rows.committed := rfl

omit [DecidableEq τ] in
@[simp] theorem writes_take : (take h).writes = rows.writes := rfl

omit [DecidableEq τ] in
theorem lock_take (j : κ) : (take h).lock j = if j = k then some tx else rows.lock j :=
  Function.update_apply _ _ _ _

@[simp] theorem committed_write (r : ρ) : (write h r).committed = rows.committed := rfl

theorem lock_write (r : ρ) (j : κ) :
    (write h r).lock j = if j = k then some tx else rows.lock j :=
  Function.update_apply _ _ _ _

theorem writes_write (r : ρ) : (write h r).writes tx = (rows.writes tx).set k r :=
  Function.update_self _ _ _

theorem writes_write_other (r : ρ) {t : τ} (ht : t ≠ tx) :
    (write h r).writes t = rows.writes t :=
  Function.update_of_ne ht _ _

end Taken

/-! ## What another transaction finds -/

/-- What a step of one transaction leaves to another one: what it has written, its
locks, and the committed rows that it has locked. -/
structure Frame (rows rows' : Rows κ ρ τ) (tx : τ) : Prop where
  writes : ∀ t, t ≠ tx → rows'.writes t = rows.writes t
  lock : ∀ t k, t ≠ tx → rows.lock k = some t → rows'.lock k = some t
  kept : ∀ t k, t ≠ tx → rows.lock k = some t → rows'.committed.get? k = rows.committed.get? k

omit [DecidableEq τ] in
theorem frame_refl (rows : Rows κ ρ τ) (tx : τ) : Frame rows rows tx :=
  ⟨fun _ _ => rfl, fun _ _ _ h => h, fun _ _ _ _ => rfl⟩

omit [DecidableEq τ] in
theorem lock_update_of_free {k : κ} (h : rows.Free tx k) {t : τ} {j : κ} (ht : t ≠ tx)
    (hj : rows.lock j = some t) : (if j = k then some tx else rows.lock j) = some t := by
  split
  · next hjk =>
      rw [hjk] at hj
      rcases h with hnone | hself
      · rw [hnone] at hj
        exact absurd hj (by simp only [reduceCtorEq, not_false_eq_true])
      · rw [hself, Option.some.injEq] at hj
        exact absurd hj.symm ht
  · exact hj

omit [DecidableEq τ] in
theorem frame_take {k : κ} (h : rows.Free tx k) : Frame rows (take h) tx :=
  ⟨fun _ _ => rfl, fun _ j ht hj => (lock_take h j).trans (lock_update_of_free h ht hj),
    fun _ _ _ _ => rfl⟩

theorem frame_write {k : κ} (h : rows.Free tx k) (r : ρ) : Frame rows (write h r) tx :=
  ⟨fun _ ht => writes_write_other h r ht,
    fun _ j ht hj => (lock_write h r j).trans (lock_update_of_free h ht hj), fun _ _ _ _ => rfl⟩

theorem committed_commit (k : κ) :
    (rows.commit tx).committed.get? k = rows.visible tx k :=
  Dict.get?_override _ _ k

/-- A row another transaction has locked stays as it is. -/
theorem committed_commit_of_lock {t : τ} {k : κ} (ht : t ≠ tx) (h : rows.lock k = some t) :
    (rows.commit tx).committed.get? k = rows.committed.get? k := by
  rw [committed_commit, visible]
  cases hw : (rows.writes tx).get? k with
  | none => rfl
  | some r =>
      have howned := rows.owned tx k r hw
      rw [h, Option.some.injEq] at howned
      exact absurd howned ht

theorem lock_end {t : τ} {k : κ} (ht : t ≠ tx) (h : rows.lock k = some t) :
    (if rows.lock k = some tx then none else rows.lock k) = some t := by
  rw [h, if_neg fun he => ht (Option.some.inj he)]

theorem frame_commit (rows : Rows κ ρ τ) (tx : τ) : Frame rows (rows.commit tx) tx :=
  ⟨fun _ ht => Function.update_of_ne ht _ _, fun _ _ ht h => lock_end ht h,
    fun _ _ ht h => committed_commit_of_lock ht h⟩

theorem frame_rollback (rows : Rows κ ρ τ) (tx : τ) : Frame rows (rows.rollback tx) tx :=
  ⟨fun _ ht => Function.update_of_ne ht _ _, fun _ _ ht h => lock_end ht h, fun _ _ _ _ => rfl⟩

/-! ## Insertions and updates -/

/-- A row that was inserted, and what it was inserted into. -/
theorem insert_eq_some {k : κ} {r : ρ} {rows' : Rows κ ρ τ}
    (h : rows.insert tx k r = some rows') :
    rows.lock k = none ∧ rows.committed.get? k = none ∧ rows'.committed = rows.committed ∧
      rows'.writes tx = (rows.writes tx).set k r ∧
      (∀ j, rows'.lock j = if j = k then some tx else rows.lock j) ∧ Frame rows rows' tx := by
  unfold insert at h
  split at h
  · next hfree =>
      rw [Option.some.injEq] at h
      rw [← h]
      exact ⟨hfree.1, hfree.2, rfl, writes_write _ r, lock_write _ r, frame_write _ r⟩
  · exact absurd h (by simp only [reduceCtorEq, not_false_eq_true])

/-- What one row of an update does: the row is locked, and changed where it still
meets the condition. -/
theorem updateRow_eq_some {p : ρ → Bool} {f : ρ → ρ} {k : κ} {rows' : Rows κ ρ τ}
    (h : rows.updateRow tx p f k = some rows') :
    rows'.committed = rows.committed ∧
      (∀ j, rows'.lock j = if j = k then some tx else rows.lock j) ∧ Frame rows rows' tx ∧
      ((∃ r, rows.visible tx k = some r ∧ p r = true ∧
          rows'.writes tx = (rows.writes tx).set k (f r)) ∨
        ((∀ r, rows.visible tx k = some r → p r = false) ∧ rows'.writes tx = rows.writes tx)) := by
  unfold updateRow at h
  split at h
  · next hfree =>
      cases hv : (rows.visible tx k).filter p with
      | some r =>
          rw [hv, Option.some.injEq] at h
          rw [Option.filter_eq_some_iff] at hv
          rw [← h]
          exact ⟨rfl, lock_write hfree _, frame_write hfree _,
            .inl ⟨r, hv.1, hv.2, writes_write hfree _⟩⟩
      | none =>
          rw [hv, Option.some.injEq] at h
          rw [Option.filter_eq_none_iff] at hv
          rw [← h]
          exact ⟨rfl, lock_take hfree, frame_take hfree,
            .inr ⟨fun r hr => Bool.eq_false_iff.mpr (hv r hr), rfl⟩⟩
  · exact absurd h (by simp only [reduceCtorEq, not_false_eq_true])

theorem writes_commit (rows : Rows κ ρ τ) (tx : τ) :
    (rows.commit tx).writes tx = Dict.empty :=
  Function.update_self _ _ _

theorem writes_rollback (rows : Rows κ ρ τ) (tx : τ) :
    (rows.rollback tx).writes tx = Dict.empty :=
  Function.update_self _ _ _

end Rows

end ReadCommitted
