import Mathlib

/-!
# Lists of Marks

A list whose entries are marked or not. Such a list is spread out over another one
when the other one has a run of entries for each of its entries, in order, and the
run of a marked entry begins with a marked one. The other list has then at least as
many marks, and its last mark is as far on. Where it has no more marks than the
first list, its first mark is as far on too.

## Main definitions

* `first`, `last`: The places of the first and the last mark.
* `Spread`: A list is spread out over another one.

## Theorems

* `le_last`, `last_spec`: What the place of the last mark is.
* `count_le_of_spread`: Marks are not lost.
* `first_le_of_spread`: The first mark does not move to the front, if no mark is
  added.
* `last_le_of_spread`: The last mark does not move to the front.
-/

namespace Marks

/-- The place of the first mark, or the length if there is none. -/
def first (marks : List Bool) : Nat := marks.findIdx id

/-- The place of the last mark, or −1 if there is none. -/
def last (marks : List Bool) : Int := marks.length - 1 - marks.reverse.findIdx id

/-- A run of entries for each entry, which begins with a mark if the entry is one. -/
inductive Spread : List Bool → List Bool → Prop
  | nil : Spread [] []
  | cons {b c : Bool} {bs cs : List Bool} (more : List Bool) (h : b = true → c = true)
      (rest : Spread bs cs) : Spread (b :: bs) (c :: (more ++ cs))

variable {bs cs : List Bool}

/-- The first entries may be changed, and more entries put after the one of the other
    list. -/
theorem spread_head (h : Spread bs cs) {b c : Bool} (hmark : b = true → c = true)
    (before : List Bool) : Spread (b :: bs.tail) (c :: (before ++ cs.tail)) := by
  cases h with
  | nil => exact .cons before hmark .nil
  | cons more _ rest =>
      rw [List.tail_cons, List.tail_cons, ← List.append_assoc]
      exact .cons (before ++ more) hmark rest

/-- A mark is no further on than the last one. -/
theorem le_last {i : Nat} (h : bs[i]? = some true) : (i : Int) ≤ last bs := by
  rcases List.getElem?_eq_some_iff.mp h with ⟨hi, hmark⟩
  have hlt : bs.length - 1 - i < bs.reverse.length := by
    rw [List.length_reverse]
    omega
  have hrev : bs.reverse[bs.length - 1 - i] = true := by
    rw [List.getElem_reverse]
    have hback : bs.length - 1 - (bs.length - 1 - i) = i := by omega
    simp only [hback, hmark]
  have hle : bs.reverse.findIdx id ≤ bs.length - 1 - i := by
    by_contra hc
    have hnot := List.not_of_lt_findIdx (Nat.lt_of_not_le hc)
    exact absurd hrev (by simpa using hnot)
  unfold last
  omega

/-- The last mark is one, if there is any. -/
theorem last_spec (bs : List Bool) :
    last bs = -1 ∨ ∃ i : Nat, last bs = i ∧ bs[i]? = some true := by
  have hle : bs.reverse.findIdx id ≤ bs.length := by
    rw [← List.length_reverse]
    exact List.findIdx_le_length
  rcases Nat.lt_or_ge (bs.reverse.findIdx id) bs.length with hlt | hge
  · refine Or.inr ⟨bs.length - 1 - bs.reverse.findIdx id, ?_, ?_⟩
    · unfold last
      omega
    · have hlen : bs.reverse.findIdx id < bs.reverse.length := by rwa [List.length_reverse]
      have hmark : bs.reverse[bs.reverse.findIdx id] = true :=
        List.findIdx_getElem (p := id) (w := hlen)
      rw [List.getElem_reverse] at hmark
      rw [List.getElem?_eq_getElem (by omega), hmark]
  · refine Or.inl ?_
    unfold last
    omega

/-- Marks are not lost. -/
theorem count_le_of_spread (h : Spread bs cs) : bs.count true ≤ cs.count true := by
  induction h with
  | nil => exact Nat.le_refl _
  | @cons b c bs cs more hmark _ ih =>
      rw [List.count_cons, List.count_cons, List.count_append]
      have hhead : (if (b == true) = true then 1 else 0) ≤ if (c == true) = true then 1 else 0 := by
        cases b with
        | false => exact Nat.zero_le _
        | true => rw [hmark rfl]
      omega

/-- The first mark does not move to the front, if no mark is added. -/
theorem first_le_of_spread (h : Spread bs cs) (hcount : bs.count true = cs.count true) :
    first bs ≤ first cs := by
  induction h with
  | nil => exact Nat.le_refl _
  | @cons b c bs cs more hmark hrest ih =>
      unfold first at ih ⊢
      cases b with
      | true =>
          rw [List.findIdx_cons]
          exact Nat.zero_le _
      | false =>
          have hle := count_le_of_spread hrest
          rw [List.count_cons_of_ne Bool.false_ne_true, List.count_cons,
            List.count_append] at hcount
          -- All marks are in the runs of the entries to come.
          have hmore : more.count true = 0 := by omega
          have hc : c = false := by
            cases c with
            | false => rfl
            | true =>
                rw [if_pos (beq_self_eq_true true)] at hcount
                omega
          have hbefore : more.findIdx id = more.length := by
            rw [List.findIdx_eq_length]
            intro x hx
            cases x with
            | false => rfl
            | true => exact absurd hx (List.count_eq_zero.mp hmore)
          rw [hc, List.findIdx_cons, List.findIdx_cons, List.findIdx_append, hbefore,
            if_neg (Nat.lt_irrefl _)]
          have hnext := ih (by omega)
          simp only [id_eq, cond_false]
          omega

/-- A mark of the first list has one of the other list for it. -/
theorem mark_of_spread (h : Spread bs cs) {i : Nat} (hi : bs[i]? = some true) :
    ∃ j, i ≤ j ∧ cs[j]? = some true := by
  induction h generalizing i with
  | nil => exact absurd hi (by simp only [List.getElem?_nil, reduceCtorEq, not_false_eq_true])
  | @cons b c bs cs more hmark hrest ih =>
      cases i with
      | zero =>
          rw [List.getElem?_cons_zero, Option.some.injEq] at hi
          exact ⟨0, Nat.le_refl 0, by rw [List.getElem?_cons_zero, hmark hi]⟩
      | succ i =>
          rw [List.getElem?_cons_succ] at hi
          rcases ih hi with ⟨j, hj, hget⟩
          refine ⟨more.length + j + 1, by omega, ?_⟩
          rw [List.getElem?_cons_succ, List.getElem?_append_right (by omega),
            Nat.add_sub_cancel_left]
          exact hget

/-- The last mark does not move to the front. -/
theorem last_le_of_spread (h : Spread bs cs) : last bs ≤ last cs := by
  rcases last_spec bs with hnone | ⟨i, hi, hget⟩
  · rcases last_spec cs with hnone' | ⟨j, hj, _⟩
    · rw [hnone, hnone']
    · rw [hnone, hj]
      omega
  · rcases mark_of_spread h hget with ⟨j, hj, hget'⟩
    have hle := le_last hget'
    omega

end Marks
