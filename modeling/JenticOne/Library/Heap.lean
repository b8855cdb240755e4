import Mathlib

/-!
# Binary Heaps in a List

The array heap of the `heapq` module, over any linear order: `heappush` and
`heappop` with the two sifts they are made of, in the module's own orientation.
`siftdown` moves an element towards the root past parents that are larger.
`siftup` moves one to a leaf, always past the smaller child, and lets
`siftdown` bring it back, which is cheaper than comparing on the way down.

A position's parent is `(i - 1) / 2`, and position zero is its own parent, so
an edge of the heap is a position: `Le l ((i - 1) / 2) i`. A heap in the middle
of a sift has one position where edges may fail, and what holds around it is
`DownReady` or `UpReady`.

The sifts carry a count that bounds their steps, so they compute by structural
recursion. Popping the last element of the list keeps a heap a heap, which is
what lets a caller consume one from the far end.

## Main definitions

* `IsHeap`: Every position is at least its parent.
* `siftdown`, `siftup`: The sifts.
* `heappush`, `heappop`: Adding an element, and taking the least.

## Theorems

* `isHeap_heappush`, `perm_heappush`: Pushing.
* `isHeap_heappop`, `perm_heappop`: Popping.
* `head_le`: The element at the root is the least.
* `isHeap_dropLast`: Dropping the last element.
-/

namespace BinaryHeap

variable {α : Type*} [LinearOrder α]

/-- The element at `i` is at most the one at `j`, where both exist. -/
def Le (l : List α) (i j : Nat) : Prop :=
  ∀ a b, l[i]? = some a → l[j]? = some b → a ≤ b

def IsHeap (l : List α) : Prop := ∀ i, Le l ((i - 1) / 2) i

/-- Whether the element at `i` is less than the one at `j`. -/
def lessAt (l : List α) (i j : Nat) : Bool :=
  match l[i]?, l[j]? with
  | some a, some b => a < b
  | _, _ => false

omit [LinearOrder α] in
/-- Exchange two elements. -/
def swap (l : List α) (i j : Nat) : List α :=
  if h : i < l.length ∧ j < l.length then (l.set i (l.get ⟨j, h.2⟩)).set j (l.get ⟨i, h.1⟩) else l

/-- Move the element at `pos` towards the root while its parent is larger. -/
def siftdown : Nat → List α → Nat → List α
  | 0, l, _ => l
  | n + 1, l, pos =>
      let parent := (pos - 1) / 2
      if lessAt l pos parent then siftdown n (swap l pos parent) parent else l

/-- The smaller child of `pos`, the left one where there is no right one. -/
def smallerChild (l : List α) (pos : Nat) : Nat :=
  if 2 * pos + 2 < l.length ∧ lessAt l (2 * pos + 1) (2 * pos + 2) = false then 2 * pos + 2
  else 2 * pos + 1

/-- Move the element at `pos` to a leaf past the smaller children, then back
    towards the root. -/
def siftup : Nat → List α → Nat → List α
  | 0, l, pos => siftdown pos l pos
  | n + 1, l, pos =>
      if 2 * pos + 1 < l.length then
        siftup n (swap l pos (smallerChild l pos)) (smallerChild l pos)
      else siftdown pos l pos

def heappush (l : List α) (x : α) : List α :=
  siftdown l.length (l ++ [x]) l.length

/-- The least element and the heap without it. -/
def heappop : List α → Option (α × List α)
  | [] => none
  | a :: rest => match rest.getLast? with
    | none => some (a, [])
    | some last => some (a, siftup rest.length (last :: rest.dropLast) 0)

/-! ## Elements -/

omit [LinearOrder α] in
theorem perm_swap (l : List α) (i j : Nat) : (swap l i j).Perm l := by
  unfold swap
  split
  · exact List.set_set_perm _ _
  · exact List.Perm.refl l

theorem perm_siftdown (n : Nat) (l : List α) (pos : Nat) : (siftdown n l pos).Perm l := by
  induction n generalizing l pos with
  | zero => exact List.Perm.refl l
  | succ n ih =>
      unfold siftdown
      dsimp only
      split
      · exact (ih _ _).trans (perm_swap _ _ _)
      · exact List.Perm.refl l

theorem perm_siftup (n : Nat) (l : List α) (pos : Nat) : (siftup n l pos).Perm l := by
  induction n generalizing l pos with
  | zero => exact perm_siftdown _ _ _
  | succ n ih =>
      unfold siftup
      split
      · exact (ih _ _).trans (perm_swap _ _ _)
      · exact perm_siftdown _ _ _

theorem perm_heappush (l : List α) (x : α) : (heappush l x).Perm (x :: l) :=
  (perm_siftdown _ _ _).trans (List.perm_append_singleton x l)

/-- Popping takes the element at the root and keeps the others. -/
theorem perm_heappop {l rest : List α} {a : α} (h : heappop l = some (a, rest)) :
    l.head? = some a ∧ l.Perm (a :: rest) := by
  cases l with
  | nil => exact absurd h (by simp only [heappop, reduceCtorEq, not_false_eq_true])
  | cons b tail =>
      simp only [heappop] at h
      cases hlast : tail.getLast? with
      | none =>
          rw [List.getLast?_eq_none_iff] at hlast
          subst hlast
          simp only [List.getLast?_nil, Option.some.injEq, Prod.mk.injEq] at h
          rw [← h.1, ← h.2]
          exact ⟨rfl, List.Perm.refl _⟩
      | some last =>
          rw [hlast] at h
          simp only [Option.some.injEq, Prod.mk.injEq] at h
          rw [← h.1, ← h.2]
          refine ⟨rfl, List.Perm.cons b ((List.Perm.trans ?_ (perm_siftup _ _ _).symm))⟩
          have hsplit : tail = tail.dropLast ++ [last] := by
            rw [List.dropLast_append_getLast? last hlast]
          nth_rewrite 1 [hsplit]
          exact List.perm_append_singleton last _

theorem heappop_isSome {l : List α} (h : l ≠ []) : ∃ a rest, heappop l = some (a, rest) := by
  cases l with
  | nil => exact absurd rfl h
  | cons b tail =>
      simp only [heappop]
      split
      · exact ⟨b, [], rfl⟩
      · exact ⟨b, _, rfl⟩

/-! ## Order -/

omit [LinearOrder α] in
theorem length_swap (l : List α) (i j : Nat) : (swap l i j).length = l.length :=
  (perm_swap l i j).length_eq

omit [LinearOrder α] in
theorem getElem?_swap {l : List α} {i j : Nat} (hi : i < l.length) (hj : j < l.length) (k : Nat) :
    (swap l i j)[k]? = if k = j then l[i]? else if k = i then l[j]? else l[k]? := by
  unfold swap
  rw [dif_pos ⟨hi, hj⟩, List.getElem?_set, List.getElem?_set]
  by_cases hkj : k = j
  · rw [if_pos hkj.symm, if_pos (by rw [List.length_set]; omega), if_pos hkj,
      List.getElem?_eq_getElem hi, List.get_eq_getElem]
  · rw [if_neg (fun h => hkj h.symm), if_neg hkj]
    by_cases hki : k = i
    · rw [if_pos hki.symm, if_pos (by omega), if_pos hki, List.getElem?_eq_getElem hj,
        List.get_eq_getElem]
    · rw [if_neg (fun h => hki h.symm), if_neg hki]

theorem lessAt_true {l : List α} {i j : Nat} (h : lessAt l i j = true) :
    ∃ a b, l[i]? = some a ∧ l[j]? = some b ∧ a < b := by
  unfold lessAt at h
  split at h
  · rename_i a b ha hb
    exact ⟨a, b, ha, hb, of_decide_eq_true h⟩
  · exact absurd h Bool.false_ne_true

theorem lessAt_false {l : List α} {i j : Nat} (h : lessAt l i j = false) : Le l j i := by
  intro b a hb ha
  unfold lessAt at h
  rw [ha, hb] at h
  exact not_lt.mp (of_decide_eq_false h)

theorem le_self (l : List α) (i : Nat) : Le l i i := by
  intro a b ha hb
  rw [ha, Option.some.injEq] at hb
  exact le_of_eq hb

omit [LinearOrder α] in
theorem lt_length {l : List α} {i : Nat} {a : α} (h : l[i]? = some a) : i < l.length :=
  (List.getElem?_eq_some_iff.mp h).1

/-- All edges hold but perhaps the one into `pos`, and the children of `pos` are
    at least its parent. -/
structure DownReady (l : List α) (pos : Nat) : Prop where
  edges : ∀ i, i ≠ pos → Le l ((i - 1) / 2) i
  bridge : 0 < pos → ∀ i, 0 < i → (i - 1) / 2 = pos → Le l ((pos - 1) / 2) i

/-- All edges hold but perhaps those at `pos`, and the children of `pos` are at
    least its parent. -/
structure UpReady (l : List α) (pos : Nat) : Prop where
  edges : ∀ i, i ≠ pos → (i - 1) / 2 ≠ pos → Le l ((i - 1) / 2) i
  bridge : 0 < pos → ∀ i, 0 < i → (i - 1) / 2 = pos → Le l ((pos - 1) / 2) i

theorem downReady_swap {l : List α} {pos : Nat} (hpos : 0 < pos) (h : DownReady l pos)
    (hless : lessAt l pos ((pos - 1) / 2) = true) :
    DownReady (swap l pos ((pos - 1) / 2)) ((pos - 1) / 2) := by
  rcases lessAt_true hless with ⟨x, y, hx, hy, hxy⟩
  have hget := getElem?_swap (lt_length hx) (lt_length hy)
  generalize hp : (pos - 1) / 2 = p at *
  have hlt : p < pos := by omega
  refine ⟨fun i hi a b ha hb => ?_, fun hppos i hipos hip a b ha hb => ?_⟩
  · rw [hget, if_neg hi] at hb
    rw [hget] at ha
    by_cases hipos : i = pos
    · rw [if_pos hipos, hy, Option.some.injEq] at hb
      rw [hipos, hp, if_pos rfl, hx, Option.some.injEq] at ha
      rw [← ha, ← hb]
      exact le_of_lt hxy
    · rw [if_neg hipos] at hb
      by_cases hpar : (i - 1) / 2 = p
      · rw [if_pos hpar, hx, Option.some.injEq] at ha
        rw [← ha]
        exact le_trans (le_of_lt hxy) (h.edges i hipos y b (by rw [hpar]; exact hy) hb)
      · rw [if_neg hpar] at ha
        by_cases hparpos : (i - 1) / 2 = pos
        · rw [if_pos hparpos, hy, Option.some.injEq] at ha
          rw [← ha]
          exact h.bridge hpos i (by omega) hparpos y b (by rw [hp]; exact hy) hb
        · rw [if_neg hparpos] at ha
          exact h.edges i hipos a b ha hb
  · rw [hget, if_neg (by omega), if_neg (by omega)] at ha
    have hgy : a ≤ y := h.edges p (by omega) a y ha hy
    rw [hget, if_neg (by omega)] at hb
    by_cases hieq : i = pos
    · rw [if_pos hieq, hy, Option.some.injEq] at hb
      rw [← hb]
      exact hgy
    · rw [if_neg hieq] at hb
      exact le_trans hgy (h.edges i hieq y b (by rw [hip]; exact hy) hb)

theorem isHeap_siftdown {n : Nat} {l : List α} {pos : Nat} (hn : pos ≤ n) (h : DownReady l pos) :
    IsHeap (siftdown n l pos) := by
  induction n generalizing l pos with
  | zero =>
      intro i
      by_cases hi : i = pos
      · rw [hi, show (pos - 1) / 2 = pos by omega]
        exact le_self _ _
      · exact h.edges i hi
  | succ n ih =>
      unfold siftdown
      dsimp only
      split
      · rename_i hless
        have hpos : 0 < pos := by
          rcases lessAt_true hless with ⟨x, y, hx, hy, hxy⟩
          by_contra hc
          rw [show (pos - 1) / 2 = pos by omega, hx, Option.some.injEq] at hy
          rw [hy] at hxy
          exact lt_irrefl y hxy
        exact ih (by omega) (downReady_swap hpos h hless)
      · rename_i hless
        intro i
        by_cases hi : i = pos
        · rw [hi]
          exact lessAt_false (Bool.eq_false_iff.mpr hless)
        · exact h.edges i hi

theorem smallerChild_spec {l : List α} {pos : Nat} (h : 2 * pos + 1 < l.length) :
    smallerChild l pos < l.length ∧ 0 < smallerChild l pos ∧ (smallerChild l pos - 1) / 2 = pos ∧
      ∀ i, 0 < i → (i - 1) / 2 = pos → Le l (smallerChild l pos) i := by
  unfold smallerChild
  split
  · rename_i hright
    refine ⟨hright.1, by omega, by omega, fun i hi hpar => ?_⟩
    have hcases : i = 2 * pos + 1 ∨ i = 2 * pos + 2 := by omega
    rcases hcases with rfl | rfl
    · exact lessAt_false hright.2
    · exact le_self _ _
  · rename_i hleft
    refine ⟨h, by omega, by omega, fun i hi hpar => ?_⟩
    have hcases : i = 2 * pos + 1 ∨ i = 2 * pos + 2 := by omega
    rcases hcases with rfl | rfl
    · exact le_self _ _
    · intro a b ha hb
      have hless : lessAt l (2 * pos + 1) (2 * pos + 2) = true := by
        rw [← Bool.not_eq_false]
        exact fun hc => hleft ⟨lt_length hb, hc⟩
      rcases lessAt_true hless with ⟨x, y, hx, hy, hxy⟩
      rw [hx, Option.some.injEq] at ha
      rw [hy, Option.some.injEq] at hb
      rw [← ha, ← hb]
      exact le_of_lt hxy

theorem upReady_swap {l : List α} {pos : Nat} (hchild : 2 * pos + 1 < l.length)
    (h : UpReady l pos) : UpReady (swap l pos (smallerChild l pos)) (smallerChild l pos) := by
  rcases smallerChild_spec hchild with ⟨hclt, hcpos, hcpar, hmin⟩
  generalize smallerChild l pos = c at *
  have hget := getElem?_swap (show pos < l.length by omega) hclt
  refine ⟨fun i hi hpar a b ha hb => ?_, fun _ i hipos hip a b ha hb => ?_⟩
  · rw [hget, if_neg hi] at hb
    rw [hget, if_neg hpar] at ha
    by_cases hieq : i = pos
    · rw [if_pos hieq] at hb
      by_cases hzero : pos = 0
      · rw [if_pos (by omega)] at ha
        rw [ha, Option.some.injEq] at hb
        exact le_of_eq hb
      · rw [if_neg (by omega), hieq] at ha
        exact h.bridge (by omega) c hcpos hcpar a b ha hb
    · rw [if_neg hieq] at hb
      by_cases hparpos : (i - 1) / 2 = pos
      · rw [if_pos hparpos] at ha
        exact hmin i (by omega) hparpos a b ha hb
      · rw [if_neg hparpos] at ha
        exact h.edges i hieq hparpos a b ha hb
  · rw [hcpar, hget, if_neg (by omega), if_pos rfl] at ha
    rw [hget, if_neg (by omega), if_neg (by omega)] at hb
    exact h.edges i (by omega) (by omega) a b (by rw [hip]; exact ha) hb

/-- At a leaf there are no children to be out of order with. -/
theorem downReady_of_leaf {l : List α} {pos : Nat} (hleaf : l.length ≤ 2 * pos + 1)
    (h : UpReady l pos) : DownReady l pos := by
  refine ⟨fun i hi => ?_, h.bridge⟩
  by_cases hpar : (i - 1) / 2 = pos
  · intro a b _ hb
    have hlt := lt_length hb
    omega
  · exact h.edges i hi hpar

theorem isHeap_siftup {n : Nat} {l : List α} {pos : Nat} (hn : l.length ≤ n + pos)
    (h : UpReady l pos) : IsHeap (siftup n l pos) := by
  induction n generalizing l pos with
  | zero => exact isHeap_siftdown (Nat.le_refl pos) (downReady_of_leaf (by omega) h)
  | succ n ih =>
      unfold siftup
      split
      · rename_i hchild
        have hspec := smallerChild_spec hchild
        refine ih ?_ (upReady_swap hchild h)
        rw [length_swap]
        omega
      · exact isHeap_siftdown (Nat.le_refl pos) (downReady_of_leaf (by omega) h)

theorem isHeap_nil : IsHeap ([] : List α) := by
  intro i a b ha _
  rw [List.getElem?_nil] at ha
  exact absurd ha (by simp only [reduceCtorEq, not_false_eq_true])

theorem isHeap_heappush {l : List α} (h : IsHeap l) (x : α) : IsHeap (heappush l x) := by
  refine isHeap_siftdown (Nat.le_refl _) ⟨fun i hi a b ha hb => ?_, fun _ i _ hpar a b _ hb => ?_⟩
  · have hlt := lt_length hb
    rw [List.length_append, List.length_singleton] at hlt
    rw [List.getElem?_append_left (by omega)] at ha hb
    exact h i a b ha hb
  · have hlt := lt_length hb
    rw [List.length_append, List.length_singleton] at hlt
    omega

theorem isHeap_dropLast {l : List α} (h : IsHeap l) : IsHeap l.dropLast := by
  intro i a b ha hb
  have hi := lt_length hb
  have hp := lt_length ha
  rw [List.getElem?_dropLast, if_pos (by rw [List.length_dropLast] at hp; omega)] at ha
  rw [List.getElem?_dropLast, if_pos (by rw [List.length_dropLast] at hi; omega)] at hb
  exact h i a b ha hb

theorem isHeap_heappop {l rest : List α} {a : α} (hl : IsHeap l)
    (h : heappop l = some (a, rest)) : IsHeap rest := by
  cases l with
  | nil => exact absurd h (by simp only [heappop, reduceCtorEq, not_false_eq_true])
  | cons b tail =>
      simp only [heappop] at h
      split at h
      · simp only [Option.some.injEq, Prod.mk.injEq] at h
        rw [← h.2]
        exact isHeap_nil
      · rename_i last hlast
        simp only [Option.some.injEq, Prod.mk.injEq] at h
        rw [← h.2]
        have hne : tail ≠ [] := by
          rintro rfl
          exact absurd hlast (by simp only [List.getLast?_nil, reduceCtorEq, not_false_eq_true])
        have hlen : (last :: tail.dropLast).length = tail.length := by
          rw [List.length_cons, List.length_dropLast]
          have := List.length_pos_iff.mpr hne
          omega
        -- Past the root the positions are those of the heap that was popped.
        have hsame : ∀ i, 0 < i → i < tail.length →
            (last :: tail.dropLast)[i]? = (b :: tail)[i]? := by
          intro i hi hlt
          rcases Nat.exists_eq_succ_of_ne_zero (Nat.ne_of_gt hi) with ⟨k, rfl⟩
          rw [List.getElem?_cons_succ, List.getElem?_cons_succ, List.getElem?_dropLast,
            if_pos (by omega)]
        refine isHeap_siftup (by omega) ⟨fun i hi hpar x y hx hy => ?_, fun hc => ?_⟩
        · have hlt := lt_length hy
          rw [hsame i (by omega) (by omega)] at hy
          rw [hsame _ (by omega) (by omega)] at hx
          exact hl i x y hx hy
        · exact absurd hc (Nat.lt_irrefl 0)

/-- The root holds the least element. -/
theorem head_le {l : List α} (h : IsHeap l) {m : α} (hm : l.head? = some m) :
    ∀ a ∈ l, m ≤ a := by
  have hroot : l[0]? = some m := by rw [← List.head?_eq_getElem?]; exact hm
  have hall : ∀ (i : Nat) a, l[i]? = some a → m ≤ a := by
    intro i
    induction i using Nat.strongRecOn with
    | ind i ih =>
        intro a ha
        by_cases hzero : i = 0
        · rw [hzero, hroot, Option.some.injEq] at ha
          exact le_of_eq ha
        · have hlt : (i - 1) / 2 < l.length := by have := lt_length ha; omega
          have hpar := List.getElem?_eq_getElem hlt
          exact le_trans (ih _ (by omega) _ hpar) (h i _ a hpar ha)
  intro a ha
  rcases List.mem_iff_getElem?.mp ha with ⟨i, hi⟩
  exact hall i a hi

end BinaryHeap
