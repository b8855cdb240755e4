import Mathlib.Data.Finset.Card
import Mathlib.Data.Finset.SDiff
import Mathlib.Logic.Relation

/-!
# Worklists

The loop that collects what can be reached: an item is taken off a stack, its
neighbours that were not seen before are marked and put on the stack, until the
stack is empty.

What was marked has been expanded or is on the stack, and at the end the stack is
empty, so the marked items are closed under neighbours. Every mark takes an item
that was not marked before, so the items that can be marked bound the rounds.

## Main definitions

* `visit`, `walk`: One neighbour, and the loop.
* `Reaches`: What the loop is to collect.

## Theorems

* `walk_closed`: The items that were marked are closed under neighbours.
* `mem_walk`: They are those that can be reached.
* `mem_walk_self`: Where everything marked is on the stack.
-/

namespace Worklist

variable {α : Type*} [DecidableEq α]

/-- A neighbour is marked and put on the stack, if it was not seen before. -/
def visit (s : Finset α × List α) (x : α) : Finset α × List α :=
  if x ∈ s.1 then s else (insert x s.1, x :: s.2)

/-- The loop, for a number of rounds. -/
def walk (next : α → List α) : Nat → Finset α → List α → Finset α
  | _, seen, [] => seen
  | 0, seen, _ :: _ => seen
  | n + 1, seen, x :: stack =>
      let s := (next x).foldl visit (seen, stack)
      walk next n s.1 s.2

/-- A neighbour, or a neighbour of what is reached. -/
abbrev Reaches (next : α → List α) : α → α → Prop :=
  Relation.TransGen fun x y => y ∈ next x

/-- What the visits of a list leave. -/
theorem foldl_visit (l : List α) (s : Finset α × List α) :
    (∀ z, z ∈ (l.foldl visit s).1 ↔ z ∈ s.1 ∨ z ∈ l) ∧
      (∀ z, z ∈ (l.foldl visit s).2 ↔ z ∈ s.2 ∨ z ∈ l ∧ z ∉ s.1) ∧
      ∀ items : Finset α, (∀ z ∈ l, z ∈ items) →
        (l.foldl visit s).2.length + (items \ (l.foldl visit s).1).card =
          s.2.length + (items \ s.1).card := by
  induction l generalizing s with
  | nil => simp only [List.foldl_nil, List.not_mem_nil, or_false, false_and, implies_true, and_self]
  | cons x l ih =>
      rw [List.foldl_cons]
      by_cases hx : x ∈ s.1
      · have hsame : visit s x = s := if_pos hx
        rw [hsame]
        rcases ih s with ⟨hseen, hstack, hcard⟩
        refine ⟨fun z => ?_, fun z => ?_, fun items hitems =>
          hcard items fun z hz => hitems z (List.mem_cons_of_mem x hz)⟩
        · rw [hseen, List.mem_cons]
          constructor
          · rintro (h | h)
            · exact Or.inl h
            · exact Or.inr (Or.inr h)
          · rintro (h | rfl | h)
            · exact Or.inl h
            · exact Or.inl hx
            · exact Or.inr h
        · rw [hstack, List.mem_cons]
          constructor
          · rintro (h | ⟨h, hz⟩)
            · exact Or.inl h
            · exact Or.inr ⟨Or.inr h, hz⟩
          · rintro (h | ⟨rfl | h, hz⟩)
            · exact Or.inl h
            · exact absurd hx hz
            · exact Or.inr ⟨h, hz⟩
      · have hnew : visit s x = (insert x s.1, x :: s.2) := if_neg hx
        rw [hnew]
        rcases ih (insert x s.1, x :: s.2) with ⟨hseen, hstack, hcard⟩
        refine ⟨fun z => ?_, fun z => ?_, fun items hitems => ?_⟩
        · rw [hseen, Finset.mem_insert, List.mem_cons]
          tauto
        · rw [hstack, Finset.mem_insert, List.mem_cons, List.mem_cons]
          constructor
          · rintro ((rfl | h) | ⟨h, hz⟩)
            · exact Or.inr ⟨Or.inl rfl, hx⟩
            · exact Or.inl h
            · exact Or.inr ⟨Or.inr h, fun hs => hz (Or.inr hs)⟩
          · rintro (h | ⟨rfl | h, hz⟩)
            · exact Or.inl (Or.inr h)
            · exact Or.inl (Or.inl rfl)
            · by_cases heq : z = x
              · exact Or.inl (Or.inl heq)
              · exact Or.inr ⟨h, fun hs => hs.elim heq hz⟩
        · -- The mark of `x` takes one from what can be marked.
          rw [hcard items fun z hz => hitems z (List.mem_cons_of_mem x hz)]
          have hmem : x ∈ items \ s.1 :=
            Finset.mem_sdiff.mpr ⟨hitems x List.mem_cons_self, hx⟩
          have herase : items \ insert x s.1 = (items \ s.1).erase x :=
            Finset.sdiff_insert items s.1 x
          have hpos := Finset.card_pos.mpr ⟨x, hmem⟩
          rw [herase, Finset.card_erase_of_mem hmem, List.length_cons]
          omega

/-- What was marked has been expanded or is on the stack. -/
def Settled (next : α → List α) (seen : Finset α) (stack : List α) : Prop :=
  ∀ x ∈ seen, x ∈ stack ∨ ∀ y ∈ next x, y ∈ seen

variable {next : α → List α} {seen : Finset α} {stack : List α} {n : Nat}

theorem settled_visit {x : α} (h : Settled next seen (x :: stack)) :
    Settled next ((next x).foldl visit (seen, stack)).1 ((next x).foldl visit (seen, stack)).2 := by
  rcases foldl_visit (next x) (seen, stack) with ⟨hseen, hstack, _⟩
  intro z hz
  by_cases hold : z ∈ seen
  · rcases h z hold with hz | hz
    · rcases List.mem_cons.mp hz with rfl | hz
      · exact Or.inr fun y hy => (hseen y).mpr (Or.inr hy)
      · exact Or.inl ((hstack z).mpr (Or.inl hz))
    · exact Or.inr fun y hy => (hseen y).mpr (Or.inl (hz y hy))
  · exact Or.inl ((hstack z).mpr (Or.inr ⟨((hseen z).mp hz).resolve_left hold, hold⟩))

/-- At the end the marked items have everything that was marked, and are closed
under neighbours. -/
theorem walk_closed (items : Finset α) (hitems : ∀ x, ∀ y ∈ next x, y ∈ items)
    (hfuel : stack.length + (items \ seen).card ≤ n) (h : Settled next seen stack) :
    (∀ x ∈ seen, x ∈ walk next n seen stack) ∧
      (∀ x ∈ stack, ∀ y ∈ next x, y ∈ walk next n seen stack) ∧
      ∀ x ∈ walk next n seen stack, ∀ y ∈ next x, y ∈ walk next n seen stack := by
  induction n generalizing seen stack with
  | zero =>
      cases stack with
      | nil =>
          refine ⟨fun _ hx => hx, fun _ hx => absurd hx List.not_mem_nil, fun x hx => ?_⟩
          exact (h x hx).resolve_left List.not_mem_nil
      | cons x stack =>
          rw [List.length_cons] at hfuel
          omega
  | succ n ih =>
      cases stack with
      | nil =>
          refine ⟨fun _ hx => hx, fun _ hx => absurd hx List.not_mem_nil, fun x hx => ?_⟩
          exact (h x hx).resolve_left List.not_mem_nil
      | cons x stack =>
          rcases foldl_visit (next x) (seen, stack) with ⟨hseen, hstack, hcard⟩
          have hfuel' := hcard items (hitems x)
          dsimp only at hfuel'
          rw [List.length_cons] at hfuel
          rcases ih (by omega) (settled_visit h) with ⟨hmarked, hexpanded, hclosed⟩
          refine ⟨fun z hz => hmarked z ((hseen z).mpr (Or.inl hz)), fun z hz y hy => ?_, hclosed⟩
          rcases List.mem_cons.mp hz with rfl | hz
          · exact hmarked y ((hseen y).mpr (Or.inr hy))
          · exact hexpanded z ((hstack z).mpr (Or.inl hz)) y hy

/-- Whatever is marked was marked before, or is reached from the stack. -/
theorem walk_sound {y : α} (hy : y ∈ walk next n seen stack) :
    y ∈ seen ∨ ∃ x ∈ stack, Reaches next x y := by
  induction n generalizing seen stack with
  | zero =>
      cases stack with
      | nil => exact Or.inl hy
      | cons x stack => exact Or.inl hy
  | succ n ih =>
      cases stack with
      | nil => exact Or.inl hy
      | cons x stack =>
          rcases foldl_visit (next x) (seen, stack) with ⟨hseen, hstack, _⟩
          rcases ih hy with hy | ⟨z, hz, hreach⟩
          · rcases (hseen y).mp hy with hy | hy
            · exact Or.inl hy
            · exact Or.inr ⟨x, List.mem_cons_self, Relation.TransGen.single hy⟩
          · rcases (hstack z).mp hz with hz | ⟨hz, _⟩
            · exact Or.inr ⟨z, List.mem_cons_of_mem x hz, hreach⟩
            · exact Or.inr ⟨x, List.mem_cons_self, Relation.TransGen.head hz hreach⟩

/-- The loop collects what is reached from its stack, beside what was marked. -/
theorem mem_walk (items : Finset α) (hitems : ∀ x, ∀ y ∈ next x, y ∈ items)
    (hfuel : stack.length + (items \ seen).card ≤ n) (h : Settled next seen stack) {y : α} :
    y ∈ walk next n seen stack ↔ y ∈ seen ∨ ∃ x ∈ stack, Reaches next x y := by
  rcases walk_closed items hitems hfuel h with ⟨hmarked, hexpanded, hclosed⟩
  refine ⟨walk_sound, ?_⟩
  rintro (hy | ⟨x, hx, hreach⟩)
  · exact hmarked y hy
  · induction hreach with
    | single hy => exact hexpanded x hx _ hy
    | tail _ hy ih => exact hclosed _ ih _ hy

/-- A loop that begins with everything marked on its stack. -/
theorem mem_walk_self (items : Finset α) (hitems : ∀ x, ∀ y ∈ next x, y ∈ items)
    {start : List α} (hfuel : start.length + items.card ≤ n) {y : α} :
    y ∈ walk next n start.toFinset start ↔
      ∃ x ∈ start, Relation.ReflTransGen (fun x y => y ∈ next x) x y := by
  have hcard := Finset.card_le_card (Finset.sdiff_subset (s := items) (t := start.toFinset))
  rw [mem_walk items hitems (by omega) fun x hx => Or.inl (List.mem_toFinset.mp hx), List.mem_toFinset]
  constructor
  · rintro (hy | ⟨x, hx, hreach⟩)
    · exact ⟨y, hy, Relation.ReflTransGen.refl⟩
    · exact ⟨x, hx, hreach.to_reflTransGen⟩
  · rintro ⟨x, hx, hreach⟩
    rcases Relation.reflTransGen_iff_eq_or_transGen.mp hreach with rfl | hreach
    · exact Or.inl hx
    · exact Or.inr ⟨x, hx, hreach⟩

end Worklist
