import JenticOne.Library.Regex

/-!
# Backtracking Matches of a Regular Expression

What a backtracking engine has left of a text after a match at its beginning, in the
order in which it finds the matches: the left side of an alternative first, and a
repetition as often as possible first. A repetition ends where the repeated expression
takes nothing.

An engine that looks for a match with something after it, such as a lookahead, takes the
first of these that has it. So what it takes is a text of the expression, and it finds
one whenever there is one.

## Main definitions

* `Re.rests`: What is left, in order.
* `Re.matchBefore`: The first match that is followed by something.

## Theorems

* `mem_rests`: Something is left if a text of the expression stands before it.
* `matchBefore_eq_some`, `matchBefore_eq_none`: What an engine finds.
-/

namespace Re

variable {r s : Re} {t rest : Text}

/-- What is left after a repetition of at most so many parts. -/
def starRests (f : Text → List Text) : Nat → Text → List Text
  | 0, t => [t]
  | n + 1, t => ((f t).filter fun t' => t'.length < t.length).flatMap (starRests f n) ++ [t]

/-- What is left after a match, in the order of the search. -/
def rests : Re → Text → List Text
  | fail, _ => []
  | eps, t => [t]
  | set _, [] => []
  | set p, c :: t => if p c then [t] else []
  | seq r s, t => (r.rests t).flatMap s.rests
  | alt r s, t => r.rests t ++ s.rests t
  | star r, t => starRests r.rests t.length t

/-- The rest after the first match that is followed as it should be. -/
def matchBefore (r : Re) (after : Text → Bool) (t : Text) : Option Text := (r.rests t).find? after

/-- What is left of a repetition, if the repeated expression is understood. -/
theorem mem_starRests (h : ∀ t rest, rest ∈ r.rests t ↔ ∃ a, Spells r a ∧ t = a ++ rest) {n : Nat}
    (hn : t.length ≤ n) :
    rest ∈ starRests r.rests n t ↔ ∃ a, Spells (.star r) a ∧ t = a ++ rest := by
  induction n generalizing t with
  | zero =>
      have ht : t = [] := List.length_eq_zero_iff.mp (Nat.le_zero.mp hn)
      rw [starRests, List.mem_singleton, ht]
      constructor
      · intro hrest
        exact ⟨[], .none, hrest.symm⟩
      · rintro ⟨a, _, ha⟩
        exact (List.append_eq_nil_iff.mp ha.symm).2
  | succ n ih =>
      rw [starRests, List.mem_append, List.mem_flatMap, List.mem_singleton]
      constructor
      · rintro (⟨t', ht', hrest⟩ | rfl)
        · rw [List.mem_filter, decide_eq_true_eq, h] at ht'
          rcases ht' with ⟨⟨a, ha, rfl⟩, hshort⟩
          rcases (ih (by omega)).mp hrest with ⟨b, hb, rfl⟩
          exact ⟨a ++ b, .more ha hb, (List.append_assoc a b rest).symm⟩
        · exact ⟨[], .none, rfl⟩
      · rintro ⟨a, ha, ht⟩
        cases a with
        | nil => exact Or.inr ht.symm
        | cons c a =>
            -- The first part that takes something.
            rcases spells_star_cons ha with ⟨a', b, rfl, hfirst, hmore⟩
            have ht' : t = (c :: a') ++ (b ++ rest) := by
              rw [ht, List.cons_append, List.cons_append, List.append_assoc]
            have hlength : t.length = a'.length + 1 + (b ++ rest).length := by
              rw [ht', List.length_append, List.length_cons]
            refine Or.inl ⟨b ++ rest, ?_, (ih (by omega)).mpr ⟨b, hmore, rfl⟩⟩
            rw [List.mem_filter, decide_eq_true_eq, h]
            exact ⟨⟨c :: a', hfirst, ht'⟩, by omega⟩

/-- What is left comes after a text of the expression. -/
theorem mem_rests : rest ∈ r.rests t ↔ ∃ a, Spells r a ∧ t = a ++ rest := by
  induction r generalizing t rest with
  | fail =>
      exact iff_of_false List.not_mem_nil fun ⟨_, h, _⟩ => not_spells_fail h
  | eps =>
      rw [rests, List.mem_singleton]
      constructor
      · intro hrest
        exact ⟨[], .eps, hrest.symm⟩
      · rintro ⟨a, ha, rfl⟩
        rw [spells_eps.mp ha]
        rfl
  | set p =>
      cases t with
      | nil =>
          refine iff_of_false List.not_mem_nil ?_
          rintro ⟨a, ha, hnil⟩
          rcases spells_set.mp ha with ⟨c, _, rfl⟩
          exact absurd hnil.symm (List.cons_ne_nil c rest)
      | cons c t =>
          rw [rests]
          constructor
          · intro hrest
            split at hrest
            · rename_i hc
              rw [List.mem_singleton.mp hrest]
              exact ⟨[c], .set hc, rfl⟩
            · exact absurd hrest List.not_mem_nil
          · rintro ⟨a, ha, ht⟩
            rcases spells_set.mp ha with ⟨d, hd, rfl⟩
            rw [List.singleton_append, List.cons.injEq] at ht
            rw [ht.1, if_pos hd, ht.2]
            exact List.mem_singleton_self rest
  | seq r s ihr ihs =>
      rw [rests, List.mem_flatMap]
      constructor
      · rintro ⟨t', ht', hrest⟩
        rcases ihr.mp ht' with ⟨a, ha, rfl⟩
        rcases ihs.mp hrest with ⟨b, hb, rfl⟩
        exact ⟨a ++ b, .seq ha hb, (List.append_assoc a b rest).symm⟩
      · rintro ⟨ab, hab, ht⟩
        rcases spells_seq.mp hab with ⟨a, b, ha, hb, rfl⟩
        rw [List.append_assoc] at ht
        exact ⟨b ++ rest, ihr.mpr ⟨a, ha, ht⟩, ihs.mpr ⟨b, hb, rfl⟩⟩
  | alt r s ihr ihs =>
      rw [rests, List.mem_append, ihr, ihs]
      simp only [spells_alt, or_and_right, exists_or]
  | star r ih => exact mem_starRests (fun _ _ => ih) (le_refl _)

theorem matchBefore_eq_some {after : Text → Bool} (h : r.matchBefore after t = some rest) :
    (∃ a, Spells r a ∧ t = a ++ rest) ∧ after rest = true :=
  ⟨mem_rests.mp (List.mem_of_find?_eq_some h), List.find?_some h⟩

theorem matchBefore_eq_none {after : Text → Bool} :
    r.matchBefore after t = none ↔ ∀ a rest, Spells r a → t = a ++ rest → after rest = false := by
  rw [matchBefore, List.find?_eq_none]
  constructor
  · intro h a rest ha ht
    rw [← Bool.not_eq_true]
    exact h rest (mem_rests.mpr ⟨a, ha, ht⟩)
  · intro h rest hrest
    rcases mem_rests.mp hrest with ⟨a, ha, ht⟩
    rw [h a rest ha ht]
    exact Bool.false_ne_true

end Re
