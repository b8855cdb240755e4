import JenticOne.Library.Text

/-!
# Segments

How many segments a text has between separators, not counting empty ones at its
ends, and when two texts have as many.

`Alike` relates texts that are the same character by character, except that
words of the one stand where the other has other words. A word does not begin
or end with the separator, so that the separators at the ends of the texts are
the same ones, and the texts differ in their segments by the separators inside
the words.

Splitting at a separator and joining with it come first: what a segment is
free of, and what is left of a join without its separators.

## Main definitions

* `letters`: A text without the separators.
* `segments`: The number of segments.
* `Alike`: The same text up to words, with the separators the second has more.

## Theorems

* `splitOn_append`, `not_mem_of_mem_splitOn`: The segments of a text.
* `append_sep_inj`, `append_sep_inj_last`: The parts around a separator.
* `intercalate_inj`, `mem_intercalate`: A join.
* `letters_intercalate`, `letters_rstrip`: The characters of a join.
* `alike_reverse`, `alike_strip`: Both texts reversed, stripped.
* `alike_segments`: The second text has that many segments more.
-/

namespace Segments

/-! ## Splitting and joining -/

section Split

variable {sep : Char}

/-- A text without a separator goes to the first segment of what follows it. -/
theorem splitOn_append {a : Text} (h : sep ∉ a) (b : Text) :
    (a ++ b).splitOn sep = (b.splitOn sep).modifyHead (a ++ ·) := by
  induction a with
  | nil => exact (List.modifyHead_id).symm ▸ rfl
  | cons c a ih =>
      have hc : (c == sep) = false := by
        rw [beq_eq_false_iff_ne]
        exact fun he => h (he ▸ List.mem_cons_self)
      rw [List.cons_append, List.splitOn_cons_eq_if_modifyHead, hc, if_neg Bool.false_ne_true,
        ih fun hm => h (List.mem_cons_of_mem _ hm), List.modifyHead_modifyHead]
      rfl

theorem splitOn_cons_sep (s : Text) : (sep :: s).splitOn sep = [] :: s.splitOn sep := by
  rw [List.splitOn_cons_eq_if_modifyHead, if_pos (beq_self_eq_true sep)]

/-- What stands before the first separator, and what after it. -/
theorem append_sep_inj {a a' b b' : Text} (h : sep ∉ a) (h' : sep ∉ a')
    (he : a ++ sep :: b = a' ++ sep :: b') : a = a' ∧ b = b' := by
  induction a generalizing a' with
  | nil =>
      cases a' with
      | nil => exact ⟨rfl, (List.cons.inj he).2⟩
      | cons c a' => exact absurd ((List.cons.inj he).1 ▸ List.mem_cons_self) h'
  | cons c a ih =>
      cases a' with
      | nil => exact absurd ((List.cons.inj he).1 ▸ List.mem_cons_self) h
      | cons c' a' =>
          rcases List.cons.inj he with ⟨hc, hrest⟩
          rcases ih (fun hm => h (List.mem_cons_of_mem _ hm))
            (fun hm => h' (List.mem_cons_of_mem _ hm)) hrest with ⟨ha, hb⟩
          exact ⟨by rw [hc, ha], hb⟩

/-- What stands before the last separator, and what after it. -/
theorem append_sep_inj_last {a a' b b' : Text} (h : sep ∉ b) (h' : sep ∉ b')
    (he : a ++ sep :: b = a' ++ sep :: b') : a = a' ∧ b = b' := by
  have hrev : b.reverse ++ sep :: a.reverse = b'.reverse ++ sep :: a'.reverse := by
    have := congrArg List.reverse he
    simpa only [List.reverse_append, List.reverse_cons, List.append_assoc, List.singleton_append]
      using this
  rcases append_sep_inj (fun hm => h (List.mem_reverse.mp hm))
    (fun hm => h' (List.mem_reverse.mp hm)) hrev with ⟨hb, ha⟩
  exact ⟨List.reverse_injective ha, List.reverse_injective hb⟩

/-- What holds of the members between the separators. -/
theorem forall_splitOn {α : Type} [BEq α] [LawfulBEq α] {c : α} {P : α → Prop} {l : List α} :
    (∀ xs ∈ l.splitOn c, ∀ x ∈ xs, P x) ↔ ∀ x ∈ l, x ≠ c → P x := by
  induction l with
  | nil =>
      rw [List.splitOn_nil]
      refine ⟨fun _ x hx => absurd hx List.not_mem_nil, fun _ xs hxs x hx => ?_⟩
      rw [List.mem_singleton.mp hxs] at hx
      exact absurd hx List.not_mem_nil
  | cons y l ih =>
      rw [List.splitOn_cons_eq_if_modifyHead, List.forall_mem_cons, ← ih]
      by_cases hy : y = c
      · rw [if_pos (beq_iff_eq.mpr hy), List.forall_mem_cons]
        exact ⟨fun h => ⟨fun hne => absurd hy hne, h.2⟩,
          fun h => ⟨fun x hx => absurd hx List.not_mem_nil, h.2⟩⟩
      · rw [if_neg (fun he => hy (beq_iff_eq.mp he))]
        cases hs : l.splitOn c with
        | nil => exact absurd hs (List.splitOn_ne_nil c l)
        | cons xs rest =>
            rw [List.modifyHead_cons, List.forall_mem_cons, List.forall_mem_cons,
              List.forall_mem_cons]
            exact ⟨fun h => ⟨fun _ => h.1.1, h.1.2, h.2⟩, fun h => ⟨⟨h.1 hy, h.2.1⟩, h.2.2⟩⟩

theorem not_mem_of_mem_splitOn {s x : Text} (h : x ∈ s.splitOn sep) : sep ∉ x := by
  have hne : ∀ xs ∈ s.splitOn sep, ∀ c ∈ xs, c ≠ sep := forall_splitOn.mpr fun c _ hc => hc
  exact fun hm => hne x h sep hm rfl

/-- A join determines the segments. -/
theorem intercalate_inj {sep : Char} {l l' : List Text} (hne : l ≠ []) (hne' : l' ≠ [])
    (h : ∀ x ∈ l, sep ∉ x) (h' : ∀ x ∈ l', sep ∉ x)
    (heq : List.intercalate [sep] l = List.intercalate [sep] l') : l = l' := by
  rw [← List.splitOn_intercalate sep h hne, heq, List.splitOn_intercalate sep h' hne']

/-- The characters of a join. -/
theorem mem_intercalate {sep : Text} {l : List Text} {c : Char}
    (h : c ∈ List.intercalate sep l) : c ∈ sep ∨ ∃ x ∈ l, c ∈ x := by
  induction l with
  | nil => exact absurd h List.not_mem_nil
  | cons x l ih =>
      cases l with
      | nil => exact Or.inr ⟨x, List.mem_cons_self, by rwa [List.intercalate_singleton] at h⟩
      | cons y l =>
          rw [List.intercalate_cons_cons, List.mem_append, List.mem_append] at h
          rcases h with (hx | hsep) | hrest
          · exact Or.inr ⟨x, List.mem_cons_self, hx⟩
          · exact Or.inl hsep
          · rcases ih hrest with hsep | ⟨z, hz, hc⟩
            · exact Or.inl hsep
            · exact Or.inr ⟨z, List.mem_cons_of_mem x hz, hc⟩

theorem mem_intercalate_of_mem {sep x : Text} {l : List Text} {c : Char} (hx : x ∈ l)
    (hc : c ∈ x) : c ∈ List.intercalate sep l := by
  induction l with
  | nil => exact absurd hx List.not_mem_nil
  | cons y l ih =>
      cases l with
      | nil =>
          rw [List.intercalate_singleton, ← List.mem_singleton.mp hx]
          exact hc
      | cons z l =>
          rw [List.intercalate_cons_cons]
          rcases List.mem_cons.mp hx with rfl | hx
          · exact List.mem_append_left _ (List.mem_append_left _ hc)
          · exact List.mem_append_right _ (ih hx)

/-- The characters other than separators. -/
def letters (sep : Char) (s : Text) : Text := s.filter (· ≠ sep)

theorem letters_append (a b : Text) : letters sep (a ++ b) = letters sep a ++ letters sep b :=
  List.filter_append _ _

theorem letters_cons_sep (s : Text) : letters sep (sep :: s) = letters sep s :=
  List.filter_cons_of_neg (by simp only [ne_eq, not_true_eq_false, decide_false,
    Bool.false_eq_true, not_false_eq_true])

theorem letters_of_free {s : Text} (h : sep ∉ s) : letters sep s = s := by
  rw [letters, List.filter_eq_self]
  intro c hc
  rw [decide_eq_true_eq]
  exact fun he => h (he ▸ hc)

theorem letters_rstrip (s : Text) : letters sep (s.rstrip sep) = letters sep s := by
  have hdropped : letters sep (s.rtakeWhile (· = sep)) = [] := by
    rw [letters, List.filter_eq_nil_iff]
    intro c hc
    have hsep : c = sep := by
      have h := List.mem_rtakeWhile_imp hc
      rw [decide_eq_true_eq] at h
      exact h
    rw [hsep]
    simp only [ne_eq, not_true_eq_false, decide_false, Bool.false_eq_true, not_false_eq_true]
  calc letters sep (s.rstrip sep)
      = letters sep (s.rstrip sep) ++ letters sep (s.rtakeWhile (· = sep)) := by
        rw [hdropped, List.append_nil]
    _ = letters sep s := by
        rw [← letters_append, Text.rstrip, List.rdropWhile_append_rtakeWhile]

theorem intercalate_cons_cons (x y : Text) (l : List Text) :
    [sep].intercalate (x :: y :: l) = x ++ sep :: [sep].intercalate (y :: l) := rfl

/-- A join of segments has their characters. -/
theorem letters_intercalate (l : List Text) :
    letters sep ([sep].intercalate l) = letters sep l.flatten := by
  induction l with
  | nil => rfl
  | cons x l ih =>
      cases l with
      | nil =>
          rw [List.flatten_cons, List.flatten_nil, List.append_nil]
          exact congrArg (letters sep) (List.append_nil x)
      | cons y l =>
          rw [intercalate_cons_cons, letters_append, letters_cons_sep, ih, ← letters_append]
          rfl

end Split

/-! ## Counting -/

/-- The number of segments of a text, those at its ends that are empty left out. -/
def segments (sep : Char) (s : Text) : Nat :=
  if s.strip sep = [] then 0 else ((s.strip sep).splitOn sep).length

/-- A text that neither is empty nor begins or ends with the separator. -/
structure Word (sep : Char) (v : Text) : Prop where
  ne_nil : v ≠ []
  head : v.head? ≠ some sep
  last : v.getLast? ≠ some sep

/-- The same text, a word without a separator in the first for a word of the
second; `n` counts the separators in the words of the second. -/
inductive Alike (sep : Char) : Nat → Text → Text → Prop
  | nil : Alike sep 0 [] []
  | char {n : Nat} {a b : Text} (c : Char) (h : Alike sep n a b) : Alike sep n (c :: a) (c :: b)
  | word {n : Nat} {a b u v : Text} (hu : u ≠ []) (hfree : sep ∉ u) (hv : Word sep v)
      (h : Alike sep n a b) : Alike sep (v.count sep + n) (u ++ a) (v ++ b)

variable {sep : Char} {n m : Nat} {a b a' b' u v : Text}

/-! ## Words -/

theorem word_of_free (hne : v ≠ []) (hfree : sep ∉ v) : Word sep v :=
  ⟨hne, fun h => hfree (List.mem_of_mem_head? h), fun h => hfree (List.mem_of_getLast? h)⟩

theorem word_reverse (h : Word sep v) : Word sep v.reverse :=
  ⟨fun he => h.ne_nil (List.reverse_eq_nil_iff.mp he), by rw [List.head?_reverse]; exact h.last,
    by rw [List.getLast?_reverse]; exact h.head⟩

/-- A text between two characters that are not the separator. -/
theorem word_between {x y : Char} (hx : x ≠ sep) (hy : y ≠ sep) (s : Text) :
    Word sep (x :: (s ++ [y])) := by
  refine ⟨List.cons_ne_nil _ _, ?_, ?_⟩
  · rw [List.head?_cons, ne_eq, Option.some.injEq]
    exact hx
  · rw [← List.cons_append, List.getLast?_concat, ne_eq, Option.some.injEq]
    exact hy

/-- A text that begins with a word is not changed by dropping separators. -/
theorem dropWhile_word_append (h : Word sep v) (b : Text) :
    (v ++ b).dropWhile (· = sep) = v ++ b := by
  cases v with
  | nil => exact absurd rfl h.ne_nil
  | cons x xs =>
      rw [List.cons_append, List.dropWhile_cons_of_neg]
      have hx := h.head
      rw [List.head?_cons, ne_eq, Option.some.injEq] at hx
      rw [decide_eq_true_eq]
      exact hx

/-! ## Alike texts -/

theorem alike_refl (a : Text) : Alike sep 0 a a := by
  induction a with
  | nil => exact Alike.nil
  | cons c cs ih => exact Alike.char c ih

theorem alike_append (h : Alike sep n a b) (h' : Alike sep m a' b') :
    Alike sep (n + m) (a ++ a') (b ++ b') := by
  induction h with
  | nil => rw [Nat.zero_add]; exact h'
  | char c _ ih => exact Alike.char c ih
  | word hu hfree hv _ ih =>
      rw [List.append_assoc, List.append_assoc, Nat.add_assoc]
      exact Alike.word hu hfree hv ih

theorem alike_word (hu : u ≠ []) (hfree : sep ∉ u) (hv : Word sep v) :
    Alike sep (v.count sep) u v := by
  have h := Alike.word hu hfree hv Alike.nil
  rw [List.append_nil, List.append_nil, Nat.add_zero] at h
  exact h

theorem alike_reverse (h : Alike sep n a b) : Alike sep n a.reverse b.reverse := by
  induction h with
  | nil => exact Alike.nil
  | char c _ ih =>
      rw [List.reverse_cons, List.reverse_cons]
      exact alike_append ih (alike_refl [c])
  | @word n a b u v hu hfree hv _ ih =>
      have hword : Alike sep (v.reverse.count sep) u.reverse v.reverse :=
        alike_word (fun he => hu (List.reverse_eq_nil_iff.mp he))
          (fun hm => hfree (List.mem_reverse.mp hm)) (word_reverse hv)
      rw [List.count_reverse] at hword
      rw [List.reverse_append, List.reverse_append, Nat.add_comm]
      exact alike_append ih hword

theorem alike_nil_left (h : Alike sep n [] b) : n = 0 ∧ b = [] := by
  generalize ha : ([] : Text) = a at h
  cases h with
  | nil => exact ⟨rfl, rfl⟩
  | char c _ => exact absurd ha (by simp only [reduceCtorEq, not_false_eq_true])
  | word hu _ _ _ => exact absurd (List.append_eq_nil_iff.mp ha.symm).1 hu

theorem alike_nil_right (h : Alike sep n a []) : a = [] := by
  generalize hb : ([] : Text) = b at h
  cases h with
  | nil => rfl
  | char c _ => exact absurd hb (by simp only [reduceCtorEq, not_false_eq_true])
  | word _ _ hv _ => exact absurd (List.append_eq_nil_iff.mp hb.symm).1 hv.ne_nil

/-- The separators of the second text. -/
theorem alike_count (h : Alike sep n a b) : b.count sep = a.count sep + n := by
  induction h with
  | nil => rfl
  | char c _ ih => rw [List.count_cons, List.count_cons, ih]; omega
  | word _ hfree _ _ ih =>
      rw [List.count_append, List.count_append, List.count_eq_zero_of_not_mem hfree, ih]
      omega

theorem alike_dropWhile (h : Alike sep n a b) :
    Alike sep n (a.dropWhile (· = sep)) (b.dropWhile (· = sep)) := by
  induction h with
  | nil => exact Alike.nil
  | @char n a b c h ih =>
      by_cases hc : c = sep
      · rw [List.dropWhile_cons_of_pos (by rw [decide_eq_true_eq]; exact hc),
          List.dropWhile_cons_of_pos (by rw [decide_eq_true_eq]; exact hc)]
        exact ih
      · rw [List.dropWhile_cons_of_neg (by rw [decide_eq_true_eq]; exact hc),
          List.dropWhile_cons_of_neg (by rw [decide_eq_true_eq]; exact hc)]
        exact Alike.char c h
  | word hu hfree hv h _ =>
      -- A word stops the dropping in both texts.
      rw [dropWhile_word_append (word_of_free hu hfree), dropWhile_word_append hv]
      exact Alike.word hu hfree hv h

theorem alike_strip (h : Alike sep n a b) : Alike sep n (a.strip sep) (b.strip sep) := by
  rw [Text.strip, Text.strip, Text.rstrip, Text.rstrip, List.rdropWhile, List.rdropWhile]
  exact alike_reverse (alike_dropWhile (alike_reverse (alike_dropWhile h)))

theorem length_splitOn (s : Text) : (s.splitOn sep).length = s.count sep + 1 := by
  induction s with
  | nil => rfl
  | cons c cs ih =>
      rw [List.splitOn_cons_eq_if_modifyHead, List.count_cons]
      by_cases hc : c = sep
      · rw [if_pos (beq_iff_eq.mpr hc), List.length_cons, ih, if_pos (beq_iff_eq.mpr hc)]
      · rw [if_neg (fun h => hc (beq_iff_eq.mp h)), List.length_modifyHead, ih,
          if_neg (fun h => hc (beq_iff_eq.mp h))]

/-- The second of two alike texts has as many segments more as its words have
separators more. -/
theorem alike_segments (h : Alike sep n a b) : segments sep b = segments sep a + n := by
  have hstrip := alike_strip h
  rw [segments, segments]
  by_cases ha : a.strip sep = []
  · obtain ⟨hn, hb⟩ := alike_nil_left (ha ▸ hstrip)
    rw [if_pos ha, if_pos hb, hn]
  · have hb : b.strip sep ≠ [] := fun hb => ha (alike_nil_right (hb ▸ hstrip))
    rw [if_neg ha, if_neg hb, length_splitOn, length_splitOn, alike_count hstrip]
    omega

end Segments
