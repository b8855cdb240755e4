import Mathlib.Computability.Language

/-!
# Prefix Closures

The prefixes of the words of a language, and those of a product of languages: a prefix
of a product stops inside one factor, after a full word of each factor before it.

A factor is given with the words it is cut to. They are prefixes of its full words, and
with the full words they are all of these prefixes; the two languages may overlap. The
language of a list of factors, each cut short or present in full before the language of
the rest, is then the prefix closure of their product.

## Main definitions

* `having`: The words with a property.
* `closure`: The prefixes of the words of a language.
* `Cuts`: The words a language is cut to.
* `chain`: The language of a list of factors.

## Theorems

* `closure_mul`: The prefixes of a product.
* `chain_eq_closure`: The language of a list of factors is exact.
* `cuts_word`, `cuts_words`, `cuts_run`: The factors a pattern is made of.
-/

namespace Prefixes

variable {α : Type} {l m : Language α} {s w : List α}

/-- The words with a property. -/
def having (p : List α → Prop) : Language α := {w | p w}

theorem mem_having {p : List α → Prop} : w ∈ having p ↔ p w := Iff.rfl

/-- The prefixes of the words of a language. -/
def closure (l : Language α) : Language α := {s | ∃ w ∈ l, s <+: w}

theorem mem_closure : s ∈ closure l ↔ ∃ w ∈ l, s <+: w := Iff.rfl

theorem subset_closure (h : w ∈ l) : w ∈ closure l := ⟨w, h, List.prefix_refl w⟩

theorem closure_one : closure (1 : Language α) = 1 := by
  ext s
  rw [mem_closure, Language.mem_one]
  constructor
  · rintro ⟨w, hw, hs⟩
    rw [(Language.mem_one w).mp hw, List.prefix_nil] at hs
    exact hs
  · intro h
    exact ⟨[], Language.nil_mem_one, h ▸ List.prefix_refl s⟩

/-- A prefix of a product stops inside the first factor or after a full word of it. -/
theorem closure_mul (hm : ∃ w, w ∈ m) : closure (l * m) = closure l + l * closure m := by
  ext s
  rw [Language.mem_add, mem_closure, mem_closure, Language.mem_mul]
  constructor
  · rintro ⟨w, hw, hs⟩
    rcases Language.mem_mul.mp hw with ⟨a, ha, b, hb, rfl⟩
    rcases hs with ⟨u, hu⟩
    rcases List.append_eq_append_iff.mp hu with ⟨c, hc, _⟩ | ⟨t, hst, hb'⟩
    · exact Or.inl ⟨a, ha, c, hc.symm⟩
    · exact Or.inr ⟨a, ha, t, ⟨b, hb, u, hb'.symm⟩, hst.symm⟩
  · rintro (⟨a, ha, hs⟩ | ⟨a, ha, t, ⟨b, hb, ht⟩, rfl⟩)
    · rcases hm with ⟨b, hb⟩
      exact ⟨a ++ b, Language.append_mem_mul ha hb, hs.trans (List.prefix_append a b)⟩
    · exact ⟨a ++ b, Language.append_mem_mul ha hb, (List.prefix_append_right_inj a).mpr ht⟩

/-! ## Factors -/

/-- The words of `cut` are prefixes of words of `full`, and all of them but for words of
    `full` itself. -/
structure Cuts (full cut : Language α) : Prop where
  nonempty : ∃ w, w ∈ full
  sound : ∀ s ∈ cut, s ∈ closure full
  complete : ∀ s ∈ closure full, s ∈ cut ∨ s ∈ full

/-- Each factor cut short, or present in full before the language of the rest. -/
def chain : List (Language α × Language α) → Language α
  | [] => 1
  | (full, cut) :: factors => cut + full * chain factors

theorem exists_mem_prod {factors : List (Language α × Language α)}
    (h : ∀ f ∈ factors, Cuts f.1 f.2) : ∃ w, w ∈ (factors.map Prod.fst).prod := by
  induction factors with
  | nil => exact ⟨[], Language.nil_mem_one⟩
  | cons f factors ih =>
      rw [List.forall_mem_cons] at h
      rcases h.1.nonempty with ⟨a, ha⟩
      rcases ih h.2 with ⟨b, hb⟩
      rw [List.map_cons, List.prod_cons]
      exact ⟨a ++ b, Language.append_mem_mul ha hb⟩

/-- The language of a list of factors is the prefix closure of their product. -/
theorem chain_eq_closure {factors : List (Language α × Language α)}
    (h : ∀ f ∈ factors, Cuts f.1 f.2) :
    chain factors = closure (factors.map Prod.fst).prod := by
  induction factors with
  | nil => exact closure_one.symm
  | cons f factors ih =>
      rw [List.forall_mem_cons] at h
      have hrest : ∃ w, w ∈ (factors.map Prod.fst).prod := exists_mem_prod h.2
      rw [List.map_cons, List.prod_cons, closure_mul hrest, ← ih h.2, chain]
      ext s
      rw [Language.mem_add, Language.mem_add]
      constructor
      · exact fun hs => hs.imp_left (h.1.sound s)
      · rintro (hs | hs)
        · -- A full word of the factor is one before the empty prefix of the rest.
          refine (h.1.complete s hs).imp_right fun hs => ?_
          have hnil : [] ∈ chain factors := by
            rw [ih h.2]
            rcases hrest with ⟨w, hw⟩
            exact ⟨w, hw, List.nil_prefix⟩
          exact Language.mem_mul.mpr ⟨s, hs, [], hnil, List.append_nil s⟩
        · exact Or.inr hs

/-- A word of one letter is cut to the empty word. -/
theorem cuts_word (a : α) : Cuts (having (· = [a])) 1 where
  nonempty := ⟨[a], rfl⟩
  sound := fun s hs => ⟨[a], rfl, (Language.mem_one s).mp hs ▸ List.nil_prefix⟩
  complete := by
    rintro s ⟨w, rfl, hs⟩
    rw [List.prefix_cons_iff] at hs
    rcases hs with rfl | ⟨t, rfl, ht⟩
    · exact Or.inl Language.nil_mem_one
    · rw [List.prefix_nil.mp ht]
      exact Or.inr rfl

/-- A finite choice of words is cut to their proper prefixes. The empty word counts as
    one, also where every word is empty. -/
theorem cuts_words {words : List (List α)} {cut : Language α} (hne : words ≠ [])
    (hcut : ∀ s, s ∈ cut ↔ s = [] ∨ ∃ w ∈ words, ∃ n < w.length, s = w.take n) :
    Cuts (having (· ∈ words)) cut where
  nonempty := List.exists_mem_of_ne_nil words hne
  sound := by
    intro s hs
    rcases (hcut s).mp hs with rfl | ⟨w, hw, n, _, rfl⟩
    · rcases List.exists_mem_of_ne_nil words hne with ⟨w, hw⟩
      exact ⟨w, hw, List.nil_prefix⟩
    · exact ⟨w, hw, List.take_prefix n w⟩
  complete := by
    rintro s ⟨w, hw, hs⟩
    by_cases hlen : s.length < w.length
    · exact Or.inl ((hcut s).mpr (Or.inr ⟨w, hw, s.length, hlen, List.prefix_iff_eq_take.mp hs⟩))
    · rw [hs.eq_of_length_le (Nat.le_of_not_lt hlen)]
      exact Or.inr hw

/-- A run of letters of a class, one at least, is cut to a run of any length. -/
theorem cuts_run {p : α → Prop} (hp : ∃ a, p a) :
    Cuts (having fun w => w ≠ [] ∧ ∀ a ∈ w, p a) (having fun w => ∀ a ∈ w, p a) where
  nonempty := by
    rcases hp with ⟨a, ha⟩
    exact ⟨[a], List.cons_ne_nil a [], by rwa [List.forall_mem_singleton]⟩
  sound := by
    intro s hs
    rcases hp with ⟨a, ha⟩
    refine ⟨s ++ [a], ⟨List.append_ne_nil_of_right_ne_nil s (List.cons_ne_nil a []), ?_⟩,
      List.prefix_append s [a]⟩
    rw [List.forall_mem_append, List.forall_mem_singleton]
    exact ⟨hs, ha⟩
  complete := by
    rintro s ⟨w, ⟨_, hw⟩, hs⟩
    exact Or.inl fun a ha => hw a (hs.subset ha)

end Prefixes
