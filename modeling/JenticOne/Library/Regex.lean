import JenticOne.Library.Text

/-!
# Regular Expressions

Regular expressions over classes of characters, the texts they spell, and a matcher of
whole texts that takes the derivative of the expression by one character after another.

An expression is written with the operators of a pattern: literals, classes, sequences,
choices and repetitions. For what a pattern is mostly made of, a literal and a number of
characters of a class, the texts are described once and for all.

## Main definitions

* `Re`: Expressions, and `Re.Spells`: their texts.
* `Re.deriv`, `Re.fullmatch`: The matcher.
* `Re.text`, `Re.oneOf`, `Re.concat`, `Re.plus`, `Re.opt`, `Re.rep`, `Re.upTo`: Derived
  operators.
* `Re.matchLine`: The matcher of a pattern that ends in `$`.

## Theorems

* `spells_deriv`: What an expression spells after a character.
* `fullmatch_iff`: The matcher finds the texts of an expression.
* `spells_plus_set`, `spells_rep_set`: Runs of characters of a class.
-/

/-- Regular expressions. -/
inductive Re
  | fail
  | eps
  | set (p : Char → Bool)
  | seq (r s : Re)
  | alt (r s : Re)
  | star (r : Re)

namespace Re

/-- The texts of an expression. -/
inductive Spells : Re → Text → Prop
  | eps : Spells .eps []
  | set {p : Char → Bool} {c : Char} : p c = true → Spells (.set p) [c]
  | seq {r s : Re} {a b : Text} : Spells r a → Spells s b → Spells (.seq r s) (a ++ b)
  | left {r s : Re} {a : Text} : Spells r a → Spells (.alt r s) a
  | right {r s : Re} {a : Text} : Spells s a → Spells (.alt r s) a
  | none {r : Re} : Spells (.star r) []
  | more {r : Re} {a b : Text} : Spells r a → Spells (.star r) b → Spells (.star r) (a ++ b)

variable {r s : Re} {a t : Text} {c : Char} {p : Char → Bool}

theorem not_spells_fail : ¬ Spells .fail t := by
  intro h
  cases h

theorem spells_eps : Spells .eps t ↔ t = [] := by
  constructor
  · intro h
    cases h
    rfl
  · intro h
    rw [h]
    exact .eps

theorem spells_set : Spells (.set p) t ↔ ∃ c, p c = true ∧ t = [c] := by
  constructor
  · intro h
    cases h with
    | set hc => exact ⟨_, hc, rfl⟩
  · rintro ⟨c, hc, rfl⟩
    exact .set hc

theorem spells_seq : Spells (.seq r s) t ↔ ∃ a b, Spells r a ∧ Spells s b ∧ t = a ++ b := by
  constructor
  · intro h
    cases h with
    | seq ha hb => exact ⟨_, _, ha, hb, rfl⟩
  · rintro ⟨a, b, ha, hb, rfl⟩
    exact .seq ha hb

theorem spells_alt : Spells (.alt r s) t ↔ Spells r t ∨ Spells s t := by
  constructor
  · intro h
    cases h with
    | left h => exact Or.inl h
    | right h => exact Or.inr h
  · rintro (h | h)
    · exact .left h
    · exact .right h

/-! ## Matching -/

/-- The expression spells the empty text. -/
def nullable : Re → Bool
  | fail => false
  | eps => true
  | set _ => false
  | seq r s => r.nullable && s.nullable
  | alt r s => r.nullable || s.nullable
  | star _ => true

/-- What is left of the expression after a character. -/
def deriv (c : Char) : Re → Re
  | fail => fail
  | eps => fail
  | set p => if p c then eps else fail
  | seq r s => if r.nullable then alt (seq (r.deriv c) s) (s.deriv c) else seq (r.deriv c) s
  | alt r s => alt (r.deriv c) (s.deriv c)
  | star r => seq (r.deriv c) (star r)

/-- `fullmatch`. -/
def fullmatch (r : Re) : Text → Bool
  | [] => r.nullable
  | c :: cs => (r.deriv c).fullmatch cs

theorem nullable_iff : r.nullable = true ↔ Spells r [] := by
  induction r with
  | fail => exact ⟨fun h => absurd h Bool.false_ne_true, fun h => absurd h not_spells_fail⟩
  | eps => exact ⟨fun _ => .eps, fun _ => rfl⟩
  | set p =>
      refine ⟨fun h => absurd h Bool.false_ne_true, fun h => ?_⟩
      rcases spells_set.mp h with ⟨c, _, hc⟩
      exact absurd hc (List.cons_ne_nil c []).symm
  | seq r s ihr ihs =>
      rw [nullable, Bool.and_eq_true, ihr, ihs]
      constructor
      · exact fun h => .seq h.1 h.2
      · intro h
        rcases spells_seq.mp h with ⟨a, b, ha, hb, hab⟩
        rcases List.append_eq_nil_iff.mp hab.symm with ⟨rfl, rfl⟩
        exact ⟨ha, hb⟩
  | alt r s ihr ihs => rw [nullable, Bool.or_eq_true, ihr, ihs, spells_alt]
  | star r _ => exact ⟨fun _ => .none, fun _ => rfl⟩

/-- A text of a repetition that is not empty begins with a text of the expression that
    is not empty. -/
theorem spells_star_cons (h : Spells (.star r) (c :: t)) :
    ∃ a b, t = a ++ b ∧ Spells r (c :: a) ∧ Spells (.star r) b := by
  generalize hs : Re.star r = s at h
  generalize hu : c :: t = u at h
  induction h with
  | eps => exact absurd hs (by simp only [reduceCtorEq, not_false_eq_true])
  | set _ => exact absurd hs (by simp only [reduceCtorEq, not_false_eq_true])
  | seq _ _ _ _ => exact absurd hs (by simp only [reduceCtorEq, not_false_eq_true])
  | left _ _ => exact absurd hs (by simp only [reduceCtorEq, not_false_eq_true])
  | right _ _ => exact absurd hs (by simp only [reduceCtorEq, not_false_eq_true])
  | none => exact absurd hu (List.cons_ne_nil c t)
  | @more r' a b ha hb _ ihb =>
      rw [Re.star.injEq] at hs
      rw [hs]
      cases a with
      | nil => exact hs ▸ ihb (by rw [hs]) hu
      | cons c' a =>
          rw [List.cons_append, List.cons.injEq] at hu
          exact ⟨a, b, hu.2, hu.1 ▸ ha, hb⟩

/-- What an expression spells after a character. -/
theorem spells_deriv : Spells (r.deriv c) t ↔ Spells r (c :: t) := by
  induction r generalizing t with
  | fail => exact ⟨fun h => absurd h not_spells_fail, fun h => absurd h not_spells_fail⟩
  | eps =>
      exact ⟨fun h => absurd h not_spells_fail,
        fun h => absurd (spells_eps.mp h) (List.cons_ne_nil c t)⟩
  | set p =>
      rw [deriv, spells_set]
      by_cases hp : p c = true
      · rw [if_pos hp, spells_eps]
        constructor
        · intro h
          exact ⟨c, hp, by rw [h]⟩
        · rintro ⟨c', _, h⟩
          exact (List.cons.inj h).2
      · rw [if_neg hp]
        constructor
        · intro h
          cases h
        · rintro ⟨c', hp', h⟩
          rw [(List.cons.inj h).1] at hp
          exact absurd hp' hp
  | seq r s ihr ihs =>
      -- A text of the sequence begins within the first part or leaves it empty.
      have hsplit : Spells (.seq r s) (c :: t) ↔
          Spells (.seq (r.deriv c) s) t ∨ (Spells r [] ∧ Spells s (c :: t)) := by
        rw [spells_seq, spells_seq]
        constructor
        · rintro ⟨a, b, ha, hb, hab⟩
          cases a with
          | nil =>
              rw [List.nil_append] at hab
              exact Or.inr ⟨ha, hab ▸ hb⟩
          | cons c' a =>
              rw [List.cons_append, List.cons.injEq] at hab
              rw [← hab.1] at ha
              exact Or.inl ⟨a, b, ihr.mpr ha, hb, hab.2⟩
        · rintro (⟨a, b, ha, hb, rfl⟩ | ⟨ha, hb⟩)
          · exact ⟨c :: a, b, ihr.mp ha, hb, rfl⟩
          · exact ⟨[], c :: t, ha, hb, rfl⟩
      rw [deriv, hsplit, ← nullable_iff]
      by_cases hnull : r.nullable = true
      · rw [if_pos hnull, spells_alt, ihs]
        exact ⟨fun h => h.imp_right fun h => ⟨hnull, h⟩, fun h => h.imp_right fun h => h.2⟩
      · rw [if_neg hnull]
        exact ⟨Or.inl, fun h => h.resolve_right fun h => hnull h.1⟩
  | alt r s ihr ihs => rw [deriv, spells_alt, spells_alt, ihr, ihs]
  | star r ih =>
      rw [deriv, spells_seq]
      constructor
      · rintro ⟨a, b, ha, hb, rfl⟩
        exact .more (ih.mp ha) hb
      · intro h
        rcases spells_star_cons h with ⟨a, b, rfl, ha, hb⟩
        exact ⟨a, b, ih.mpr ha, hb, rfl⟩

/-- The matcher finds the texts of an expression. -/
theorem fullmatch_iff : r.fullmatch t = true ↔ Spells r t := by
  induction t generalizing r with
  | nil => exact nullable_iff
  | cons c cs ih =>
      rw [fullmatch, ih]
      exact spells_deriv

/-! ## Operators -/

/-- A literal. -/
def text : Text → Re
  | [] => eps
  | c :: cs => seq (set (· = c)) (text cs)

/-- One or more times. -/
def plus (r : Re) : Re := seq r (star r)

/-- At most once. -/
def opt (r : Re) : Re := alt r eps

/-- A choice of literals; of none, the empty text. -/
def oneOf : List Text → Re
  | [] => eps
  | [a] => text a
  | a :: b :: rest => alt (text a) (oneOf (b :: rest))

/-- Expressions written one after another. -/
def concat : List Re → Re
  | [] => eps
  | r :: rs => seq r (concat rs)

/-- Exactly `n` times. -/
def rep : Nat → Re → Re
  | 0, _ => eps
  | n + 1, r => seq r (rep n r)

/-- At most `n` times. -/
def upTo : Nat → Re → Re
  | 0, _ => eps
  | n + 1, r => opt (seq r (upTo n r))

/-- `$` at the end of a pattern: a line end may follow what is matched. -/
def matchLine (r : Re) (s : Text) : Bool :=
  r.fullmatch s || (s.getLast? = some '\n' && r.fullmatch s.dropLast)

theorem spells_text : Spells (text a) t ↔ t = a := by
  induction a generalizing t with
  | nil => exact spells_eps
  | cons c cs ih =>
      rw [text, spells_seq]
      constructor
      · rintro ⟨u, v, hu, hv, rfl⟩
        rcases spells_set.mp hu with ⟨c', hc', rfl⟩
        rw [of_decide_eq_true hc', ih.mp hv]
        rfl
      · intro h
        exact ⟨[c], cs, .set (decide_eq_true rfl), ih.mpr rfl, h⟩

theorem spells_text_seq : Spells (.seq (text a) r) t ↔ ∃ b, Spells r b ∧ t = a ++ b := by
  rw [spells_seq]
  constructor
  · rintro ⟨u, b, hu, hb, rfl⟩
    rw [spells_text.mp hu]
    exact ⟨b, hb, rfl⟩
  · rintro ⟨b, hb, rfl⟩
    exact ⟨a, b, spells_text.mpr rfl, hb, rfl⟩

theorem spells_seq_text_seq :
    Spells (.seq r (.seq (text a) s)) t ↔ ∃ u v, Spells r u ∧ Spells s v ∧ t = u ++ (a ++ v) := by
  rw [spells_seq]
  constructor
  · rintro ⟨u, w, hu, hw, rfl⟩
    rcases spells_text_seq.mp hw with ⟨v, hv, rfl⟩
    exact ⟨u, v, hu, hv, rfl⟩
  · rintro ⟨u, v, hu, hv, rfl⟩
    exact ⟨u, a ++ v, hu, spells_text_seq.mpr ⟨v, hv, rfl⟩, rfl⟩

theorem spells_opt : Spells (opt r) t ↔ Spells r t ∨ t = [] := by
  rw [opt, spells_alt, spells_eps]

theorem spells_oneOf {words : List Text} (hne : words ≠ []) :
    Spells (oneOf words) t ↔ t ∈ words := by
  induction words with
  | nil => exact absurd rfl hne
  | cons a words ih =>
      cases words with
      | nil => rw [oneOf, spells_text, List.mem_singleton]
      | cons b rest =>
          rw [oneOf, spells_alt, spells_text, ih (List.cons_ne_nil b rest), ← List.mem_cons]

/-- A repetition of a class is a run of its characters. -/
theorem spells_star_set : Spells (.star (.set p)) t ↔ ∀ c ∈ t, p c = true := by
  induction t with
  | nil => exact ⟨fun _ c hc => absurd hc List.not_mem_nil, fun _ => .none⟩
  | cons c t ih =>
      rw [List.forall_mem_cons, ← ih]
      constructor
      · intro h
        rcases spells_star_cons h with ⟨a, b, rfl, ha, hb⟩
        rcases spells_set.mp ha with ⟨c', hc', heq⟩
        rcases List.cons.inj heq with ⟨rfl, rfl⟩
        exact ⟨hc', hb⟩
      · intro h
        exact .more (.set h.1) h.2

theorem spells_plus_set : Spells (plus (.set p)) t ↔ t ≠ [] ∧ ∀ c ∈ t, p c = true := by
  rw [plus, spells_seq]
  constructor
  · rintro ⟨a, b, ha, hb, rfl⟩
    rcases spells_set.mp ha with ⟨c, hc, rfl⟩
    refine ⟨List.cons_ne_nil c b, ?_⟩
    rw [List.singleton_append, List.forall_mem_cons]
    exact ⟨hc, spells_star_set.mp hb⟩
  · rintro ⟨hne, h⟩
    cases t with
    | nil => exact absurd rfl hne
    | cons c t =>
        rw [List.forall_mem_cons] at h
        exact ⟨[c], t, .set h.1, spells_star_set.mpr h.2, rfl⟩

theorem spells_rep_set {n : Nat} :
    Spells (rep n (.set p)) t ↔ t.length = n ∧ ∀ c ∈ t, p c = true := by
  induction n generalizing t with
  | zero =>
      rw [rep, spells_eps, List.length_eq_zero_iff]
      exact ⟨fun h => ⟨h, fun c hc => absurd hc (h ▸ List.not_mem_nil)⟩, fun h => h.1⟩
  | succ n ih =>
      rw [rep, spells_seq]
      constructor
      · rintro ⟨a, b, ha, hb, rfl⟩
        rcases spells_set.mp ha with ⟨c, hc, rfl⟩
        rcases ih.mp hb with ⟨hlen, hall⟩
        rw [List.singleton_append, List.length_cons, hlen, List.forall_mem_cons]
        exact ⟨rfl, hc, hall⟩
      · rintro ⟨hlen, h⟩
        cases t with
        | nil => exact absurd hlen (Nat.succ_ne_zero n).symm
        | cons c t =>
            rw [List.forall_mem_cons] at h
            rw [List.length_cons, Nat.add_right_cancel_iff] at hlen
            exact ⟨[c], t, .set h.1, ih.mpr ⟨hlen, h.2⟩, rfl⟩

end Re
