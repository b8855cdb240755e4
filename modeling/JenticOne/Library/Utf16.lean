import JenticOne.Library.Text

/-!
# Code Units of UTF-16

A text as a language with strings of 16-bit units holds it: a character of the
basic plane is one unit, every other one a pair of surrogates. The units of a
pair are told from the first units of characters, so that a part of the units
which ends where a character begins is the units of a part of the text.

## Main definitions

* `units`, `encode`: The units of a character, of a text.
* `decode`: The text of units.

## Theorems

* `decode_encode`: Nothing is lost.
* `split_aligned`: A split before a unit that is no low surrogate is one of the
  text.
* `encode_isPrefix`: The beginnings of a text.
-/

namespace Utf16

/-- The second unit of a pair. -/
def IsLow (u : Nat) : Prop := 0xDC00 ≤ u ∧ u < 0xE000

instance (u : Nat) : Decidable (IsLow u) := inferInstanceAs (Decidable (_ ∧ _))

/-- The first unit of a pair. -/
def IsHigh (u : Nat) : Prop := 0xD800 ≤ u ∧ u < 0xDC00

instance (u : Nat) : Decidable (IsHigh u) := inferInstanceAs (Decidable (_ ∧ _))

/-- The units of a character. -/
def units (c : Char) : List Nat :=
  if c.toNat < 0x10000 then [c.toNat]
  else [0xD800 + (c.toNat - 0x10000) / 0x400, 0xDC00 + (c.toNat - 0x10000) % 0x400]

/-- The units of a text. -/
def encode (t : Text) : List Nat := t.flatMap units

/-- The text of units. -/
def decode : List Nat → Text
  | [] => []
  | [u] => [Char.ofNat u]
  | u :: l :: us =>
      if IsHigh u then Char.ofNat (0x10000 + (u - 0xD800) * 0x400 + (l - 0xDC00)) :: decode us
      else Char.ofNat u :: decode (l :: us)

theorem encode_cons (c : Char) (t : Text) : encode (c :: t) = units c ++ encode t := rfl

theorem encode_append (t u : Text) : encode (t ++ u) = encode t ++ encode u :=
  List.flatMap_append

/-- A character is one unit that is no surrogate, or a pair. -/
theorem units_cases (c : Char) :
    (units c = [c.toNat] ∧ ¬ IsLow c.toNat ∧ ¬ IsHigh c.toNat) ∨
      ∃ h l, units c = [h, l] ∧ IsHigh h ∧ IsLow l ∧
        0x10000 + (h - 0xD800) * 0x400 + (l - 0xDC00) = c.toNat := by
  have hvalid : c.toNat < 0xD800 ∨ (0xDFFF < c.toNat ∧ c.toNat < 0x110000) := c.valid
  unfold units IsLow IsHigh
  by_cases hplane : c.toNat < 0x10000
  · rw [if_pos hplane]
    exact Or.inl ⟨rfl, by omega, by omega⟩
  · rw [if_neg hplane]
    exact Or.inr ⟨_, _, rfl, by omega, by omega, by omega⟩

theorem units_ne_nil (c : Char) : units c ≠ [] := by
  rcases units_cases c with ⟨h, _⟩ | ⟨_, _, h, _⟩ <;> rw [h] <;> exact List.cons_ne_nil _ _

theorem decode_units (c : Char) (us : List Nat) : decode (units c ++ us) = c :: decode us := by
  rcases units_cases c with ⟨hunits, _, hhigh⟩ | ⟨h, l, hunits, hhigh, _, hcode⟩
  · rw [hunits]
    cases us with
    | nil =>
        change [Char.ofNat c.toNat] = _
        rw [Char.ofNat_toNat]
        rfl
    | cons l us =>
        change decode (c.toNat :: l :: us) = _
        conv_lhs => unfold decode
        rw [if_neg hhigh, Char.ofNat_toNat]
  · rw [hunits]
    change decode (h :: l :: us) = _
    conv_lhs => unfold decode
    rw [if_pos hhigh, hcode, Char.ofNat_toNat]

theorem decode_encode (t : Text) : decode (encode t) = t := by
  induction t with
  | nil => rfl
  | cons c t ih => rw [encode_cons, decode_units, ih]

theorem encode_injective {t u : Text} (h : encode t = encode u) : t = u := by
  rw [← decode_encode t, h, decode_encode]

/-- Units that end where a character begins are the units of a part. -/
theorem split_aligned {s : Text} {u v : List Nat} (h : encode s = u ++ v)
    (hv : ∀ a ∈ v.head?, ¬ IsLow a) : ∃ s1 s2, s = s1 ++ s2 ∧ u = encode s1 ∧ v = encode s2 := by
  induction s generalizing u with
  | nil =>
      rcases List.append_eq_nil_iff.mp h.symm with ⟨rfl, rfl⟩
      exact ⟨[], [], rfl, rfl, rfl⟩
  | cons c s ih =>
      cases u with
      | nil => exact ⟨[], c :: s, rfl, rfl, h.symm⟩
      | cons a u =>
          rw [encode_cons] at h
          rcases units_cases c with ⟨hunits, _⟩ | ⟨hi, lo, hunits, _, hlow, _⟩
          · rw [hunits, List.singleton_append, List.cons_append, List.cons.injEq] at h
            rcases ih h.2 with ⟨s1, s2, rfl, hu, hv'⟩
            refine ⟨c :: s1, s2, rfl, ?_, hv'⟩
            rw [encode_cons, hunits, hu, ← h.1]
            rfl
          · rw [hunits, List.cons_append, List.cons_append, List.cons_append,
              List.cons.injEq] at h
            cases u with
            | nil =>
                -- The split would be in the middle of the pair.
                have hhead : v.head? = some lo := by
                  rw [← show lo :: encode s = v from h.2]
                  rfl
                exact absurd hlow (hv lo (by rw [hhead]; rfl))
            | cons b u =>
                rw [List.nil_append, List.cons_append, List.cons.injEq] at h
                rcases ih h.2.2 with ⟨s1, s2, rfl, hu, hv'⟩
                refine ⟨c :: s1, s2, rfl, ?_, hv'⟩
                rw [encode_cons, hunits, hu, ← h.1, ← h.2.1]
                rfl

/-- The first unit of a text is no low surrogate. -/
theorem not_isLow_head (t : Text) : ∀ a ∈ (encode t).head?, ¬ IsLow a := by
  intro a ha
  cases t with
  | nil => exact absurd ha (by simp only [encode, List.flatMap_nil, List.head?_nil, reduceCtorEq,
      Option.mem_def, not_false_eq_true])
  | cons c t =>
      rw [encode_cons] at ha
      rcases units_cases c with ⟨hunits, hlow, _⟩ | ⟨h, l, hunits, hhigh, _, _⟩
      · rw [hunits, List.singleton_append, List.head?_cons, Option.mem_some_iff] at ha
        rw [← ha]
        exact hlow
      · rw [hunits, List.cons_append, List.head?_cons, Option.mem_some_iff] at ha
        rw [← ha]
        unfold IsHigh at hhigh
        unfold IsLow
        omega

theorem encode_isPrefix {l s : Text} : encode l <+: encode s ↔ l <+: s := by
  constructor
  · rintro ⟨v, hv⟩
    have hlow : ∀ a ∈ v.head?, ¬ IsLow a := by
      induction l generalizing s with
      | nil =>
          intro a ha
          rw [← show encode s = v from hv.symm] at ha
          exact not_isLow_head s a ha
      | cons c l ih =>
          cases s with
          | nil =>
              rw [encode_cons, List.append_assoc] at hv
              exact absurd (List.append_eq_nil_iff.mp hv).1 (units_ne_nil c)
          | cons d s =>
              have hcd : c = d := by
                have := congrArg decode hv
                rw [encode_cons, encode_cons, List.append_assoc, decode_units, decode_units,
                  List.cons.injEq] at this
                exact this.1
              rw [encode_cons, encode_cons, List.append_assoc, hcd] at hv
              exact ih (List.append_cancel_left hv)
    rcases split_aligned hv.symm hlow with ⟨s1, s2, rfl, hs1, _⟩
    rw [encode_injective hs1]
    exact List.prefix_append s1 s2
  · rintro ⟨r, rfl⟩
    rw [encode_append]
    exact List.prefix_append _ _

/-- A unit below the surrogates is a whole character. -/
theorem units_of_mem {c : Char} {u : Nat} (hu : u ∈ units c) (h : u < 0xD800) :
    c.toNat = u ∧ units c = [u] := by
  rcases units_cases c with ⟨hunits, _⟩ | ⟨hi, lo, hunits, hhigh, hlow, _⟩
  · rw [hunits, List.mem_singleton] at hu
    exact ⟨hu.symm, by rw [hunits, hu]⟩
  · unfold IsHigh at hhigh
    unfold IsLow at hlow
    rw [hunits, List.mem_cons, List.mem_singleton] at hu
    omega

end Utf16
