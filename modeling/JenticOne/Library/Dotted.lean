import JenticOne.Library.Margins
import JenticOne.Library.Segments

/-!
# Numbers between Dots

Texts that are fields between dots, with a letter that may stand before them and
margins around: the fields of such a text, and what the text then is made of.
A field is decimal digits, with the number they spell.

## Main definitions

* `dropLetter`, `fields`: The fields of a text.
* `Laid`: A text made of fields, an optional letter and margins.
* `Digits`, `value`: Decimal digits and their number.

## Theorems

* `fields_eq_iff`: A text is laid out from its fields.
* `laid_mono`: Wider margins, where no field begins or ends with one.
-/

namespace Dotted

open Margins

/-! ## Fields -/

section Fields

variable {p q : Char → Bool} {v : Char} {s : Text} {fs : List Text}

/-- The text after the letter that it may begin with. -/
def dropLetter (v : Char) (s : Text) : Text := if s.head? = some v then s.tail else s

/-- The fields of a text. -/
def fields (p : Char → Bool) (v : Char) (s : Text) : List Text :=
  (dropLetter v (trim p s)).splitOn '.'

theorem mem_intercalate {c : Char} {fs : List Text} (h : c ∈ ['.'].intercalate fs) :
    c = '.' ∨ ∃ f ∈ fs, c ∈ f := by
  induction fs with
  | nil => exact absurd h List.not_mem_nil
  | cons f fs ih =>
      cases fs with
      | nil => exact .inr ⟨f, List.mem_cons_self, by simpa [List.intercalate] using h⟩
      | cons g fs =>
          rw [Segments.intercalate_cons_cons, List.mem_append, List.mem_cons] at h
          rcases h with h | rfl | h
          · exact .inr ⟨f, List.mem_cons_self, h⟩
          · exact .inl rfl
          · rcases ih h with h | ⟨k, hk, hc⟩
            · exact .inl h
            · exact .inr ⟨k, List.mem_cons_of_mem _ hk, hc⟩

/-- A text of an optional letter and fields, between margins. -/
def Laid (p : Char → Bool) (v : Char) (s : Text) (fs : List Text) : Prop :=
  ∃ l m r : Text, l.all p = true ∧ r.all p = true ∧
    s = l ++ (m ++ ['.'].intercalate fs ++ r) ∧ Bare p (m ++ ['.'].intercalate fs) ∧
    (m = [v] ∨ m = [] ∧ (['.'].intercalate fs).head? ≠ some v)

/-- With wider margins it is the same fields, if they do not reach into them. -/
theorem laid_mono (hpq : ∀ c, p c = true → q c = true) (h : Laid p v s fs)
    (hv : q v = false) (hfs : ∀ f ∈ fs, ∀ c ∈ f, q c = false) (hdot : q '.' = false) :
    Laid q v s fs := by
  obtain ⟨l, m, r, hl, hr, hs, -, hm⟩ := h
  have hall : ∀ c ∈ m ++ ['.'].intercalate fs, q c = false := by
    intro c hc
    rcases List.mem_append.mp hc with hc | hc
    · rcases hm with rfl | ⟨rfl, -⟩
      · rw [List.mem_singleton.mp hc]
        exact hv
      · exact absurd hc List.not_mem_nil
    · rcases mem_intercalate hc with rfl | ⟨f, hf, hc⟩
      · exact hdot
      · exact hfs f hf c hc
  exact ⟨l, m, r, List.all_eq_true.mpr fun c hc => hpq c (List.all_eq_true.mp hl c hc),
    List.all_eq_true.mpr fun c hc => hpq c (List.all_eq_true.mp hr c hc), hs,
    ⟨fun c hc => hall c (List.mem_of_mem_head? hc),
      fun c hc => hall c (List.mem_of_mem_getLast? hc)⟩, hm⟩

theorem dropLetter_eq_iff {t : Text} :
    dropLetter v s = t ↔ s = v :: t ∨ s = t ∧ t.head? ≠ some v := by
  rw [dropLetter]
  by_cases h : s.head? = some v
  · rw [if_pos h]
    obtain ⟨s', rfl⟩ : ∃ s', s = v :: s' := List.head?_eq_some_iff.mp h
    rw [List.tail_cons]
    refine ⟨fun ht => .inl (by rw [ht]), ?_⟩
    rintro (ht | ⟨ht, hne⟩)
    · exact (List.cons.inj ht).2
    · exact absurd (ht ▸ h) hne
  · rw [if_neg h]
    refine ⟨fun ht => .inr ⟨ht, ht ▸ h⟩, ?_⟩
    rintro (ht | ⟨ht, -⟩)
    · exact absurd (by rw [ht]; rfl) h
    · exact ht

/-- The fields of a text are the ones it is laid out from. -/
theorem fields_eq_iff (hne : fs ≠ []) :
    fields p v s = fs ↔ Laid p v s fs ∧ ∀ f ∈ fs, '.' ∉ f := by
  have hcore : fields p v s = fs ↔
      dropLetter v (trim p s) = ['.'].intercalate fs ∧ ∀ f ∈ fs, '.' ∉ f := by
    constructor
    · rintro rfl
      exact ⟨(List.intercalate_splitOn _).symm,
        fun f hf => Segments.not_mem_of_mem_splitOn hf⟩
    · rintro ⟨h, hfree⟩
      rw [fields, h, List.splitOn_intercalate _ hfree hne]
  rw [hcore]
  refine and_congr_left fun _ => ?_
  rw [dropLetter_eq_iff]
  constructor
  · rintro (h | ⟨h, hv⟩)
    · obtain ⟨hbare, l, r, hl, hr, hs⟩ := trim_eq_iff.mp h
      exact ⟨l, [v], r, hl, hr, hs, hbare, .inl rfl⟩
    · obtain ⟨hbare, l, r, hl, hr, hs⟩ := trim_eq_iff.mp h
      exact ⟨l, [], r, hl, hr, hs, hbare, .inr ⟨rfl, hv⟩⟩
  · rintro ⟨l, m, r, hl, hr, hs, hbare, hm⟩
    have ht := trim_eq_iff.mpr ⟨hbare, l, r, hl, hr, hs⟩
    rcases hm with rfl | ⟨rfl, hv⟩
    · exact .inl ht
    · exact .inr ⟨ht, hv⟩

end Fields

/-! ## Numbers -/

/-- One or more decimal digits of the ASCII characters. -/
def Digits (f : Text) : Prop := f ≠ [] ∧ f.all Char.isDigit = true

instance (f : Text) : Decidable (Digits f) := inferInstanceAs (Decidable (_ ∧ _))

/-- The number that digits spell. -/
def value (f : Text) : Nat := f.foldl (fun n c => 10 * n + (c.toNat - '0'.toNat)) 0

end Dotted
