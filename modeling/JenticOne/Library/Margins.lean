import JenticOne.Library.Text

/-!
# Margins of a Text

A text without the characters of a class at its ends, and the class of white
space that is cut from a text where no other is named.

## Main definitions

* `trim`: What is left between the margins.
* `Bare`: A text without margins.
* `isspace`: The white space of Unicode, with the separators of ASCII.

## Theorems

* `trim_eq_iff`: What is left is what stands bare between margins.
* `trim_eq_self`: A bare text is left as it is.
-/

namespace Margins

/-- White space: the one of Unicode, and the information separators. -/
def isspace (c : Char) : Bool :=
  (0x09 ≤ c.toNat && c.toNat ≤ 0x0D) || (0x1C ≤ c.toNat && c.toNat ≤ 0x20) ||
  c.toNat = 0x85 || c.toNat = 0xA0 || c.toNat = 0x1680 ||
  (0x2000 ≤ c.toNat && c.toNat ≤ 0x200A) || c.toNat = 0x2028 || c.toNat = 0x2029 ||
  c.toNat = 0x202F || c.toNat = 0x205F || c.toNat = 0x3000

/-- A character of ASCII that has a picture is not white space. -/
theorem isspace_of_ascii {c : Char} (hlow : 0x20 < c.toNat) (hhigh : c.toNat < 0x80) :
    isspace c = false := by
  simp only [isspace, Bool.or_eq_false_iff, Bool.and_eq_false_iff, decide_eq_false_iff_not]
  omega

variable {p : Char → Bool}

/-- The text without the characters of the margins at its ends. -/
def trim (p : Char → Bool) (s : Text) : Text := (s.dropWhile p).rdropWhile p

/-- No margin at either end. -/
structure Bare (p : Char → Bool) (s : Text) : Prop where
  head : ∀ c ∈ s.head?, p c = false
  last : ∀ c ∈ s.getLast?, p c = false

theorem dropWhile_eq_self {s : Text} (h : ∀ c ∈ s.head?, p c = false) : s.dropWhile p = s := by
  cases s with
  | nil => rfl
  | cons c s => exact List.dropWhile_cons_of_neg (by rw [h c rfl]; exact Bool.false_ne_true)

theorem rdropWhile_eq_self {s : Text} (h : ∀ c ∈ s.getLast?, p c = false) :
    s.rdropWhile p = s := by
  have hhead : ∀ c ∈ s.reverse.head?, p c = false := by
    rw [List.head?_reverse]
    exact h
  rw [List.rdropWhile, dropWhile_eq_self hhead, List.reverse_reverse]

theorem head?_dropWhile (s : Text) : ∀ c ∈ (s.dropWhile p).head?, p c = false := by
  intro c hc
  have h := List.head?_dropWhile_not p s
  rw [Option.mem_def.mp hc] at h
  exact Bool.eq_false_iff.mpr (by simpa only [Bool.not_eq_true] using h)

theorem all_takeWhile (s : Text) : (s.takeWhile p).all p = true :=
  List.all_takeWhile

/-- The end of a text that its right margin is cut from. -/
theorem exists_rdropWhile (s : Text) :
    ∃ r : Text, r.all p = true ∧ s = s.rdropWhile p ++ r := by
  refine ⟨(s.reverse.takeWhile p).reverse, ?_, ?_⟩
  · rw [List.all_reverse]
    exact all_takeWhile s.reverse
  · rw [List.rdropWhile, ← List.reverse_append, List.takeWhile_append_dropWhile,
      List.reverse_reverse]

theorem rdropWhile_append {r : Text} (hr : r.all p = true) (s : Text) :
    (s ++ r).rdropWhile p = s.rdropWhile p := by
  rw [List.rdropWhile, List.rdropWhile, List.reverse_append,
    List.dropWhile_append_of_pos fun c hc => List.all_eq_true.mp hr c (List.mem_reverse.mp hc)]

theorem getLast?_rdropWhile (s : Text) : ∀ c ∈ (s.rdropWhile p).getLast?, p c = false := by
  rw [List.rdropWhile, List.getLast?_reverse]
  exact head?_dropWhile s.reverse

/-- The right margin is cut from what follows a text that ends without one. -/
theorem rdropWhile_append_right {x : Text}
    (hx : ∀ c ∈ x.getLast?, p c = false) (y : Text) :
    (x ++ y).rdropWhile p = x ++ y.rdropWhile p := by
  rcases exists_rdropWhile (p := p) y with ⟨r, hr, hy⟩
  have hlast := getLast?_rdropWhile (p := p) y
  generalize y.rdropWhile p = y' at *
  rw [hy, ← List.append_assoc, rdropWhile_append hr, rdropWhile_eq_self]
  cases y' with
  | nil =>
      rw [List.append_nil]
      exact hx
  | cons c cs =>
      rw [List.getLast?_append_of_ne_nil x (List.cons_ne_nil c cs)]
      exact hlast

/-- The first character is still there once the right margin is gone, if it is
    not in a margin. -/
theorem head?_rdropWhile {s : Text} (h : ∀ c ∈ s.head?, p c = false) :
    (s.rdropWhile p).head? = s.head? := by
  obtain ⟨r, hr, hs⟩ := exists_rdropWhile (p := p) s
  cases ht : s.rdropWhile p with
  | cons c t => rw [hs, ht, List.cons_append, List.head?_cons, List.head?_cons]
  | nil =>
      rw [ht, List.nil_append] at hs
      cases r with
      | nil => rw [hs]
      | cons c r =>
          rw [hs] at h
          have hc : p c = true := List.all_eq_true.mp hr c List.mem_cons_self
          rw [h c rfl] at hc
          exact absurd hc Bool.false_ne_true

theorem trim_bare (s : Text) : Bare p (trim p s) where
  head := by
    rw [trim, head?_rdropWhile (head?_dropWhile s)]
    exact head?_dropWhile s
  last := getLast?_rdropWhile _

/-- What is left of a text is what stands bare between margins. -/
theorem trim_eq_iff {s t : Text} :
    trim p s = t ↔ Bare p t ∧ ∃ l r, l.all p = true ∧ r.all p = true ∧ s = l ++ (t ++ r) := by
  constructor
  · rintro rfl
    refine ⟨trim_bare s, ?_⟩
    obtain ⟨r, hr, hs⟩ := exists_rdropWhile (p := p) (s.dropWhile p)
    exact ⟨s.takeWhile p, r, all_takeWhile s, hr, by
      rw [trim, ← hs, List.takeWhile_append_dropWhile]⟩
  · rintro ⟨hbare, l, r, hl, hr, rfl⟩
    rw [trim, List.dropWhile_append_of_pos (List.all_eq_true.mp hl)]
    cases t with
    | nil =>
        rw [List.nil_append, ← List.append_nil r, List.dropWhile_append_of_pos
          (List.all_eq_true.mp hr), List.dropWhile_nil, List.rdropWhile_nil]
    | cons c t =>
        have hhead : ∀ d ∈ (c :: t ++ r).head?, p d = false := hbare.head
        rw [dropWhile_eq_self hhead, rdropWhile_append hr, rdropWhile_eq_self hbare.last]

/-- A text without margins is left as it is. -/
theorem trim_eq_self {s : Text} (h : ∀ c ∈ s, p c = false) : trim p s = s :=
  trim_eq_iff.mpr ⟨⟨fun c hc => h c (List.mem_of_mem_head? hc),
    fun c hc => h c (List.mem_of_mem_getLast? hc)⟩, [], [], rfl, rfl, by
      rw [List.nil_append, List.append_nil]⟩

theorem trim_trim (s : Text) : trim p (trim p s) = trim p s :=
  trim_eq_iff.mpr ⟨trim_bare s, [], [], rfl, rfl, by rw [List.nil_append, List.append_nil]⟩

end Margins
