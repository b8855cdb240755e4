import JenticOne.Library.Text

/-!
# Hexadecimal Numbers

The number that a text of hexadecimal digits stands for, and the digits of a number,
in lower case and of a given length.

## Main definitions

* `isHex`, `digit`: The digits and their values.
* `value`: The number of a text.
* `pad`: The digits of a number.

## Theorems

* `forall_isHex`: A fact about the digits, checked on all of them.
* `pad_value`: A text's number has the text's digits in lower case.
* `value_pad`: The digits of a number stand for it.
* `pad_inj`: The digits determine the number.
-/

namespace Hex

/-- The class `[0-9A-Fa-f]`. -/
def isHex (c : Char) : Bool :=
  ('0' ≤ c && c ≤ '9') || ('A' ≤ c && c ≤ 'F') || ('a' ≤ c && c ≤ 'f')

/-- The value of a digit. -/
def digit (c : Char) : Nat :=
  if c ≤ '9' then c.toNat - '0'.toNat
  else if c ≤ 'F' then c.toNat - 'A'.toNat + 10
  else c.toNat - 'a'.toNat + 10

/-- The number that a text of digits stands for. -/
def value (s : Text) : Nat := s.foldl (fun n c => 16 * n + digit c) 0

/-- The last `n` digits of a number. -/
def pad : Nat → Nat → Text
  | 0, _ => []
  | n + 1, v => pad n (v / 16) ++ [Text.hexDigit (v % 16)]

theorem ascii_of_isHex {c : Char} (h : isHex c = true) : c.toNat < 128 := by
  simp only [isHex, Bool.or_eq_true, Bool.and_eq_true, decide_eq_true_eq] at h
  rcases h with (h | h) | h
  · exact Nat.lt_of_le_of_lt (Char.le_def.mp h.2) (by decide)
  · exact Nat.lt_of_le_of_lt (Char.le_def.mp h.2) (by decide)
  · exact Nat.lt_of_le_of_lt (Char.le_def.mp h.2) (by decide)

/-- What holds of the digits among the characters of ASCII holds of every digit. -/
theorem forall_isHex {P : Char → Prop}
    (h : ∀ k < 128, isHex (Char.ofNat k) = true → P (Char.ofNat k)) {c : Char}
    (hc : isHex c = true) : P c := by
  have hrow := h c.toNat (ascii_of_isHex hc)
  rw [Char.ofNat_toNat] at hrow
  exact hrow hc

theorem digit_lt {c : Char} (h : isHex c = true) : digit c < 16 :=
  forall_isHex (P := fun c => digit c < 16) (by decide) h

theorem hexDigit_digit {c : Char} (h : isHex c = true) : Text.hexDigit (digit c) = c.toLower :=
  forall_isHex (P := fun c => Text.hexDigit (digit c) = c.toLower) (by decide) h

theorem length_pad (n v : Nat) : (pad n v).length = n := by
  induction n generalizing v with
  | zero => rfl
  | succ n ih => rw [pad, List.length_append, ih, List.length_singleton]

theorem mem_pad {n v : Nat} {c : Char} (h : c ∈ pad n v) : c ∈ Text.hexDigits := by
  induction n generalizing v with
  | zero => exact absurd h List.not_mem_nil
  | succ n ih =>
      rw [pad, List.mem_append, List.mem_singleton] at h
      rcases h with h | h
      · exact ih h
      · exact h ▸ Text.hexDigit_mem _

theorem isHex_of_mem_pad {n v : Nat} {c : Char} (h : c ∈ pad n v) : isHex c = true := by
  have hall : Text.hexDigits.all isHex = true := rfl
  exact List.all_eq_true.mp hall c (mem_pad h)

theorem value_append (s : Text) (c : Char) : value (s ++ [c]) = 16 * value s + digit c := by
  rw [value, List.foldl_append]
  rfl

theorem value_lt {s : Text} (h : ∀ c ∈ s, isHex c = true) : value s < 16 ^ s.length := by
  induction s using List.reverseRecOn with
  | nil => exact Nat.one_pos
  | append_singleton s c ih =>
      have hs := ih fun d hd => h d (List.mem_append_left [c] hd)
      have hc := digit_lt (h c (List.mem_append_right s (List.mem_singleton.mpr rfl)))
      rw [value_append, List.length_append, List.length_singleton, Nat.pow_succ]
      omega

/-- A text's number has the text's digits, in lower case. -/
theorem pad_value {s : Text} (h : ∀ c ∈ s, isHex c = true) :
    pad s.length (value s) = s.map Char.toLower := by
  induction s using List.reverseRecOn with
  | nil => rfl
  | append_singleton s c ih =>
      have hs := ih fun d hd => h d (List.mem_append_left [c] hd)
      have hc := h c (List.mem_append_right s (List.mem_singleton.mpr rfl))
      have hlt := digit_lt hc
      have hdiv : (16 * value s + digit c) / 16 = value s := by omega
      have hmod : (16 * value s + digit c) % 16 = digit c := by omega
      rw [List.length_append, List.length_singleton, pad, value_append, hdiv, hmod, hs,
        hexDigit_digit hc, List.map_append, List.map_singleton]

theorem digit_hexDigit : ∀ n < 16, digit (Text.hexDigit n) = n := by
  decide

/-- The digits of a number stand for it. -/
theorem value_pad {n v : Nat} (h : v < 16 ^ n) : value (pad n v) = v := by
  induction n generalizing v with
  | zero =>
      rw [Nat.pow_zero] at h
      rw [pad, value, List.foldl_nil]
      omega
  | succ n ih =>
      rw [Nat.pow_succ] at h
      rw [pad, value_append, ih (by omega), digit_hexDigit (v % 16) (by omega)]
      omega

/-- Numbers with the same digits are the same. -/
theorem pad_inj {n v w : Nat} (hv : v < 16 ^ n) (hw : w < 16 ^ n) (h : pad n v = pad n w) :
    v = w := by
  rw [← value_pad hv, h, value_pad hw]

end Hex
