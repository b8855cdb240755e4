import JenticOne.Library.Text

/-!
# Base64

Bytes in base64 with padding, and the reader that passes over the characters outside
the alphabet, as the standard library's does when it is not asked to be strict.

The reader goes character by character: the bits that are left of the last one, and
the place within a group of four. A group that is not complete must be padded.

## Main definitions

* `encode`: The text of bytes.
* `Reader`, `read`: The reader, a character at a time.
* `decode`: The bytes of a text.

## Theorems

* `decode_encode`: The bytes are read back.
* `length_encode`: The length of the text.
-/

namespace Base64

def alphabet : Text :=
  "ABCDEFGHIJKLMNOPQRSTUVWXYZabcdefghijklmnopqrstuvwxyz0123456789+/".toList

/-- The character of six bits. -/
def digit (n : Nat) : Char := (alphabet[n]?).getD 'A'

/-- The six bits of a character. -/
def sextet (c : Char) : Option Nat := if c ∈ alphabet then some (alphabet.idxOf c) else none

/-- `b64encode`. -/
def encode : List UInt8 → Text
  | a :: b :: c :: rest =>
      digit (a.toNat / 4) :: digit (a.toNat % 4 * 16 + b.toNat / 16) ::
        digit (b.toNat % 16 * 4 + c.toNat / 64) :: digit (c.toNat % 64) :: encode rest
  | [a, b] =>
      [digit (a.toNat / 4), digit (a.toNat % 4 * 16 + b.toNat / 16), digit (b.toNat % 16 * 4),
        '=']
  | [a] => [digit (a.toNat / 4), digit (a.toNat % 4 * 16), '=', '=']
  | [] => []

/-- A reader: its place in a group of four, the bits left of the last character, and the
    padding seen since. -/
structure Reader where
  place : Nat
  left : Nat
  pads : Nat

/-- What six bits do to a reader: a byte, if it is complete, and the bits left. -/
def Reader.push (r : Reader) (n : Nat) : List UInt8 × Reader :=
  if r.place = 0 then ([], ⟨1, n, 0⟩)
  else if r.place = 1 then ([UInt8.ofNat (r.left * 4 + n / 16)], ⟨2, n % 16, 0⟩)
  else if r.place = 2 then ([UInt8.ofNat (r.left * 16 + n / 4)], ⟨3, n % 4, 0⟩)
  else ([UInt8.ofNat (r.left * 64 + n)], ⟨0, 0, 0⟩)

/-- The bytes of a text, `none` for one whose padding is wrong. -/
def read : Reader → Text → Option (List UInt8)
  | r, [] => if r.place = 0 then some [] else none
  | r, c :: cs =>
      if c = '=' then
        if 2 ≤ r.place && 4 ≤ r.place + (r.pads + 1) then some []
        else read { r with pads := if 2 ≤ r.place then r.pads + 1 else r.pads } cs
      else (sextet c).elim (read r cs) fun n => (read (r.push n).2 cs).map ((r.push n).1 ++ ·)

/-- `b64decode`. -/
def decode (s : Text) : Option (List UInt8) := read ⟨0, 0, 0⟩ s

/-! ## The bytes are read back -/

theorem sextet_digit : ∀ n < 64, sextet (digit n) = some n ∧ digit n ≠ '=' := by
  decide +kernel

theorem read_digit {r : Reader} {n : Nat} (h : n < 64) (cs : Text) :
    read r (digit n :: cs) = (read (r.push n).2 cs).map ((r.push n).1 ++ ·) := by
  rw [read, if_neg (sextet_digit n h).2, (sextet_digit n h).1, Option.elim_some]

/-- The characters of three bytes. -/
theorem read_group (a b c : UInt8) (cs : Text) :
    read ⟨0, 0, 0⟩ (digit (a.toNat / 4) :: digit (a.toNat % 4 * 16 + b.toNat / 16) ::
      digit (b.toNat % 16 * 4 + c.toNat / 64) :: digit (c.toNat % 64) :: cs) =
        (read ⟨0, 0, 0⟩ cs).map ([a, b, c] ++ ·) := by
  have ha := a.toNat_lt
  have hb := b.toNat_lt
  have hc := c.toNat_lt
  have hfirst : UInt8.ofNat (a.toNat / 4 * 4 + (a.toNat % 4 * 16 + b.toNat / 16) / 16) = a := by
    rw [show a.toNat / 4 * 4 + (a.toNat % 4 * 16 + b.toNat / 16) / 16 = a.toNat by omega,
      UInt8.ofNat_toNat]
  have hsecond : UInt8.ofNat ((a.toNat % 4 * 16 + b.toNat / 16) % 16 * 16 +
      (b.toNat % 16 * 4 + c.toNat / 64) / 4) = b := by
    rw [show (a.toNat % 4 * 16 + b.toNat / 16) % 16 * 16 +
      (b.toNat % 16 * 4 + c.toNat / 64) / 4 = b.toNat by omega, UInt8.ofNat_toNat]
  have hthird : UInt8.ofNat ((b.toNat % 16 * 4 + c.toNat / 64) % 4 * 64 + c.toNat % 64) = c := by
    rw [show (b.toNat % 16 * 4 + c.toNat / 64) % 4 * 64 + c.toNat % 64 = c.toNat by omega,
      UInt8.ofNat_toNat]
  rw [read_digit (by omega), read_digit (by omega), read_digit (by omega), read_digit (by omega)]
  simp only [Reader.push, if_true, one_ne_zero, OfNat.ofNat_ne_zero, if_false,
    OfNat.ofNat_ne_one, Nat.reduceEqDiff, Option.map_map]
  rw [hfirst, hsecond, hthird]
  rfl

/-- The bytes are read back. -/
theorem decode_encode : ∀ bs : List UInt8, decode (encode bs) = some bs
  | [] => rfl
  | [a] => by
      have ha := a.toNat_lt
      have hfirst : UInt8.ofNat (a.toNat / 4 * 4 + a.toNat % 4 * 16 / 16) = a := by
        rw [show a.toNat / 4 * 4 + a.toNat % 4 * 16 / 16 = a.toNat by omega, UInt8.ofNat_toNat]
      rw [decode, encode, read_digit (by omega), read_digit (by omega)]
      simp only [Reader.push, if_true, one_ne_zero, if_false]
      rw [hfirst]
      rfl
  | [a, b] => by
      have ha := a.toNat_lt
      have hb := b.toNat_lt
      have hfirst : UInt8.ofNat (a.toNat / 4 * 4 + (a.toNat % 4 * 16 + b.toNat / 16) / 16) =
          a := by
        rw [show a.toNat / 4 * 4 + (a.toNat % 4 * 16 + b.toNat / 16) / 16 = a.toNat by omega,
          UInt8.ofNat_toNat]
      have hsecond : UInt8.ofNat ((a.toNat % 4 * 16 + b.toNat / 16) % 16 * 16 +
          b.toNat % 16 * 4 / 4) = b := by
        rw [show (a.toNat % 4 * 16 + b.toNat / 16) % 16 * 16 + b.toNat % 16 * 4 / 4 = b.toNat by
          omega, UInt8.ofNat_toNat]
      rw [decode, encode, read_digit (by omega), read_digit (by omega), read_digit (by omega)]
      simp only [Reader.push, if_true, one_ne_zero, OfNat.ofNat_ne_zero, if_false,
        OfNat.ofNat_ne_one, Nat.reduceEqDiff]
      rw [hfirst, hsecond]
      rfl
  | a :: b :: c :: rest => by
      rw [decode, encode, read_group]
      have ih := decode_encode rest
      rw [decode] at ih
      rw [ih]
      rfl

theorem length_encode : ∀ bs : List UInt8, (encode bs).length = (bs.length + 2) / 3 * 4
  | [] => rfl
  | [a] => by simp only [encode, List.length_cons, List.length_nil]
  | [a, b] => by simp only [encode, List.length_cons, List.length_nil]
  | a :: b :: c :: rest => by
      rw [encode]
      simp only [List.length_cons]
      rw [length_encode rest]
      omega

end Base64
