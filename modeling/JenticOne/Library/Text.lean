import Mathlib

/-!
# Texts

Strings as lists of characters, with the operations of a scripting language's
strings that a list does not have already: the replacement of a substring, the
partitions at a character, and the hexadecimal spelling of the bytes of a text.

A replacement is one pass from the left over occurrences that do not overlap.
It is written with a counter of the characters still to be skipped, so that it
recurses on the text itself.

## Main definitions

* `replace`: Every occurrence of a text replaced.
* `partition`, `rpartition`: The parts around the first, the last occurrence of
  a character.
* `strip`: A text without a character at its ends.
* `utf8Hex`: The bytes of a text in hexadecimal.

## Theorems

* `replace_of_not_infix`: Nothing to replace.
* `replace_char_nil`: A character replaced by nothing.
* `partition_append`: The parts around the first one.
* `rpartition_of_mem`, `rpartition_append`: The parts around the last one.
* `utf8Hex_injective`: The spelling determines the text.
-/

/-- A string. -/
abbrev Text := List Char

/-- Texts are compared as lists of characters. -/
instance instLawfulBEqText : LawfulBEq Text := inferInstance

namespace Text

/-! ## Replacement -/

/-- `replace` on a text whose first `skip` characters belong to the occurrence
just replaced. -/
def replaceFrom (old new : Text) : Nat → Text → Text
  | _, [] => []
  | skip + 1, _ :: cs => replaceFrom old new skip cs
  | 0, c :: cs =>
      if old.isPrefixOf (c :: cs) then new ++ replaceFrom old new (old.length - 1) cs
      else c :: replaceFrom old new 0 cs

/-- Every occurrence of `old`, from the left, becomes `new`. -/
def replace (s old new : Text) : Text := replaceFrom old new 0 s

/-- A text without the one to replace stays as it is. -/
theorem replace_of_not_infix {s old : Text} (new : Text) (h : ¬ old <:+: s) :
    s.replace old new = s := by
  induction s with
  | nil => rfl
  | cons c cs ih =>
      have hhead : old.isPrefixOf (c :: cs) = false := by
        rw [Bool.eq_false_iff, ne_eq, List.isPrefixOf_iff_prefix]
        exact fun hp => h hp.isInfix
      have hrest : ¬ old <:+: cs := fun hi => h (hi.trans (List.suffix_cons c cs).isInfix)
      rw [replace, replaceFrom, hhead]
      simp only [Bool.false_eq_true, if_false, List.cons.injEq, true_and]
      exact ih hrest

/-- A character replaced by nothing is left out. -/
theorem replace_char_nil (s : Text) (c : Char) : s.replace [c] [] = s.filter (· ≠ c) := by
  induction s with
  | nil => rfl
  | cons d s ih =>
      rw [replace, replaceFrom, List.filter_cons]
      by_cases hd : c = d
      · have hhead : List.isPrefixOf [c] (d :: s) = true := by
          rw [List.isPrefixOf_iff_prefix, hd]
          exact ⟨s, rfl⟩
        have hsame : ¬ decide (d ≠ c) = true := fun h => of_decide_eq_true h hd.symm
        rw [if_pos hhead, if_neg hsame, ← ih]
        rfl
      · have hhead : ¬ List.isPrefixOf [c] (d :: s) = true := by
          rw [List.isPrefixOf_iff_prefix]
          rintro ⟨t, ht⟩
          exact hd (List.cons.inj ht).1
        have hother : decide (d ≠ c) = true := decide_eq_true fun h => hd h.symm
        rw [if_neg hhead, if_pos hother, ← ih]
        rfl

/-! ## Partitions and ends -/

/-- The part before the first `c`, whether there is one, and the part after it. -/
def partition (c : Char) (s : Text) : Text × Bool × Text :=
  (s.takeWhile (· ≠ c), s.contains c, (s.dropWhile (· ≠ c)).tail)

/-- The parts around a separator that the first part is free of. -/
theorem partition_append {c : Char} {a : Text} (ha : c ∉ a) (b : Text) :
    partition c (a ++ c :: b) = (a, true, b) := by
  have hother : ∀ x ∈ a, decide (x ≠ c) = true := by
    intro x hx
    rw [decide_eq_true_eq]
    rintro rfl
    exact ha hx
  have hstop : ¬ decide (c ≠ c) = true := fun h => of_decide_eq_true h rfl
  have hmem : c ∈ a ++ c :: b := List.mem_append_right a List.mem_cons_self
  rw [partition, List.takeWhile_append_of_pos hother, List.dropWhile_append_of_pos hother,
    List.takeWhile_cons_of_neg (p := fun x => x ≠ c) hstop,
    List.dropWhile_cons_of_neg (p := fun x => x ≠ c) hstop, List.append_nil, List.tail_cons,
    List.contains_iff_mem.mpr hmem]

theorem partition_of_not_mem {c : Char} {s : Text} (h : c ∉ s) : partition c s = (s, false, []) := by
  have hother : ∀ x ∈ s, decide (x ≠ c) = true := by
    intro x hx
    rw [decide_eq_true_eq]
    rintro rfl
    exact h hx
  rw [partition, List.takeWhile_eq_self_iff.mpr hother, List.dropWhile_eq_nil_iff.mpr hother,
    List.tail_nil, Bool.eq_false_iff.mpr fun hc => h (List.contains_iff_mem.mp hc)]

/-- The part before the last `c`, whether there is one, and the part after it.
Without one, the whole text is the last part. -/
def rpartition (c : Char) (s : Text) : Text × Bool × Text :=
  if s.contains c then
    (((s.reverse.dropWhile (· ≠ c)).tail).reverse, true, (s.reverse.takeWhile (· ≠ c)).reverse)
  else ([], false, s)

theorem rpartition_append {c : Char} {b : Text} (hb : c ∉ b) (a : Text) :
    rpartition c (a ++ c :: b) = (a, true, b) := by
  have hreverse : (a ++ c :: b).reverse = b.reverse ++ c :: a.reverse := by
    rw [List.reverse_append, List.reverse_cons, List.append_assoc]
    rfl
  have hother : ∀ x ∈ b.reverse, decide (x ≠ c) = true := by
    intro x hx
    rw [decide_eq_true_eq]
    rintro rfl
    exact hb (List.mem_reverse.mp hx)
  have hstop : ¬ decide (c ≠ c) = true := fun h => of_decide_eq_true h rfl
  have hmem : c ∈ a ++ c :: b := List.mem_append_right a List.mem_cons_self
  unfold rpartition
  rw [if_pos (List.contains_iff_mem.mpr hmem), hreverse, List.dropWhile_append_of_pos hother,
    List.takeWhile_append_of_pos hother, List.dropWhile_cons_of_neg (p := fun x => x ≠ c) hstop,
    List.takeWhile_cons_of_neg (p := fun x => x ≠ c) hstop, List.tail_cons, List.reverse_reverse,
    List.append_nil, List.reverse_reverse]

/-- A text with a character is the two parts around the last one. -/
theorem rpartition_of_mem {c : Char} {s : Text} (h : c ∈ s) :
    ∃ a b, s = a ++ c :: b ∧ c ∉ b ∧ rpartition c s = (a, true, b) := by
  rcases List.eq_append_cons_of_mem (List.mem_reverse.mpr h) with ⟨b, a, hs, hb⟩
  have hsplit : s = a.reverse ++ c :: b.reverse := by
    rw [← List.reverse_reverse s, hs, List.reverse_append, List.reverse_cons, List.append_assoc]
    rfl
  have hb' : c ∉ b.reverse := fun hc => hb (List.mem_reverse.mp hc)
  exact ⟨a.reverse, b.reverse, hsplit, hb', by rw [hsplit]; exact rpartition_append hb' _⟩

theorem rpartition_of_not_mem {c : Char} {s : Text} (h : c ∉ s) :
    rpartition c s = ([], false, s) := by
  unfold rpartition
  rw [if_neg fun hc => h (List.contains_iff_mem.mp hc)]

/-- The part after the first `sub`, if there is one. -/
def after? (sub : Text) : Text → Option Text
  | [] => if sub = [] then some [] else none
  | c :: cs =>
      if sub.isPrefixOf (c :: cs) then some ((c :: cs).drop sub.length) else after? sub cs

/-- The text without the characters `c` at its end. -/
def rstrip (c : Char) (s : Text) : Text := s.rdropWhile (· = c)

/-- The text without the characters `c` at both ends. -/
def strip (c : Char) (s : Text) : Text := rstrip c (s.dropWhile (· = c))

/-! ## Bytes -/

def hexDigits : Text :=
  ['0', '1', '2', '3', '4', '5', '6', '7', '8', '9', 'a', 'b', 'c', 'd', 'e', 'f']

/-- A digit of a byte. -/
def hexDigit (n : Nat) : Char := (hexDigits[n]?).getD '0'

/-- A byte in two digits. -/
def hexByte (b : UInt8) : Text := [hexDigit (b.toNat / 16), hexDigit (b.toNat % 16)]

/-- The bytes of the text in UTF-8, in hexadecimal. -/
def utf8Hex (s : Text) : Text := (s.flatMap String.utf8EncodeChar).flatMap hexByte

theorem toNat_charOfNat {n : Nat} (h : n < 0xD800) : (Char.ofNat n).toNat = n := by
  have hvalid : n.isValidChar := .inl h
  rw [Char.ofNat, dif_pos hvalid]
  rfl

/-- The digits of a number. -/
def ofNat (n : Nat) : Text := Nat.toDigits 10 n

/-- A number in decimal can be read back. -/
theorem ofNat_injective : Function.Injective ofNat := by
  intro m n h
  have hread : ∀ k, Nat.ofDigitChars 10 (ofNat k) 0 = k := fun k =>
    Nat.ofDigitChars_toDigits (by decide) (by decide)
  rw [← hread m, ← hread n, h]

theorem isDigit_of_mem_ofNat {n : Nat} {c : Char} (h : c ∈ ofNat n) : c.isDigit = true :=
  Nat.isDigit_of_mem_toDigits (by decide) (by decide) h

theorem hexDigit_inj : ∀ a < 16, ∀ b < 16, hexDigit a = hexDigit b → a = b := by
  decide

theorem hexByte_inj {a b : UInt8} (h : hexByte a = hexByte b) : a = b := by
  have ha := UInt8.toNat_lt a
  have hb := UInt8.toNat_lt b
  rw [hexByte, hexByte, List.cons.injEq, List.cons.injEq] at h
  have hhigh := hexDigit_inj _ (by omega) _ (by omega) h.1
  have hlow := hexDigit_inj _ (by omega) _ (by omega) h.2.1
  exact UInt8.toNat_inj.mp (by omega)

theorem flatMap_hexByte_inj {a b : List UInt8} (h : a.flatMap hexByte = b.flatMap hexByte) :
    a = b := by
  induction a generalizing b with
  | nil =>
      cases b with
      | nil => rfl
      | cons y ys => exact absurd h (by simp only [List.flatMap_nil, List.flatMap_cons, hexByte,
          List.cons_append, reduceCtorEq, not_false_eq_true])
  | cons x xs ih =>
      cases b with
      | nil => exact absurd h (by simp only [List.flatMap_nil, List.flatMap_cons, hexByte,
          List.cons_append, reduceCtorEq, not_false_eq_true])
      | cons y ys =>
          rw [List.flatMap_cons, List.flatMap_cons] at h
          have hparts := List.append_inj h rfl
          rw [hexByte_inj hparts.1, ih hparts.2]

/-- The spelling determines the text. -/
theorem utf8Hex_injective : Function.Injective utf8Hex := by
  intro a b h
  have hbytes := flatMap_hexByte_inj h
  have harrays : (String.ofList a).toByteArray = (String.ofList b).toByteArray := by
    rw [String.toByteArray_ofList, String.toByteArray_ofList, List.utf8Encode, List.utf8Encode,
      hbytes]
  have hstrings := String.toByteArray_inj.mp harrays
  rw [← String.toList_ofList (l := a), hstrings, String.toList_ofList]

theorem hexDigit_mem (n : Nat) : hexDigit n ∈ hexDigits := by
  rw [hexDigit]
  rcases hget : hexDigits[n]? with _ | d
  · decide
  · exact List.mem_of_getElem? hget

/-- The characters of the spelling. -/
theorem mem_utf8Hex {s : Text} {c : Char} (h : c ∈ utf8Hex s) : c ∈ hexDigits := by
  rw [utf8Hex, List.mem_flatMap] at h
  obtain ⟨b, -, hc⟩ := h
  rw [hexByte, List.mem_cons, List.mem_singleton] at hc
  rcases hc with hc | hc <;> rw [hc] <;> exact hexDigit_mem _

end Text
