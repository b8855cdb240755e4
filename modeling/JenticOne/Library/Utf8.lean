import JenticOne.Library.Text

/-!
# Decoding of UTF-8

Bytes read as UTF-8, where what is no character becomes the replacement
character: a byte that begins none, and the longest beginning of a character that
the next byte does not go on.

The decoder goes byte by byte. Between characters nothing is pending; after the
first byte of a longer character the rest of it is, with the bounds its next
byte has to keep, which leave out what would be an overlong form, a surrogate or
a code point past the last one.

## Main definitions

* `Pending`, `start`, `step`: What a byte does.
* `decode`: The characters of the bytes.

## Theorems

* `decode_ascii`: ASCII bytes are read as they are.
* `ascii_of_decode`: ASCII characters only come from ASCII bytes.
* `decode_encode`: The bytes of a text are read as the text.
-/

namespace Utf8

/-- What stands for bytes that are no character. -/
def replacement : Char := Char.ofNat 0xFFFD

/-- A character that has begun: the bytes still to come, the bounds of the next
one, and the bits so far. -/
structure Pending where
  more : Nat
  low : Nat
  high : Nat
  bits : Nat

/-- A byte between two characters: what is read, and what is pending. -/
def start (b : UInt8) : Text × Option Pending :=
  let n := b.toNat
  if n < 0x80 then ([Char.ofNat n], none)
  else if n < 0xC2 then ([replacement], none)
  else if n < 0xE0 then ([], some ⟨0, 0x80, 0xBF, n - 0xC0⟩)
  else if n = 0xE0 then ([], some ⟨1, 0xA0, 0xBF, 0⟩)
  else if n = 0xED then ([], some ⟨1, 0x80, 0x9F, 0xD⟩)
  else if n < 0xF0 then ([], some ⟨1, 0x80, 0xBF, n - 0xE0⟩)
  else if n = 0xF0 then ([], some ⟨2, 0x90, 0xBF, 0⟩)
  else if n < 0xF4 then ([], some ⟨2, 0x80, 0xBF, n - 0xF0⟩)
  else if n = 0xF4 then ([], some ⟨2, 0x80, 0x8F, 4⟩)
  else ([replacement], none)

/-- The bits of a character with those of its next byte. -/
def Pending.push (p : Pending) (b : UInt8) : Nat := 64 * p.bits + (b.toNat - 0x80)

/-- The next byte of a character. -/
def Pending.next (p : Pending) (b : UInt8) : Text × Option Pending :=
  match p.more with
  | 0 => ([Char.ofNat (p.push b)], none)
  | more + 1 => ([], some ⟨more, 0x80, 0xBF, p.push b⟩)

/-- A byte that does not go on a character ends it and is read anew. -/
def step : Option Pending → UInt8 → Text × Option Pending
  | none, b => start b
  | some p, b =>
      if p.low ≤ b.toNat ∧ b.toNat ≤ p.high then p.next b
      else (replacement :: (start b).1, (start b).2)

def decodeFrom : Option Pending → List UInt8 → Text
  | none, [] => []
  | some _, [] => [replacement]
  | pending, b :: bs => (step pending b).1 ++ decodeFrom (step pending b).2 bs

/-- The bytes as UTF-8, with replacements. -/
def decode (bs : List UInt8) : Text := decodeFrom none bs

/-! ## ASCII -/

def Ascii (c : Char) : Prop := c.toNat < 128

/-- The character of a byte. -/
def charOf (b : UInt8) : Char := Char.ofNat b.toNat

theorem toNat_charOf (b : UInt8) : (charOf b).toNat = b.toNat :=
  Text.toNat_charOfNat (Nat.lt_trans b.toNat_lt (by decide))

theorem not_ascii_replacement : ¬ Ascii replacement := by
  rw [Ascii]
  decide

theorem decodeFrom_cons (pending : Option Pending) (b : UInt8) (bs : List UInt8) :
    decodeFrom pending (b :: bs) =
      (step pending b).1 ++ decodeFrom (step pending b).2 bs := by
  rw [decodeFrom]

theorem start_ascii {b : UInt8} (h : b.toNat < 0x80) : start b = ([charOf b], none) := by
  rw [start]
  exact if_pos h

/-- ASCII bytes are read as they are. -/
theorem decode_ascii {bs : List UInt8} (h : ∀ b ∈ bs, b.toNat < 0x80) :
    decode bs = bs.map charOf := by
  induction bs with
  | nil => rfl
  | cons b bs ih =>
      have hrest := ih fun c hc => h c (List.mem_cons_of_mem _ hc)
      rw [decode, decodeFrom_cons, step, start_ascii (h b List.mem_cons_self), List.map_cons]
      exact congrArg (charOf b :: ·) hrest

/-- The code points a pending character can come to are characters that are not
in ASCII. -/
structure Pending.Good (p : Pending) : Prop where
  low_ge : 0x80 ≤ p.low
  least : 0x80 ≤ (64 * p.bits + (p.low - 0x80)) * 64 ^ p.more
  most : (64 * p.bits + (p.high - 0x80) + 1) * 64 ^ p.more ≤ 0x110000
  surrogates : (64 * p.bits + (p.high - 0x80) + 1) * 64 ^ p.more ≤ 0xD800 ∨
    0xE000 ≤ (64 * p.bits + (p.low - 0x80)) * 64 ^ p.more

/-- What is pending between a byte and the next one. -/
def Good : Option Pending → Prop
  | none => True
  | some p => p.Good

theorem good_start (b : UInt8) : Good (start b).2 := by
  have hb := b.toNat_lt
  rw [start]
  -- One case for each range of first bytes.
  split
  · trivial
  split
  · trivial
  split
  · exact ⟨by dsimp only; omega, by dsimp only; omega, by dsimp only; omega,
      by dsimp only; omega⟩
  split
  · exact ⟨by decide, by decide, by decide, by decide⟩
  split
  · exact ⟨by decide, by decide, by decide, by decide⟩
  split
  · exact ⟨by dsimp only; omega, by dsimp only; omega, by dsimp only; omega,
      by dsimp only; omega⟩
  split
  · exact ⟨by decide, by decide, by decide, by decide⟩
  split
  · exact ⟨by dsimp only; omega, by dsimp only; omega, by dsimp only; omega,
      by dsimp only; omega⟩
  split
  · exact ⟨by decide, by decide, by decide, by decide⟩
  · trivial

/-- What a byte of a pending character is read as is not in ASCII, and what is
pending after it is good. -/
theorem good_next {p : Pending} (h : p.Good) {b : UInt8} (hlow : p.low ≤ b.toNat)
    (hhigh : b.toNat ≤ p.high) : (∀ c ∈ (p.next b).1, ¬ Ascii c) ∧ Good (p.next b).2 := by
  have hlowGe := h.low_ge
  have hpush : 64 * p.bits + (p.low - 0x80) ≤ p.push b := by
    unfold Pending.push
    omega
  have hpush' : p.push b ≤ 64 * p.bits + (p.high - 0x80) := by
    unfold Pending.push
    omega
  have hleast := h.least.trans (Nat.mul_le_mul_right (64 ^ p.more) hpush)
  have hmost := (Nat.mul_le_mul_right (64 ^ p.more) (Nat.succ_le_succ hpush')).trans h.most
  have hsurrogates : (p.push b + 1) * 64 ^ p.more ≤ 0xD800 ∨ 0xE000 ≤ p.push b * 64 ^ p.more :=
    h.surrogates.imp
      (fun hs => (Nat.mul_le_mul_right (64 ^ p.more) (Nat.succ_le_succ hpush')).trans hs)
      (fun hs => hs.trans (Nat.mul_le_mul_right (64 ^ p.more) hpush))
  rw [Pending.next]
  cases hmore : p.more with
  | zero =>
      rw [hmore] at hleast hmost hsurrogates
      simp only [Nat.pow_zero, Nat.mul_one] at hleast hmost hsurrogates
      refine ⟨fun c hc => ?_, trivial⟩
      have hvalid : (p.push b).isValidChar := by
        rw [Nat.isValidChar]
        omega
      rw [List.mem_singleton.mp hc, Ascii, Char.ofNat, dif_pos hvalid]
      exact Nat.not_lt_of_ge hleast
  | succ more =>
      rw [hmore] at hleast hmost hsurrogates
      rw [Nat.pow_succ] at hleast hmost hsurrogates
      refine ⟨fun c hc => absurd hc List.not_mem_nil, ?_⟩
      refine ⟨Nat.le_refl _, ?_, ?_, ?_⟩
      all_goals dsimp only
      all_goals generalize 64 ^ more = k at *
      all_goals generalize p.push b = n at *
      · calc 0x80 ≤ n * (k * 64) := hleast
          _ = (64 * n + 0) * k := by ring
      · calc (64 * n + 63 + 1) * k = (n + 1) * (k * 64) := by ring
          _ ≤ 0x110000 := hmost
      · refine hsurrogates.imp (fun hs => ?_) (fun hs => ?_)
        · calc (64 * n + 63 + 1) * k = (n + 1) * (k * 64) := by ring
            _ ≤ 0xD800 := hs
        · calc 0xE000 ≤ n * (k * 64) := hs
            _ = (64 * n + 0) * k := by ring

/-- A character that has begun is read as one that is not in ASCII, or replaced. -/
theorem not_ascii_of_pending {p : Pending} (h : p.Good) (bs : List UInt8) :
    ∃ c ∈ decodeFrom (some p) bs, ¬ Ascii c := by
  induction bs generalizing p with
  | nil => exact ⟨replacement, List.mem_singleton.mpr rfl, not_ascii_replacement⟩
  | cons b bs ih =>
      rw [decodeFrom_cons, step]
      by_cases hb : p.low ≤ b.toNat ∧ b.toNat ≤ p.high
      · rw [if_pos hb]
        have hnext := good_next h hb.1 hb.2
        cases hpending : (p.next b).2 with
        | none =>
            -- The character is complete.
            have hread : ∃ c, c ∈ (p.next b).1 := by
              rw [Pending.next] at hpending ⊢
              cases hmore : p.more with
              | zero => exact ⟨_, List.mem_singleton.mpr rfl⟩
              | succ more =>
                  rw [hmore] at hpending
                  exact absurd hpending (by simp only [reduceCtorEq, not_false_eq_true])
            rcases hread with ⟨c, hc⟩
            exact ⟨c, List.mem_append_left _ hc, hnext.1 c hc⟩
        | some p' =>
            have hgood := hnext.2
            rw [hpending] at hgood
            rcases ih hgood with ⟨c, hc, hascii⟩
            exact ⟨c, List.mem_append_right _ hc, hascii⟩
      · rw [if_neg hb]
        exact ⟨replacement, List.mem_append_left _ List.mem_cons_self, not_ascii_replacement⟩

/-- ASCII characters only come from ASCII bytes. -/
theorem ascii_of_decode {bs : List UInt8} (h : ∀ c ∈ decode bs, Ascii c) :
    ∀ b ∈ bs, b.toNat < 0x80 := by
  induction bs with
  | nil => exact fun b hb => absurd hb List.not_mem_nil
  | cons b bs ih =>
      rw [decode, decodeFrom_cons, step] at h
      by_cases hb : b.toNat < 0x80
      · rw [start_ascii hb] at h
        exact List.forall_mem_cons.mpr
          ⟨hb, ih fun c hc => h c (List.mem_append_right _ hc)⟩
      · exfalso
        have hgood := good_start b
        cases hpending : (start b).2 with
        | some p =>
            rw [hpending] at h hgood
            rcases not_ascii_of_pending hgood bs with ⟨c, hc, hascii⟩
            exact hascii (h c (List.mem_append_right _ hc))
        | none =>
            -- A byte past ASCII with nothing pending is replaced.
            have hread : (start b).1 = [replacement] := by
              rw [start] at hpending ⊢
              rw [if_neg hb] at hpending ⊢
              split_ifs at hpending ⊢ <;> rfl
            rw [hread] at h
            exact not_ascii_replacement
              (h replacement (List.mem_append_left _ (List.mem_singleton.mpr rfl)))

/-! ## Characters that are there -/

/-- The bytes of a text. -/
def encode (t : Text) : List UInt8 := t.flatMap String.utf8EncodeChar

/-- The last byte of a character. -/
theorem decodeFrom_last {p : Pending} {b : UInt8} {v : Nat} (hmore : p.more = 0)
    (hlow : p.low ≤ b.toNat) (hhigh : b.toNat ≤ p.high) (hpush : p.push b = v) (bs : List UInt8) :
    decodeFrom (some p) (b :: bs) = Char.ofNat v :: decodeFrom none bs := by
  rw [decodeFrom_cons, step, if_pos ⟨hlow, hhigh⟩, Pending.next, hmore, hpush]
  rfl

/-- A byte of a character that is not the last one. -/
theorem decodeFrom_more {p : Pending} {b : UInt8} {more v : Nat} (hmore : p.more = more + 1)
    (hlow : p.low ≤ b.toNat) (hhigh : b.toNat ≤ p.high) (hpush : p.push b = v) (bs : List UInt8) :
    decodeFrom (some p) (b :: bs) = decodeFrom (some ⟨more, 0x80, 0xBF, v⟩) bs := by
  rw [decodeFrom_cons, step, if_pos ⟨hlow, hhigh⟩, Pending.next, hmore, hpush]
  rfl

theorem start_two {b : UInt8} (hlow : 0xC2 ≤ b.toNat) (hhigh : b.toNat < 0xE0) :
    start b = ([], some ⟨0, 0x80, 0xBF, b.toNat - 0xC0⟩) := by
  simp only [start]
  rw [if_neg (by omega), if_neg (by omega), if_pos hhigh]

theorem start_three {b : UInt8} (hlow : 0xE0 ≤ b.toNat) (hhigh : b.toNat < 0xF0) :
    start b = ([], some ⟨1, if b.toNat = 0xE0 then 0xA0 else 0x80,
      if b.toNat = 0xED then 0x9F else 0xBF, b.toNat - 0xE0⟩) := by
  simp only [start]
  rw [if_neg (by omega), if_neg (by omega), if_neg (by omega)]
  by_cases hleast : b.toNat = 0xE0
  · rw [hleast]
    rfl
  · rw [if_neg hleast, if_neg hleast]
    by_cases hsurrogate : b.toNat = 0xED
    · rw [hsurrogate]
      rfl
    · rw [if_neg hsurrogate, if_neg hsurrogate, if_pos hhigh]

theorem start_four {b : UInt8} (hlow : 0xF0 ≤ b.toNat) (hhigh : b.toNat ≤ 0xF4) :
    start b = ([], some ⟨2, if b.toNat = 0xF0 then 0x90 else 0x80,
      if b.toNat = 0xF4 then 0x8F else 0xBF, b.toNat - 0xF0⟩) := by
  simp only [start]
  rw [if_neg (by omega), if_neg (by omega), if_neg (by omega), if_neg (by omega),
    if_neg (by omega), if_neg (by omega)]
  by_cases hleast : b.toNat = 0xF0
  · rw [hleast]
    rfl
  · rw [if_neg hleast, if_neg hleast]
    by_cases hmost : b.toNat = 0xF4
    · rw [hmost]
      rfl
    · rw [if_neg hmost, if_pos (by omega), if_neg hmost]

theorem toNat_ofNat_byte {n : Nat} (h : n < 256) : (UInt8.ofNat n).toNat = n := by
  rw [UInt8.toNat_ofNat', Nat.mod_eq_of_lt h]

section Bytes

variable {v : Nat} {b b₁ b₂ b₃ : UInt8}

theorem push_eq (more low high bits : Nat) (h : 64 * bits + (b.toNat - 0x80) = v) :
    (⟨more, low, high, bits⟩ : Pending).push b = v := h

theorem decodeFrom_two (hlow : 0x7F < v) (hhigh : v ≤ 0x7FF) (hb : b.toNat = v / 64 % 0x20 + 0xC0)
    (hb₁ : b₁.toNat = v % 0x40 + 0x80) (bs : List UInt8) :
    decodeFrom none (b :: b₁ :: bs) = Char.ofNat v :: decodeFrom none bs := by
  have hbits : b.toNat - 0xC0 = v / 64 := by omega
  rw [decodeFrom_cons, step, start_two (by omega) (by omega), List.nil_append, hbits]
  exact decodeFrom_last rfl (by dsimp only; omega) (by dsimp only; omega)
    (push_eq 0 0x80 0xBF _ (by omega)) bs

theorem decodeFrom_three (hlow : 0x7FF < v) (hhigh : v ≤ 0xFFFF)
    (hvalid : v < 0xD800 ∨ 0xDFFF < v) (hb : b.toNat = v / 4096 % 0x10 + 0xE0)
    (hb₁ : b₁.toNat = v / 64 % 0x40 + 0x80) (hb₂ : b₂.toNat = v % 0x40 + 0x80)
    (bs : List UInt8) :
    decodeFrom none (b :: b₁ :: b₂ :: bs) = Char.ofNat v :: decodeFrom none bs := by
  have hbits : b.toNat - 0xE0 = v / 4096 := by omega
  rw [decodeFrom_cons, step, start_three (by omega) (by omega), List.nil_append, hbits,
    decodeFrom_more (v := v / 64) rfl (by dsimp only; split_ifs <;> omega)
      (by dsimp only; split_ifs <;> omega) (push_eq 1 _ _ _ (by omega))]
  exact decodeFrom_last rfl (by dsimp only; omega) (by dsimp only; omega)
    (push_eq 0 0x80 0xBF _ (by omega)) bs

theorem decodeFrom_four (hlow : 0xFFFF < v) (hhigh : v < 0x110000)
    (hb : b.toNat = v / 262144 % 0x08 + 0xF0) (hb₁ : b₁.toNat = v / 4096 % 0x40 + 0x80)
    (hb₂ : b₂.toNat = v / 64 % 0x40 + 0x80) (hb₃ : b₃.toNat = v % 0x40 + 0x80)
    (bs : List UInt8) :
    decodeFrom none (b :: b₁ :: b₂ :: b₃ :: bs) = Char.ofNat v :: decodeFrom none bs := by
  have hbits : b.toNat - 0xF0 = v / 262144 := by omega
  rw [decodeFrom_cons, step, start_four (by omega) (by omega), List.nil_append, hbits,
    decodeFrom_more (v := v / 4096) rfl (by dsimp only; split_ifs <;> omega)
      (by dsimp only; split_ifs <;> omega) (push_eq 2 _ _ _ (by omega)),
    decodeFrom_more (v := v / 64) rfl (by dsimp only; omega) (by dsimp only; omega)
      (push_eq 1 0x80 0xBF _ (by omega))]
  exact decodeFrom_last rfl (by dsimp only; omega) (by dsimp only; omega)
    (push_eq 0 0x80 0xBF _ (by omega)) bs

end Bytes

/-- The bytes of a character are read as the character. -/
theorem decodeFrom_encodeChar (c : Char) (bs : List UInt8) :
    decodeFrom none (String.utf8EncodeChar c ++ bs) = c :: decodeFrom none bs := by
  have hvalid : c.val.toNat < 0xD800 ∨ 0xDFFF < c.val.toNat ∧ c.val.toNat < 0x110000 := c.valid
  have hc : Char.ofNat c.val.toNat = c := Char.ofNat_toNat c
  have hbyte : ∀ {n}, n < 256 → (UInt8.ofNat n).toNat = n := toNat_ofNat_byte
  simp only [String.utf8EncodeChar]
  by_cases hone : c.val.toNat ≤ 0x7F
  · have hb := hbyte (n := c.val.toNat) (by omega)
    rw [if_pos hone, List.singleton_append, decodeFrom_cons, step, start_ascii (by omega), charOf,
      hb, hc]
    rfl
  by_cases htwo : c.val.toNat ≤ 0x7FF
  · rw [if_neg hone, if_pos htwo, List.cons_append, List.singleton_append,
      decodeFrom_two (Nat.lt_of_not_le hone) htwo (hbyte (by omega)) (hbyte (by omega)), hc]
  by_cases hthree : c.val.toNat ≤ 0xFFFF
  · rw [if_neg hone, if_neg htwo, if_pos hthree, List.cons_append, List.cons_append,
      List.singleton_append, decodeFrom_three (Nat.lt_of_not_le htwo) hthree
        (hvalid.imp_right And.left) (hbyte (by omega)) (hbyte (by omega)) (hbyte (by omega)), hc]
  · rw [if_neg hone, if_neg htwo, if_neg hthree, List.cons_append, List.cons_append,
      List.cons_append, List.singleton_append, decodeFrom_four (Nat.lt_of_not_le hthree)
        (by omega) (hbyte (by omega)) (hbyte (by omega)) (hbyte (by omega)) (hbyte (by omega)), hc]

/-- A text in ASCII has a byte for each character. -/
theorem length_encode_ascii {t : Text} (h : ∀ c ∈ t, Ascii c) : (encode t).length = t.length := by
  induction t with
  | nil => rfl
  | cons c t ih =>
      rw [List.forall_mem_cons] at h
      have hc : c.val.toNat ≤ 0x7F := Nat.le_of_lt_succ h.1
      have hrest := ih h.2
      have hone : String.utf8EncodeChar c = [UInt8.ofNat c.val.toNat] := by
        rw [String.utf8EncodeChar]
        exact if_pos hc
      rw [encode] at hrest
      rw [encode, List.flatMap_cons, hone, List.length_append, hrest, List.length_singleton,
        List.length_cons, Nat.add_comm]

/-- The bytes of a text are read as the text. -/
theorem decode_encode (t : Text) : decode (encode t) = t := by
  induction t with
  | nil => rfl
  | cons c t ih =>
      rw [encode, List.flatMap_cons, decode, decodeFrom_encodeChar]
      exact congrArg (c :: ·) ih

end Utf8
