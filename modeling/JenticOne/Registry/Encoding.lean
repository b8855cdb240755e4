import JenticOne.Library.Pieces
import JenticOne.Registry.UrlPath

/-!
# Percent-Encoded Spellings

A path and another one that spells some of its characters by the escapes of
their UTF-8 bytes. The decoder takes an escape for one character, and an escape
that follows a spelt digit is no longer part of the one before, so that the two
paths have one normal form when only ASCII characters are spelt, and no digit of
an escape is, unless that escape stays as it is.

A `Marked` path carries the spelling of each character beside it. `units` reads
it as the decoder does: pairs of what the path and its spelling are decoded to,
piece by piece. The normal forms agree when the pieces do, and where no `..`
takes segments away only then, since a piece that differs is longer in the
spelling or differs in its letters.

## Main definitions

* `Marked`, `plain`, `spell`: A path with spellings.
* `units`: What the two are decoded to.
* `Harmless`: No piece differs.

## Theorems

* `decodeOnce_plain`, `decodeOnce_spell`: The two paths are decoded to the pieces.
* `harmless_iff`: Which spellings are harmless.
* `normalizePath_spell`: Normal forms and spellings.
-/

namespace JenticOne

namespace Registry

/-! ## Spellings -/

/-- An escape for each byte, in either case. -/
def isEscape : List UInt8 → Text → Bool
  | [], [] => true
  | b :: bs, '%' :: h :: l :: rest =>
      hexValue h = some (b.toNat / 16) && hexValue l = some (b.toNat % 16) && isEscape bs rest
  | _, _ => false

/-- A character and the spelling that stands for it, if one does. -/
abbrev Marked := Char × Option Text

/-- The spellings are escapes of the UTF-8 bytes, and none stands for a slash, a
backslash or a percent sign. -/
def Valid (l : List Marked) : Prop :=
  ∀ x ∈ l, ∀ e ∈ x.2, x.1 ∉ ['/', '\\', '%'] ∧ isEscape (String.utf8EncodeChar x.1) e = true

def plain (l : List Marked) : Text := l.map Prod.fst

def Marked.spelt (x : Marked) : Text := x.2.getD [x.1]

def spell (l : List Marked) : Text := l.flatMap Marked.spelt

/-- The bytes of a character, each taken for a character. -/
def byteChars (c : Char) : Text :=
  (String.utf8EncodeChar c).map fun b => Char.ofNat b.toNat

/-- What a character and its spelling are decoded to. -/
def Marked.unit (x : Marked) : Text × Text :=
  ([x.1], if x.2.isSome then byteChars x.1 else [x.1])

def isHex (x : Marked) : Bool := (hexValue x.1).isSome

/-- What an escape of the path and its spelling are decoded to: with a spelt
digit, the percent sign and the digits are left. -/
def escapeUnit (a b : Marked) : Text × Text :=
  let code := 16 * (hexValue a.1).getD 0 + (hexValue b.1).getD 0
  (unescape a.1 b.1 code,
    if a.2.isNone && b.2.isNone then unescape a.1 b.1 code else ['%', a.1, b.1])

/-- What the path and its spelling are decoded to, piece by piece. -/
def units : List Marked → List (Text × Text)
  | x :: a :: b :: rest =>
      if x.1 = '%' && isHex a && isHex b then escapeUnit a b :: units rest
      else x.unit :: units (a :: b :: rest)
  | x :: rest => x.unit :: units rest
  | [] => []

/-- The characters are in ASCII where they are spelt, and the digits of an escape
are not spelt, unless the escape stays and has them in upper case. -/
def Harmless : List Marked → Prop
  | x :: a :: b :: rest =>
      if x.1 = '%' && isHex a && isHex b then
        (a.2 = none ∧ b.2 = none ∨
          (16 * (hexValue a.1).getD 0 + (hexValue b.1).getD 0 ∈ keptEncoded ∧
            a.1.toUpper = a.1 ∧ b.1.toUpper = b.1)) ∧ Harmless rest
      else (x.2 = none ∨ x.1.toNat < 128) ∧ Harmless (a :: b :: rest)
  | x :: rest => (x.2 = none ∨ x.1.toNat < 128) ∧ Harmless rest
  | [] => True

instance decidableHarmless : (l : List Marked) → Decidable (Harmless l)
  | [] => inferInstanceAs (Decidable True)
  | [x] => inferInstanceAs (Decidable ((x.2 = none ∨ x.1.toNat < 128) ∧ True))
  | [x, a] => inferInstanceAs (Decidable ((x.2 = none ∨ x.1.toNat < 128) ∧
      (a.2 = none ∨ a.1.toNat < 128) ∧ True))
  | x :: a :: b :: rest =>
      have := decidableHarmless rest
      have := decidableHarmless (a :: b :: rest)
      inferInstanceAs (Decidable (if x.1 = '%' && isHex a && isHex b then
        (a.2 = none ∧ b.2 = none ∨
          (16 * (hexValue a.1).getD 0 + (hexValue b.1).getD 0 ∈ keptEncoded ∧
            a.1.toUpper = a.1 ∧ b.1.toUpper = b.1)) ∧ Harmless rest
      else (x.2 = none ∨ x.1.toNat < 128) ∧ Harmless (a :: b :: rest)))

/-! ## Bytes -/

theorem byteChars_ascii {c : Char} (h : c.toNat < 128) : byteChars c = [c] := by
  have hv : c.val.toNat ≤ 127 := Nat.le_of_lt_succ h
  rw [byteChars, String.utf8EncodeChar]
  rw [if_pos hv, List.map_singleton, UInt8.toNat_ofNat', Nat.mod_eq_of_lt (by omega)]
  exact congrArg (· :: []) (Char.ofNat_toNat c)

theorem byte_ge {c : Char} (h : 128 ≤ c.toNat) {b : UInt8} (hb : b ∈ String.utf8EncodeChar c) :
    128 ≤ b.toNat := by
  have hv : ¬ c.val.toNat ≤ 127 := Nat.not_le_of_gt h
  rw [String.utf8EncodeChar] at hb
  rw [if_neg hv] at hb
  split at hb
  · simp only [List.mem_cons, List.not_mem_nil, or_false] at hb
    rcases hb with rfl | rfl <;> rw [UInt8.toNat_ofNat'] <;> omega
  · split at hb
    · simp only [List.mem_cons, List.not_mem_nil, or_false] at hb
      rcases hb with rfl | rfl | rfl <;> rw [UInt8.toNat_ofNat'] <;> omega
    · simp only [List.mem_cons, List.not_mem_nil, or_false] at hb
      rcases hb with rfl | rfl | rfl | rfl <;> rw [UInt8.toNat_ofNat'] <;> omega

theorem two_le_length_byteChars {c : Char} (h : 128 ≤ c.toNat) : 2 ≤ (byteChars c).length := by
  have hv : ¬ c.val.toNat ≤ 127 := Nat.not_le_of_gt h
  rw [byteChars, List.length_map, String.utf8EncodeChar]
  rw [if_neg hv]
  split
  · exact Nat.le_refl 2
  · split <;> simp only [List.length_cons, List.length_nil] <;> omega

/-- The bytes of a character that may be spelt are none that stay encoded. -/
theorem byte_not_kept {c : Char} (hc : c ∉ ['/', '\\', '%']) {b : UInt8}
    (hb : b ∈ String.utf8EncodeChar c) : b.toNat ∉ keptEncoded := by
  by_cases hascii : c.toNat < 128
  · have hv : c.val.toNat ≤ 127 := Nat.le_of_lt_succ hascii
    rw [String.utf8EncodeChar] at hb
    rw [if_pos hv, List.mem_singleton] at hb
    rw [hb, UInt8.toNat_ofNat', Nat.mod_eq_of_lt (by omega)]
    intro hkept
    have hchar : c = Char.ofNat c.val.toNat := (Char.ofNat_toNat c).symm
    simp only [keptEncoded, List.mem_cons, List.not_mem_nil, or_false] at hkept
    rcases hkept with h | h | h <;> rw [h] at hchar <;> exact hc (by rw [hchar]; decide)
  · have hge := byte_ge (Nat.le_of_not_lt hascii) hb
    intro hkept
    simp only [keptEncoded, List.mem_cons, List.not_mem_nil, or_false] at hkept
    omega

theorem slash_not_mem_byteChars {c : Char} (hc : c ≠ '/') : '/' ∉ byteChars c := by
  by_cases hascii : c.toNat < 128
  · rw [byteChars_ascii hascii, List.mem_singleton]
    exact fun he => hc he.symm
  · intro hmem
    obtain ⟨b, hb, hchar⟩ := List.mem_map.mp hmem
    have hge := byte_ge (Nat.le_of_not_lt hascii) hb
    have hlt := UInt8.toNat_lt b
    have hcode := congrArg Char.toNat hchar
    rw [Text.toNat_charOfNat (by omega)] at hcode
    rw [show '/'.toNat = 47 by decide] at hcode
    omega

/-! ## Decoding -/

theorem escape_of_isHex {x a b : Marked} (h : (x.1 = '%' && isHex a && isHex b) = true) :
    x.1 = '%' ∧ ∃ high low, hexValue a.1 = some high ∧ hexValue b.1 = some low := by
  rw [Bool.and_eq_true, Bool.and_eq_true, decide_eq_true_eq] at h
  obtain ⟨high, hhigh⟩ := Option.isSome_iff_exists.mp h.1.2
  obtain ⟨low, hlow⟩ := Option.isSome_iff_exists.mp h.2
  exact ⟨h.1.1, high, low, hhigh, hlow⟩

/-- A character that begins no escape is left. -/
theorem decodeOnce_cons {c : Char} {cs : Text} (h : c = '%' → ¬ HexPair cs) :
    decodeOnce (c :: cs) = c :: decodeOnce cs := by
  by_cases hc : c = '%'
  · rw [hc]
    exact decodeOnce_percent (h hc)
  · exact decodeOnce_other hc cs

/-- The path is decoded to the first members. -/
theorem decodeOnce_plain (l : List Marked) :
    decodeOnce (plain l) = (units l).flatMap Prod.fst := by
  induction l using units.induct with
  | case1 x a b rest h ih =>
      obtain ⟨hx, high, low, hhigh, hlow⟩ := escape_of_isHex h
      rw [units, if_pos h, List.flatMap_cons, ← ih, escapeUnit, hhigh, hlow]
      calc decodeOnce (plain (x :: a :: b :: rest))
          = decodeOnce ('%' :: a.1 :: b.1 :: plain rest) := by rw [← hx]; rfl
        _ = _ := decodeOnce_escape hhigh hlow _
  | case2 x a b rest h ih =>
      rw [units, if_neg h, List.flatMap_cons, ← ih]
      refine decodeOnce_cons fun hx => ?_
      rintro ⟨a', b', rest', heq, ha, hb⟩
      rw [List.map_cons, List.map_cons, List.cons.injEq, List.cons.injEq] at heq
      rw [← heq.1] at ha
      rw [← heq.2.1] at hb
      exact h (by rw [hx, isHex, isHex, ha, hb]; rfl)
  | case3 x rest hshort ih =>
      rw [units.eq_2 x rest hshort, List.flatMap_cons, ← ih]
      refine decodeOnce_cons fun _ => ?_
      rintro ⟨a', b', rest', heq, -, -⟩
      match rest with
      | [] => exact absurd heq (by simp only [List.map_nil, reduceCtorEq, not_false_eq_true])
      | [a] => exact absurd heq (by simp only [List.map_cons, List.map_nil, List.cons.injEq,
          reduceCtorEq, and_false, not_false_eq_true])
      | a :: b :: rest => exact hshort a b rest rfl
  | case4 => rfl

/-- An escape of a byte and more. -/
theorem isEscape_cons {b : UInt8} {bs : List UInt8} {e : Text} (h : isEscape (b :: bs) e = true) :
    ∃ high low rest, e = '%' :: high :: low :: rest ∧ hexValue high = some (b.toNat / 16) ∧
      hexValue low = some (b.toNat % 16) ∧ isEscape bs rest = true := by
  rw [isEscape.eq_def] at h
  split at h
  · next hnil => exact absurd hnil (by simp only [reduceCtorEq, not_false_eq_true])
  · next b' bs' high low rest hcons =>
      rw [List.cons.injEq] at hcons
      obtain ⟨rfl, rfl⟩ := hcons
      rw [Bool.and_eq_true, Bool.and_eq_true, decide_eq_true_eq, decide_eq_true_eq] at h
      exact ⟨high, low, rest, rfl, h.1.1, h.1.2, h.2⟩
  · exact absurd h Bool.false_ne_true

/-- An escape is decoded to its bytes, unless they stay encoded. -/
theorem decodeOnce_isEscape {bs : List UInt8} {e : Text} (h : isEscape bs e = true)
    (hbs : ∀ b ∈ bs, b.toNat ∉ keptEncoded) (cs : Text) :
    decodeOnce (e ++ cs) = (bs.map fun b => Char.ofNat b.toNat) ++ decodeOnce cs := by
  induction bs generalizing e with
  | nil =>
      cases e with
      | nil => rfl
      | cons c e => exact absurd h Bool.false_ne_true
  | cons b bs ih =>
      obtain ⟨high, low, rest, rfl, hhigh, hlow, hrest⟩ := isEscape_cons h
      have hcode : 16 * (b.toNat / 16) + b.toNat % 16 = b.toNat := by omega
      have hkept := hbs b List.mem_cons_self
      rw [List.cons_append, List.cons_append, List.cons_append, decodeOnce_escape hhigh hlow,
        hcode, unescape, if_neg hkept, ih hrest fun b' hb' => hbs b' (List.mem_cons_of_mem _ hb')]
      rfl

section Spelling

variable {x : Marked} {rest : List Marked}

/-- A spelt character is decoded to its bytes, whatever follows. -/
theorem decodeOnce_spelt (hvalid : Valid (x :: rest)) {e : Text} (hx : x.2 = some e) (cs : Text) :
    decodeOnce (x.spelt ++ cs) = byteChars x.1 ++ decodeOnce cs := by
  obtain ⟨hc, hescape⟩ := hvalid x List.mem_cons_self e hx
  rw [Marked.spelt, hx]
  exact decodeOnce_isEscape hescape (fun b hb => byte_not_kept hc hb) cs

/-- The spelling of a character begins with a percent sign, or is the character. -/
theorem spelt_cases (hvalid : Valid (x :: rest)) :
    (x.2 = none ∧ x.spelt = [x.1]) ∨ (∃ e, x.2 = some e ∧ ∃ cs, x.spelt = '%' :: cs) := by
  cases hx : x.2 with
  | none => exact .inl ⟨rfl, by rw [Marked.spelt, hx]; rfl⟩
  | some e =>
      obtain ⟨-, hescape⟩ := hvalid x List.mem_cons_self e hx
      refine .inr ⟨e, rfl, ?_⟩
      rw [Marked.spelt, hx, Option.getD_some]
      obtain ⟨b, bs, hbytes⟩ : ∃ b bs, String.utf8EncodeChar x.1 = b :: bs := by
        cases hbytes : String.utf8EncodeChar x.1 with
        | nil => exact absurd hbytes (String.utf8EncodeChar_ne_nil)
        | cons b bs => exact ⟨b, bs, rfl⟩
      rw [hbytes] at hescape
      obtain ⟨high, low, rest, rfl, -⟩ := isEscape_cons hescape
      exact ⟨high :: low :: rest, rfl⟩

theorem valid_tail (hvalid : Valid (x :: rest)) : Valid rest :=
  fun y hy => hvalid y (List.mem_cons_of_mem _ hy)

theorem unmarked_percent (hvalid : Valid (x :: rest)) (hx : x.1 = '%') : x.2 = none := by
  cases h : x.2 with
  | none => rfl
  | some e =>
      refine absurd ?_ (hvalid x List.mem_cons_self e h).1
      rw [hx]
      decide

/-- A hexadecimal digit is decoded to itself, spelt or not. -/
theorem decodeOnce_digit (hvalid : Valid (x :: rest)) {n : Nat} (hx : hexValue x.1 = some n)
    (cs : Text) : decodeOnce (x.spelt ++ cs) = x.1 :: decodeOnce cs := by
  cases hmark : x.2 with
  | none =>
      rw [Marked.spelt, hmark]
      exact decodeOnce_other (ne_percent_of_hexValue hx) cs
  | some e =>
      rw [decodeOnce_spelt hvalid hmark, byteChars_ascii (ascii_of_hexValue hx)]
      rfl

/-- The percent sign of an escape with a spelt digit is left. -/
theorem decodeOnce_broken {a b : Marked} (hvalid : Valid (a :: b :: rest))
    (hmark : ¬ (a.2 = none ∧ b.2 = none)) (cs : Text) :
    decodeOnce ('%' :: (a.spelt ++ (b.spelt ++ cs))) =
      '%' :: decodeOnce (a.spelt ++ (b.spelt ++ cs)) := by
  refine decodeOnce_percent ?_
  rintro ⟨a', b', rest', heq, ha', hb'⟩
  rcases spelt_cases hvalid with ⟨hnone, hspelt⟩ | ⟨e, -, cs', hspelt⟩
  · rw [hspelt, List.singleton_append, List.cons.injEq] at heq
    rcases spelt_cases (valid_tail hvalid) with ⟨hnone', -⟩ | ⟨e, -, cs', hspelt'⟩
    · exact hmark ⟨hnone, hnone'⟩
    · rw [hspelt', List.cons_append, List.cons.injEq] at heq
      rw [← heq.2.1, hexValue_percent] at hb'
      exact absurd hb' Bool.false_ne_true
  · rw [hspelt, List.cons_append, List.cons.injEq] at heq
    rw [← heq.1, hexValue_percent] at ha'
    exact absurd ha' Bool.false_ne_true

/-- A percent sign without two digits after it has none in the spelling. -/
theorem decodeOnce_unit (hvalid : Valid (x :: rest))
    (h : x.1 = '%' → ¬ HexPair (spell rest)) :
    decodeOnce (spell (x :: rest)) = x.unit.2 ++ decodeOnce (spell rest) := by
  rw [spell, List.flatMap_cons, Marked.unit]
  cases hmark : x.2 with
  | none =>
      rw [Marked.spelt, hmark]
      exact decodeOnce_cons h
  | some e =>
      rw [decodeOnce_spelt hvalid hmark]
      rfl

end Spelling

/-- The spelling is decoded to the second members. -/
theorem decodeOnce_spell {l : List Marked} (hvalid : Valid l) :
    decodeOnce (spell l) = (units l).flatMap Prod.snd := by
  induction l using units.induct with
  | case1 x a b rest h ih =>
      obtain ⟨hx, high, low, hhigh, hlow⟩ := escape_of_isHex h
      have ha := valid_tail hvalid
      have hb := valid_tail ha
      rw [units, if_pos h, List.flatMap_cons, ← ih (valid_tail hb), escapeUnit, hhigh, hlow]
      have hspell : spell (x :: a :: b :: rest) =
          '%' :: (a.spelt ++ (b.spelt ++ spell rest)) := by
        rw [spell, List.flatMap_cons, Marked.spelt, unmarked_percent hvalid hx, ← hx]
        rfl
      rw [hspell]
      by_cases hmark : a.2 = none ∧ b.2 = none
      · rw [Marked.spelt, Marked.spelt, hmark.1, hmark.2]
        exact decodeOnce_escape hhigh hlow _
      · have hor : (a.2.isNone && b.2.isNone) = false := by
          rw [Bool.eq_false_iff]
          intro hboth
          rw [Bool.and_eq_true, Option.isNone_iff_eq_none, Option.isNone_iff_eq_none] at hboth
          exact hmark hboth
        rw [decodeOnce_broken ha hmark, decodeOnce_digit ha hhigh,
          decodeOnce_digit hb hlow, hor]
        rfl
  | case2 x a b rest h ih =>
      rw [units, if_neg h, List.flatMap_cons, ← ih (valid_tail hvalid)]
      refine decodeOnce_unit hvalid fun hx => ?_
      rintro ⟨a', b', rest', heq, ha', hb'⟩
      have ha := valid_tail hvalid
      rw [spell, List.flatMap_cons, List.flatMap_cons] at heq
      rcases spelt_cases ha with ⟨-, hspelt⟩ | ⟨e, -, cs', hspelt⟩
      · rw [hspelt, List.singleton_append, List.cons.injEq] at heq
        rcases spelt_cases (valid_tail ha) with ⟨-, hspelt'⟩ | ⟨e, -, cs', hspelt'⟩
        · rw [hspelt', List.singleton_append, List.cons.injEq] at heq
          rw [← heq.1] at ha'
          rw [← heq.2.1] at hb'
          exact h (by rw [hx, isHex, isHex, ha', hb']; rfl)
        · rw [hspelt', List.cons_append, List.cons.injEq] at heq
          rw [← heq.2.1, hexValue_percent] at hb'
          exact Bool.false_ne_true hb'
      · rw [hspelt, List.cons_append, List.cons.injEq] at heq
        rw [← heq.1, hexValue_percent] at ha'
        exact Bool.false_ne_true ha'
  | case3 x rest hshort ih =>
      rw [units.eq_2 x rest hshort, List.flatMap_cons, ← ih (valid_tail hvalid)]
      refine decodeOnce_unit hvalid fun _ => ?_
      rintro ⟨a', b', rest', heq, ha', hb'⟩
      match rest with
      | [] => exact absurd heq (by simp only [spell, List.flatMap_nil, reduceCtorEq,
          not_false_eq_true])
      | [a] =>
          rw [spell, List.flatMap_cons, List.flatMap_nil, List.append_nil] at heq
          rcases spelt_cases (valid_tail hvalid) with ⟨-, hspelt⟩ | ⟨e, -, cs', hspelt⟩
          · exact absurd (hspelt.symm.trans heq) (by simp only [List.cons.injEq, reduceCtorEq,
              and_false, not_false_eq_true])
          · rw [hspelt, List.cons.injEq] at heq
            rw [← heq.1, hexValue_percent] at ha'
            exact Bool.false_ne_true ha'
      | a :: b :: rest => exact hshort a b rest rfl
  | case4 => rfl

/-! ## Harmless spellings -/

theorem unit_eq_iff (x : Marked) : x.unit.1 = x.unit.2 ↔ x.2 = none ∨ x.1.toNat < 128 := by
  rw [Marked.unit]
  cases hmark : x.2 with
  | none => exact ⟨fun _ => .inl rfl, fun _ => rfl⟩
  | some e =>
      dsimp only
      rw [Option.isSome_some, if_pos rfl]
      constructor
      · intro heq
        by_cases hascii : x.1.toNat < 128
        · exact .inr hascii
        · have hlength := two_le_length_byteChars (Nat.le_of_not_lt hascii)
          rw [← heq] at hlength
          exact absurd hlength (Nat.not_le_of_gt (Nat.lt_succ_self 1))
      · rintro (h | h)
        · exact absurd h (by simp only [reduceCtorEq, not_false_eq_true])
        · exact (byteChars_ascii h).symm

theorem escapeUnit_eq_iff (a b : Marked) :
    (escapeUnit a b).1 = (escapeUnit a b).2 ↔
      (a.2 = none ∧ b.2 = none ∨
        (16 * (hexValue a.1).getD 0 + (hexValue b.1).getD 0 ∈ keptEncoded ∧
          a.1.toUpper = a.1 ∧ b.1.toUpper = b.1)) := by
  rw [escapeUnit]
  dsimp only
  by_cases hmark : a.2 = none ∧ b.2 = none
  · rw [hmark.1, hmark.2]
    exact ⟨fun _ => .inl ⟨rfl, rfl⟩, fun _ => rfl⟩
  · have hor : ¬ (a.2.isNone && b.2.isNone) = true := by
      intro hboth
      rw [Bool.and_eq_true, Option.isNone_iff_eq_none, Option.isNone_iff_eq_none] at hboth
      exact hmark hboth
    rw [if_neg hor, unescape, or_iff_right hmark]
    split
    · next hkept =>
        simp only [List.cons.injEq, and_true, true_and, hkept]
    · next hkept =>
        refine ⟨fun h => absurd h ?_, fun h => absurd h.1 hkept⟩
        simp only [List.cons.injEq, reduceCtorEq, and_false, not_false_eq_true]

/-- A spelling is harmless when no piece differs. -/
theorem harmless_iff (l : List Marked) : Harmless l ↔ ∀ u ∈ units l, u.1 = u.2 := by
  induction l using units.induct with
  | case1 x a b rest h ih =>
      rw [Harmless, if_pos h, units, if_pos h, List.forall_mem_cons, ih, escapeUnit_eq_iff]
  | case2 x a b rest h ih =>
      rw [Harmless, if_neg h, units, if_neg h, List.forall_mem_cons, ih, unit_eq_iff]
  | case3 x rest hshort ih =>
      rw [Harmless.eq_2 x rest hshort, units.eq_2 x rest hshort, List.forall_mem_cons, ih,
        unit_eq_iff]
  | case4 => exact ⟨fun _ u hu => absurd hu List.not_mem_nil, fun _ => trivial⟩

/-! ## Pieces -/

/-- The piece of a slash. -/
def slashUnit : Text × Text := (['/'], ['/'])

/-- A piece is the slash or has none, and is longer in the spelling or as long
when it differs, of two characters at least. -/
structure Piece (u : Text × Text) : Prop where
  slash : u = slashUnit ∨ ('/' ∉ u.1 ∧ '/' ∉ u.2)
  ne_nil : u.2 ≠ []
  grows : u.1 = u.2 ∨ (u.1.length ≤ u.2.length ∧ 2 ≤ u.2.length)

theorem piece_unit {x : Marked} {rest : List Marked} (hvalid : Valid (x :: rest)) :
    Piece x.unit := by
  rw [Marked.unit]
  cases hmark : x.2 with
  | none =>
      refine ⟨?_, List.cons_ne_nil _ _, .inl rfl⟩
      by_cases hc : x.1 = '/'
      · exact .inl (by rw [hc]; rfl)
      · have hfree : '/' ∉ [x.1] := fun hm => hc (List.mem_singleton.mp hm).symm
        exact .inr ⟨hfree, hfree⟩
  | some e =>
      have hc : x.1 ≠ '/' := by
        intro he
        refine absurd ?_ (hvalid x List.mem_cons_self e hmark).1
        rw [he]
        decide
      by_cases hascii : x.1.toNat < 128
      · rw [Option.isSome_some, if_pos rfl, byteChars_ascii hascii]
        have hfree : '/' ∉ [x.1] := fun hm => hc (List.mem_singleton.mp hm).symm
        exact ⟨.inr ⟨hfree, hfree⟩, List.cons_ne_nil _ _, .inl rfl⟩
      · have hlength := two_le_length_byteChars (Nat.le_of_not_lt hascii)
        rw [Option.isSome_some, if_pos rfl]
        refine ⟨.inr ⟨fun hm => hc (List.mem_singleton.mp hm).symm, slash_not_mem_byteChars hc⟩,
          fun he => ?_, .inr ⟨Nat.le_of_succ_le hlength, hlength⟩⟩
        dsimp only at he
        rw [he] at hlength
        exact absurd hlength (by decide)

theorem piece_escapeUnit {a b : Marked} (ha : isHex a = true) (hb : isHex b = true) :
    Piece (escapeUnit a b) := by
  obtain ⟨high, hhigh⟩ := Option.isSome_iff_exists.mp ha
  obtain ⟨low, hlow⟩ := Option.isSome_iff_exists.mp hb
  have hfree := slash_not_mem_unescape hhigh hlow
  have hne : unescape a.1 b.1 (16 * high + low) ≠ [] := by
    rw [unescape]
    split <;> exact List.cons_ne_nil _ _
  rw [escapeUnit, hhigh, hlow, Option.getD_some, Option.getD_some]
  by_cases hmark : (a.2.isNone && b.2.isNone) = true
  · rw [if_pos hmark]
    exact ⟨.inr ⟨hfree, hfree⟩, hne, .inl rfl⟩
  · rw [if_neg hmark]
    refine ⟨.inr ⟨hfree, ?_⟩, List.cons_ne_nil _ _, .inr ⟨?_, Nat.le_succ 2⟩⟩
    · intro hm
      simp only [List.mem_cons, List.not_mem_nil, or_false] at hm
      rcases hm with h | h | h
      · exact absurd h (by decide)
      · exact slash_ne_of_hexValue hhigh h.symm
      · exact slash_ne_of_hexValue hlow h.symm
    · rw [unescape]
      split <;> simp only [List.length_cons, List.length_nil] <;> omega

theorem piece_units {l : List Marked} (hvalid : Valid l) : ∀ u ∈ units l, Piece u := by
  induction l using units.induct with
  | case1 x a b rest h ih =>
      rw [units, if_pos h, List.forall_mem_cons]
      rw [Bool.and_eq_true, Bool.and_eq_true] at h
      exact ⟨piece_escapeUnit h.1.2 h.2,
        ih (valid_tail (valid_tail (valid_tail hvalid)))⟩
  | case2 x a b rest h ih =>
      rw [units, if_neg h, List.forall_mem_cons]
      exact ⟨piece_unit hvalid, ih (valid_tail hvalid)⟩
  | case3 x rest hshort ih =>
      rw [units.eq_2 x rest hshort, List.forall_mem_cons]
      exact ⟨piece_unit hvalid, ih (valid_tail hvalid)⟩
  | case4 => exact fun u hu => absurd hu List.not_mem_nil

/-! ## Segments -/

/-- What a segment leaves in the normal form where nothing is taken away. -/
def left (s : Text) : Text := if s = ['.'] then [] else s

theorem resolveSegments_left {segments : List Text} (h : ['.', '.'] ∉ segments)
    (output : List Text) :
    resolveSegments output segments = output ++ segments.filter (· ≠ ['.']) := by
  induction segments generalizing output with
  | nil => rw [resolveSegments, List.filter_nil, List.append_nil]
  | cons s segments ih =>
      have hs : s ≠ ['.', '.'] := fun he => h (he ▸ List.mem_cons_self)
      have hrest : ['.', '.'] ∉ segments := fun hm => h (List.mem_cons_of_mem _ hm)
      rw [resolveSegments]
      by_cases hdot : s = ['.']
      · rw [if_pos hdot, ih hrest, List.filter_cons_of_neg (by rw [hdot]; decide)]
      · rw [if_neg hdot, if_neg hs, ih hrest,
          List.filter_cons_of_pos (by rw [decide_eq_true_eq]; exact hdot), List.append_assoc]
        rfl

theorem flatMap_left (segments : List Text) :
    segments.flatMap left = (segments.filter (· ≠ ['.'])).flatten := by
  induction segments with
  | nil => rfl
  | cons s segments ih =>
      rw [List.flatMap_cons, ih, left]
      by_cases hdot : s = ['.']
      · rw [if_pos hdot, List.filter_cons_of_neg (by rw [hdot]; decide), List.nil_append]
      · rw [if_neg hdot, List.filter_cons_of_pos (by rw [decide_eq_true_eq]; exact hdot),
          List.flatten_cons]

/-- The letters of a normal form are what the segments leave. -/
theorem letters_normalizePath {p : Text} (h : ['.', '.'] ∉ (decodeOnce p).splitOn '/') :
    Segments.letters '/' (normalizePath p) = ((decodeOnce p).splitOn '/').flatMap left := by
  have hjoin : Segments.letters '/' (resolveDotSegments (decodeOnce p)) =
      ((decodeOnce p).splitOn '/').flatMap left := by
    have hfree : '/' ∉ (((decodeOnce p).splitOn '/').filter (· ≠ ['.'])).flatten := by
      intro hm
      obtain ⟨x, hx, hslash⟩ := List.mem_flatten.mp hm
      exact Segments.not_mem_of_mem_splitOn (List.mem_of_mem_filter hx) hslash
    have hletters : Segments.letters '/' (['/'].intercalate
        (resolveSegments [] ((decodeOnce p).splitOn '/'))) =
        ((decodeOnce p).splitOn '/').flatMap left := by
      rw [resolveSegments_left h, List.nil_append, Segments.letters_intercalate,
        Segments.letters_of_free hfree, flatMap_left]
    rw [resolveDotSegments]
    split
    · rw [Segments.letters_cons_sep]
      exact hletters
    · exact hletters
  have hrooted : Segments.letters '/' (rooted (resolveDotSegments (decodeOnce p))) =
      ((decodeOnce p).splitOn '/').flatMap left := by
    rw [rooted]
    split
    · rw [Segments.letters_cons_sep]
      exact hjoin
    · exact hjoin
  have htrimmed : Segments.letters '/'
      ((rooted (resolveDotSegments (decodeOnce p))).rstrip '/') =
        ((decodeOnce p).splitOn '/').flatMap left := by
    rw [Segments.letters_rstrip]
    exact hrooted
  rw [normalizePath]
  split
  · next hnil =>
      rw [hnil] at htrimmed
      exact htrimmed
  · exact htrimmed

/-- Pieces without a slash come to texts of these lengths. -/
theorem length_flatMap_le {us : List (Text × Text)} (h : ∀ u ∈ us, Piece u) :
    (us.flatMap Prod.fst).length ≤ (us.flatMap Prod.snd).length := by
  induction us with
  | nil => exact Nat.le_refl 0
  | cons u us ih =>
      have hrest := ih fun v hv => h v (List.mem_cons_of_mem _ hv)
      have hu : u.1.length ≤ u.2.length := by
        rcases (h u List.mem_cons_self).grows with he | ⟨hle, -⟩
        · rw [he]
        · exact hle
      rw [List.flatMap_cons, List.flatMap_cons, List.length_append, List.length_append]
      omega

/-- Pieces that come to one text are equal. -/
theorem pieces_eq {us : List (Text × Text)} (h : ∀ u ∈ us, Piece u)
    (heq : us.flatMap Prod.fst = us.flatMap Prod.snd) : ∀ u ∈ us, u.1 = u.2 := by
  induction us with
  | nil => exact fun u hu => absurd hu List.not_mem_nil
  | cons u us ih =>
      have hus : ∀ v ∈ us, Piece v := fun v hv => h v (List.mem_cons_of_mem _ hv)
      have hrest := length_flatMap_le hus
      have hu : u.1.length ≤ u.2.length := by
        rcases (h u List.mem_cons_self).grows with he | ⟨hle, -⟩
        · rw [he]
        · exact hle
      rw [List.flatMap_cons, List.flatMap_cons] at heq
      have hlength := congrArg List.length heq
      rw [List.length_append, List.length_append] at hlength
      have hparts := List.append_inj heq (by omega)
      exact List.forall_mem_cons.mpr ⟨hparts.1, ih hus hparts.2⟩

/-- Pieces that are a dot in the spelling are one in the path. -/
theorem dot_of_dot {us : List (Text × Text)} (h : ∀ u ∈ us, Piece u)
    (hdot : us.flatMap Prod.snd = ['.']) : us.flatMap Prod.fst = ['.'] := by
  cases us with
  | nil => exact absurd hdot (by simp only [List.flatMap_nil, reduceCtorEq, not_false_eq_true])
  | cons u us =>
      have hu := h u List.mem_cons_self
      rw [List.flatMap_cons] at hdot ⊢
      have hlength := congrArg List.length hdot
      rw [List.length_append, List.length_singleton] at hlength
      have hpos := List.length_pos_of_ne_nil hu.ne_nil
      -- The first piece is the dot, so that nothing follows it.
      cases us with
      | nil =>
          rcases hu.grows with he | ⟨-, hle⟩
          · rw [he]
            exact hdot
          · omega
      | cons v us =>
          have hv := List.length_pos_of_ne_nil
            (h v (List.mem_cons_of_mem _ List.mem_cons_self)).ne_nil
          rw [List.flatMap_cons, List.length_append] at hlength
          omega

/-- What a segment leaves is not longer than what its spelling leaves. -/
theorem length_left_le {us : List (Text × Text)} (h : ∀ u ∈ us, Piece u) :
    (left (us.flatMap Prod.fst)).length ≤ (left (us.flatMap Prod.snd)).length := by
  rw [left, left]
  by_cases hdot : us.flatMap Prod.snd = ['.']
  · rw [if_pos hdot, if_pos (dot_of_dot h hdot)]
  · rw [if_neg hdot]
    split
    · exact Nat.zero_le _
    · exact length_flatMap_le h

/-- The pieces of a segment that leaves what its spelling leaves are equal. -/
theorem pieces_eq_of_left {us : List (Text × Text)} (h : ∀ u ∈ us, Piece u)
    (heq : left (us.flatMap Prod.fst) = left (us.flatMap Prod.snd)) : ∀ u ∈ us, u.1 = u.2 := by
  rw [left, left] at heq
  by_cases hdot : us.flatMap Prod.snd = ['.']
  · exact pieces_eq h ((dot_of_dot h hdot).trans hdot.symm)
  · rw [if_neg hdot] at heq
    by_cases hdot' : us.flatMap Prod.fst = ['.']
    · rw [if_pos hdot'] at heq
      -- The spelling has no character, so that there is no piece.
      cases us with
      | nil => exact fun u hu => absurd hu List.not_mem_nil
      | cons u us =>
          rw [List.flatMap_cons] at heq
          exact absurd (List.append_eq_nil_iff.mp heq.symm).1 (h u List.mem_cons_self).ne_nil
    · rw [if_neg hdot'] at heq
      exact pieces_eq h heq

/-- The pieces of segments that leave what their spellings leave are equal. -/
theorem pieces_eq_of_segments {segments : List (List (Text × Text))}
    (h : ∀ us ∈ segments, ∀ u ∈ us, Piece u)
    (heq : segments.flatMap (fun us => left (us.flatMap Prod.fst)) =
      segments.flatMap (fun us => left (us.flatMap Prod.snd))) :
    ∀ us ∈ segments, ∀ u ∈ us, u.1 = u.2 := by
  have hle : ∀ segments : List (List (Text × Text)), (∀ us ∈ segments, ∀ u ∈ us, Piece u) →
      (segments.flatMap (fun us => left (us.flatMap Prod.fst))).length ≤
        (segments.flatMap (fun us => left (us.flatMap Prod.snd))).length := by
    intro segments h
    induction segments with
    | nil => exact Nat.le_refl 0
    | cons us segments ih =>
        have hus := length_left_le (h us List.mem_cons_self)
        have hrest := ih fun vs hvs => h vs (List.mem_cons_of_mem _ hvs)
        rw [List.flatMap_cons, List.flatMap_cons, List.length_append, List.length_append]
        omega
  induction segments with
  | nil => exact fun us hus => absurd hus List.not_mem_nil
  | cons us segments ih =>
      have hus := h us List.mem_cons_self
      have hsegments : ∀ vs ∈ segments, ∀ u ∈ vs, Piece u :=
        fun vs hvs => h vs (List.mem_cons_of_mem _ hvs)
      have hhead := length_left_le hus
      have hrest := hle segments hsegments
      rw [List.flatMap_cons, List.flatMap_cons] at heq
      have hlength := congrArg List.length heq
      rw [List.length_append, List.length_append] at hlength
      have hparts := List.append_inj heq (by omega)
      exact List.forall_mem_cons.mpr ⟨pieces_eq_of_left hus hparts.1, ih hsegments hparts.2⟩

/-! ## Normal forms -/

/-- A path and one that spells characters of it by the escapes of their bytes
have one normal form when the spelling is harmless. Where neither has a `..`
segment and the characters are in ASCII, they have it only then. -/
theorem normalizePath_spell {l : List Marked} (hvalid : Valid l) :
    (Harmless l → normalizePath (spell l) = normalizePath (plain l)) ∧
    ((∀ x ∈ l, x.2.isSome → x.1.toNat < 128) →
      ['.', '.'] ∉ (decodeOnce (plain l)).splitOn '/' →
      ['.', '.'] ∉ (decodeOnce (spell l)).splitOn '/' →
      normalizePath (spell l) = normalizePath (plain l) → Harmless l) := by
  have hpieces := piece_units hvalid
  constructor
  · intro hharmless
    have hequal : decodeOnce (spell l) = decodeOnce (plain l) := by
      rw [decodeOnce_spell hvalid, decodeOnce_plain]
      exact List.flatMap_congr fun u hu => ((harmless_iff l).mp hharmless u hu).symm
    rw [normalizePath, normalizePath, hequal]
  · intro _ hplain hspell heq
    rw [harmless_iff]
    have hletters := congrArg (Segments.letters '/') heq
    have hfst : ((units l).flatMap Prod.fst).splitOn '/' =
        ((units l).splitOn slashUnit).map (·.flatMap Prod.fst) :=
      Pieces.splitOn_flatMap rfl fun u hu hne => ((hpieces u hu).slash.resolve_left hne).1
    have hsnd : ((units l).flatMap Prod.snd).splitOn '/' =
        ((units l).splitOn slashUnit).map (·.flatMap Prod.snd) :=
      Pieces.splitOn_flatMap rfl fun u hu hne => ((hpieces u hu).slash.resolve_left hne).2
    rw [letters_normalizePath hplain, letters_normalizePath hspell, decodeOnce_spell hvalid,
      decodeOnce_plain, hfst, hsnd, List.flatMap_map, List.flatMap_map] at hletters
    have hall := pieces_eq_of_segments
      (Segments.forall_splitOn.mpr fun u hu _ => hpieces u hu) hletters.symm
    intro u hu
    by_cases hslash : u = slashUnit
    · rw [hslash]
      rfl
    · exact Segments.forall_splitOn.mp hall u hu hslash

/-- An ASCII letter and a digit that no escape has are spelt. -/
theorem normalizePath_spell_admin :
    normalizePath "/%61dmin/%2F%37".toList = normalizePath "/admin/%2F7".toList :=
  (normalizePath_spell (l := [('/', none), ('a', some ['%', '6', '1']), ('d', none), ('m', none),
    ('i', none), ('n', none), ('/', none), ('%', none), ('2', none), ('F', none),
    ('7', some ['%', '3', '7'])]) (by unfold Valid; decide)).1 (by decide)

/-- The digit of an escape, spelt by an escape of its own, is no digit of the
first one any more: decoding is not carried out twice. -/
theorem spelt_digit_told_apart :
    ¬ ∀ l : List Marked, Valid l → normalizePath (spell l) = normalizePath (plain l) := by
  intro h
  have hvalid : Valid [('/', none), ('%', none), ('4', some ['%', '3', '4']), ('1', none)] := by
    unfold Valid
    decide
  exact absurd (h _ hvalid) (by decide)

end Registry

end JenticOne
