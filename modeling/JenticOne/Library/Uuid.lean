import JenticOne.Library.Hex
import JenticOne.Library.Margins

/-!
# UUIDs

UUIDs as the standard library has them: the number of 128 bits, its digits, and the
reader of a text, which passes over a prefix, braces and hyphens. `int(text, 16)`, which
reads more than hexadecimal digits, is a parameter.

## Main definitions

* `HexInt`: The parameter; `HexInt.plain` is it on texts of digits.
* `UUID`, `UUID.hex`: UUIDs and their digits.
* `uuid`: The reader.

## Theorems

* `uuidDigits_of_marks`: The digits between hyphens.
* `uuid_of_digits`: A text of 32 digits is read.
-/

namespace Uuid

open Hex Margins

/-- `int(text, 16)`, without a value where it raises `ValueError`. -/
structure HexInt where
  int16 : Text → Option Nat
  int16_digits : ∀ s, s ≠ [] → (∀ c ∈ s, isHex c = true) → int16 s = some (value s)

/-- The function on texts of digits. -/
def HexInt.plain : HexInt where
  int16 := fun s => if s ≠ [] && s.all isHex then some (value s) else none
  int16_digits := by
    intro s hne hs
    have hall : s.all isHex = true := List.all_eq_true.mpr hs
    rw [if_pos (by rw [hall, Bool.and_true]; exact decide_eq_true hne)]

/-- A UUID, by the number of its 128 bits. -/
@[ext]
structure UUID where
  int : Nat
  lt : int < 16 ^ 32

/-- `UUID.hex`. -/
def UUID.hex (id : UUID) : Text := pad 32 id.int

/-- The digits that `uuid.UUID` reads, without the marks it allows around them. -/
def uuidDigits (hex : Text) : Text :=
  (trim (fun c => c = '{' || c = '}') ((hex.replace "urn:".toList []).replace
    "uuid:".toList [])).replace ['-'] []

/-- `uuid.UUID`, without a value where it raises `ValueError`. -/
def uuid (lib : HexInt) (hex : Text) : Option UUID :=
  if (uuidDigits hex).length ≠ 32 then none
  else (lib.int16 (uuidDigits hex)).bind fun n => if h : n < 16 ^ 32 then some ⟨n, h⟩ else none

variable {lib : HexInt} {s t : Text} {id : UUID}

theorem isHex_facts {c : Char} (h : isHex c = true) :
    c ≠ '-' ∧ c ≠ ':' ∧ c ≠ '{' ∧ c ≠ '}' ∧ c ≠ 'r' ∧ isspace c = false :=
  forall_isHex (P := fun c => c ≠ '-' ∧ c ≠ ':' ∧ c ≠ '{' ∧ c ≠ '}' ∧ c ≠ 'r' ∧
    isspace c = false) (by decide) h

/-- The digits with hyphens between them. -/
theorem uuidDigits_of_marks (h : ∀ c ∈ t, isHex c = true ∨ c = '-') :
    uuidDigits t = t.filter (· ≠ '-') := by
  have hcolon : ':' ∉ t := by
    intro hm
    rcases h ':' hm with hc | hc
    · exact (isHex_facts hc).2.1 rfl
    · exact absurd hc (by decide)
  have hurn : ¬ "urn:".toList <:+: t := fun hi => hcolon (hi.subset (by decide))
  have huuid : ¬ "uuid:".toList <:+: t := fun hi => hcolon (hi.subset (by decide))
  have hbrace : trim (fun c => c = '{' || c = '}') t = t := by
    refine trim_eq_self fun c hc => ?_
    rw [Bool.or_eq_false_iff, decide_eq_false_iff_not, decide_eq_false_iff_not]
    rcases h c hc with hhex | rfl
    · exact ⟨(isHex_facts hhex).2.2.1, (isHex_facts hhex).2.2.2.1⟩
    · decide
  rw [uuidDigits, Text.replace_of_not_infix [] hurn, Text.replace_of_not_infix [] huuid, hbrace,
    Text.replace_char_nil]

theorem filter_hyphen (h : ∀ c ∈ s, isHex c = true) : s.filter (· ≠ '-') = s :=
  List.filter_eq_self.mpr fun c hc => decide_eq_true (isHex_facts (h c hc)).1

theorem uuid_of_digits (hdigits : uuidDigits t = s) (hlen : s.length = 32)
    (hhex : ∀ c ∈ s, isHex c = true) (hvalue : value s = id.int) : uuid lib t = some id := by
  have hne : s ≠ [] := by
    rintro rfl
    exact absurd hlen (by decide)
  rw [uuid, hdigits, if_neg (not_not.mpr hlen), lib.int16_digits s hne hhex, Option.bind_some,
    hvalue, dif_pos id.lt]

end Uuid
