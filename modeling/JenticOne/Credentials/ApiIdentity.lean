import JenticOne.Library.Margins

/-!
# API Identity

The canonical form of an API's vendor and name, and what it means that a
credential covers an API. An API is always concrete. A credential is scoped at a
vendor, a name of the vendor or a version of that; an axis it leaves out covers
everything.

Whether a credential covers an API is asked in two ways: by comparing columns in
the database as they are stored, and by comparing canonical forms.

A canonical form is cut at a hundred characters after the hyphens at its ends
are trimmed, so that it ends with a hyphen again if the cut falls behind one.
Bringing it into canonical form once more then removes that hyphen.

## Main definitions

* `slugifyApiField`: The canonical form of a vendor or a name.
* `canonicalCredentialScope`: The canonical form of a scope.
* `credentialCovers`, `credentialCoverageWhere`: The two ways to ask.
* `CutAtHyphen`: The text whose canonical form ends with a hyphen.

## Theorems

* `slugifyApiField_twice`: The canonical form of a canonical form.
* `slugifyApiField_fixed_iff`: A canonical form that stays as it is.
-/

namespace JenticOne

namespace Credentials

open Margins (trim isspace)

/-! ## Canonical forms -/

/-- `API_FIELD_MAX_LENGTH`. -/
def apiFieldMaxLength : Nat := 100

/-- `[a-z0-9-]`. -/
def isSlugChar (c : Char) : Bool := ('a' ≤ c && c ≤ 'z') || ('0' ≤ c && c ≤ '9') || c = '-'

/-- `_SLUG_RE.sub("-", …)`: a hyphen for every run of other characters. The flag
    says that the last character was in such a run. -/
def subRuns : Bool → Text → Text
  | _, [] => []
  | inRun, c :: s =>
    if isSlugChar c then c :: subRuns false s
    else if inRun then subRuns true s
    else '-' :: subRuns true s

/-- A lower-case mapping that has nothing to do on the characters of a slug. -/
def LowerFixesSlugs (lower : Text → Text) : Prop :=
  ∀ s, (∀ c ∈ s, isSlugChar c = true) → lower s = s

section Slug

variable (lower : Text → Text)

/-- The canonical form before it is cut. -/
def slugText (value : Text) : Text := (subRuns false (lower (trim isspace value))).strip '-'

/-- `slugify_api_field`. -/
def slugifyApiField (value : Text) : Text := (slugText lower value).take apiFieldMaxLength

/-- The cut falls behind a hyphen. -/
def CutAtHyphen (value : Text) : Prop :=
  apiFieldMaxLength < (slugText lower value).length ∧
    (slugText lower value)[apiFieldMaxLength - 1]? = some '-'

instance (value : Text) : Decidable (CutAtHyphen lower value) :=
  inferInstanceAs (Decidable (_ ∧ _))

end Slug

section SlugFacts

variable {lower : Text → Text}

theorem subRuns_slug (s : Text) (inRun : Bool) : ∀ c ∈ subRuns inRun s, isSlugChar c = true := by
  induction s generalizing inRun with
  | nil => exact fun c hc => absurd hc List.not_mem_nil
  | cons d s ih =>
      intro c hc
      rw [subRuns] at hc
      by_cases hd : isSlugChar d = true
      · rw [if_pos hd] at hc
        rcases List.mem_cons.mp hc with rfl | hc
        · exact hd
        · exact ih false c hc
      · rw [if_neg hd] at hc
        cases inRun with
        | true => exact ih true c hc
        | false =>
            rcases List.mem_cons.mp hc with rfl | hc
            · rfl
            · exact ih true c hc

theorem subRuns_eq_self {s : Text} (h : ∀ c ∈ s, isSlugChar c = true) (inRun : Bool) :
    subRuns inRun s = s := by
  induction s generalizing inRun with
  | nil => rfl
  | cons d s ih =>
      have hcons := List.forall_mem_cons.mp h
      rw [subRuns, if_pos hcons.1, ih hcons.2]

theorem isspace_of_isSlugChar {c : Char} (h : isSlugChar c = true) : isspace c = false := by
  simp only [isSlugChar, Bool.or_eq_true, Bool.and_eq_true, decide_eq_true_eq, Char.le_def,
    UInt32.le_iff_toNat_le] at h
  have hval : c.toNat = c.val.toNat := rfl
  rcases h with (⟨hl, hh⟩ | ⟨hl, hh⟩) | rfl
  · have ha : 'a'.val.toNat = 97 := rfl
    have hz : 'z'.val.toNat = 122 := rfl
    exact Margins.isspace_of_ascii (by omega) (by omega)
  · have h0 : '0'.val.toNat = 48 := rfl
    have h9 : '9'.val.toNat = 57 := rfl
    exact Margins.isspace_of_ascii (by omega) (by omega)
  · rfl

/-- Nothing but the hyphens at its ends is removed from a text of a slug's
    characters. -/
theorem slugText_eq_strip (hlower : LowerFixesSlugs lower) {s : Text}
    (h : ∀ c ∈ s, isSlugChar c = true) : slugText lower s = s.strip '-' := by
  rw [slugText, Margins.trim_eq_self fun c hc => isspace_of_isSlugChar (h c hc), hlower s h,
    subRuns_eq_self h]

theorem slugText_bare (value : Text) : Margins.Bare (· = '-') (slugText lower value) :=
  Margins.trim_bare _

theorem slugifyApiField_slug (value : Text) :
    ∀ c ∈ slugifyApiField lower value, isSlugChar c = true := by
  intro c hc
  obtain ⟨-, l, r, -, -, hsplit⟩ :=
    (Margins.trim_eq_iff (t := slugText lower value)).mp rfl
  refine subRuns_slug (lower (trim isspace value)) false c ?_
  rw [hsplit]
  exact List.mem_append_right _ (List.mem_append_left _ (List.mem_of_mem_take hc))

theorem length_slugifyApiField (value : Text) :
    (slugifyApiField lower value).length ≤ apiFieldMaxLength :=
  List.length_take_le _ _

/-- The canonical form of a canonical form: the hyphens at its end are gone. -/
theorem slugifyApiField_twice (hlower : LowerFixesSlugs lower) (value : Text) :
    slugifyApiField lower (slugifyApiField lower value) =
      (slugifyApiField lower value).rstrip '-' := by
  have hhead : ∀ c ∈ (slugifyApiField lower value).head?, decide (c = '-') = false := by
    rw [slugifyApiField, List.head?_take, if_neg (by decide)]
    exact (slugText_bare value).head
  obtain ⟨r, -, hsplit⟩ :=
    Margins.exists_rdropWhile (p := (· = '-')) (slugifyApiField lower value)
  have hlen : ((slugifyApiField lower value).rstrip '-').length ≤ apiFieldMaxLength := by
    have hle := @length_slugifyApiField lower value
    rw [hsplit, List.length_append] at hle
    exact Nat.le_trans (Nat.le_add_right _ _) hle
  rw [slugifyApiField.eq_def lower (slugifyApiField lower value),
    slugText_eq_strip hlower (slugifyApiField_slug value), Text.strip,
    Margins.dropWhile_eq_self hhead, List.take_of_length_le hlen]

/-- A canonical form ends with a hyphen where the cut fell behind one. -/
theorem getLast?_slugifyApiField (value : Text) :
    (slugifyApiField lower value).getLast? = some '-' ↔ CutAtHyphen lower value := by
  by_cases hlen : apiFieldMaxLength < (slugText lower value).length
  · rw [CutAtHyphen, slugifyApiField, List.getLast?_take, if_neg (by decide)]
    have hsome : (slugText lower value)[apiFieldMaxLength - 1]? =
        some (slugText lower value)[apiFieldMaxLength - 1] := List.getElem?_eq_getElem _
    rw [hsome, Option.some_or]
    exact ⟨fun h => ⟨hlen, h⟩, fun h => h.2⟩
  · rw [slugifyApiField, List.take_of_length_le (Nat.le_of_not_lt hlen)]
    refine ⟨fun h => ?_, fun h => absurd h.1 hlen⟩
    exact absurd ((slugText_bare value).last '-' h) (by decide)

/-- A canonical form stays as it is unless the cut fell behind a hyphen. -/
theorem slugifyApiField_fixed_iff (hlower : LowerFixesSlugs lower) (value : Text) :
    slugifyApiField lower (slugifyApiField lower value) = slugifyApiField lower value ↔
      ¬ CutAtHyphen lower value := by
  rw [slugifyApiField_twice hlower, ← getLast?_slugifyApiField]
  constructor
  · intro h hlast
    rw [← h] at hlast
    exact absurd (Margins.getLast?_rdropWhile _ '-' hlast) (by decide)
  · intro h
    refine Margins.rdropWhile_eq_self fun c hc => decide_eq_false_iff_not.mpr ?_
    rintro rfl
    exact h hc

end SlugFacts

/-! ## Scopes -/

/-- A credential's stored scope, which an API that it may be used for matches. -/
structure CredentialScope where
  vendor : Text
  name : Option Text
  version : Option Text
  deriving DecidableEq

/-- An API's identity, as it is stored. -/
structure ApiIdentifier where
  vendor : Text
  name : Text
  version : Text

/-- `x or None`. -/
def orNone (s : Text) : Option Text := if s = [] then none else some s

section Coverage

variable (lower : Text → Text)

/-- `resolve_api_identifier`, of the fields that the specification has. -/
def resolveApiIdentifier (vendor name version : Text) : ApiIdentifier where
  vendor := slugifyApiField lower vendor
  name := slugifyApiField lower name
  version := trim isspace version

/-- `f(x) if x else ""`, and then `or None`. -/
def axis (f : Text → Text) (x : Option Text) : Option Text :=
  orNone (if x.getD [] = [] then [] else f (x.getD []))

/-- `canonical_credential_scope`. -/
def canonicalCredentialScope (vendor : Text) (name version : Option Text) : CredentialScope where
  vendor := slugifyApiField lower vendor
  name := axis (slugifyApiField lower) name
  version := axis (trim isspace) version

/-- `credential_covers`. -/
def credentialCovers (scope : CredentialScope) (api : ApiIdentifier) : Bool :=
  scope.vendor = slugifyApiField lower api.vendor &&
  (scope.name = none || scope.name = some (slugifyApiField lower api.name)) &&
  (scope.version = none || scope.version = some (trim isspace api.version))

/-- `credential_coverage_where`, on the columns of a credential. -/
def credentialCoverageWhere (c : CredentialScope) (api : ApiIdentifier) : Bool :=
  c.vendor = api.vendor && (c.name = none || c.name = some api.name) &&
  (c.version = none || c.version = some api.version)

/-- `CredentialRepository.list_by_vendor`: the rows that the resolver looks at. -/
def listedByVendor (c : CredentialScope) (api : ApiIdentifier) : Bool :=
  c.vendor = api.vendor || c.vendor = slugifyApiField lower api.vendor

/-- The resolver takes a credential for the API: it is listed, and its scope
    covers the API in canonical form. -/
def resolverAccepts (c : CredentialScope) (api : ApiIdentifier) : Bool :=
  listedByVendor lower c api &&
    credentialCovers lower (canonicalCredentialScope lower c.vendor c.name c.version) api

end Coverage

end Credentials

end JenticOne
