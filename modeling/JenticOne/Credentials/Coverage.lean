import JenticOne.Credentials.ApiIdentity

/-!
# Coverage as One Relation

A scope that is stored is in canonical form, and so is the identity of an
imported API, and the two ways to ask for coverage compare these forms as they
are or once more brought into canonical form. They give one answer as long as
no form changes by it, which is when no text was cut behind a hyphen. Where an
API's was, a scope written for the API as it is stored loses the hyphen that the
API keeps, and is one of the scopes that cover it by their canonical form but
not by their columns.

## Main definitions

* `wholeForm`: A canonical form without hyphens at its end.
* `Named`: The scope's texts name the API.
* `OneRelation`: The two answers are the same, and the scope is canonical.

## Theorems

* `where_iff`, `covers_iff`: The two ways to ask, on the texts.
* `canonical_fixed_iff`: A scope that is stored in canonical form.
* `oneRelation_iff`: The texts for which coverage is one relation.
-/

namespace JenticOne

namespace Credentials

open Margins (trim isspace)

variable {lower : Text → Text}

/-! ## Axes -/

theorem orNone_inj {s t : Text} (h : orNone s = orNone t) : s = t := by
  rw [orNone, orNone] at h
  by_cases hs : s = []
  · by_cases ht : t = []
    · rw [hs, ht]
    · rw [if_pos hs, if_neg ht] at h
      exact absurd h (by simp only [reduceCtorEq, not_false_eq_true])
  · by_cases ht : t = []
    · rw [if_neg hs, if_pos ht] at h
      exact absurd h (by simp only [reduceCtorEq, not_false_eq_true])
    · rw [if_neg hs, if_neg ht] at h
      exact Option.some.inj h

theorem getD_orNone (s : Text) : (orNone s).getD [] = s := by
  rw [orNone]
  by_cases hs : s = []
  · rw [if_pos hs, hs]
    rfl
  · rw [if_neg hs]
    rfl

/-- An axis covers a value that it leaves out or has. -/
theorem orNone_covers (s t : Text) :
    (orNone s = none || orNone s = some t) = true ↔ s = [] ∨ s = t := by
  rw [orNone, Bool.or_eq_true, decide_eq_true_eq, decide_eq_true_eq]
  by_cases hs : s = []
  · rw [if_pos hs]
    exact ⟨fun _ => .inl hs, fun _ => .inl rfl⟩
  · rw [if_neg hs, Option.some.injEq]
    refine or_congr ⟨fun h => ?_, fun h => absurd h hs⟩ Iff.rfl
    exact absurd h (by simp only [reduceCtorEq, not_false_eq_true])

theorem axis_eq {f : Text → Text} (hf : f [] = []) (x : Option Text) :
    axis f x = orNone (f (x.getD [])) := by
  rw [axis]
  by_cases hx : x.getD [] = []
  · rw [if_pos hx, hx, hf]
  · rw [if_neg hx]

theorem slugifyApiField_nil (hlower : LowerFixesSlugs lower) : slugifyApiField lower [] = [] := by
  rw [slugifyApiField, slugText_eq_strip hlower fun c hc => absurd hc List.not_mem_nil]
  rfl

/-! ## Stored scopes -/

section Stored

variable (lower)

/-- A canonical form without the hyphens at its end. -/
def wholeForm (value : Text) : Text := (slugifyApiField lower value).rstrip '-'

/-- The texts of the scope name the API: what of a text is canonical and whole is
    the same, or blank in the scope. -/
def Named (vendor : Text) (name version : Option Text) (apiVendor apiName apiVersion : Text) :
    Prop :=
  wholeForm lower vendor = wholeForm lower apiVendor ∧
    (wholeForm lower (name.getD []) = [] ∨
      wholeForm lower (name.getD []) = wholeForm lower apiName) ∧
    (trim isspace (version.getD []) = [] ∨
      trim isspace (version.getD []) = trim isspace apiVersion)

instance (vendor : Text) (name version : Option Text) (apiVendor apiName apiVersion : Text) :
    Decidable (Named lower vendor name version apiVendor apiName apiVersion) :=
  inferInstanceAs (Decidable (_ ∧ _ ∧ _))

/-- The columns of a stored scope, its canonical form and the resolver give one
    answer on an API, and the stored scope is its own canonical form. -/
structure OneRelation (stored : CredentialScope) (api : ApiIdentifier) : Prop where
  same : credentialCoverageWhere stored api = credentialCovers lower
    (canonicalCredentialScope lower stored.vendor stored.name stored.version) api
  resolved : credentialCoverageWhere stored api = resolverAccepts lower stored api
  fixed : canonicalCredentialScope lower stored.vendor stored.name stored.version = stored

end Stored

theorem canonical_eq (hlower : LowerFixesSlugs lower) (vendor : Text) (name version : Option Text) :
    canonicalCredentialScope lower vendor name version =
      { vendor := slugifyApiField lower vendor
        name := orNone (slugifyApiField lower (name.getD []))
        version := orNone (trim isspace (version.getD [])) } := by
  rw [canonicalCredentialScope, axis_eq (slugifyApiField_nil hlower), axis_eq rfl]

/-- A stored scope is its own canonical form unless a text of it was cut behind a
    hyphen. -/
theorem canonical_fixed_iff (hlower : LowerFixesSlugs lower) (vendor : Text)
    (name version : Option Text) {stored : CredentialScope}
    (hstored : stored = canonicalCredentialScope lower vendor name version) :
    canonicalCredentialScope lower stored.vendor stored.name stored.version = stored ↔
      ¬ CutAtHyphen lower vendor ∧ ¬ CutAtHyphen lower (name.getD []) := by
  rw [hstored, canonical_eq hlower vendor name version, canonical_eq hlower,
    CredentialScope.mk.injEq, getD_orNone, getD_orNone, Margins.trim_trim,
    ← slugifyApiField_fixed_iff hlower, ← slugifyApiField_fixed_iff hlower]
  exact ⟨fun h => ⟨h.1, orNone_inj h.2.1⟩, fun h => ⟨h.1, congrArg orNone h.2, rfl⟩⟩

/-- A form that was not cut behind a hyphen is whole. -/
theorem slugifyApiField_whole (hlower : LowerFixesSlugs lower) {value : Text}
    (h : ¬ CutAtHyphen lower value) : slugifyApiField lower value = wholeForm lower value := by
  rw [← (slugifyApiField_fixed_iff hlower value).mpr h, slugifyApiField_twice hlower]
  rfl

theorem where_iff (hlower : LowerFixesSlugs lower) (vendor : Text) (name version : Option Text)
    (apiVendor apiName apiVersion : Text) :
    credentialCoverageWhere (canonicalCredentialScope lower vendor name version)
        (resolveApiIdentifier lower apiVendor apiName apiVersion) = true ↔
      slugifyApiField lower vendor = slugifyApiField lower apiVendor ∧
        (slugifyApiField lower (name.getD []) = [] ∨
          slugifyApiField lower (name.getD []) = slugifyApiField lower apiName) ∧
        (trim isspace (version.getD []) = [] ∨
          trim isspace (version.getD []) = trim isspace apiVersion) := by
  rw [canonical_eq hlower, credentialCoverageWhere, resolveApiIdentifier, Bool.and_eq_true,
    Bool.and_eq_true, orNone_covers, orNone_covers, decide_eq_true_eq, and_assoc]

/-- A scope that is its own canonical form covers the APIs that it names. -/
theorem covers_iff (hlower : LowerFixesSlugs lower) {vendor : Text} {name : Option Text}
    (version : Option Text) (apiVendor apiName apiVersion : Text)
    (hv : ¬ CutAtHyphen lower vendor) (hn : ¬ CutAtHyphen lower (name.getD [])) :
    credentialCovers lower (canonicalCredentialScope lower vendor name version)
        (resolveApiIdentifier lower apiVendor apiName apiVersion) = true ↔
      Named lower vendor name version apiVendor apiName apiVersion := by
  rw [canonical_eq hlower, credentialCovers, resolveApiIdentifier, Bool.and_eq_true,
    Bool.and_eq_true, orNone_covers, orNone_covers, decide_eq_true_eq, and_assoc,
    slugifyApiField_twice hlower, slugifyApiField_twice hlower, Margins.trim_trim,
    slugifyApiField_whole hlower hv, slugifyApiField_whole hlower hn]
  exact Iff.rfl

/-- What is covered by its columns is named by the scope. -/
theorem named_of_where (hlower : LowerFixesSlugs lower) {vendor : Text} {name version : Option Text}
    {apiVendor apiName apiVersion : Text} (hn : ¬ CutAtHyphen lower (name.getD []))
    (h : slugifyApiField lower vendor = slugifyApiField lower apiVendor ∧
      (slugifyApiField lower (name.getD []) = [] ∨
        slugifyApiField lower (name.getD []) = slugifyApiField lower apiName) ∧
      (trim isspace (version.getD []) = [] ∨
        trim isspace (version.getD []) = trim isspace apiVersion)) :
    Named lower vendor name version apiVendor apiName apiVersion := by
  refine ⟨congrArg (Text.rstrip '-') h.1, ?_, h.2.2⟩
  rcases h.2.1 with hblank | hname
  · rw [← slugifyApiField_whole hlower hn]
    exact .inl hblank
  · exact .inr (congrArg (Text.rstrip '-') hname)

/-- The resolver lists every credential that is covered by its columns. -/
theorem where_eq_listed_and_where (c : CredentialScope) (api : ApiIdentifier) :
    credentialCoverageWhere c api =
      (listedByVendor lower c api && credentialCoverageWhere c api) := by
  rw [listedByVendor, credentialCoverageWhere]
  by_cases h : c.vendor = api.vendor
  · rw [decide_eq_true h, Bool.true_or, Bool.true_and, Bool.true_and]
  · rw [decide_eq_false h, Bool.false_and, Bool.false_and, Bool.and_false]

/-- Coverage is one relation exactly where no text of the scope was cut behind a
    hyphen, and no text of an API that it names either. -/
theorem oneRelation_iff (hlower : LowerFixesSlugs lower) (vendor : Text)
    (name version : Option Text) (apiVendor apiName apiVersion : Text) :
    OneRelation lower (canonicalCredentialScope lower vendor name version)
        (resolveApiIdentifier lower apiVendor apiName apiVersion) ↔
      ¬ CutAtHyphen lower vendor ∧ ¬ CutAtHyphen lower (name.getD []) ∧
        (Named lower vendor name version apiVendor apiName apiVersion →
          ¬ CutAtHyphen lower apiVendor ∧
            (wholeForm lower (name.getD []) ≠ [] → ¬ CutAtHyphen lower apiName)) := by
  constructor
  · intro h
    obtain ⟨hv, hn⟩ := (canonical_fixed_iff hlower vendor name version rfl).mp h.fixed
    refine ⟨hv, hn, fun hnamed => ?_⟩
    have hwhere := (covers_iff hlower version apiVendor apiName apiVersion hv hn).mpr hnamed
    rw [← h.fixed, ← h.same, where_iff hlower] at hwhere
    obtain ⟨hvendor, hname, -⟩ := hwhere
    refine ⟨?_, fun hne => ?_⟩
    · rw [← slugifyApiField_fixed_iff hlower, ← hvendor]
      exact (slugifyApiField_fixed_iff hlower vendor).mpr hv
    · rw [← slugifyApiField_whole hlower hn] at hne
      rw [← slugifyApiField_fixed_iff hlower, ← hname.resolve_left hne]
      exact (slugifyApiField_fixed_iff hlower _).mpr hn
  · rintro ⟨hv, hn, hapi⟩
    have hfixed := (canonical_fixed_iff hlower vendor name version rfl).mpr ⟨hv, hn⟩
    have hsame : credentialCoverageWhere (canonicalCredentialScope lower vendor name version)
          (resolveApiIdentifier lower apiVendor apiName apiVersion) = true ↔
        Named lower vendor name version apiVendor apiName apiVersion := by
      rw [where_iff hlower]
      constructor
      · exact named_of_where hlower hn
      · intro hnamed
        obtain ⟨hvendor, hname⟩ := hapi hnamed
        rw [slugifyApiField_whole hlower hv, slugifyApiField_whole hlower hn,
          slugifyApiField_whole hlower hvendor]
        refine ⟨hnamed.1, ?_, hnamed.2.2⟩
        by_cases hblank : wholeForm lower (name.getD []) = []
        · exact .inl hblank
        · rw [slugifyApiField_whole hlower (hname hblank)]
          exact .inr (hnamed.2.1.resolve_left hblank)
    have hcovers : credentialCoverageWhere (canonicalCredentialScope lower vendor name version)
          (resolveApiIdentifier lower apiVendor apiName apiVersion) =
        credentialCovers lower (canonicalCredentialScope lower vendor name version)
          (resolveApiIdentifier lower apiVendor apiName apiVersion) := by
      rw [Bool.eq_iff_iff, hsame, covers_iff hlower version apiVendor apiName apiVersion hv hn]
    refine ⟨hfixed.symm ▸ hcovers, ?_, hfixed⟩
    rw [resolverAccepts, hfixed, ← hcovers]
    exact where_eq_listed_and_where _ _

/-! ## Two texts -/

/-- Lower case on ASCII texts. -/
def asciiLower (s : Text) : Text := s.map Char.toLower

theorem not_isUpper_of_isSlugChar {c : Char} (h : isSlugChar c = true) : ¬ c.isUpper := by
  rw [Char.isUpper, decide_eq_true_eq]
  simp only [isSlugChar, Bool.or_eq_true, Bool.and_eq_true, decide_eq_true_eq, Char.le_def,
    UInt32.le_iff_toNat_le, ge_iff_le] at h ⊢
  have hZ : 'Z'.val.toNat = 90 := rfl
  have hA : 'A'.val.toNat = 65 := rfl
  rcases h with (⟨hl, -⟩ | ⟨-, hh⟩) | rfl
  · have ha : 'a'.val.toNat = 97 := rfl
    omega
  · have h9 : '9'.val.toNat = 57 := rfl
    omega
  · exact fun hmem => absurd hmem.1 (by decide)

theorem asciiLower_fixes : LowerFixesSlugs asciiLower := by
  intro s h
  have hc : ∀ c ∈ s, c.toLower = c := fun c hc =>
    Char.toLower_eq_of_not_isUpper (not_isUpper_of_isSlugChar (h c hc))
  rw [asciiLower, List.map_congr_left hc, List.map_id']

/-- A scope and an API that coverage is one relation for. -/
theorem oneRelation_stripe :
    OneRelation asciiLower
        (canonicalCredentialScope asciiLower ['S', 't', 'r', 'i', 'p', 'e'] none none)
        (resolveApiIdentifier asciiLower ['s', 't', 'r', 'i', 'p', 'e', ' '] ['A', '!'] ['1']) :=
  (oneRelation_iff asciiLower_fixes _ _ _ _ _ _).mpr (by decide +kernel)

/-- A vendor of ninety-nine letters, a blank and a letter. -/
def longVendor : Text := List.replicate 99 'a' ++ [' ', 'b']

/-- The scope written for the stored vendor is not the one that its columns are
    compared with. -/
theorem not_oneRelation : ¬ ∀ vendor name version apiVendor apiName apiVersion,
    OneRelation asciiLower (canonicalCredentialScope asciiLower vendor name version)
      (resolveApiIdentifier asciiLower apiVendor apiName apiVersion) := by
  intro h
  have hone := h (slugifyApiField asciiLower longVendor) none none longVendor ['a'] ['1']
  exact absurd hone.same (by decide +kernel)

end Credentials

end JenticOne
