import JenticOne.Updates.Semver

/-!
# Where the Backend and the CLI Agree

The two comparisons give the same answer on a text that both read alike, and
they read most texts alike. The CLI alone reads a field with a sign, and one
with more digits than `int` allows; the backend alone reads a field out of the
range of 64 bits, and a text whose white space has one of the separators U+001C
to U+001F. On too many digits the backend raises. `Alike` is what two texts have
to be for none of this to show in the answer.

## Main definitions

* `BackendOnly`, `CliOnly`: The releases that only one of them reads.
* `Alike`: No difference shows in the answer.

## Theorems

* `release_unique`: A text that both read is the same release to both.
* `release_iff_of_cli`, `release_iff_of_backend`: What the other does not read.
* `backendOnly_iff`, `cliOnly_iff`: The kinds are what only one of them reads.
* `isUpdateAvailable_eq_iff`: The answers are the same exactly on such texts.
-/

namespace JenticOne

namespace Updates

open Dotted (Digits Laid value)

variable {installed latest s : Text} {u v w : Nat × Nat × Nat} {fs : List Text}

/-! ## Readings of one text -/

theorem isspace_of_isSpace (c : Char) (h : Update.isSpace c = true) :
    Margins.isspace c = true := by
  simp only [Update.isSpace, Margins.isspace, Bool.or_eq_true, Bool.and_eq_true,
    decide_eq_true_eq] at h ⊢
  omega

theorem isspace_of_isDigit {c : Char} (h : c.isDigit = true) : Margins.isspace c = false := by
  rw [Char.isDigit_iff_toNat] at h
  have h0 : '0'.toNat = 48 := rfl
  have h9 : '9'.toNat = 57 := rfl
  exact Margins.isspace_of_ascii (by omega) (by omega)

/-- The fields that the CLI reads are the ones that the backend finds. -/
theorem laid_of_cli (hl : Laid Update.isSpace 'v' s fs)
    (hn : List.Forall₂ Update.Number fs [v.1, v.2.1, v.2.2]) :
    Laid Margins.isspace 'v' s fs := by
  refine Dotted.laid_mono isspace_of_isSpace hl rfl (fun f hf c hc => ?_) rfl
  obtain ⟨n, -, hnum⟩ := Lists.exists_of_forall₂ hn hf
  rcases Update.mem_of_number hnum hc with hd | rfl | rfl
  · exact isspace_of_isDigit hd
  · rfl
  · rfl

/-- A text has one layout. -/
theorem laid_unique {fs' : List Text} (hl : Laid Margins.isspace 'v' s fs)
    (hn : List.Forall₂ Update.Number fs [u.1, u.2.1, u.2.2])
    (hl' : Laid Margins.isspace 'v' s fs')
    (hn' : List.Forall₂ VersionCompare.Number fs' [v.1, v.2.1, v.2.2]) : fs = fs' := by
  have hfields : Dotted.fields Margins.isspace 'v' s = fs := by
    refine (Dotted.fields_eq_iff fun he => ?_).mpr ⟨hl, fun f hf => ?_⟩
    · rw [he] at hn
      exact absurd hn.length_eq (Nat.zero_ne_add_one 2)
    · obtain ⟨n, -, hnum⟩ := Lists.exists_of_forall₂ hn hf
      exact Update.not_dot_of_number hnum
  have hfields' : Dotted.fields Margins.isspace 'v' s = fs' := by
    refine (Dotted.fields_eq_iff fun he => ?_).mpr ⟨hl', fun f hf => ?_⟩
    · rw [he] at hn'
      exact absurd hn'.length_eq (Nat.zero_ne_add_one 2)
    · obtain ⟨n, -, hnum⟩ := Lists.exists_of_forall₂ hn' hf
      exact VersionCompare.not_mem_of_digits hnum.1 rfl
  exact hfields.symm.trans hfields'

/-- A field without a sign is the number of its digits to both. -/
theorem number_iff {f : Text} {n : Nat} (hd : Digits f) :
    Update.Number f n ↔ value f = n ∧ n < 2 ^ 63 := by
  constructor
  · rintro ⟨sign, digits, rfl, -, hv, hlt, hsign⟩
    have hfirst : ∀ c, sign = [c] → c.isDigit = true := by
      rintro c rfl
      exact List.all_eq_true.mp hd.2 c List.mem_cons_self
    rcases hsign with rfl | rfl | ⟨rfl, -⟩
    · exact ⟨hv, hlt⟩
    · exact absurd (hfirst '+' rfl) (by decide)
    · exact absurd (hfirst '-' rfl) (by decide)
  · rintro ⟨hv, hlt⟩
    exact ⟨[], f, rfl, hd, hv, hlt, .inl rfl⟩

/-- A text that both read is the same release to both. -/
theorem release_unique (hc : Update.Release s u) (hb : VersionCompare.Release s v) : u = v := by
  obtain ⟨fs, hl, hn⟩ := hc
  obtain ⟨fs', hl', hn'⟩ := hb
  obtain rfl := laid_unique (laid_of_cli hl hn) hn hl' hn'
  have hsame : ∀ (gs : List Text) (ms ns : List Nat), List.Forall₂ Update.Number gs ms →
      List.Forall₂ VersionCompare.Number gs ns → ms = ns := by
    intro gs
    induction gs with
    | nil =>
        intro ms ns hm hn
        rw [List.forall₂_nil_left_iff.mp hm, List.forall₂_nil_left_iff.mp hn]
    | cons g gs ih =>
        intro ms ns hm hn
        obtain ⟨m, ms, hg, hms, rfl⟩ := List.forall₂_cons_left_iff.mp hm
        obtain ⟨n, ns, hg', hns, rfl⟩ := List.forall₂_cons_left_iff.mp hn
        rw [ih ms ns hms hns, ← ((number_iff hg'.1).mp hg).1, hg'.2.2]
  have heq := hsame _ _ _ hn hn'
  rw [List.cons.injEq, List.cons.injEq, List.cons.injEq] at heq
  exact Prod.ext heq.1 (Prod.ext heq.2.1 heq.2.2.1)

/-- Of the releases of the CLI, the backend does not read a sign, nor more
    digits than the limit. -/
theorem release_iff_of_cli (hl : Laid Update.isSpace 'v' s fs)
    (hn : List.Forall₂ Update.Number fs [v.1, v.2.1, v.2.2]) :
    VersionCompare.Release s v ↔
      ∀ f ∈ fs, Digits f ∧ f.length ≤ VersionCompare.intMaxStrDigits := by
  constructor
  · rintro ⟨fs', hl', hn'⟩ f hf
    obtain rfl := laid_unique (laid_of_cli hl hn) hn hl' hn'
    obtain ⟨n, -, hnum⟩ := Lists.exists_of_forall₂ hn' hf
    exact ⟨hnum.1, hnum.2.1⟩
  · intro h
    refine ⟨fs, laid_of_cli hl hn, (List.forall₂_iff_get.mpr ⟨hn.length_eq, ?_⟩)⟩
    intro i hi hi'
    have hd := h _ (List.get_mem fs ⟨i, hi⟩)
    have hnum := (List.forall₂_iff_get.mp hn).2 i hi hi'
    exact ⟨hd.1, hd.2, ((number_iff hd.1).mp hnum).1⟩

/-- Of the releases of the backend, the CLI does not read a separator in the
    margins, nor a number out of its range. -/
theorem release_iff_of_backend (hl : Laid Margins.isspace 'v' s fs)
    (hn : List.Forall₂ VersionCompare.Number fs [v.1, v.2.1, v.2.2]) :
    Update.Release s v ↔ Laid Update.isSpace 'v' s fs ∧ ∀ f ∈ fs, value f < 2 ^ 63 := by
  constructor
  · rintro ⟨fs', hl', hn'⟩
    obtain rfl := laid_unique (laid_of_cli hl' hn') hn' hl hn
    refine ⟨hl', fun f hf => ?_⟩
    obtain ⟨i, hi, rfl⟩ := List.getElem_of_mem hf
    have hi' : i < [v.1, v.2.1, v.2.2].length := hn.length_eq ▸ hi
    have hd := (List.forall₂_iff_get.mp hn).2 i hi hi'
    have hnum := (number_iff hd.1).mp ((List.forall₂_iff_get.mp hn').2 i hi hi')
    exact hnum.1 ▸ hnum.2
  · rintro ⟨hl', h⟩
    refine ⟨fs, hl', List.forall₂_iff_get.mpr ⟨hn.length_eq, fun i hi hi' => ?_⟩⟩
    have hd := (List.forall₂_iff_get.mp hn).2 i hi hi'
    exact (number_iff hd.1).mpr ⟨hd.2.2, hd.2.2 ▸ h _ (List.get_mem fs ⟨i, hi⟩)⟩

/-! ## The answers -/

/-- A release with a separator in its margins, or with a number out of the range
    of 64 bits. -/
def BackendOnly (s : Text) (v : Nat × Nat × Nat) : Prop :=
  ∃ fs, Laid Margins.isspace 'v' s fs ∧
    List.Forall₂ VersionCompare.Number fs [v.1, v.2.1, v.2.2] ∧
    (¬ Laid Update.isSpace 'v' s fs ∨ ∃ f ∈ fs, 2 ^ 63 ≤ value f)

/-- A release with a sign, or with more digits than the limit. -/
def CliOnly (s : Text) (v : Nat × Nat × Nat) : Prop :=
  ∃ fs, Laid Update.isSpace 'v' s fs ∧ List.Forall₂ Update.Number fs [v.1, v.2.1, v.2.2] ∧
    ∃ f ∈ fs, ¬ Digits f ∨ VersionCompare.intMaxStrDigits < f.length

/-- Only the backend reads such a release. -/
theorem backendOnly_iff :
    BackendOnly s v ↔ VersionCompare.Release s v ∧ ∀ u, ¬ Update.Release s u := by
  constructor
  · rintro ⟨fs, hl, hn, hkind⟩
    refine ⟨⟨fs, hl, hn⟩, fun u hu => ?_⟩
    obtain rfl := release_unique hu ⟨fs, hl, hn⟩
    obtain ⟨hl', hlt⟩ := (release_iff_of_backend hl hn).mp hu
    rcases hkind with hkind | ⟨f, hf, hle⟩
    · exact hkind hl'
    · exact absurd (hlt f hf) (Nat.not_lt.mpr hle)
  · rintro ⟨⟨fs, hl, hn⟩, hnone⟩
    refine ⟨fs, hl, hn, ?_⟩
    by_contra hkind
    obtain ⟨hl', hlt⟩ := not_or.mp hkind
    refine hnone v ((release_iff_of_backend hl hn).mpr ⟨not_not.mp hl', fun f hf => ?_⟩)
    exact Nat.lt_of_not_le fun hle => hlt ⟨f, hf, hle⟩

/-- Only the CLI reads such a release. -/
theorem cliOnly_iff : CliOnly s v ↔ Update.Release s v ∧ ∀ u, ¬ VersionCompare.Release s u := by
  constructor
  · rintro ⟨fs, hl, hn, f, hf, hkind⟩
    refine ⟨⟨fs, hl, hn⟩, fun u hu => ?_⟩
    obtain rfl := release_unique ⟨fs, hl, hn⟩ hu
    obtain ⟨hd, hle⟩ := (release_iff_of_cli hl hn).mp hu f hf
    rcases hkind with hkind | hlt
    · exact hkind hd
    · exact absurd hle (Nat.not_le.mpr hlt)
  · rintro ⟨⟨fs, hl, hn⟩, hnone⟩
    refine ⟨fs, hl, hn, ?_⟩
    by_contra hkind
    refine hnone v ((release_iff_of_cli hl hn).mpr fun f hf => ⟨?_, ?_⟩)
    · by_contra hd
      exact hkind ⟨f, hf, .inl hd⟩
    · exact Nat.le_of_not_lt fun hlt => hkind ⟨f, hf, .inr hlt⟩

/-- No difference in what is read shows in the answer. -/
structure Alike (installed latest : Text) : Prop where
  latest_fits : ¬ VersionCompare.Raises latest
  installed_fits : ∀ v, VersionCompare.Release latest v → ¬ VersionCompare.Raises installed
  -- a release that one of them misses must not be newer to the other
  latest_backend : ∀ v, BackendOnly latest v →
    ∃ w, VersionCompare.Release installed w ∧ VersionCompare.gt v w = false
  latest_cli : ∀ v, CliOnly latest v →
    ∃ w, Update.Release installed w ∧ VersionCompare.gt v w = false
  -- what one of them takes for a source build must be older to the other
  installed_backend : ∀ v w, VersionCompare.Release latest v → Update.Release latest v →
    BackendOnly installed w → VersionCompare.gt v w = true
  installed_cli : ∀ v w, VersionCompare.Release latest v → Update.Release latest v →
    CliOnly installed w → VersionCompare.gt v w = true

section Backend

theorem isUpdateAvailable_of_release (h : VersionCompare.Release latest v)
    (hw : VersionCompare.Release installed w) :
    VersionCompare.isUpdateAvailable installed (some latest) = .ok (VersionCompare.gt v w) := by
  rw [VersionCompare.isUpdateAvailable, VersionCompare.parseSemver_eq_ok.mpr h,
    VersionCompare.parseSemver_eq_ok.mpr hw]
  rfl

theorem isUpdateAvailable_of_source (h : VersionCompare.Release latest v)
    (hr : ¬ VersionCompare.Raises installed) (hw : ∀ w, ¬ VersionCompare.Release installed w) :
    VersionCompare.isUpdateAvailable installed (some latest) = .ok true := by
  rw [VersionCompare.isUpdateAvailable, VersionCompare.parseSemver_eq_ok.mpr h,
    VersionCompare.parseSemver_eq_none hr hw]
  rfl

theorem isUpdateAvailable_of_none (hr : ¬ VersionCompare.Raises latest)
    (h : ∀ v, ¬ VersionCompare.Release latest v) :
    VersionCompare.isUpdateAvailable installed (some latest) = .ok false := by
  rw [VersionCompare.isUpdateAvailable, VersionCompare.parseSemver_eq_none hr h]
  rfl

/-- An answer is given only if neither text raises. -/
theorem not_raises_of_ok {b : Bool}
    (h : VersionCompare.isUpdateAvailable installed (some latest) = .ok b) :
    ¬ VersionCompare.Raises latest ∧
      ∀ v, VersionCompare.Release latest v → ¬ VersionCompare.Raises installed := by
  rw [VersionCompare.isUpdateAvailable] at h
  obtain ⟨r, hr, h⟩ := Lists.bind_eq_ok_iff.mp h
  refine ⟨fun hraises => ?_, fun v hv hraises => ?_⟩
  · rw [(VersionCompare.parseSemver_eq_error (e := .digitLimit)).mpr hraises] at hr
    exact absurd hr (by simp only [reduceCtorEq, not_false_eq_true])
  · rw [VersionCompare.parseSemver_eq_ok.mpr hv] at hr
    rw [← Except.ok.inj hr] at h
    obtain ⟨r', hr', -⟩ := Lists.bind_eq_ok_iff.mp h
    rw [(VersionCompare.parseSemver_eq_error (e := .digitLimit)).mpr hraises] at hr'
    exact absurd hr' (by simp only [reduceCtorEq, not_false_eq_true])

end Backend

section Cli

theorem newerAvailable_of_release (h : Update.Release latest v)
    (hw : Update.Release installed w) :
    Update.newerAvailable installed latest = VersionCompare.gt v w := by
  rw [Update.newerAvailable, Update.parseSemver_eq_iff.mpr ⟨v, rfl, h⟩,
    Update.parseSemver_eq_iff.mpr ⟨w, rfl, hw⟩, Bool.eq_iff_iff, decide_eq_true_eq]
  exact Update.compareSemver_pos_iff v w

theorem newerAvailable_of_source (h : Update.Release latest v)
    (hw : ∀ w, ¬ Update.Release installed w) : Update.newerAvailable installed latest = true := by
  rw [Update.newerAvailable, Update.parseSemver_eq_iff.mpr ⟨v, rfl, h⟩,
    Update.parseSemver_eq_none hw]

theorem newerAvailable_of_none (h : ∀ v, ¬ Update.Release latest v) :
    Update.newerAvailable installed latest = false := by
  rw [Update.newerAvailable, Update.parseSemver_eq_none h]

end Cli

/-- The backend and the CLI give the same answer exactly on texts that no
    difference between them shows on. -/
theorem isUpdateAvailable_eq_iff (installed latest : Text) :
    VersionCompare.isUpdateAvailable installed (some latest) =
        .ok (Update.newerAvailable installed latest) ↔
      Alike installed latest := by
  constructor
  · intro h
    obtain ⟨hlatest, hinstalled⟩ := not_raises_of_ok h
    refine ⟨hlatest, hinstalled, fun v hv => ?_, fun v hv => ?_, fun v w hb hc hw => ?_,
      fun v w hb hc hw => ?_⟩
    · rw [backendOnly_iff] at hv
      rw [newerAvailable_of_none hv.2] at h
      by_cases hi : ∃ w, VersionCompare.Release installed w
      · obtain ⟨w, hw⟩ := hi
        rw [isUpdateAvailable_of_release hv.1 hw] at h
        exact ⟨w, hw, Except.ok.inj h⟩
      · rw [isUpdateAvailable_of_source hv.1 (hinstalled v hv.1) (not_exists.mp hi)] at h
        exact absurd (Except.ok.inj h) Bool.noConfusion
    · rw [cliOnly_iff] at hv
      rw [isUpdateAvailable_of_none hlatest hv.2] at h
      by_cases hi : ∃ w, Update.Release installed w
      · obtain ⟨w, hw⟩ := hi
        rw [newerAvailable_of_release hv.1 hw] at h
        exact ⟨w, hw, (Except.ok.inj h).symm⟩
      · rw [newerAvailable_of_source hv.1 (not_exists.mp hi)] at h
        exact absurd (Except.ok.inj h) Bool.noConfusion
    · rw [backendOnly_iff] at hw
      rw [isUpdateAvailable_of_release hb hw.1, newerAvailable_of_source hc hw.2] at h
      exact Except.ok.inj h
    · rw [cliOnly_iff] at hw
      rw [isUpdateAvailable_of_source hb (hinstalled v hb) hw.2,
        newerAvailable_of_release hc hw.1] at h
      exact (Except.ok.inj h).symm
  · intro h
    by_cases hb : ∃ v, VersionCompare.Release latest v
    · obtain ⟨v, hb⟩ := hb
      have hfits := h.installed_fits v hb
      by_cases hc : ∃ u, Update.Release latest u
      · -- both read the latest release: it depends on the installed one
        obtain ⟨u, hc⟩ := hc
        obtain rfl := release_unique hc hb
        by_cases hib : ∃ w, VersionCompare.Release installed w
        · obtain ⟨w, hib⟩ := hib
          rw [isUpdateAvailable_of_release hb hib]
          by_cases hic : ∃ w', Update.Release installed w'
          · obtain ⟨w', hic⟩ := hic
            obtain rfl := release_unique hic hib
            rw [newerAvailable_of_release hc hic]
          · rw [newerAvailable_of_source hc (not_exists.mp hic),
              h.installed_backend u w hb hc (backendOnly_iff.mpr ⟨hib, not_exists.mp hic⟩)]
        · rw [isUpdateAvailable_of_source hb hfits (not_exists.mp hib)]
          by_cases hic : ∃ w', Update.Release installed w'
          · obtain ⟨w', hic⟩ := hic
            rw [newerAvailable_of_release hc hic,
              h.installed_cli u w' hb hc (cliOnly_iff.mpr ⟨hic, not_exists.mp hib⟩)]
          · rw [newerAvailable_of_source hc (not_exists.mp hic)]
      · obtain ⟨w, hw, hgt⟩ := h.latest_backend v (backendOnly_iff.mpr ⟨hb, not_exists.mp hc⟩)
        rw [isUpdateAvailable_of_release hb hw, hgt, newerAvailable_of_none (not_exists.mp hc)]
    · rw [isUpdateAvailable_of_none h.latest_fits (not_exists.mp hb)]
      by_cases hc : ∃ u, Update.Release latest u
      · obtain ⟨u, hc⟩ := hc
        obtain ⟨w, hw, hgt⟩ := h.latest_cli u (cliOnly_iff.mpr ⟨hc, not_exists.mp hb⟩)
        rw [newerAvailable_of_release hc hw, hgt]
      · rw [newerAvailable_of_none (not_exists.mp hc)]

/-- The CLI offers the release `+2.0.0` for `1.0.0`, and the backend reads no
    release in it. -/
theorem not_same_answer : ¬ ∀ installed latest : Text,
    VersionCompare.isUpdateAvailable installed (some latest) =
      .ok (Update.newerAvailable installed latest) := by
  intro h
  exact absurd (h ['1', '.', '0', '.', '0'] ['+', '2', '.', '0', '.', '0']) (by decide +kernel)

end Updates

end JenticOne
