import JenticOne.Registry.Quote

/-!
# Two Readings of a Path

An upstream may keep the separators of a path encoded, as the rules do, or
decode them before it resolves dot segments. `hasAmbiguousTraversal` is the test
that refuses a path whose dot segments the two would see differently.

Of a path that passes it, both make the same segments: the ones that are left
when the dot segments that are literally in it are carried out. Either there is
no separator besides the slash, and every dot segment is a literal one, or there
is no dot segment at all. What is left of the two readings is a question of the
characters: a percent sign that begins no escape may get the digits of a kept one
from escapes, and a path that does not begin at the root may begin with a
separator in the second reading only.

## Main definitions

* `splitSeparators`, `hasAmbiguousTraversal`: The test.
* `liberal`: The second reading.
* `Respelt`: A percent sign gets digits from escapes.

## Theorems

* `literal_dots`: The dot segments of a path that passes.
* `resolveDotSegments_map`: A decoder that keeps the dot segments.
* `readings_agree`: The two readings compared.
-/

namespace JenticOne

namespace Registry

/-! ## The test -/

/-- The digits of an encoded slash or backslash. -/
def separatorDigits (a b : Char) : Bool :=
  a = '2' && (b = 'F' || b = 'f') || a = '5' && (b = 'C' || b = 'c')

/-- There is a separator besides the slash. -/
def hasAmbiguousSeparator : Text → Bool
  | '%' :: a :: b :: cs => separatorDigits a b || hasAmbiguousSeparator (a :: b :: cs)
  | c :: cs => c = '\\' || hasAmbiguousSeparator cs
  | [] => false

/-- The segments between slashes, backslashes and encoded ones. -/
def splitSeparators : Text → List Text
  | '%' :: a :: b :: cs =>
      if separatorDigits a b then [] :: splitSeparators cs
      else (splitSeparators (a :: b :: cs)).modifyHead ('%' :: ·)
  | c :: cs =>
      if c = '/' ∨ c = '\\' then [] :: splitSeparators cs
      else (splitSeparators cs).modifyHead (c :: ·)
  | [] => [[]]

def isDots (s : Text) : Bool := s = ['.'] || s = ['.', '.']

/-- A dot segment is spelled with escapes, or stands between separators that are
not slashes. -/
def hasAmbiguousTraversal (path : Text) : Bool :=
  if '%' ∉ path ∧ '\\' ∉ path then false
  else
    (splitSeparators path).any fun segment =>
      isDots (unquote segment) && (hasAmbiguousSeparator path || segment ≠ unquote segment)

/-- Every backslash becomes a slash. -/
def forwardSlashes (s : Text) : Text := s.map fun c => if c = '\\' then '/' else c

/-- The path decoded once, separators and percent signs included, with backslashes
read as slashes before the dot segments are resolved. -/
def liberal (path : Text) : Text := rooted (resolveDotSegments (forwardSlashes (decodeAll path)))

/-- The text begins with the digits of a kept escape. -/
def keptDigits : Text → Bool
  | a :: b :: _ =>
      match hexValue a, hexValue b with
      | some high, some low => 16 * high + low ∈ keptEncoded
      | _, _ => false
  | _ => false

/-- A percent sign that begins no escape is followed by characters that are
decoded to the digits of a kept one. -/
def respelt : Text → Bool
  | '%' :: a :: b :: cs =>
      match hexValue a, hexValue b with
      | some _, some _ => respelt cs
      | _, _ => keptDigits (decodeOnce (a :: b :: cs)) || respelt (a :: b :: cs)
  | _ :: cs => respelt cs
  | [] => false

/-- The path begins at the root, or with no separator of another spelling, or has
nothing but separators. -/
def Rooted (path : Text) : Prop :=
  path.head? = some '/' ∨ (splitSeparators path).head? ≠ some [] ∨
    ∀ segment ∈ splitSeparators path, segment = []

/-! ## Separators -/

theorem hexValue_inverse : ∀ k < 128,
    (hexValue (Char.ofNat k) = some 2 ↔ Char.ofNat k = '2') ∧
    (hexValue (Char.ofNat k) = some 5 ↔ Char.ofNat k = '5') ∧
    (hexValue (Char.ofNat k) = some 12 ↔ Char.ofNat k = 'C' ∨ Char.ofNat k = 'c') ∧
    (hexValue (Char.ofNat k) = some 15 ↔ Char.ofNat k = 'F' ∨ Char.ofNat k = 'f') := by
  decide

/-- The digits of a separator are those of its code. -/
theorem separatorDigits_iff {a b : Char} {high low : Nat} (ha : hexValue a = some high)
    (hb : hexValue b = some low) :
    separatorDigits a b = true ↔ Char.ofNat (16 * high + low) = '/' ∨
      Char.ofNat (16 * high + low) = '\\' := by
  have hhigh := (hexValue_toUpper ha).1
  have hlow := (hexValue_toUpper hb).1
  have hrow := hexValue_inverse a.toNat (ascii_of_hexValue ha)
  have hrow' := hexValue_inverse b.toNat (ascii_of_hexValue hb)
  rw [Char.ofNat_toNat, ha] at hrow
  rw [Char.ofNat_toNat, hb] at hrow'
  simp only [Option.some.injEq] at hrow hrow'
  have hcode : ∀ c : Char, Char.ofNat (16 * high + low) = c ↔ 16 * high + low = c.toNat := by
    intro c
    constructor
    · intro h
      rw [← h, Text.toNat_charOfNat (by omega)]
    · intro h
      rw [h, Char.ofNat_toNat]
  have hslash : '/'.toNat = 47 := rfl
  have hback : '\\'.toNat = 92 := rfl
  rw [hcode, hcode, hslash, hback, separatorDigits]
  simp only [Bool.or_eq_true, Bool.and_eq_true, decide_eq_true_eq]
  rw [← hrow.1, ← hrow.2.1, ← hrow'.2.2.1, ← hrow'.2.2.2]
  omega

/-- The digits of a separator make an escape. -/
theorem hexValue_of_separatorDigits {a b : Char} (h : separatorDigits a b = true) :
    (∃ high, hexValue a = some high) ∧ ∃ low, hexValue b = some low := by
  simp only [separatorDigits, Bool.or_eq_true, Bool.and_eq_true, decide_eq_true_eq] at h
  rcases h with ⟨ha, hb | hb⟩ | ⟨ha, hb | hb⟩ <;> rw [ha, hb] <;> exact ⟨⟨_, rfl⟩, ⟨_, rfl⟩⟩

section Scan

variable {a b c : Char} {high low : Nat} {cs : Text}

theorem splitSeparators_escape (ha : hexValue a = some high) (hb : hexValue b = some low) :
    splitSeparators ('%' :: a :: b :: cs) =
      if separatorDigits a b then [] :: splitSeparators cs
      else (splitSeparators cs).modifyHead (['%', a, b] ++ ·) := by
  have hsplit : ∀ {d : Char} {n : Nat} {ds : Text}, hexValue d = some n →
      splitSeparators (d :: ds) = (splitSeparators ds).modifyHead (d :: ·) := by
    intro d n ds hd
    rw [splitSeparators]
    · refine if_neg ?_
      rintro (he | he)
      · exact slash_ne_of_hexValue hd he
      · have hnone : hexValue '\\' = none := by decide
        rw [he, hnone] at hd
        exact absurd hd (by simp only [reduceCtorEq, not_false_eq_true])
    · exact fun x y zs he => absurd he (ne_percent_of_hexValue hd)
  rw [splitSeparators, hsplit ha, hsplit hb, List.modifyHead_modifyHead,
    List.modifyHead_modifyHead]
  rfl

theorem splitSeparators_char (h : Bare c cs) :
    splitSeparators (c :: cs) =
      if c = '/' ∨ c = '\\' then [] :: splitSeparators cs
      else (splitSeparators cs).modifyHead (c :: ·) := by
  by_cases hc : c = '%'
  · rw [hc, if_neg (by decide)]
    match cs with
    | [] => rfl
    | [x] => rfl
    | x :: y :: rest =>
        rw [splitSeparators, if_neg]
        intro hdigits
        have hhex := hexValue_of_separatorDigits hdigits
        rcases hhex with ⟨⟨m, hm⟩, ⟨n, hn⟩⟩
        exact h hc ⟨x, y, rest, rfl, by rw [hm]; rfl, by rw [hn]; rfl⟩
  · rw [splitSeparators]
    exact fun x y zs he => absurd he hc

theorem hasAmbiguousSeparator_escape (ha : hexValue a = some high) (hb : hexValue b = some low) :
    hasAmbiguousSeparator ('%' :: a :: b :: cs) =
      (separatorDigits a b || hasAmbiguousSeparator cs) := by
  have hdigit : ∀ {d : Char} {n : Nat} {ds : Text}, hexValue d = some n →
      hasAmbiguousSeparator (d :: ds) = hasAmbiguousSeparator ds := by
    intro d n ds hd
    have hne : d ≠ '\\' := by
      intro he
      have hnone : hexValue '\\' = none := by decide
      rw [he, hnone] at hd
      exact absurd hd (by simp only [reduceCtorEq, not_false_eq_true])
    rw [hasAmbiguousSeparator]
    · rw [decide_eq_false hne, Bool.false_or]
    · exact fun x y zs he => absurd he (ne_percent_of_hexValue hd)
  rw [hasAmbiguousSeparator, hdigit ha, hdigit hb]

theorem hasAmbiguousSeparator_char (h : Bare c cs) :
    hasAmbiguousSeparator (c :: cs) = (decide (c = '\\') || hasAmbiguousSeparator cs) := by
  by_cases hc : c = '%'
  · rw [hc]
    match cs with
    | [] => rfl
    | [x] => rfl
    | x :: y :: rest =>
        rw [hasAmbiguousSeparator]
        have hdigits : separatorDigits x y = false := by
          rw [Bool.eq_false_iff]
          intro hdigits
          rcases hexValue_of_separatorDigits hdigits with ⟨⟨m, hm⟩, ⟨n, hn⟩⟩
          exact h hc ⟨x, y, rest, rfl, by rw [hm]; rfl, by rw [hn]; rfl⟩
        rw [hdigits]
        rfl
  · rw [hasAmbiguousSeparator]
    exact fun x y zs he => absurd he hc

end Scan

theorem splitSeparators_ne_nil (s : Text) : splitSeparators s ≠ [] := by
  induction s using escape_induction with
  | nil => exact List.cons_ne_nil _ _
  | escape a b high low cs ha hb ih =>
      rw [splitSeparators_escape ha hb]
      split
      · exact List.cons_ne_nil _ _
      · rw [ne_eq, List.modifyHead_eq_nil_iff]
        exact ih
  | char c cs hbare ih =>
      rw [splitSeparators_char hbare]
      split
      · exact List.cons_ne_nil _ _
      · rw [ne_eq, List.modifyHead_eq_nil_iff]
        exact ih

/-- The first segment begins the text. -/
theorem prefix_of_splitSeparators {s first : Text} {rest : List Text}
    (h : splitSeparators s = first :: rest) : first <+: s := by
  induction s using escape_induction generalizing first rest with
  | nil =>
      rw [splitSeparators, List.cons.injEq] at h
      rw [← h.1]
  | escape a b high low cs ha hb ih =>
      rw [splitSeparators_escape ha hb] at h
      split at h
      · rw [List.cons.injEq] at h
        rw [← h.1]
        exact List.nil_prefix
      · cases hs : splitSeparators cs with
        | nil => exact absurd hs (splitSeparators_ne_nil cs)
        | cons first' rest' =>
            rw [hs, List.modifyHead_cons, List.cons.injEq] at h
            rw [← h.1]
            exact List.prefix_append_right_inj ['%', a, b] |>.mpr (ih hs)
  | char c cs hbare ih =>
      rw [splitSeparators_char hbare] at h
      split at h
      · rw [List.cons.injEq] at h
        rw [← h.1]
        exact List.nil_prefix
      · cases hs : splitSeparators cs with
        | nil => exact absurd hs (splitSeparators_ne_nil cs)
        | cons first' rest' =>
            rw [hs, List.modifyHead_cons, List.cons.injEq] at h
            rw [← h.1]
            exact List.prefix_append_right_inj [c] |>.mpr (ih hs)

theorem bare_of_prefix {c : Char} {cs first : Text} (h : Bare c cs) (hp : first <+: cs) :
    Bare c first := by
  rintro hc ⟨a, b, rest, he, ha, hb⟩
  rcases hp with ⟨more, hmore⟩
  exact h hc ⟨a, b, rest ++ more, by rw [← hmore, he]; rfl, ha, hb⟩

/-- The segments of the second reading are the decoded segments between
separators of any spelling. -/
theorem splitOn_forwardSlashes (s : Text) :
    (forwardSlashes (decodeAll s)).splitOn '/' = (splitSeparators s).map decodeAll := by
  rw [decodeAll]
  induction s using escape_induction with
  | nil => rfl
  | escape a b high low cs ha hb ih =>
      rw [decodeBy_escape _ ha hb, splitSeparators_escape ha hb, forwardSlashes, List.map_append,
        List.map_singleton, List.singleton_append, ← forwardSlashes]
      have hdigits := separatorDigits_iff ha hb
      by_cases hsep : separatorDigits a b = true
      · have hslash : (if Char.ofNat (16 * high + low) = '\\' then '/'
            else Char.ofNat (16 * high + low)) = '/' := by
          rcases hdigits.mp hsep with h | h
          · rw [h]
            rfl
          · rw [h]
            rfl
        rw [if_pos hsep, hslash, Segments.splitOn_cons_sep, ih, List.map_cons]
        rfl
      · have hne := mt hdigits.mpr hsep
        rw [not_or] at hne
        rw [if_neg hsep, if_neg hne.2, List.splitOn_cons_eq_if_modifyHead,
          if_neg (fun he => hne.1 (beq_iff_eq.mp he)), ih]
        cases hs : splitSeparators cs with
        | nil => exact absurd hs (splitSeparators_ne_nil cs)
        | cons first rest =>
            rw [List.modifyHead_cons, List.map_cons, List.map_cons, List.modifyHead_cons]
            exact congrArg (· :: _) (decodeBy_escape (fun _ _ n => [Char.ofNat n]) ha hb first).symm
  | char c cs hbare ih =>
      rw [decodeBy_char _ hbare, splitSeparators_char hbare, forwardSlashes, List.map_cons,
        ← forwardSlashes]
      by_cases hsep : c = '/' ∨ c = '\\'
      · have hslash : (if c = '\\' then '/' else c) = '/' := by
          rcases hsep with h | h
          · rw [h]
            rfl
          · rw [h]
            rfl
        rw [if_pos hsep, hslash, Segments.splitOn_cons_sep, ih, List.map_cons]
        rfl
      · have hne := not_or.mp hsep
        rw [if_neg hsep, if_neg hne.2, List.splitOn_cons_eq_if_modifyHead,
          if_neg (fun he => hne.1 (beq_iff_eq.mp he)), ih]
        cases hs : splitSeparators cs with
        | nil => exact absurd hs (splitSeparators_ne_nil cs)
        | cons first rest =>
            have hfirst := bare_of_prefix hbare (prefix_of_splitSeparators hs)
            rw [List.modifyHead_cons, List.map_cons, List.map_cons, List.modifyHead_cons]
            exact congrArg (· :: _) (decodeBy_char _ hfirst).symm

/-- A text without any separator is one segment. -/
theorem splitSeparators_of_free {s : Text} (h : hasAmbiguousSeparator s = false)
    (hslash : '/' ∉ s) : splitSeparators s = [s] := by
  induction s using escape_induction with
  | nil => rfl
  | escape a b high low cs ha hb ih =>
      rw [hasAmbiguousSeparator_escape ha hb, Bool.or_eq_false_iff] at h
      rw [splitSeparators_escape ha hb, h.1, if_neg Bool.false_ne_true, ih h.2 fun hm => hslash (by
        rw [List.mem_cons, List.mem_cons, List.mem_cons]
        exact .inr (.inr (.inr hm)))]
      rfl
  | char c cs hbare ih =>
      rw [hasAmbiguousSeparator_char hbare, Bool.or_eq_false_iff, decide_eq_false_iff_not] at h
      have hc : ¬ (c = '/' ∨ c = '\\') :=
        not_or.mpr ⟨fun he => hslash (he ▸ List.mem_cons_self), h.1⟩
      rw [splitSeparators_char hbare, if_neg hc,
        ih h.2 fun hm => hslash (List.mem_cons_of_mem _ hm)]
      rfl

/-- A separator that is not a slash is a slash or a backslash once decoded. -/
theorem separator_of_ambiguous {s : Text} (h : hasAmbiguousSeparator s = true) :
    ∃ c ∈ decodeAll s, c = '/' ∨ c = '\\' := by
  rw [decodeAll]
  induction s using escape_induction with
  | nil => exact absurd h Bool.false_ne_true
  | escape a b high low cs ha hb ih =>
      rw [hasAmbiguousSeparator_escape ha hb, Bool.or_eq_true] at h
      rw [decodeBy_escape _ ha hb]
      rcases h with h | h
      · exact ⟨_, List.mem_append_left _ (List.mem_singleton.mpr rfl),
          (separatorDigits_iff ha hb).mp h⟩
      · rcases ih h with ⟨c, hc, hsep⟩
        exact ⟨c, List.mem_append_right _ hc, hsep⟩
  | char c cs hbare ih =>
      rw [hasAmbiguousSeparator_char hbare, Bool.or_eq_true, decide_eq_true_eq] at h
      rw [decodeBy_char _ hbare]
      rcases h with h | h
      · exact ⟨c, List.mem_cons_self, .inr h⟩
      · rcases ih h with ⟨d, hd, hsep⟩
        exact ⟨d, List.mem_cons_of_mem _ hd, hsep⟩

theorem bare_append {c : Char} {cs : Text} (h : Bare c cs) (b : Text) :
    Bare c (cs ++ '/' :: b) :=
  fun hc => not_hexPair_append (by decide) (h hc)

theorem splitSeparators_append (a b : Text) :
    splitSeparators (a ++ '/' :: b) = splitSeparators a ++ splitSeparators b := by
  have happend : ∀ {f : Text → Text} {xs ys : List Text}, xs ≠ [] →
      (xs ++ ys).modifyHead f = xs.modifyHead f ++ ys := by
    intro f xs ys hne
    cases xs with
    | nil => exact absurd rfl hne
    | cons x xs => rfl
  induction a using escape_induction with
  | nil =>
      rw [List.nil_append, splitSeparators_char fun he => absurd he (by decide),
        if_pos (Or.inl rfl)]
      rfl
  | escape c d high low cs hc hd ih =>
      simp only [List.cons_append]
      rw [splitSeparators_escape hc hd, splitSeparators_escape hc hd, ih]
      split
      · rfl
      · exact happend (splitSeparators_ne_nil cs)
  | char c cs hbare ih =>
      rw [List.cons_append, splitSeparators_char (bare_append hbare b),
        splitSeparators_char hbare, ih]
      split
      · rfl
      · exact happend (splitSeparators_ne_nil cs)

theorem hasAmbiguousSeparator_append (a b : Text) :
    hasAmbiguousSeparator (a ++ '/' :: b) =
      (hasAmbiguousSeparator a || hasAmbiguousSeparator b) := by
  induction a using escape_induction with
  | nil =>
      rw [List.nil_append, hasAmbiguousSeparator_char fun he => absurd he (by decide)]
      rfl
  | escape c d high low cs hc hd ih =>
      simp only [List.cons_append]
      rw [hasAmbiguousSeparator_escape hc hd, hasAmbiguousSeparator_escape hc hd, ih,
        Bool.or_assoc]
  | char c cs hbare ih =>
      rw [List.cons_append, hasAmbiguousSeparator_char (bare_append hbare b),
        hasAmbiguousSeparator_char hbare, ih, Bool.or_assoc]

/-- The segments between slashes of a text are the ones that their own separators
make of them. -/
theorem splitSeparators_intercalate {l : List Text} (h : l ≠ []) :
    splitSeparators (['/'].intercalate l) = l.flatMap splitSeparators := by
  induction l with
  | nil => exact absurd rfl h
  | cons x l ih =>
      cases l with
      | nil =>
          rw [List.flatMap_singleton]
          exact congrArg splitSeparators (List.append_nil x)
      | cons y l =>
          rw [Segments.intercalate_cons_cons, splitSeparators_append,
            ih (List.cons_ne_nil _ _)]
          rfl

theorem hasAmbiguousSeparator_intercalate (l : List Text) :
    hasAmbiguousSeparator (['/'].intercalate l) = l.any hasAmbiguousSeparator := by
  induction l with
  | nil => rfl
  | cons x l ih =>
      cases l with
      | nil =>
          rw [List.any_cons, List.any_nil, Bool.or_false]
          exact congrArg hasAmbiguousSeparator (List.append_nil x)
      | cons y l =>
          rw [Segments.intercalate_cons_cons, hasAmbiguousSeparator_append, ih]
          rfl

/-! ## Dot segments -/

theorem mem_of_mem_splitSeparators {s x : Text} (h : x ∈ splitSeparators s) :
    ∀ c ∈ x, c ∈ s := by
  induction s using escape_induction generalizing x with
  | nil =>
      rw [splitSeparators, List.mem_singleton] at h
      rw [h]
      exact fun c hc => hc
  | escape a b high low cs ha hb ih =>
      rw [splitSeparators_escape ha hb] at h
      have hcs : ∀ y ∈ splitSeparators cs, ∀ c ∈ y, c ∈ '%' :: a :: b :: cs := fun y hy c hc => by
        rw [List.mem_cons, List.mem_cons, List.mem_cons]
        exact .inr (.inr (.inr (ih hy c hc)))
      split at h
      · rcases List.mem_cons.mp h with h | h
        · rw [h]
          exact fun c hc => absurd hc List.not_mem_nil
        · exact hcs x h
      · cases hs : splitSeparators cs with
        | nil => exact absurd hs (splitSeparators_ne_nil cs)
        | cons first rest =>
            rw [hs] at hcs
            rw [hs, List.modifyHead_cons, List.mem_cons] at h
            rcases h with h | h
            · rw [h]
              intro c hc
              rcases List.mem_append.mp hc with hc | hc
              · exact List.mem_append_left cs hc
              · exact hcs first List.mem_cons_self c hc
            · exact hcs x (List.mem_cons_of_mem _ h)
  | char c cs hbare ih =>
      rw [splitSeparators_char hbare] at h
      have hcs : ∀ y ∈ splitSeparators cs, ∀ d ∈ y, d ∈ c :: cs :=
        fun y hy d hd => List.mem_cons_of_mem _ (ih hy d hd)
      split at h
      · rcases List.mem_cons.mp h with h | h
        · rw [h]
          exact fun c hc => absurd hc List.not_mem_nil
        · exact hcs x h
      · cases hs : splitSeparators cs with
        | nil => exact absurd hs (splitSeparators_ne_nil cs)
        | cons first rest =>
            rw [hs] at hcs
            rw [hs, List.modifyHead_cons, List.mem_cons] at h
            rcases h with h | h
            · rw [h]
              exact List.forall_mem_cons.mpr
                ⟨List.mem_cons_self, hcs first List.mem_cons_self⟩
            · exact hcs x (List.mem_cons_of_mem _ h)

theorem isDots_iff {s : Text} : isDots s = true ↔ s = ['.'] ∨ s = ['.', '.'] := by
  rw [isDots, Bool.or_eq_true, decide_eq_true_eq, decide_eq_true_eq]

theorem dot_of_isDots {s : Text} (h : isDots s = true) : ∀ c ∈ s, c = '.' := by
  intro c hc
  rcases isDots_iff.mp h with h | h
  · rw [h] at hc
    exact List.mem_singleton.mp hc
  · rw [h, List.mem_cons, List.mem_singleton, or_self] at hc
    exact hc

theorem ascii_of_isDots {s : Text} (h : isDots s = true) : ∀ c ∈ s, Utf8.Ascii c := by
  intro c hc
  rw [dot_of_isDots h c hc, Utf8.Ascii]
  decide

/-- The percent sign or the backslash a separator that is no slash needs. -/
theorem not_ambiguous_of_free {s : Text} (h : '%' ∉ s) (h' : '\\' ∉ s) :
    hasAmbiguousSeparator s = false := by
  rw [Bool.eq_false_iff]
  intro hsep
  rcases separator_of_ambiguous hsep with ⟨c, hc, hchar⟩
  rw [decodeAll_of_free h] at hc
  rcases hchar with hchar | hchar
  · -- A slash is no separator of this kind.
    have hfree : ∀ t : Text, '%' ∉ t → '\\' ∉ t → hasAmbiguousSeparator t = false := by
      intro t
      induction t with
      | nil => exact fun _ _ => rfl
      | cons d t ih =>
          intro hp hb
          have hd : d ≠ '%' := fun he => hp (he ▸ List.mem_cons_self)
          have hd' : d ≠ '\\' := fun he => hb (he ▸ List.mem_cons_self)
          rw [hasAmbiguousSeparator_char fun he => absurd he hd, decide_eq_false hd',
            Bool.false_or]
          exact ih (fun hm => hp (List.mem_cons_of_mem _ hm))
            fun hm => hb (List.mem_cons_of_mem _ hm)
    rw [hfree s h h'] at hsep
    exact Bool.false_ne_true hsep
  · exact h' (hchar ▸ hc)

/-- A dot segment of a path that passes the test is a literal one, and the path has
no separator besides the slash. -/
theorem literal_dots {path segment : Text} (h : hasAmbiguousTraversal path = false)
    (hseg : segment ∈ splitSeparators path) (hdots : isDots (decodeAll segment) = true) :
    hasAmbiguousSeparator path = false ∧ decodeAll segment = segment := by
  rw [hasAmbiguousTraversal] at h
  split at h
  · next hfree =>
      exact ⟨not_ambiguous_of_free hfree.1 hfree.2,
        decodeAll_of_free fun hm => hfree.1 (mem_of_mem_splitSeparators hseg _ hm)⟩
  · rw [List.any_eq_false] at h
    have hunquote : unquote segment = decodeAll segment :=
      (unquote_eq_iff (ascii_of_isDots hdots)).mpr rfl
    have hsegment := h segment hseg
    rw [hunquote, hdots, Bool.true_and, Bool.or_eq_true, not_or, Bool.not_eq_true,
      decide_eq_true_eq, not_not] at hsegment
    exact ⟨hsegment.1, hsegment.2.symm⟩

theorem resolveSegments_map {g : Text → Text} {segments : List Text}
    (h : ∀ s ∈ segments, (g s = ['.'] ↔ s = ['.']) ∧ (g s = ['.', '.'] ↔ s = ['.', '.']))
    (output : List Text) :
    resolveSegments (output.map g) (segments.map g) = (resolveSegments output segments).map g := by
  induction segments generalizing output with
  | nil => rfl
  | cons s segments ih =>
      have hs := h s List.mem_cons_self
      have hrest := ih fun t ht => h t (List.mem_cons_of_mem _ ht)
      rw [List.map_cons, resolveSegments, resolveSegments]
      by_cases hdot : s = ['.']
      · rw [if_pos hdot, if_pos (hs.1.mpr hdot), hrest]
      · rw [if_neg hdot, if_neg (mt hs.1.mp hdot)]
        by_cases hdots : s = ['.', '.']
        · rw [if_pos hdots, if_pos (hs.2.mpr hdots), ← List.map_dropLast, hrest]
        · rw [if_neg hdots, if_neg (mt hs.2.mp hdots), ← hrest, List.map_append,
            List.map_singleton]

/-- Nothing is added when dot segments are carried out. -/
theorem mem_resolveSegments {output segments : List Text} {s : Text}
    (h : s ∈ resolveSegments output segments) : s ∈ output ∨ s ∈ segments := by
  induction segments generalizing output with
  | nil => exact .inl h
  | cons t segments ih =>
      rw [resolveSegments] at h
      have hcons : s ∈ segments → s ∈ t :: segments := List.mem_cons_of_mem _
      split at h
      · exact (ih h).imp_right hcons
      · split at h
        · exact (ih h).imp List.mem_of_mem_dropLast hcons
        · rcases ih h with hs | hs
          · rcases List.mem_append.mp hs with hs | hs
            · exact .inl hs
            · exact .inr (List.mem_singleton.mp hs ▸ List.mem_cons_self)
          · exact .inr (hcons hs)

theorem join_split (s : Text) : ['/'].intercalate (s.splitOn '/') = s :=
  List.intercalate_splitOn '/'

/-- A decoder keeps the slashes of a text. -/
structure Keeps (g : Text → Text) : Prop where
  nil : g [] = []
  append : ∀ a b, g (a ++ '/' :: b) = g a ++ '/' :: g b

theorem keeps_intercalate {g : Text → Text} (h : Keeps g) (l : List Text) :
    g (['/'].intercalate l) = ['/'].intercalate (l.map g) := by
  induction l with
  | nil => exact h.nil
  | cons x l ih =>
      cases l with
      | nil => exact (congrArg g (List.append_nil x)).trans (List.append_nil (g x)).symm
      | cons y l => rw [Segments.intercalate_cons_cons, h.append, ih]; rfl

theorem keeps_splitOn {g : Text → Text} (h : Keeps g) {s : Text}
    (hfree : ∀ x ∈ s.splitOn '/', '/' ∉ g x) : (g s).splitOn '/' = (s.splitOn '/').map g := by
  have hjoin := keeps_intercalate h (s.splitOn '/')
  rw [List.intercalate_splitOn] at hjoin
  rw [hjoin, List.splitOn_intercalate]
  · intro x hx
    rcases List.mem_map.mp hx with ⟨y, hy, hyx⟩
    rw [← hyx]
    exact hfree y hy
  · rw [ne_eq, List.map_eq_nil_iff]
    exact List.splitOn_ne_nil _ _

/-- A join begins with a slash when its first segment is empty and another follows. -/
theorem head_intercalate {l : List Text} (h : ∀ x ∈ l, '/' ∉ x) :
    (['/'].intercalate l).head? = some '/' ↔ l.head? = some [] ∧ 1 < l.length := by
  match l with
  | [] => exact iff_of_false (by decide) (by decide)
  | [x] =>
      refine iff_of_false (fun he => ?_) (fun he => Nat.lt_irrefl 1 he.2)
      have hx : ['/'].intercalate [x] = x := List.append_nil x
      rw [hx] at he
      exact h x List.mem_cons_self (List.mem_of_mem_head? he)
  | x :: y :: l =>
      rw [Segments.intercalate_cons_cons, List.head?_cons, Option.some.injEq]
      have hlength : 1 < (x :: y :: l).length := by
        rw [List.length_cons, List.length_cons]
        omega
      cases x with
      | nil => exact iff_of_true rfl ⟨rfl, hlength⟩
      | cons c x =>
          refine iff_of_false (fun he => ?_) (fun he => absurd he.1 (List.cons_ne_nil _ _))
          rw [List.cons_append, List.head?_cons, Option.some.injEq] at he
          exact h (c :: x) List.mem_cons_self (he ▸ List.mem_cons_self)

/-- A decoder that keeps the slashes and the dot segments of a text is carried out
after the dot segments are as well as before. -/
theorem resolveDotSegments_map {g : Text → Text} (h : Keeps g) {s : Text}
    (hseg : ∀ x ∈ s.splitOn '/', '/' ∉ g x ∧ (g x = [] ↔ x = []) ∧ (g x = ['.'] ↔ x = ['.']) ∧
      (g x = ['.', '.'] ↔ x = ['.', '.'])) :
    resolveDotSegments (g s) = g (resolveDotSegments s) := by
  have hsplit := keeps_splitOn h fun x hx => (hseg x hx).1
  have hresolve := resolveSegments_map (fun x hx => (hseg x hx).2.2) []
  rw [List.map_nil] at hresolve
  have hheads : ∀ l : List Text, (∀ x ∈ l, x ∈ s.splitOn '/') →
      ((['/'].intercalate (l.map g)).head? = some '/' ↔
        (['/'].intercalate l).head? = some '/') := by
    intro l hl
    rw [head_intercalate fun x hx => Segments.not_mem_of_mem_splitOn (hl x hx),
      head_intercalate fun x hx => ?_, List.length_map, List.head?_map]
    · cases l with
      | nil => exact Iff.rfl
      | cons x l =>
          rw [List.head?_cons, Option.map_some, Option.some.injEq, Option.some.injEq,
            (hseg x (hl x List.mem_cons_self)).2.1]
    · rcases List.mem_map.mp hx with ⟨y, hy, hyx⟩
      rw [← hyx]
      exact (hseg y (hl y hy)).1
  have hpath := hheads (s.splitOn '/') fun x hx => hx
  rw [← keeps_intercalate h, List.intercalate_splitOn] at hpath
  have hresolved := hheads (resolveSegments [] (s.splitOn '/')) fun x hx =>
    (mem_resolveSegments hx).resolve_left List.not_mem_nil
  have hslash : ∀ t, g ('/' :: t) = '/' :: g t := by
    intro t
    have happend := h.append [] t
    rw [h.nil] at happend
    exact happend
  rw [resolveDotSegments, resolveDotSegments, hsplit, hresolve]
  simp only [Bool.and_eq_true, decide_eq_true_eq]
  by_cases hhead : s.head? = some '/' ∧
      (['/'].intercalate (resolveSegments [] (s.splitOn '/'))).head? ≠ some '/'
  · rw [if_pos ⟨hpath.mpr hhead.1, mt hresolved.mp hhead.2⟩, if_pos hhead, hslash,
      keeps_intercalate h]
  · rw [if_neg fun he => hhead ⟨hpath.mp he.1, mt hresolved.mpr he.2⟩, if_neg hhead,
      keeps_intercalate h]

theorem resolveSegments_of_free {segments : List Text} (h : ∀ x ∈ segments, isDots x = false)
    (output : List Text) : resolveSegments output segments = output ++ segments := by
  induction segments generalizing output with
  | nil => exact (List.append_nil output).symm
  | cons x segments ih =>
      have hx := h x List.mem_cons_self
      rw [Bool.eq_false_iff, ne_eq, isDots_iff, not_or] at hx
      rw [resolveSegments, if_neg hx.1, if_neg hx.2,
        ih (fun y hy => h y (List.mem_cons_of_mem _ hy)), List.append_assoc]
      rfl

/-- A text without dot segments stays as it is. -/
theorem resolveDotSegments_of_free {s : Text} (h : ∀ x ∈ s.splitOn '/', isDots x = false) :
    resolveDotSegments s = s := by
  rw [resolveDotSegments, resolveSegments_of_free h, List.nil_append, List.intercalate_splitOn]
  simp only [Bool.and_eq_true, decide_eq_true_eq]
  rw [if_neg fun he => he.2 he.1]

theorem keeps_decodeBy (f : Char → Char → Nat → Text) : Keeps (decodeBy f) :=
  ⟨rfl, decodeBy_append f (by decide) (by decide)⟩

theorem keeps_decodeOnce : Keeps decodeOnce := by
  rw [funext decodeOnce_eq]
  exact keeps_decodeBy unescape

theorem keeps_forwardSlashes : Keeps fun s => forwardSlashes (decodeAll s) := by
  refine ⟨rfl, fun a b => ?_⟩
  rw [decodeAll, (keeps_decodeBy _).append, forwardSlashes, List.map_append, List.map_cons]
  rfl

theorem not_separator_of_isDots {s : Text} (h : isDots s = true) :
    ∀ c ∈ s, c ≠ '/' ∧ c ≠ '\\' ∧ c ≠ '%' := by
  intro c hc
  rw [dot_of_isDots h c hc]
  decide

/-- A segment that is decoded to a dot segment is a segment between separators of
any spelling. -/
theorem mem_splitSeparators {path x : Text} (hx : x ∈ path.splitOn '/')
    (h : isDots (decodeAll x) = true) : x ∈ splitSeparators path := by
  have hfree : hasAmbiguousSeparator x = false := by
    rw [Bool.eq_false_iff]
    intro hsep
    rcases separator_of_ambiguous hsep with ⟨c, hc, hchar⟩
    have hne := not_separator_of_isDots h c hc
    exact hchar.elim hne.1 hne.2.1
  have hself := splitSeparators_of_free hfree (Segments.not_mem_of_mem_splitOn hx)
  rw [← join_split path,
    splitSeparators_intercalate (List.splitOn_ne_nil _ _), List.mem_flatMap]
  exact ⟨x, hx, by rw [hself]; exact List.mem_singleton.mpr rfl⟩

theorem decodeAll_dots {d : Text} (h : isDots d = true) : decodeAll d = d :=
  decodeAll_of_free fun hm => (not_separator_of_isDots h _ hm).2.2 rfl

theorem decodeOnce_eq_nil {s : Text} (h : decodeOnce s = []) : s = [] := by
  by_contra hne
  rw [decodeOnce_eq] at h
  refine decodeBy_ne_nil (fun a b n => ?_) hne h
  rw [unescape]
  split <;> exact List.cons_ne_nil _ _

/-- What the rules see of a path that passes: the segments that are left when its
literal dot segments are carried out. -/
theorem resolveDotSegments_decodeOnce {path : Text} (h : hasAmbiguousTraversal path = false) :
    resolveDotSegments (decodeOnce path) = decodeOnce (resolveDotSegments path) := by
  have hdots : ∀ x ∈ path.splitOn '/', ∀ d, isDots d = true → (decodeOnce x = d ↔ x = d) := by
    intro x hx d hd
    have hself := decodeAll_dots hd
    constructor
    · intro hx'
      have hall : decodeAll x = d := by
        rw [decodeAll_of_decodeOnce fun hm => (not_separator_of_isDots hd _ (hx' ▸ hm)).2.2 rfl]
        exact hx'
      have hliteral := literal_dots h (mem_splitSeparators hx (hall ▸ hd)) (hall ▸ hd)
      exact hliteral.2.symm.trans hall
    · intro hx'
      rw [hx', decodeOnce_of_decodeAll, hself]
      intro c hc
      have hne := not_separator_of_isDots hd c (hself ▸ hc)
      simp only [List.mem_cons, List.not_mem_nil, or_false, not_or]
      exact ⟨hne.1, hne.2.1, hne.2.2⟩
  refine resolveDotSegments_map keeps_decodeOnce fun x hx => ⟨fun hm => ?_,
    ⟨decodeOnce_eq_nil, fun he => by rw [he]; rfl⟩, hdots x hx _ rfl, hdots x hx _ rfl⟩
  rw [decodeOnce_eq] at hm
  refine forall_decodeBy (P := (· ≠ '/')) (fun c hc he => ?_) ?_ _ hm rfl
  · exact Segments.not_mem_of_mem_splitOn hx (he ▸ hc)
  · exact fun a b high low ha hb c hc he => slash_not_mem_unescape ha hb (he ▸ hc)

/-- What an upstream that decodes once sees of it: the same segments. -/
theorem resolveDotSegments_forwardSlashes {path : Text} (h : hasAmbiguousTraversal path = false) :
    resolveDotSegments (forwardSlashes (decodeAll path)) =
      forwardSlashes (decodeAll (resolveDotSegments path)) := by
  by_cases hsep : hasAmbiguousSeparator path = true
  · -- With another separator there is no dot segment between any two of them.
    have hfree : ∀ x ∈ splitSeparators path, isDots (decodeAll x) = false := by
      intro x hx
      rw [Bool.eq_false_iff]
      intro hdots
      rw [(literal_dots h hx hdots).1] at hsep
      exact Bool.false_ne_true hsep
    have hpath : resolveDotSegments path = path := by
      refine resolveDotSegments_of_free fun x hx => ?_
      rw [Bool.eq_false_iff]
      intro hdots
      have hself := decodeAll_dots hdots
      have hfalse := hfree x (mem_splitSeparators hx (hself.symm ▸ hdots))
      rw [hself, hdots] at hfalse
      exact Bool.false_ne_true hfalse.symm
    rw [hpath]
    refine resolveDotSegments_of_free fun x hx => ?_
    rw [splitOn_forwardSlashes] at hx
    rcases List.mem_map.mp hx with ⟨y, hy, hyx⟩
    rw [← hyx]
    exact hfree y hy
  · -- Without one, the segments are the ones between slashes.
    rw [Bool.not_eq_true] at hsep
    have hany := hsep
    rw [← join_split path, hasAmbiguousSeparator_intercalate,
      List.any_eq_false] at hany
    have hsegment : ∀ x ∈ path.splitOn '/',
        '/' ∉ forwardSlashes (decodeAll x) ∧ forwardSlashes (decodeAll x) = decodeAll x := by
      intro x hx
      have hsplit := splitOn_forwardSlashes x
      rw [splitSeparators_of_free (Bool.eq_false_iff.mpr (hany x hx))
        (Segments.not_mem_of_mem_splitOn hx), List.map_singleton] at hsplit
      have hjoin := join_split (forwardSlashes (decodeAll x))
      rw [hsplit] at hjoin
      have hself : forwardSlashes (decodeAll x) = decodeAll x :=
        hjoin.symm.trans (List.append_nil (decodeAll x))
      refine ⟨?_, hself⟩
      rw [hself]
      exact Segments.not_mem_of_mem_splitOn (hsplit ▸ List.mem_singleton.mpr rfl)
    have hdots : ∀ x ∈ path.splitOn '/', ∀ d, isDots d = true →
        (forwardSlashes (decodeAll x) = d ↔ x = d) := by
      intro x hx d hd
      rw [(hsegment x hx).2]
      constructor
      · intro hx'
        have hliteral := literal_dots h (mem_splitSeparators hx (hx' ▸ hd)) (hx' ▸ hd)
        exact hliteral.2.symm.trans hx'
      · intro hx'
        rw [hx']
        exact decodeAll_dots hd
    refine resolveDotSegments_map keeps_forwardSlashes fun x hx => ⟨(hsegment x hx).1,
      ⟨fun he => ?_, fun he => by rw [he]; rfl⟩, hdots x hx _ rfl, hdots x hx _ rfl⟩
    by_contra hne
    rw [(hsegment x hx).2] at he
    exact decodeBy_ne_nil (fun a b n => List.cons_ne_nil _ _) hne he

/-! ## The kept escapes -/

theorem respelt_escape {a b : Char} {high low : Nat} (ha : hexValue a = some high)
    (hb : hexValue b = some low) (cs : Text) :
    respelt ('%' :: a :: b :: cs) = respelt cs := by
  rw [respelt, ha, hb]

theorem respelt_char {c : Char} {cs : Text} (h : Bare c cs) :
    respelt (c :: cs) = (decide (c = '%') && keptDigits (decodeOnce cs) || respelt cs) := by
  by_cases hc : c = '%'
  · rw [hc]
    match cs with
    | [] => rfl
    | [a] =>
        by_cases ha : a = '%'
        · rw [ha]
          rfl
        · rw [decodeOnce_other ha]
          rfl
    | a :: b :: rest =>
        rw [respelt]
        cases ha : hexValue a with
        | none => rfl
        | some high =>
            cases hb : hexValue b with
            | none => rfl
            | some low =>
                exact absurd ⟨a, b, rest, rfl, by rw [ha]; rfl, by rw [hb]; rfl⟩ (h hc)
  · rw [respelt, decide_eq_false hc, Bool.false_and, Bool.false_or]
    exact fun a b cs' he => absurd he hc

theorem keptDigits_iff {s : Text} : keptDigits s = true ↔ ∃ a b rest high low,
    s = a :: b :: rest ∧ hexValue a = some high ∧ hexValue b = some low ∧
      16 * high + low ∈ keptEncoded := by
  match s with
  | [] =>
      refine iff_of_false Bool.false_ne_true ?_
      rintro ⟨a, b, rest, high, low, he, -⟩
      exact absurd he.symm (List.cons_ne_nil _ _)
  | [c] =>
      refine iff_of_false Bool.false_ne_true ?_
      rintro ⟨a, b, rest, high, low, he, -⟩
      rw [List.cons.injEq] at he
      exact absurd he.2.symm (List.cons_ne_nil _ _)
  | c :: d :: cs =>
      rw [keptDigits]
      constructor
      · intro h
        cases hc : hexValue c with
        | none =>
            rw [hc] at h
            exact absurd h Bool.false_ne_true
        | some high =>
            cases hd : hexValue d with
            | none =>
                rw [hc, hd] at h
                exact absurd h Bool.false_ne_true
            | some low =>
                rw [hc, hd, decide_eq_true_eq] at h
                exact ⟨c, d, cs, high, low, rfl, hc, hd, h⟩
      · rintro ⟨a, b, rest, high, low, he, ha, hb, hk⟩
        rw [List.cons.injEq, List.cons.injEq] at he
        rw [he.1, he.2.1, ha, hb, decide_eq_true_eq]
        exact hk

/-- A character before a text whose kept escapes are decoded stays, unless it is a
percent sign and digits of a kept escape follow. -/
theorem decodeKept_cons {c : Char} {s : Text} (h : ¬ (c = '%' ∧ keptDigits s = true)) :
    decodeKept (c :: s) = c :: decodeKept s := by
  rw [decodeKept]
  by_cases hc : c = '%'
  · by_cases hhex : HexPair s
    · rcases hhex with ⟨a, b, rest, he, ha, hb⟩
      rcases Option.isSome_iff_exists.mp ha with ⟨high, ha⟩
      rcases Option.isSome_iff_exists.mp hb with ⟨low, hb⟩
      have hcode : 16 * high + low ∉ keptEncoded := fun hk =>
        h ⟨hc, keptDigits_iff.mpr ⟨a, b, rest, high, low, he, ha, hb, hk⟩⟩
      rw [hc, he, decodeBy_escape _ ha hb, if_neg hcode,
        decodeBy_other _ (ne_percent_of_hexValue ha), decodeBy_other _ (ne_percent_of_hexValue hb)]
      rfl
    · exact decodeBy_char _ fun _ => hhex
  · exact decodeBy_other _ hc s

theorem decodeKept_escape {a b : Char} {high low : Nat} (ha : hexValue a = some high)
    (hb : hexValue b = some low) (hk : 16 * high + low ∈ keptEncoded) (cs : Text) :
    decodeKept ('%' :: a :: b :: cs) = Char.ofNat (16 * high + low) :: decodeKept cs := by
  rw [decodeKept, decodeBy_escape _ ha hb, if_pos hk]
  rfl

/-- An escape of the path, decoded once and then where it was kept. -/
theorem decodeKept_unescape {a b : Char} {high low : Nat} (ha : hexValue a = some high)
    (hb : hexValue b = some low) (s : Text) :
    decodeKept (unescape a b (16 * high + low) ++ s) =
      Char.ofNat (16 * high + low) :: decodeKept s := by
  obtain ⟨hhigh, -, -, ha'⟩ := hexValue_toUpper ha
  obtain ⟨hlow, -, -, hb'⟩ := hexValue_toUpper hb
  rw [unescape]
  by_cases hk : 16 * high + low ∈ keptEncoded
  · rw [if_pos hk]
    exact decodeKept_escape ha' hb' hk s
  · rw [if_neg hk]
    refine decodeKept_cons fun he => hk ?_
    have hcode := congrArg Char.toNat he.1
    rw [Text.toNat_charOfNat (by omega)] at hcode
    rw [hcode]
    decide

/-- Where no percent sign gets digits, the kept escapes are all that the path's
decoder left. -/
theorem decodeKept_decodeOnce {s : Text} (h : respelt s = false) :
    decodeKept (decodeOnce s) = decodeAll s := by
  rw [decodeOnce_eq, decodeAll]
  induction s using escape_induction with
  | nil => rfl
  | escape a b high low cs ha hb ih =>
      rw [respelt_escape ha hb] at h
      rw [decodeBy_escape _ ha hb, decodeBy_escape _ ha hb, decodeKept_unescape ha hb, ih h]
      rfl
  | char c cs hbare ih =>
      rw [respelt_char hbare, Bool.or_eq_false_iff, Bool.and_eq_false_iff,
        decide_eq_false_iff_not, decodeOnce_eq] at h
      rw [decodeBy_char _ hbare, decodeBy_char _ hbare, decodeKept_cons, ih h.2]
      rintro ⟨hc, hdigits⟩
      rcases h.1 with h | h
      · exact h hc
      · rw [h] at hdigits
        exact Bool.false_ne_true hdigits

/-- The characters that are no separators. -/
def weight (s : Text) : Nat := (Segments.letters '/' (forwardSlashes s)).length

theorem weight_cons (c : Char) (s : Text) :
    weight (c :: s) = (if c = '/' ∨ c = '\\' then 0 else 1) + weight s := by
  rw [weight, weight, forwardSlashes, List.map_cons]
  by_cases hc : c = '/' ∨ c = '\\'
  · have hslash : (if c = '\\' then '/' else c) = '/' := by
      rcases hc with h | h
      · rw [h]
        rfl
      · rw [h]
        rfl
    rw [if_pos hc, hslash, Segments.letters_cons_sep, Nat.zero_add]
    rfl
  · have hne := not_or.mp hc
    rw [if_neg hc, if_neg hne.2, Segments.letters, List.filter_cons_of_pos, List.length_cons,
      Nat.add_comm]
    · rfl
    · rw [decide_eq_true_eq]
      exact hne.1

theorem weight_cons_digit {c : Char} {n : Nat} (h : hexValue c = some n) (s : Text) :
    weight (c :: s) = 1 + weight s := by
  rw [weight_cons, if_neg]
  rintro (he | he)
  · exact slash_ne_of_hexValue h he
  · have hnone : hexValue '\\' = none := by decide
    rw [he, hnone] at h
    exact absurd h (by simp only [reduceCtorEq, not_false_eq_true])

/-- A percent sign that gets digits takes them away from the other reading. -/
theorem weight_decodeKept (s : Text) :
    weight (decodeKept (decodeOnce s)) ≤ weight (decodeAll s) ∧
      (respelt s = true → weight (decodeKept (decodeOnce s)) < weight (decodeAll s)) := by
  rw [decodeOnce_eq, decodeAll]
  induction s using escape_induction with
  | nil => exact ⟨Nat.le_refl 0, fun h => absurd h Bool.false_ne_true⟩
  | escape a b high low cs ha hb ih =>
      rw [respelt_escape ha hb, decodeBy_escape _ ha hb, decodeBy_escape _ ha hb,
        decodeKept_unescape ha hb, List.singleton_append, weight_cons, weight_cons]
      exact ⟨Nat.add_le_add_left ih.1 _, fun h => Nat.add_lt_add_left (ih.2 h) _⟩
  | char c cs hbare ih =>
      rw [respelt_char hbare, decodeBy_char _ hbare, decodeBy_char _ hbare, decodeOnce_eq]
      by_cases hspelt : c = '%' ∧ keptDigits (decodeBy unescape cs) = true
      · -- The digits are read with the percent sign here, and each for itself there.
        rcases keptDigits_iff.mp hspelt.2 with ⟨a, b, rest, high, low, he, ha, hb, hk⟩
        have hrest : weight (decodeKept (decodeBy unescape cs)) = 2 + weight (decodeKept rest) := by
          have hdigit : ∀ {d : Char} {n : Nat} (t : Text), hexValue d = some n →
              decodeKept (d :: t) = d :: decodeKept t := fun t hd =>
            decodeKept_cons fun hp => ne_percent_of_hexValue hd hp.1
          rw [he, hdigit _ ha, hdigit _ hb, weight_cons_digit ha, weight_cons_digit hb]
          omega
        have hpercent : ∀ t, weight ('%' :: t) = 1 + weight t := fun t => by
          rw [weight_cons, if_neg (by decide)]
        have hless : weight (decodeKept (c :: decodeBy unescape cs)) <
            weight (c :: decodeBy (fun _ _ n => [Char.ofNat n]) cs) := by
          rw [hspelt.1, hpercent]
          rw [he, decodeKept_escape ha hb hk, weight_cons]
          have hle := ih.1
          split <;> omega
        exact ⟨Nat.le_of_lt hless, fun _ => hless⟩
      · rw [decodeKept_cons hspelt, weight_cons, weight_cons]
        refine ⟨Nat.add_le_add_left ih.1 _, fun h => Nat.add_lt_add_left (ih.2 ?_) _⟩
        rw [Bool.or_eq_true, Bool.and_eq_true, decide_eq_true_eq] at h
        exact h.resolve_left hspelt

/-! ## The readings compared -/

theorem rstrip_append_slashes (s : Text) (n : Nat) :
    (s ++ List.replicate n '/').rstrip '/' = s.rstrip '/' := by
  induction n with
  | zero => rw [List.replicate_zero, List.append_nil]
  | succ n ih =>
      rw [List.replicate_succ', ← List.append_assoc, Text.rstrip,
        List.rdropWhile_concat_pos _ _ _ (by decide)]
      exact ih

theorem rstrip_append_trailing (s : Text) : ∃ n, s = s.rstrip '/' ++ List.replicate n '/' := by
  refine ⟨(s.rtakeWhile (· = '/')).length, ?_⟩
  have hall : s.rtakeWhile (· = '/') = List.replicate (s.rtakeWhile (· = '/')).length '/' := by
    rw [List.eq_replicate_iff]
    exact ⟨rfl, fun c hc => by simpa only [decide_eq_true_eq] using List.mem_rtakeWhile_imp hc⟩
  rw [← hall]
  exact List.rdropWhile_append_rtakeWhile.symm

/-- A text that keeps a character keeps a slash before it. -/
theorem rstrip_cons_slash {s : Text} (h : s.rstrip '/' ≠ []) :
    Text.rstrip '/' ('/' :: s) = '/' :: s.rstrip '/' := by
  obtain ⟨n, hn⟩ := rstrip_append_trailing s
  have hlast : ∀ hl : s.rstrip '/' ≠ [], ¬ decide ((s.rstrip '/').getLast hl = '/') = true :=
    List.rdropWhile_eq_self_iff.mp (List.rdropWhile_idempotent (· = '/') s)
  generalize s.rstrip '/' = r at hn hlast h ⊢
  have hself : Text.rstrip '/' ('/' :: r) = '/' :: r := by
    rw [Text.rstrip, List.rdropWhile_eq_self_iff]
    intro _
    rw [List.getLast_cons h]
    exact hlast h
  rw [hn, ← List.cons_append, rstrip_append_slashes, hself]

theorem keeps_decodeKept : Keeps fun s => forwardSlashes (decodeKept s) := by
  refine ⟨rfl, fun a b => ?_⟩
  rw [decodeKept, (keeps_decodeBy _).append, forwardSlashes, List.map_append, List.map_cons]
  rfl

/-- What the trailing slashes of a normal form come to. -/
theorem rstrip_decodeKept (s : Text) :
    (forwardSlashes (decodeKept (if s.rstrip '/' = [] then ['/'] else s.rstrip '/'))).rstrip '/' =
      (forwardSlashes (decodeKept s)).rstrip '/' := by
  have happend : ∀ (t : Text) (n : Nat), forwardSlashes (decodeKept (t ++ List.replicate n '/')) =
      forwardSlashes (decodeKept t) ++ List.replicate n '/' := by
    intro t n
    induction n generalizing t with
    | zero => rw [List.replicate_zero, List.append_nil, List.append_nil]
    | succ n ih =>
        rw [List.replicate_succ, keeps_decodeKept.append]
        exact congrArg (forwardSlashes (decodeKept t) ++ '/' :: ·) (ih [])
  obtain ⟨n, hn⟩ := rstrip_append_trailing s
  have hs : (forwardSlashes (decodeKept s)).rstrip '/' =
      (forwardSlashes (decodeKept (s.rstrip '/'))).rstrip '/' := by
    conv_lhs => rw [hn, happend, rstrip_append_slashes]
  rw [hs]
  split
  · next hnil =>
      rw [hnil]
      rfl
  · rfl

theorem letters_rooted (s : Text) : Segments.letters '/' (rooted s) = Segments.letters '/' s := by
  rw [rooted]
  split
  · exact Segments.letters_cons_sep s
  · rfl

theorem rooted_of_head {s : Text} (h : s.head? = some '/') : rooted s = s := by
  rw [rooted, if_neg]
  simp only [ne_eq, h, not_true_eq_false, decide_false, Bool.and_false, Bool.false_eq_true,
    not_false_eq_true]

theorem rooted_of_not_head {s : Text} (hs : s ≠ []) (h : s.head? ≠ some '/') :
    rooted s = '/' :: s := by
  rw [rooted, if_pos]
  rw [Bool.and_eq_true, decide_eq_true_eq, decide_eq_true_eq]
  exact ⟨hs, h⟩

/-- No escape is decoded to a slash at the head. -/
theorem head_decodeOnce (s : Text) :
    (decodeOnce s).head? = some '/' ↔ s.head? = some '/' := by
  rw [decodeOnce_eq]
  induction s using escape_induction with
  | nil => exact Iff.rfl
  | escape a b high low cs ha hb _ =>
      rw [decodeBy_escape _ ha hb]
      refine iff_of_false (fun he => ?_) (by rw [List.head?_cons]; decide)
      have hfree := slash_not_mem_unescape ha hb
      cases hu : unescape a b (16 * high + low) with
      | nil =>
          rw [unescape] at hu
          split at hu <;> exact absurd hu (List.cons_ne_nil _ _)
      | cons c u =>
          rw [hu, List.cons_append, List.head?_cons, Option.some.injEq] at he
          rw [hu, he] at hfree
          exact hfree List.mem_cons_self
  | char c cs hbare _ =>
      rw [decodeBy_char _ hbare]
      exact Iff.rfl

theorem decodeAll_ne_nil {s : Text} (h : s ≠ []) : forwardSlashes (decodeAll s) ≠ [] := by
  rw [forwardSlashes, ne_eq, List.map_eq_nil_iff]
  exact decodeBy_ne_nil (fun a b n => List.cons_ne_nil _ _) h

theorem decodeAll_eq_nil {s : Text} (h : decodeAll s = []) : s = [] := by
  by_contra hne
  exact decodeBy_ne_nil (fun a b n => List.cons_ne_nil _ _) hne h

/-- The second reading of a text begins with a slash when its first segment is
empty. -/
theorem head_forwardSlashes {s : Text} (hs : s ≠ []) :
    (forwardSlashes (decodeAll s)).head? = some '/' ↔ (splitSeparators s).head? = some [] := by
  have hsplit := splitOn_forwardSlashes s
  have hjoin := join_split (forwardSlashes (decodeAll s))
  have hfree : ∀ x ∈ (splitSeparators s).map decodeAll, '/' ∉ x := fun x hx =>
    Segments.not_mem_of_mem_splitOn (hsplit ▸ hx)
  rw [← hjoin, hsplit, head_intercalate hfree]
  cases hsegments : splitSeparators s with
  | nil => exact absurd hsegments (splitSeparators_ne_nil s)
  | cons x l =>
      rw [List.map_cons, List.head?_cons, List.head?_cons, Option.some.injEq, Option.some.injEq,
        List.length_cons, List.length_map]
      refine ⟨fun h => decodeAll_eq_nil h.1, fun h => ?_⟩
      rw [h]
      refine ⟨rfl, ?_⟩
      cases l with
      | nil =>
          -- One empty segment is the empty text.
          rw [hsegments, h] at hsplit
          rw [hsplit] at hjoin
          exact absurd hjoin.symm (decodeAll_ne_nil hs)
      | cons y l => rw [List.length_cons]; omega

/-- The second reading of a text is slashes alone when all its segments are empty. -/
theorem rstrip_forwardSlashes {s : Text} :
    (forwardSlashes (decodeAll s)).rstrip '/' = [] ↔ ∀ x ∈ splitSeparators s, x = [] := by
  have hsegments : (∀ x ∈ (forwardSlashes (decodeAll s)).splitOn '/', ∀ c ∈ x, False) ↔
      ∀ x ∈ splitSeparators s, x = [] := by
    rw [splitOn_forwardSlashes, List.forall_mem_map]
    refine forall₂_congr fun x _ => ⟨fun h => ?_, fun h => ?_⟩
    · exact decodeAll_eq_nil (List.eq_nil_iff_forall_not_mem.mpr h)
    · rw [h]
      exact fun c hc => List.not_mem_nil hc
  rw [Text.rstrip, List.rdropWhile_eq_nil_iff, ← hsegments, Segments.forall_splitOn]
  refine forall₂_congr fun c _ => ?_
  rw [decide_eq_true_eq]
  exact ⟨fun h hne => hne h, fun h => by_contra h⟩

/-- The rules' reading of a path that passes the test and the one of an upstream
that decodes once are made of the same segments. They name one resource when no
percent sign that is left gets digits from escapes, and what is left begins at the
root. -/
theorem readings_agree {path : Text} (h : hasAmbiguousTraversal path = false) :
    (resolveDotSegments (decodeOnce path) = decodeOnce (resolveDotSegments path) ∧
      resolveDotSegments (forwardSlashes (decodeAll path)) =
        forwardSlashes (decodeAll (resolveDotSegments path))) ∧
    ((forwardSlashes (decodeKept (normalizePath path))).rstrip '/' = (liberal path).rstrip '/' ↔
      respelt (resolveDotSegments path) = false ∧ Rooted (resolveDotSegments path)) := by
  have hstrict := resolveDotSegments_decodeOnce h
  have hliberal := resolveDotSegments_forwardSlashes h
  refine ⟨⟨hstrict, hliberal⟩, ?_⟩
  rw [normalizePath, liberal, hstrict, hliberal, rstrip_decodeKept]
  generalize resolveDotSegments path = q
  by_cases hq : q = []
  · rw [hq]
    exact iff_of_true rfl ⟨rfl, .inr (.inr fun x hx => List.mem_singleton.mp hx)⟩
  have hhead := head_decodeOnce q
  have hnil : decodeOnce q ≠ [] := fun he => hq (decodeOnce_eq_nil he)
  -- Both readings have the same characters, slashes left out.
  have hspelt : (forwardSlashes (decodeKept (rooted (decodeOnce q)))).rstrip '/' =
      (rooted (forwardSlashes (decodeAll q))).rstrip '/' → respelt q = false := by
    intro heq
    have hletters := congrArg (Segments.letters '/') heq
    rw [Segments.letters_rstrip, Segments.letters_rstrip, letters_rooted] at hletters
    have hleft : Segments.letters '/' (forwardSlashes (decodeKept (rooted (decodeOnce q)))) =
        Segments.letters '/' (forwardSlashes (decodeKept (decodeOnce q))) := by
      rw [rooted]
      split
      · rw [decodeKept_cons fun he => absurd he.1 (by decide)]
        exact Segments.letters_cons_sep _
      · rfl
    rw [hleft] at hletters
    rw [Bool.eq_false_iff]
    intro hr
    have hless := (weight_decodeKept q).2 hr
    rw [weight, weight, hletters] at hless
    exact Nat.lt_irrefl _ hless
  by_cases hr : respelt q = false
  · rw [and_iff_right hr]
    have hequal := decodeKept_decodeOnce hr
    by_cases hroot : q.head? = some '/'
    · rw [rooted_of_head (hhead.mpr hroot), hequal, rooted_of_head]
      · exact iff_of_true rfl (.inl hroot)
      · cases q with
        | nil => exact absurd rfl hq
        | cons c cs =>
            rw [List.head?_cons, Option.some.injEq] at hroot
            rw [hroot]
            rfl
    · rw [rooted_of_not_head hnil (mt hhead.mp hroot),
        decodeKept_cons fun he => absurd he.1 (by decide), hequal]
      have hslash : forwardSlashes ('/' :: decodeAll q) = '/' :: forwardSlashes (decodeAll q) := rfl
      rw [hslash]
      by_cases hsep : (splitSeparators q).head? = some []
      · -- The second reading is at the root already, the first is put under it.
        rw [rooted_of_head ((head_forwardSlashes hq).mpr hsep), Rooted]
        rw [or_iff_right hroot, or_iff_right (not_not.mpr hsep), ← rstrip_forwardSlashes]
        constructor
        · intro heq
          by_contra hne
          rw [rstrip_cons_slash hne] at heq
          exact absurd (congrArg List.length heq) (by rw [List.length_cons]; omega)
        · intro hall
          rw [hall, Text.rstrip, List.rdropWhile_eq_nil_iff]
          rw [Text.rstrip, List.rdropWhile_eq_nil_iff] at hall
          exact List.forall_mem_cons.mpr ⟨rfl, hall⟩
      · rw [rooted_of_not_head (decodeAll_ne_nil hq) (mt (head_forwardSlashes hq).mp hsep)]
        exact iff_of_true rfl (.inr (.inl hsep))
  · exact iff_of_false (fun he => hr (hspelt he)) fun he => hr he.1

/-- A path with a literal dot segment and an encoded percent sign. -/
theorem readings_agree_dots :
    (forwardSlashes (decodeKept (normalizePath "/a/../b%2541/".toList))).rstrip '/' =
      (liberal "/a/../b%2541/".toList).rstrip '/' :=
  have h : hasAmbiguousTraversal "/a/../b%2541/".toList = false := by decide
  (readings_agree h).2.mpr ⟨by decide, .inl (by decide)⟩

/-- A percent sign with the digits of a slash, one of them from an escape. -/
theorem readings_told_apart :
    ¬ ∀ path, hasAmbiguousTraversal path = false →
      (forwardSlashes (decodeKept (normalizePath path))).rstrip '/' =
        (liberal path).rstrip '/' := by
  intro h
  exact absurd (h "/%%32F".toList (by decide)) (by decide)

end Registry

end JenticOne
