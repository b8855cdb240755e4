import JenticOne.Library.Dotted
import JenticOne.Library.Lists

/-!
# Release Comparison

Whether a release is newer than the installed one, as the backend computes it
and as the CLI does. Both read `[v]MAJOR.MINOR.PATCH` out of a text with white
space around it; an installed version that is not of this form is always older,
and a latest release that is not never newer.

The backend reads a field with `int` once it has seen that it is ASCII digits;
`int` refuses more digits than the interpreter's limit. The CLI reads it with
`strconv.Atoi`, which allows a sign and reports a number out of the range of its
64 bits as an error.

## Main definitions

* `VersionCompare.parseSemver`, `VersionCompare.isUpdateAvailable`: The backend.
* `Update.parseSemver`, `Update.newerAvailable`: The CLI.

## Theorems

* `VersionCompare.readParts_eq_ok`, `VersionCompare.readParts_eq_none`,
  `VersionCompare.readParts_eq_error`: The fields that the backend reads.
* `Update.atoi_eq_iff`, `Update.readParts_eq_iff`: The fields that the CLI reads.
* `Update.compareSemver_pos_iff`: The order of the CLI.
-/

namespace JenticOne

open Dotted (Digits Laid value dropLetter)
open Margins (trim isspace)

/-! ## The backend -/

namespace VersionCompare

/-- What the comparison raises. -/
inductive ValueError
  | digitLimit
  deriving DecidableEq, Repr

/-- `sys.get_int_max_str_digits()`, as it is set by default. -/
def intMaxStrDigits : Nat := 4300

/-- `int` of a text of ASCII digits. -/
def int (s : Text) : Except ValueError Nat :=
  if intMaxStrDigits < s.length then .error .digitLimit else .ok (value s)

/-- The numbers of the fields, up to the first that is not digits. -/
def readParts : List Text → Except ValueError (Option (List Nat))
  | [] => .ok (some [])
  | part :: parts =>
    if Digits part then do
      let n ← int part
      let nums ← readParts parts
      return nums.map (n :: ·)
    else .ok none

/-- `nums[0], nums[1], nums[2]`. -/
def triple : List Nat → Option (Nat × Nat × Nat)
  | [major, minor, patch] => some (major, minor, patch)
  | _ => none

/-- `_parse_semver`: a text of three fields, or `None`. -/
def parseSemver (s : Text) : Except ValueError (Option (Nat × Nat × Nat)) :=
  let parts := (dropLetter 'v' (trim isspace s)).splitOn '.'
  if parts.length ≠ 3 then .ok none
  else (readParts parts).map (Option.bind · triple)

/-- The order of tuples. -/
def gt (a b : Nat × Nat × Nat) : Bool :=
  if a.1 ≠ b.1 then b.1 < a.1
  else if a.2.1 ≠ b.2.1 then b.2.1 < a.2.1
  else b.2.2 < a.2.2

/-- `is_update_available`: the latest release is newer than the installed one. -/
def isUpdateAvailable (installed : Text) (latest : Option Text) : Except ValueError Bool :=
  match latest with
  | none => .ok false
  | some latest => do
    match ← parseSemver latest with
    | none => return false
    | some latestV =>
      match ← parseSemver installed with
      | none => return true
      | some installedV => return gt latestV installedV

/-- A field that the backend reads as a number. -/
def Number (f : Text) (n : Nat) : Prop :=
  Digits f ∧ f.length ≤ intMaxStrDigits ∧ value f = n

/-- A field that raises. -/
def Overlong (f : Text) : Prop := Digits f ∧ intMaxStrDigits < f.length

/-- A text that the backend reads as a release. -/
def Release (s : Text) (v : Nat × Nat × Nat) : Prop :=
  ∃ fs, Laid isspace 'v' s fs ∧ List.Forall₂ Number fs [v.1, v.2.1, v.2.2]

/-- A text that raises: three fields, of which one has too many digits and the
    ones before it are numbers. -/
def Raises (s : Text) : Prop :=
  ∃ before f after, Laid isspace 'v' s (before ++ f :: after) ∧
    (before ++ f :: after).length = 3 ∧ (∀ g ∈ before ++ f :: after, '.' ∉ g) ∧
    (∀ g ∈ before, ∃ n, Number g n) ∧ Overlong f

theorem readParts_eq_ok {parts : List Text} {ns : List Nat} :
    readParts parts = .ok (some ns) ↔ List.Forall₂ Number parts ns := by
  induction parts generalizing ns with
  | nil =>
      rw [readParts, List.forall₂_nil_left_iff, Except.ok.injEq, Option.some.injEq, eq_comm]
  | cons f parts ih =>
      rw [readParts, List.forall₂_cons_left_iff]
      by_cases hf : Digits f
      · rw [if_pos hf, Lists.bind_eq_ok_iff]
        constructor
        · rintro ⟨n, hn, h⟩
          obtain ⟨nums, hnums, h⟩ := Lists.bind_eq_ok_iff.mp h
          obtain ⟨ms, rfl, hms⟩ := Option.map_eq_some_iff.mp (Except.ok.inj h)
          rw [int] at hn
          split at hn
          · exact absurd hn (by simp only [reduceCtorEq, not_false_eq_true])
          · next hlen =>
              exact ⟨n, ms, ⟨hf, by omega, Except.ok.inj hn⟩, ih.mp hnums, hms.symm⟩
        · rintro ⟨n, ms, ⟨-, hlen, hval⟩, hms, rfl⟩
          refine ⟨n, ?_, Lists.bind_eq_ok_iff.mpr ⟨some ms, ih.mpr hms, rfl⟩⟩
          rw [int, if_neg (by omega), hval]
      · rw [if_neg hf]
        refine ⟨fun h => absurd h (by simp only [Except.ok.injEq, reduceCtorEq,
          not_false_eq_true]), ?_⟩
        rintro ⟨n, ms, hn, -⟩
        exact absurd hn.1 hf

theorem readParts_eq_error {parts : List Text} {e : ValueError} :
    readParts parts = .error e ↔ ∃ before f after, parts = before ++ f :: after ∧
      (∀ g ∈ before, ∃ n, Number g n) ∧ Overlong f := by
  induction parts with
  | nil =>
      refine ⟨fun h => absurd h (by simp only [readParts, reduceCtorEq, not_false_eq_true]), ?_⟩
      rintro ⟨before, f, after, h, -⟩
      exact absurd h.symm (by simp only [List.append_eq_nil_iff, reduceCtorEq, and_false,
        not_false_eq_true])
  | cons g parts ih =>
      rw [readParts]
      by_cases hg : Digits g
      · rw [if_pos hg, int]
        by_cases hlen : intMaxStrDigits < g.length
        · rw [if_pos hlen]
          exact ⟨fun _ => ⟨[], g, parts, rfl, fun _ h => absurd h List.not_mem_nil, hg, hlen⟩,
            fun _ => by cases e; rfl⟩
        · rw [if_neg hlen, Lists.bind_eq_error_iff]
          have hn : Number g (value g) := ⟨hg, by omega, rfl⟩
          constructor
          · rintro (h | ⟨n, hn', h⟩)
            · exact absurd h (by simp only [reduceCtorEq, not_false_eq_true])
            · rcases Lists.bind_eq_error_iff.mp h with h | ⟨nums, -, h⟩
              · obtain ⟨before, f, after, rfl, hbefore, hf⟩ := ih.mp h
                exact ⟨g :: before, f, after, rfl, List.forall_mem_cons.mpr ⟨⟨_, hn⟩, hbefore⟩, hf⟩
              · exact absurd h (by simp only [pure, Except.pure, reduceCtorEq, not_false_eq_true])
          · rintro ⟨before, f, after, hsplit, hbefore, hf⟩
            cases before with
            | nil =>
                rw [List.nil_append, List.cons.injEq] at hsplit
                rw [hsplit.1] at hlen
                exact absurd hf.2 hlen
            | cons g' before =>
                rw [List.cons_append, List.cons.injEq] at hsplit
                refine .inr ⟨_, rfl, Lists.bind_eq_error_iff.mpr (.inl ?_)⟩
                exact ih.mpr ⟨before, f, after, hsplit.2, (List.forall_mem_cons.mp hbefore).2, hf⟩
      · rw [if_neg hg]
        refine ⟨fun h => absurd h (by simp only [reduceCtorEq, not_false_eq_true]), ?_⟩
        rintro ⟨before, f, after, hsplit, hbefore, hf⟩
        cases before with
        | nil =>
            rw [List.nil_append, List.cons.injEq] at hsplit
            exact absurd (hsplit.1 ▸ hf.1) hg
        | cons g' before =>
            rw [List.cons_append, List.cons.injEq] at hsplit
            obtain ⟨n, hn⟩ := (List.forall_mem_cons.mp hbefore).1
            exact absurd (hsplit.1 ▸ hn.1) hg

theorem triple_eq_some_iff {ns : List Nat} {v : Nat × Nat × Nat} :
    triple ns = some v ↔ ns = [v.1, v.2.1, v.2.2] := by
  constructor
  · intro h
    rw [triple.eq_def] at h
    split at h
    · rw [← Option.some.inj h]
    · exact absurd h (by simp only [reduceCtorEq, not_false_eq_true])
  · rintro rfl
    rfl

theorem not_mem_of_digits {f : Text} (h : Digits f) {c : Char} (hc : c.isDigit = false) :
    c ∉ f := by
  intro hm
  rw [List.all_eq_true.mp h.2 c hm] at hc
  exact absurd hc.symm Bool.false_ne_true

theorem parseSemver_of_length {s : Text} (h : (Dotted.fields isspace 'v' s).length = 3) :
    parseSemver s = (readParts (Dotted.fields isspace 'v' s)).map (Option.bind · triple) :=
  if_neg (not_not.mpr h)

/-- A release of the backend is a text of three numbers. -/
theorem parseSemver_eq_ok {s : Text} {v : Nat × Nat × Nat} :
    parseSemver s = .ok (some v) ↔ Release s v := by
  have hrun : parseSemver s = .ok (some v) ↔
      List.Forall₂ Number (Dotted.fields isspace 'v' s) [v.1, v.2.1, v.2.2] := by
    rw [← readParts_eq_ok]
    by_cases hlen : (Dotted.fields isspace 'v' s).length = 3
    · rw [parseSemver_of_length hlen]
      cases hr : readParts (Dotted.fields isspace 'v' s) with
      | error e => simp only [Except.map, reduceCtorEq]
      | ok nums =>
          cases nums with
          | none => simp only [Except.map, Option.bind_none, Except.ok.injEq, reduceCtorEq]
          | some ns =>
              rw [Except.map, Except.ok.injEq, Except.ok.injEq, Option.bind_some,
                triple_eq_some_iff, Option.some.injEq]
    · rw [show parseSemver s = .ok none from if_pos hlen, readParts_eq_ok]
      refine ⟨fun h => absurd h (by simp only [Except.ok.injEq, reduceCtorEq,
        not_false_eq_true]), fun h => absurd h.length_eq hlen⟩
  rw [hrun]
  constructor
  · intro h
    refine ⟨_, ((Dotted.fields_eq_iff (fun he => ?_)).mp rfl).1, h⟩
    rw [he, List.forall₂_nil_left_iff] at h
    exact absurd h (List.cons_ne_nil _ _)
  · rintro ⟨fs, hlaid, hnums⟩
    have hne : fs ≠ [] := by
      rintro rfl
      exact absurd (List.forall₂_nil_left_iff.mp hnums) (List.cons_ne_nil _ _)
    have hfree : ∀ f ∈ fs, '.' ∉ f := by
      intro f hf
      obtain ⟨n, -, hn⟩ := Lists.exists_of_forall₂ hnums hf
      exact not_mem_of_digits hn.1 rfl
    rw [(Dotted.fields_eq_iff hne).mpr ⟨hlaid, hfree⟩]
    exact hnums

/-- The backend raises on a text with a field of too many digits. -/
theorem parseSemver_eq_error {s : Text} {e : ValueError} :
    parseSemver s = .error e ↔ Raises s := by
  constructor
  · intro h
    by_cases hlen : (Dotted.fields isspace 'v' s).length = 3
    · rw [parseSemver_of_length hlen] at h
      cases hr : readParts (Dotted.fields isspace 'v' s) with
      | ok nums => exact absurd (hr ▸ h) (by simp only [Except.map, reduceCtorEq, not_false_eq_true])
      | error e' =>
          obtain ⟨before, f, after, hsplit, hbefore, hf⟩ := readParts_eq_error.mp hr
          have hne : before ++ f :: after ≠ [] :=
            List.append_ne_nil_of_right_ne_nil _ (List.cons_ne_nil _ _)
          obtain ⟨hlaid, hfree⟩ := (Dotted.fields_eq_iff hne).mp hsplit
          exact ⟨before, f, after, hlaid, hsplit ▸ hlen, hfree, hbefore, hf⟩
    · rw [show parseSemver s = .ok none from if_pos hlen] at h
      exact absurd h (by simp only [reduceCtorEq, not_false_eq_true])
  · rintro ⟨before, f, after, hlaid, hlen, hfree, hbefore, hf⟩
    have hne : before ++ f :: after ≠ [] :=
      List.append_ne_nil_of_right_ne_nil _ (List.cons_ne_nil _ _)
    have hfields := (Dotted.fields_eq_iff hne).mpr ⟨hlaid, hfree⟩
    rw [parseSemver_of_length (hfields ▸ hlen), (readParts_eq_error (e := e)).mpr ⟨before, f, after, hfields, hbefore, hf⟩]
    rfl

/-- What is neither a release nor raises is no version. -/
theorem parseSemver_eq_none {s : Text} (hr : ¬ Raises s) (h : ∀ v, ¬ Release s v) :
    parseSemver s = .ok none := by
  cases hp : parseSemver s with
  | error e => exact absurd (parseSemver_eq_error.mp hp) hr
  | ok r =>
      cases r with
      | none => rfl
      | some v => exact absurd (parseSemver_eq_ok.mp hp) (h v)

end VersionCompare

/-! ## The CLI -/

namespace Update

/-- The characters that `strings.TrimSpace` removes. -/
def isSpace (c : Char) : Bool :=
  (0x09 ≤ c.toNat && c.toNat ≤ 0x0D) || c.toNat = 0x20 ||
  c.toNat = 0x85 || c.toNat = 0xA0 || c.toNat = 0x1680 ||
  (0x2000 ≤ c.toNat && c.toNat ≤ 0x200A) || c.toNat = 0x2028 || c.toNat = 0x2029 ||
  c.toNat = 0x202F || c.toNat = 0x205F || c.toNat = 0x3000

/-- The number of digits after a sign, in the range of 64 bits. -/
def signed (negative : Bool) (digits : Text) : Option Int :=
  if Digits digits then
    let n : Int := if negative then -value digits else value digits
    if -2 ^ 63 ≤ n ∧ n < 2 ^ 63 then some n else none
  else none

/-- `strconv.Atoi`, or `none` for an error. -/
def atoi : Text → Option Int
  | '+' :: digits => signed false digits
  | '-' :: digits => signed true digits
  | digits => signed false digits

/-- A parsed three-part version. -/
structure Semver where
  major : Int
  minor : Int
  patch : Int
  deriving DecidableEq, Repr

/-- The numbers of the fields, unless one is an error or negative. -/
def readParts : List Text → Option (List Int)
  | [] => some []
  | p :: parts => do
    let n ← atoi p
    if n < 0 then none
    else do
      let nums ← readParts parts
      return n :: nums

/-- The version of three numbers. -/
def ofNums : List Int → Option Semver
  | [major, minor, patch] => some ⟨major, minor, patch⟩
  | _ => none

/-- `parseSemver`: a text of three fields. -/
def parseSemver (s : Text) : Option Semver :=
  let parts := (dropLetter 'v' (trim isSpace s)).splitOn '.'
  if parts.length ≠ 3 then none else (readParts parts).bind ofNums

/-- `cmpInt`. -/
def cmpInt (a b : Int) : Int := if a < b then -1 else if b < a then 1 else 0

/-- `compareSemver`. -/
def compareSemver (a b : Semver) : Int :=
  if a.major ≠ b.major then cmpInt a.major b.major
  else if a.minor ≠ b.minor then cmpInt a.minor b.minor
  else cmpInt a.patch b.patch

/-- `NewerAvailable`: the latest release is newer than the installed one. -/
def newerAvailable (installed latest : Text) : Bool :=
  match parseSemver latest with
  | none => false
  | some lv =>
    match parseSemver installed with
    | none => true
    | some iv => 0 < compareSemver lv iv

/-- A field that the CLI reads as a number. -/
def Number (f : Text) (n : Nat) : Prop :=
  ∃ sign digits, f = sign ++ digits ∧ Digits digits ∧ value digits = n ∧ n < 2 ^ 63 ∧
    (sign = [] ∨ sign = ['+'] ∨ sign = ['-'] ∧ n = 0)

/-- A text that the CLI reads as a release. -/
def Release (s : Text) (v : Nat × Nat × Nat) : Prop :=
  ∃ fs, Laid isSpace 'v' s fs ∧ List.Forall₂ Number fs [v.1, v.2.1, v.2.2]

/-- The version of three numbers that are not negative. -/
def ofTriple (v : Nat × Nat × Nat) : Semver := ⟨v.1, v.2.1, v.2.2⟩

theorem signed_eq_iff {negative : Bool} {digits : Text} {n : Nat} :
    signed negative digits = some (n : Int) ↔
      Digits digits ∧ value digits = n ∧ n < 2 ^ 63 ∧ (negative = true → n = 0) := by
  rw [signed]
  by_cases hd : Digits digits
  · rw [if_pos hd]
    cases negative with
    | false =>
        simp only [Bool.false_eq_true, if_false, false_implies, and_true, hd, true_and,
          Option.ite_none_right_eq_some, Option.some.injEq]
        omega
    | true =>
        simp only [if_true, true_implies, hd, true_and, Option.ite_none_right_eq_some,
          Option.some.injEq]
        omega
  · rw [if_neg hd]
    exact ⟨fun h => absurd h (by simp only [reduceCtorEq, not_false_eq_true]),
      fun h => absurd h.1 hd⟩

/-- The digits of a field stand after its sign. -/
theorem atoi_eq_iff {f : Text} {n : Nat} : atoi f = some (n : Int) ↔ Number f n := by
  have hcases : ∀ sign digits : Text, f = sign ++ digits → Digits digits →
      (sign = [] ∨ sign = ['+'] ∨ sign = ['-'] ∧ n = 0) →
      atoi f = signed (sign = ['-']) digits := by
    rintro sign digits rfl hdigits (rfl | rfl | ⟨rfl, -⟩)
    · rw [List.nil_append, atoi.eq_3]
      · rfl
      · rintro d rfl
        exact absurd (List.all_eq_true.mp hdigits.2 '+' List.mem_cons_self) Bool.false_ne_true
      · rintro d rfl
        exact absurd (List.all_eq_true.mp hdigits.2 '-' List.mem_cons_self) Bool.false_ne_true
    · rfl
    · rfl
  constructor
  · intro h
    rw [atoi.eq_def] at h
    split at h
    · next digits =>
        obtain ⟨hd, hv, hlt, -⟩ := signed_eq_iff.mp h
        exact ⟨['+'], digits, rfl, hd, hv, hlt, .inr (.inl rfl)⟩
    · next digits =>
        obtain ⟨hd, hv, hlt, hz⟩ := signed_eq_iff.mp h
        exact ⟨['-'], digits, rfl, hd, hv, hlt, .inr (.inr ⟨rfl, hz rfl⟩)⟩
    · obtain ⟨hd, hv, hlt, -⟩ := signed_eq_iff.mp h
      exact ⟨[], f, rfl, hd, hv, hlt, .inl rfl⟩
  · rintro ⟨sign, digits, hf, hd, hv, hlt, hsign⟩
    rw [hcases sign digits hf hd hsign, signed_eq_iff]
    refine ⟨hd, hv, hlt, fun hneg => ?_⟩
    rcases hsign with rfl | rfl | ⟨-, hz⟩
    · exact absurd hneg (by decide)
    · exact absurd hneg (by decide)
    · exact hz

theorem readParts_eq_iff {parts : List Text} {ns : List Nat} :
    readParts parts = some (ns.map Int.ofNat) ↔ List.Forall₂ Number parts ns := by
  induction parts generalizing ns with
  | nil =>
      rw [readParts, List.forall₂_nil_left_iff, Option.some.injEq, eq_comm, List.map_eq_nil_iff]
  | cons f parts ih =>
      rw [readParts, List.forall₂_cons_left_iff]
      constructor
      · intro h
        obtain ⟨k, hk, h⟩ := Option.bind_eq_some_iff.mp h
        by_cases hneg : k < 0
        · rw [if_pos hneg] at h
          exact absurd h (by simp only [reduceCtorEq, not_false_eq_true])
        · rw [if_neg hneg] at h
          obtain ⟨nums, hnums, h⟩ := Option.bind_eq_some_iff.mp h
          cases ns with
          | nil => exact absurd (Option.some.inj h) (List.cons_ne_nil _ _)
          | cons n ns =>
              have hcons := List.cons.inj (Option.some.inj h)
              refine ⟨n, ns, atoi_eq_iff.mp ?_, ih.mp ?_, rfl⟩
              · rw [hk, hcons.1]
                rfl
              · rw [hnums, hcons.2]
      · rintro ⟨n, ns, hn, hns, rfl⟩
        refine Option.bind_eq_some_iff.mpr ⟨(n : Int), atoi_eq_iff.mpr hn, ?_⟩
        rw [if_neg (by omega)]
        exact Option.bind_eq_some_iff.mpr ⟨_, ih.mpr hns, rfl⟩

/-- The numbers that the CLI reads are not negative. -/
theorem exists_of_readParts {parts : List Text} {is : List Int} (h : readParts parts = some is) :
    ∃ ns : List Nat, is = ns.map Int.ofNat := by
  induction parts generalizing is with
  | nil => exact ⟨[], (Option.some.inj h).symm⟩
  | cons f parts ih =>
      rw [readParts] at h
      obtain ⟨k, -, h⟩ := Option.bind_eq_some_iff.mp h
      by_cases hneg : k < 0
      · rw [if_pos hneg] at h
        exact absurd h (by simp only [reduceCtorEq, not_false_eq_true])
      · rw [if_neg hneg] at h
        obtain ⟨nums, hnums, h⟩ := Option.bind_eq_some_iff.mp h
        obtain ⟨ns, rfl⟩ := ih hnums
        refine ⟨k.toNat :: ns, ?_⟩
        rw [← Option.some.inj h, List.map_cons, Int.ofNat_eq_natCast, Int.toNat_of_nonneg (by omega)]

theorem ofNums_eq_some_iff {ns : List Nat} {v : Semver} :
    ofNums (ns.map Int.ofNat) = some v ↔ ∃ u, v = ofTriple u ∧ ns = [u.1, u.2.1, u.2.2] := by
  constructor
  · intro h
    rw [ofNums.eq_def] at h
    split at h
    · next a b c hns =>
        obtain ⟨n, ns₁, rfl, rfl, h₁⟩ := List.map_eq_cons_iff.mp hns
        obtain ⟨m, ns₂, rfl, rfl, h₂⟩ := List.map_eq_cons_iff.mp h₁
        obtain ⟨k, ns₃, rfl, rfl, h₃⟩ := List.map_eq_cons_iff.mp h₂
        rw [List.map_eq_nil_iff.mp h₃]
        exact ⟨(n, m, k), (Option.some.inj h).symm, rfl⟩
    · exact absurd h (by simp only [reduceCtorEq, not_false_eq_true])
  · rintro ⟨u, rfl, rfl⟩
    rfl

/-- A field of the CLI has digits and a sign. -/
theorem mem_of_number {f : Text} {n : Nat} (h : Number f n) {c : Char} (hc : c ∈ f) :
    c.isDigit = true ∨ c = '+' ∨ c = '-' := by
  obtain ⟨sign, digits, rfl, hdigits, -, -, hsign⟩ := h
  rcases List.mem_append.mp hc with hc | hc
  · rcases hsign with rfl | rfl | ⟨rfl, -⟩
    · exact absurd hc List.not_mem_nil
    · exact .inr (.inl (List.mem_singleton.mp hc))
    · exact .inr (.inr (List.mem_singleton.mp hc))
  · exact .inl (List.all_eq_true.mp hdigits.2 c hc)

theorem not_dot_of_number {f : Text} {n : Nat} (h : Number f n) : '.' ∉ f := by
  intro hc
  rcases mem_of_number h hc with hd | hd | hd <;> exact absurd hd (by decide)

theorem parseSemver_of_length {s : Text} (h : (Dotted.fields isSpace 'v' s).length = 3) :
    parseSemver s = (readParts (Dotted.fields isSpace 'v' s)).bind ofNums :=
  if_neg (not_not.mpr h)

/-- A release of the CLI is a text of three numbers. -/
theorem parseSemver_eq_iff {s : Text} {v : Semver} :
    parseSemver s = some v ↔ ∃ u, v = ofTriple u ∧ Release s u := by
  constructor
  · intro h
    by_cases hlen : (Dotted.fields isSpace 'v' s).length = 3
    · rw [parseSemver_of_length hlen] at h
      obtain ⟨is, his, h⟩ := Option.bind_eq_some_iff.mp h
      obtain ⟨ns, rfl⟩ := exists_of_readParts his
      obtain ⟨u, rfl, rfl⟩ := ofNums_eq_some_iff.mp h
      refine ⟨u, rfl, _, ((Dotted.fields_eq_iff fun he => ?_).mp rfl).1, readParts_eq_iff.mp his⟩
      rw [he] at hlen
      exact absurd hlen (by decide)
    · rw [show parseSemver s = none from if_pos hlen] at h
      exact absurd h (by simp only [reduceCtorEq, not_false_eq_true])
  · rintro ⟨u, rfl, fs, hlaid, hnums⟩
    have hlen : fs.length = 3 := hnums.length_eq
    have hne : fs ≠ [] := fun he => absurd (he ▸ hlen) (by decide)
    have hfree : ∀ f ∈ fs, '.' ∉ f := by
      intro f hf
      obtain ⟨n, -, hn⟩ := Lists.exists_of_forall₂ hnums hf
      exact not_dot_of_number hn
    have hfields := (Dotted.fields_eq_iff hne).mpr ⟨hlaid, hfree⟩
    rw [parseSemver_of_length (hfields ▸ hlen), hfields, readParts_eq_iff.mpr hnums,
      Option.bind_some, ofNums_eq_some_iff.mpr ⟨u, rfl, rfl⟩]

/-- What is no release is no version. -/
theorem parseSemver_eq_none {s : Text} (h : ∀ v, ¬ Release s v) : parseSemver s = none := by
  cases hp : parseSemver s with
  | none => rfl
  | some v =>
      obtain ⟨u, -, hu⟩ := parseSemver_eq_iff.mp hp
      exact absurd hu (h u)

/-- The CLI orders versions as tuples are ordered. -/
theorem compareSemver_pos_iff (a b : Nat × Nat × Nat) :
    0 < compareSemver (ofTriple a) (ofTriple b) ↔ VersionCompare.gt a b = true := by
  have hcmp : ∀ m n : Nat, 0 < cmpInt m n ↔ n < m := by
    intro m n
    rw [cmpInt]
    split
    · omega
    · split <;> omega
  rw [compareSemver, VersionCompare.gt]
  have hmajor : (ofTriple a).major = (ofTriple b).major ↔ a.1 = b.1 := Int.ofNat_inj
  have hminor : (ofTriple a).minor = (ofTriple b).minor ↔ a.2.1 = b.2.1 := Int.ofNat_inj
  by_cases h1 : a.1 = b.1
  · rw [if_neg (not_not.mpr (hmajor.mpr h1)), if_neg (not_not.mpr h1)]
    by_cases h2 : a.2.1 = b.2.1
    · rw [if_neg (not_not.mpr (hminor.mpr h2)), if_neg (not_not.mpr h2), decide_eq_true_eq]
      exact hcmp _ _
    · rw [if_pos (mt hminor.mp h2), if_pos h2, decide_eq_true_eq]
      exact hcmp _ _
  · rw [if_pos (mt hmajor.mp h1), if_pos h1, decide_eq_true_eq]
    exact hcmp _ _

end Update

end JenticOne
