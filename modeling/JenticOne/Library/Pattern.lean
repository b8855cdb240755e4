import JenticOne.Library.Text

/-!
# Patterns

The regular expressions that are a sequence of literals, runs of characters
outside a set, named groups around these, and back-references to a group.

`fullMatches` lists the ways such a pattern matches a whole text in the order a
backtracking matcher with greedy runs finds them, so that the first of them is
the match it reports. Characters are compared by a parameter, since a pattern
may be matched without regard to case.

A compiled pattern is one whose group names are identifiers, all different, and
whose back-references name an earlier group: the other ones are refused.

## Main definitions

* `Body`: A literal or a run.
* `Piece`: A body, captured or not, or a back-reference.
* `Regex`: A pattern that compiles.
* `fullMatches`, `Regex.fullmatch`: The matches of a whole text, the first one.

## Theorems

* `mem_runs`: What a run may take.
* `mem_taken_exact`: What a body takes when characters are compared as they are.
* `mem_fullMatches_group`, `mem_fullMatches_back`: The matches, piece by piece.
-/

namespace Pattern

/-- A literal, or a run of characters outside `excluded`, one of them at least. -/
inductive Body
  | text (s : Text)
  | run (excluded : List Char)
  deriving DecidableEq

/-- `(?:b)`, `(?P<name>b)` and `(?P=name)`. -/
inductive Piece
  | plain (b : Body)
  | group (name : Text) (b : Body)
  | back (name : Text)
  deriving DecidableEq

/-! ## Compilation -/

/-- A name a group may have: an identifier in ASCII. -/
def isName (g : Text) : Bool :=
  g ≠ [] && g.head?.all (fun c => !c.isDigit) && g.all (fun c => c.isAlphanum || c = '_')

/-- The pattern compiles after the groups in `seen`. -/
def compiles : List Text → List Piece → Bool
  | _, [] => true
  | seen, .plain _ :: ps => compiles seen ps
  | seen, .group g _ :: ps => isName g && g ∉ seen && compiles (g :: seen) ps
  | seen, .back g :: ps => g ∈ seen && compiles seen ps

/-- A pattern that compiles. -/
structure Regex where
  pieces : List Piece
  compiled : compiles [] pieces = true

/-- `re.compile`, which refuses a pattern. -/
def compile (ps : List Piece) : Option Regex :=
  if h : compiles [] ps = true then some ⟨ps, h⟩ else none

theorem compile_eq_some {ps : List Piece} {r : Regex} (h : compile ps = some r) :
    r.pieces = ps := by
  rw [compile] at h
  split at h
  · rw [← Option.some.inj h]
  · exact absurd h (by simp only [reduceCtorEq, not_false_eq_true])

/-! ## Matching -/

/-- The captures of a match, the last one first. -/
abbrev Env := List (Text × Text)

/-- The text without the literal at its head, if it has it. -/
def literal (same : Char → Char → Bool) : Text → Text → Option (Text × Text)
  | [], t => some ([], t)
  | _ :: _, [] => none
  | a :: s, c :: t =>
      if same a c then (literal same s t).map (fun (v, rest) => (c :: v, rest)) else none

/-- What a run may take of a text and what it leaves, the longest first. -/
def runs (excluded : List Char) : Text → List (Text × Text)
  | [] => []
  | c :: cs =>
      if c ∈ excluded then []
      else (runs excluded cs).map (fun (v, rest) => (c :: v, rest)) ++ [([c], cs)]

def taken (same : Char → Char → Bool) : Body → Text → List (Text × Text)
  | .text s, t => (literal same s t).toList
  | .run excluded, t => runs excluded t

/-- The matches of the whole text, in the order of the search. -/
def fullMatches (same : Char → Char → Bool) : List Piece → Env → Text → List Env
  | [], env, t => if t = [] then [env] else []
  | .plain b :: ps, env, t =>
      (taken same b t).flatMap (fun (_, rest) => fullMatches same ps env rest)
  | .group g b :: ps, env, t =>
      (taken same b t).flatMap (fun (v, rest) => fullMatches same ps ((g, v) :: env) rest)
  | .back g :: ps, env, t =>
      match env.lookup g with
      | none => []
      | some s => (taken same (.text s) t).flatMap (fun (_, rest) => fullMatches same ps env rest)

/-- `re.fullmatch`: the captures of the first match. -/
def Regex.fullmatch (r : Regex) (same : Char → Char → Bool) (t : Text) : Option Env :=
  (fullMatches same r.pieces [] t).head?

/-! ## What is taken -/

/-- A run takes any nonempty beginning without an excluded character. -/
theorem mem_runs {excluded : List Char} {t v rest : Text} :
    (v, rest) ∈ runs excluded t ↔ v ≠ [] ∧ t = v ++ rest ∧ ∀ c ∈ v, c ∉ excluded := by
  induction t generalizing v with
  | nil =>
      refine ⟨fun h => absurd h List.not_mem_nil, ?_⟩
      rintro ⟨hne, ht, -⟩
      exact absurd (List.append_eq_nil_iff.mp ht.symm).1 hne
  | cons c cs ih =>
      rw [runs]
      by_cases hc : c ∈ excluded
      · rw [if_pos hc]
        refine ⟨fun h => absurd h List.not_mem_nil, ?_⟩
        rintro ⟨hne, ht, hv⟩
        cases v with
        | nil => exact absurd rfl hne
        | cons x xs =>
            rw [List.cons_append, List.cons.injEq] at ht
            exact absurd hc (ht.1 ▸ hv x List.mem_cons_self)
      · rw [if_neg hc, List.mem_append, List.mem_map, List.mem_singleton]
        constructor
        · rintro (⟨⟨w, rest'⟩, hw, heq⟩ | heq)
          · rw [Prod.mk.injEq] at heq
            obtain ⟨rfl, rfl⟩ := heq
            obtain ⟨-, hcs, hall⟩ := ih.mp hw
            refine ⟨List.cons_ne_nil _ _, by rw [hcs, List.cons_append], ?_⟩
            intro x hx
            rcases List.mem_cons.mp hx with rfl | hx
            · exact hc
            · exact hall x hx
          · rw [Prod.mk.injEq] at heq
            obtain ⟨rfl, rfl⟩ := heq
            refine ⟨List.cons_ne_nil _ _, rfl, ?_⟩
            intro x hx
            rw [List.mem_singleton] at hx
            rw [hx]
            exact hc
        · rintro ⟨hne, ht, hv⟩
          cases v with
          | nil => exact absurd rfl hne
          | cons x xs =>
              rw [List.cons_append, List.cons.injEq] at ht
              obtain ⟨rfl, rfl⟩ := ht
              by_cases hxs : xs = []
              · right
                rw [hxs, List.nil_append]
              · left
                refine ⟨(xs, rest), ih.mpr ⟨hxs, rfl, ?_⟩, rfl⟩
                exact fun y hy => hv y (List.mem_cons_of_mem _ hy)

/-- Characters compared as they are: a literal takes itself. -/
theorem literal_exact {s t v rest : Text} :
    literal (· == ·) s t = some (v, rest) ↔ v = s ∧ t = s ++ rest := by
  induction s generalizing t v with
  | nil =>
      rw [literal, Option.some.injEq, Prod.mk.injEq, List.nil_append]
      constructor
      · rintro ⟨rfl, rfl⟩
        exact ⟨rfl, rfl⟩
      · rintro ⟨rfl, rfl⟩
        exact ⟨rfl, rfl⟩
  | cons a s ih =>
      cases t with
      | nil =>
          rw [literal]
          refine ⟨fun h => absurd h (by simp only [reduceCtorEq, not_false_eq_true]), ?_⟩
          rintro ⟨-, h⟩
          exact absurd h (by simp only [List.cons_append, reduceCtorEq, not_false_eq_true])
      | cons c t =>
          rw [literal, List.cons_append, List.cons.injEq]
          by_cases hac : a = c
          · subst hac
            rw [if_pos (beq_self_eq_true a), Option.map_eq_some_iff]
            constructor
            · rintro ⟨⟨w, r⟩, hw, heq⟩
              rw [Prod.mk.injEq] at heq
              obtain ⟨rfl, rfl⟩ := heq
              obtain ⟨rfl, rfl⟩ := ih.mp hw
              exact ⟨rfl, rfl, rfl⟩
            · rintro ⟨rfl, -, rfl⟩
              exact ⟨(s, rest), ih.mpr ⟨rfl, rfl⟩, rfl⟩
          · rw [if_neg (by rw [beq_iff_eq]; exact hac)]
            refine ⟨fun h => absurd h (by simp only [reduceCtorEq, not_false_eq_true]), ?_⟩
            rintro ⟨-, h, -⟩
            exact absurd h.symm hac

/-- What a body stands for. -/
def Body.Takes : Body → Text → Prop
  | .text s, v => v = s
  | .run excluded, v => v ≠ [] ∧ ∀ c ∈ v, c ∉ excluded

theorem mem_taken_exact {b : Body} {t v rest : Text} :
    (v, rest) ∈ taken (· == ·) b t ↔ b.Takes v ∧ t = v ++ rest := by
  cases b with
  | text s =>
      rw [taken, Option.mem_toList, literal_exact, Body.Takes]
      constructor
      · rintro ⟨rfl, h⟩
        exact ⟨rfl, h⟩
      · rintro ⟨rfl, h⟩
        exact ⟨rfl, h⟩
  | run excluded =>
      rw [taken, mem_runs, Body.Takes]
      constructor
      · rintro ⟨h1, h2, h3⟩
        exact ⟨⟨h1, h3⟩, h2⟩
      · rintro ⟨⟨h1, h3⟩, h2⟩
        exact ⟨h1, h2, h3⟩

/-! ## The matches of a text, compared exactly -/

variable {ps : List Piece} {env env' : Env} {t : Text}

theorem mem_fullMatches_nil :
    env' ∈ fullMatches (· == ·) [] env t ↔ t = [] ∧ env' = env := by
  rw [fullMatches]
  split
  · next h => rw [List.mem_singleton]; exact ⟨fun he => ⟨h, he⟩, fun he => he.2⟩
  · next h => exact ⟨fun he => absurd he List.not_mem_nil, fun he => absurd he.1 h⟩

theorem mem_fullMatches_plain {b : Body} :
    env' ∈ fullMatches (· == ·) (.plain b :: ps) env t ↔
      ∃ v rest, b.Takes v ∧ t = v ++ rest ∧ env' ∈ fullMatches (· == ·) ps env rest := by
  rw [fullMatches, List.mem_flatMap]
  constructor
  · rintro ⟨⟨v, rest⟩, hv, henv⟩
    obtain ⟨htakes, ht⟩ := mem_taken_exact.mp hv
    exact ⟨v, rest, htakes, ht, henv⟩
  · rintro ⟨v, rest, htakes, ht, henv⟩
    exact ⟨(v, rest), mem_taken_exact.mpr ⟨htakes, ht⟩, henv⟩

theorem mem_fullMatches_group {g : Text} {b : Body} :
    env' ∈ fullMatches (· == ·) (.group g b :: ps) env t ↔
      ∃ v rest, b.Takes v ∧ t = v ++ rest ∧
        env' ∈ fullMatches (· == ·) ps ((g, v) :: env) rest := by
  rw [fullMatches, List.mem_flatMap]
  constructor
  · rintro ⟨⟨v, rest⟩, hv, henv⟩
    obtain ⟨htakes, ht⟩ := mem_taken_exact.mp hv
    exact ⟨v, rest, htakes, ht, henv⟩
  · rintro ⟨v, rest, htakes, ht, henv⟩
    exact ⟨(v, rest), mem_taken_exact.mpr ⟨htakes, ht⟩, henv⟩

theorem mem_fullMatches_back {g : Text} :
    env' ∈ fullMatches (· == ·) (.back g :: ps) env t ↔
      ∃ v rest, env.lookup g = some v ∧ t = v ++ rest ∧
        env' ∈ fullMatches (· == ·) ps env rest := by
  rw [fullMatches]
  rcases hlookup : env.lookup g with _ | s
  · simp only [List.not_mem_nil, reduceCtorEq, false_and, exists_false]
  · simp only [Option.some.injEq]
    rw [List.mem_flatMap]
    constructor
    · rintro ⟨⟨v, rest⟩, hv, henv⟩
      obtain ⟨htakes, ht⟩ := mem_taken_exact.mp hv
      exact ⟨v, rest, htakes.symm, ht, henv⟩
    · rintro ⟨v, rest, htakes, ht, henv⟩
      exact ⟨(v, rest), mem_taken_exact.mpr ⟨htakes.symm, ht⟩, henv⟩

/-- A text that matches has a match. -/
theorem fullmatch_isSome {r : Regex} {same : Char → Char → Bool} :
    (r.fullmatch same t).isSome ↔ ∃ env', env' ∈ fullMatches same r.pieces [] t := by
  rw [Regex.fullmatch, List.isSome_head?, List.ne_nil_iff_exists_cons]
  constructor
  · rintro ⟨env', envs, h⟩
    exact ⟨env', h ▸ List.mem_cons_self⟩
  · rintro ⟨env', h⟩
    exact List.ne_nil_iff_exists_cons.mp (List.ne_nil_of_mem h)

end Pattern
