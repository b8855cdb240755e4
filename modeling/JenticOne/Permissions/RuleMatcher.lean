import JenticOne.Permissions.Evaluation

/-!
# The Preview of Permission Rules

The rule matcher of the user interface, on strings of 16-bit code units. Its
patterns have no `u` flag, so that they are read by units too. An empty list of
methods or operations constrains nothing here.

The pattern that finds placeholders is global, so that testing it leaves the
place where it stopped behind and the next test starts there.
`templatePathToRegex` puts that back to the start, which it is whenever no
function of the module runs.

## Main definitions

* `PermissionRule`: A rule as it comes from the API.
* `compileMatcher`, `matcherMatches`: Matching of a path.
* `compileRule`, `ruleMatches`: Matching of a rule.
* `explainRules`: The verdict, and which rule decided.

## Theorems

* `explainFrom_eq`: The first rule that takes the request.
* `matches_compileMatcher`: What a path matches in prefix and exact mode.
-/

namespace JenticOne

namespace Permissions

namespace Ui

open Wildcard

/-- A string, by its code units. -/
abbrev JsString := List Nat

structure PermissionRule where
  effect : Effect
  methods : Option (List JsString)
  path : Option JsString
  matchMode : Option MatchMode
  operations : Option (List JsString)

structure PathMatcher where
  mode : MatchMode
  literal : Option JsString
  /-- The source of the pattern. -/
  pattern : Option JsString
  never : Bool

/-! ## Paths -/

/-- The end of the first placeholder among pieces. -/
def firstEnd : List (Substitution.Piece Nat Unit) → Option Nat
  | [] => none
  | .plain _ :: ps => (firstEnd ps).map (· + 1)
  | .mark _ spelt :: _ => some spelt.length

/-- `PLACEHOLDER_RE.test`, from the place where the last test stopped, and where
    this one stops. -/
def testPlaceholder (lastIndex : Nat) (s : JsString) : Bool × Nat :=
  if s.length < lastIndex then (false, 0)
  else
    match firstEnd (pieces unit (s.drop lastIndex)) with
    | some e => (true, lastIndex + e)
    | none => (false, 0)

def hasPlaceholders (lastIndex : Nat) (path : JsString) : Bool × Nat :=
  if path.contains (unit '{') then testPlaceholder lastIndex path else (false, lastIndex)

/-- The characters `escapeRegex` escapes. -/
def escaped : List Char :=
  ['.', '*', '+', '?', '^', '$', '{', '}', '(', ')', '|', '[', ']', '\\']

def escapeRegex (s : JsString) : JsString := escape unit escaped s

def templatePathToRegex (path : JsString) : JsString :=
  ((split unit path).mapIdx fun i seg =>
    (if i = 0 then [] else wildcard unit) ++ escapeRegex seg).flatten

/-- `compileMatcher`, with where the last test for placeholders stopped. -/
def compileMatcher (engine : Engine Nat) (lastIndex : Nat) (path : Option JsString)
    (mode : MatchMode) : Option PathMatcher × Nat :=
  match path with
  | none => (none, lastIndex)
  | some path =>
      if path = [] then (some ⟨mode, none, none, true⟩, lastIndex)
      else if mode = .regexMode then
        if engine.catastrophic path then (some ⟨.regexMode, none, none, true⟩, lastIndex)
        else if (engine.error path).isSome then (some ⟨.regexMode, none, none, true⟩, lastIndex)
        else (some ⟨mode, none, some path, false⟩, lastIndex)
      else
        match hasPlaceholders lastIndex path with
        | (true, _) => (some ⟨mode, some path, some (templatePathToRegex path), false⟩, 0)
        | (false, lastIndex) => (some ⟨mode, some path, none, false⟩, lastIndex)

/-- `fullMatch` and `anchoredStartMatch` are the two cases of a template. -/
def matcherMatches (engine : Engine Nat) (m : PathMatcher) (requestPath : JsString) : Bool :=
  if m.never then false
  else if m.mode = .regexMode then
    m.pattern.any fun pattern => engine.fullmatch pattern requestPath
  else
    match m.pattern with
    | some pattern =>
        (readFrom unit 0 pattern).any fun ts => templateMatches (unit '/') m.mode ts requestPath
    | none =>
        m.literal.any fun literal =>
          if m.mode = .prefixMode then literal.isPrefixOf requestPath
          else requestPath = literal

/-! ## Rules -/

structure CompiledRule where
  effect : Effect
  methods : Option (List JsString)
  path : Option PathMatcher
  operations : Option (List JsString)

/-- `toUpperCase`: the default upper-case conversion of the text. -/
def toUpperCase (upper : Text → Text) (s : JsString) : JsString :=
  Utf16.encode (upper (Utf16.decode s))

/-- A list that constrains something. -/
def constraint (l : Option (List JsString)) : Option (List JsString) :=
  l.filter fun l => 0 < l.length

def compileRule (engine : Engine Nat) (upper : Text → Text) (lastIndex : Nat)
    (rule : PermissionRule) : CompiledRule × Nat :=
  match compileMatcher engine lastIndex rule.path (rule.matchMode.getD .regexMode) with
  | (path, lastIndex) =>
      (⟨rule.effect, (constraint rule.methods).map (·.map (toUpperCase upper)), path,
        constraint rule.operations⟩, lastIndex)

def isConditionLess (r : CompiledRule) : Bool :=
  r.methods.isNone && r.path.isNone && r.operations.isNone

structure Request where
  method : JsString
  path : JsString
  operationId : Option JsString

def ruleMatches (engine : Engine Nat) (upper : Text → Text) (r : CompiledRule) (req : Request) :
    Bool :=
  if r.methods.any fun methods => !methods.contains (toUpperCase upper req.method) then false
  else if r.path.any fun path => !matcherMatches engine path req.path then false
  else
    match r.operations with
    | some operations => req.operationId.any fun operationId => operations.contains operationId
    | none => true

structure RuleVerdict where
  allowed : Bool
  effect : Effect
  matched : Bool
  ruleIndex : Option Nat

/-- The loop of `explainRules` from the rule at an index on. -/
def explainFrom (engine : Engine Nat) (upper : Text → Text) (req : Request) :
    Nat → Nat → List PermissionRule → RuleVerdict × Nat
  | lastIndex, _, [] => (⟨false, .deny, false, none⟩, lastIndex)
  | lastIndex, i, rule :: rules =>
      match compileRule engine upper lastIndex rule with
      | (compiled, lastIndex) =>
          if isConditionLess compiled && compiled.effect ≠ .deny then
            explainFrom engine upper req lastIndex (i + 1) rules
          else if ruleMatches engine upper compiled req then
            (⟨compiled.effect = .allow, compiled.effect, true, some i⟩, lastIndex)
          else explainFrom engine upper req lastIndex (i + 1) rules

def explainRules (engine : Engine Nat) (upper : Text → Text) (lastIndex : Nat)
    (rules : List PermissionRule) (req : Request) : RuleVerdict × Nat :=
  explainFrom engine upper req lastIndex 0 rules

/-! ## Template paths -/

theorem firstEnd_isSome (ps : List (Substitution.Piece Nat Unit)) :
    (firstEnd ps).isSome = (ps.map token).contains .segment := by
  induction ps with
  | nil => rfl
  | cons p ps ih =>
      cases p with
      | plain a =>
          unfold firstEnd
          rw [Option.isSome_map, ih, List.map_cons, List.contains_cons]
          rfl
      | mark n spelt => rfl

/-- A test from the start finds a placeholder if there is one. -/
theorem testPlaceholder_zero (s : JsString) :
    (testPlaceholder 0 s).1 = (template unit s).contains .segment ∧
      ((testPlaceholder 0 s).1 = false → (testPlaceholder 0 s).2 = 0) := by
  unfold testPlaceholder template
  rw [if_neg (by omega), List.drop_zero, ← firstEnd_isSome]
  cases firstEnd (pieces unit s) with
  | none => exact ⟨rfl, fun _ => rfl⟩
  | some e => exact ⟨rfl, fun h => Bool.noConfusion h⟩

theorem mapIdx_source (specials : List Char) (p : JsString) (ps : List JsString) :
    ((p :: ps).mapIdx fun i seg =>
      (if i = 0 then [] else wildcard unit) ++ escape unit specials seg).flatten =
        source unit specials (p :: ps) := by
  rw [List.mapIdx_cons, List.flatten_cons, if_pos rfl, List.nil_append]
  unfold source
  refine congrArg (escape unit specials p ++ ·) ?_
  rw [List.mapIdx_eq_zipIdx_map, ← List.flatMap_def]
  have hstep : ∀ (i : Nat) (ps : List JsString), ((ps.zipIdx i).flatMap fun x =>
      (if x.2 + 1 = 0 then [] else wildcard unit) ++ escape unit specials x.1) =
        ps.flatMap fun p => wildcard unit ++ escape unit specials p := by
    intro i ps
    induction ps generalizing i with
    | nil => rfl
    | cons q qs ih =>
        rw [List.zipIdx_cons, List.flatMap_cons, List.flatMap_cons, ih, if_neg (by omega)]
  exact hstep 0 ps

theorem escaped_spec : (∀ c ∈ escaped, c.toNat < 128) ∧ (∀ c ∈ reserved, c ∈ escaped) ∧
    ∀ c ∈ escaped, c ∉ letters := by
  have hascii : (escaped.all fun c => c.toNat < 128) = true := rfl
  have hreserved : (reserved.all fun c => escaped.contains c) = true := rfl
  have hletters : (escaped.all fun c => !letters.contains c) = true := rfl
  refine ⟨fun c hc => of_decide_eq_true (List.all_eq_true.mp hascii c hc), fun c hc => ?_,
    fun c hc => ?_⟩
  · exact List.contains_iff_mem.mp (List.all_eq_true.mp hreserved c hc)
  · have := List.all_eq_true.mp hletters c hc
    rw [Bool.not_eq_true'] at this
    exact fun hmem => absurd (List.contains_iff_mem.mpr hmem) (by rw [this]; decide)

/-- The source of a path is read as its template. -/
theorem read_templatePathToRegex (path : JsString) :
    readFrom unit 0 (templatePathToRegex path) = some (template unit path) := by
  have hsource : templatePathToRegex path = source unit escaped (split unit path) := by
    unfold templatePathToRegex escapeRegex
    cases hsplit : split unit path with
    | nil => rfl
    | cons p ps => exact mapIdx_source escaped p ps
  rw [hsource]
  exact read_template tells_unit escaped_spec.1 escaped_spec.2.1 escaped_spec.2.2 path

/-! ## The rule that decides -/

/-- What a path that is there compiles to in prefix and exact mode. -/
theorem compileMatcher_some (engine : Engine Nat) {p : JsString} {mode : MatchMode}
    (hmode : mode ≠ .regexMode) (hp : p ≠ []) :
    compileMatcher engine 0 (some p) mode =
      (some ⟨mode, some p, if (hasPlaceholders 0 p).1 then some (templatePathToRegex p) else none,
        false⟩, 0) := by
  unfold compileMatcher
  dsimp only
  rw [if_neg hp, if_neg hmode]
  cases hfound : hasPlaceholders 0 p with
  | mk found last =>
      cases found with
      | true => rfl
      | false =>
          have hlast : last = 0 := by
            unfold hasPlaceholders at hfound
            split at hfound
            · have hzero := (testPlaceholder_zero p).2
              rw [hfound] at hzero
              exact hzero rfl
            · exact (congrArg Prod.snd hfound).symm
          rw [hlast]
          rfl

/-- After a rule was compiled, the next test starts at the start again. -/
theorem compileRule_lastIndex (engine : Engine Nat) (upper : Text → Text) (rule : PermissionRule) :
    (compileRule engine upper 0 rule).2 = 0 := by
  have hmatcher : ∀ path mode, (compileMatcher engine 0 path mode).2 = 0 := by
    intro path mode
    cases path with
    | none => rfl
    | some p =>
        by_cases hp : p = []
        · unfold compileMatcher
          dsimp only
          rw [if_pos hp]
        · by_cases hmode : mode = .regexMode
          · unfold compileMatcher
            dsimp only
            rw [if_neg hp, if_pos hmode]
            split
            · rfl
            · split <;> rfl
          · rw [compileMatcher_some engine hmode hp]
  exact hmatcher rule.path (rule.matchMode.getD .regexMode)

/-- A rule takes a request if it is not skipped and matches. -/
def takes (engine : Engine Nat) (upper : Text → Text) (req : Request) (rule : PermissionRule) :
    Bool :=
  !(isConditionLess (compileRule engine upper 0 rule).1 && rule.effect ≠ .deny) &&
    ruleMatches engine upper (compileRule engine upper 0 rule).1 req

/-- The verdict of the first rule that takes the request, and where the tests
    for placeholders stopped. -/
theorem explainFrom_eq (engine : Engine Nat) (upper : Text → Text) (req : Request) (i : Nat)
    (rules : List PermissionRule) :
    (explainFrom engine upper req 0 i rules).1.ruleIndex =
        (rules.findIdx? (takes engine upper req)).map (· + i) ∧
      (explainFrom engine upper req 0 i rules).1.effect =
        ((rules.find? (takes engine upper req)).map PermissionRule.effect).getD .deny ∧
      (explainFrom engine upper req 0 i rules).2 = 0 := by
  induction rules generalizing i with
  | nil => exact ⟨rfl, rfl, rfl⟩
  | cons rule rules ih =>
      have hlast := compileRule_lastIndex engine upper rule
      have hnext : (rules.findIdx? (takes engine upper req)).map (· + (i + 1)) =
          ((rules.findIdx? (takes engine upper req)).map (· + 1)).map (· + i) := by
        rw [Option.map_map]
        exact congrArg (fun f => Option.map f _) (funext fun j => by
          rw [Function.comp_apply]
          omega)
      rw [List.findIdx?_cons, List.find?_cons]
      cases hcompiled : compileRule engine upper 0 rule with
      | mk compiled last =>
          rw [hcompiled] at hlast
          have hlast : last = 0 := hlast
          have heffect : compiled.effect = rule.effect :=
            (congrArg (fun x => x.1.effect) hcompiled).symm
          have hcons : explainFrom engine upper req 0 i (rule :: rules) =
              if isConditionLess compiled && compiled.effect ≠ .deny then
                explainFrom engine upper req 0 (i + 1) rules
              else if ruleMatches engine upper compiled req then
                (⟨compiled.effect = .allow, compiled.effect, true, some i⟩, 0)
              else explainFrom engine upper req 0 (i + 1) rules := by
            conv_lhs => unfold explainFrom
            rw [hcompiled, hlast]
          have htakes : takes engine upper req rule =
              (!(isConditionLess compiled && compiled.effect ≠ .deny) &&
                ruleMatches engine upper compiled req) := by
            unfold takes
            rw [hcompiled, heffect]
          rw [hcons, htakes]
          cases isConditionLess compiled && decide (compiled.effect ≠ .deny) with
          | true =>
              rw [if_pos rfl, Bool.not_true, Bool.false_and, if_neg (by decide), ← hnext]
              exact ih (i + 1)
          | false =>
              rw [if_neg (by decide), Bool.not_false, Bool.true_and]
              cases ruleMatches engine upper compiled req with
              | true =>
                  rw [if_pos rfl, if_pos rfl, Option.map_some, Nat.zero_add]
                  exact ⟨rfl, heffect, rfl⟩
              | false =>
                  rw [if_neg (by decide), if_neg (by decide), ← hnext]
                  exact ih (i + 1)

/-- What a path matches in prefix and exact mode: with placeholders as a
    template, otherwise as it is. -/
theorem matches_compileMatcher {engine : Engine Nat} {p : Text} {mode : MatchMode}
    (hmode : mode ≠ .regexMode) (hp : p ≠ []) (requestPath : JsString) :
    (compileMatcher engine 0 (some (Utf16.encode p)) mode).1.any
        (fun m => matcherMatches engine m requestPath) =
      if Permissions.hasPlaceholders p then
        templateMatches (unit '/') mode (encodeTokens (template id p)) requestPath
      else if mode = .prefixMode then (Utf16.encode p).isPrefixOf requestPath
      else requestPath = Utf16.encode p := by
  have hfound : (hasPlaceholders 0 (Utf16.encode p)).1 = Permissions.hasPlaceholders p := by
    have hbrace : (Utf16.encode p).contains (unit '{') = p.contains '{' := by
      rw [Bool.eq_iff_iff, List.contains_iff_mem, List.contains_iff_mem, Utf16.encode,
        List.mem_flatMap]
      constructor
      · rintro ⟨c, hc, hmem⟩
        rw [← (unit_mem_units (by decide)).mp hmem]
        exact hc
      · exact fun hmem => ⟨'{', hmem, (unit_mem_units (by decide)).mpr rfl⟩
    have hsegment : (template unit (Utf16.encode p)).contains .segment =
        (template id p).contains .segment := by
      rw [template_encode, Bool.eq_iff_iff, List.contains_iff_mem, List.contains_iff_mem,
        encodeTokens, List.mem_flatMap]
      constructor
      · rintro ⟨tok, htok, hmem⟩
        cases tok with
        | segment => exact htok
        | lit c =>
            rcases List.mem_map.mp hmem with ⟨u, _, hu⟩
            exact absurd hu (by simp only [reduceCtorEq, not_false_eq_true])
      · exact fun hmem => ⟨.segment, hmem, List.mem_cons_self⟩
    unfold hasPlaceholders Permissions.hasPlaceholders
    rw [hbrace, ← hsegment]
    cases p.contains '{' with
    | true => exact (testPlaceholder_zero _).1
    | false => rfl
  rw [compileMatcher_some engine hmode (fun h => hp (encode_eq_nil.mp h)), Option.any_some, hfound]
  by_cases hplace : Permissions.hasPlaceholders p = true
  · rw [if_pos hplace, if_pos hplace]
    unfold matcherMatches
    dsimp only
    rw [if_neg (by decide), if_neg hmode, read_templatePathToRegex, Option.any_some,
      template_encode]
  · rw [if_neg hplace, if_neg hplace]
    unfold matcherMatches
    dsimp only
    rw [if_neg (by decide), if_neg hmode, Option.any_some]

end Ui

end Permissions

end JenticOne
