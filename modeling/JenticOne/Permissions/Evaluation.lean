import JenticOne.Library.Wildcard

/-!
# Permission Rules and Their Enforcement

A binding's rules are an ordered list that is read first match first. A rule
constrains methods, a path and operations, each if it has a list or a pattern
for it, and a path is matched by a regular expression, as a prefix or exactly,
where the last two read `{name}` as a wildcard for a part of a segment.

`compileMatcher` makes a matcher of a stored path, `compileRow` a rule of a
stored row. `firstMatchingRule` is what decides a request and `ruleVerdict` the
effect of that.

## Main definitions

* `PermissionRuleSchema`: A rule as the API takes it, and `accepted` when it does.
* `PathMatcher`, `compileMatcher`: Matching of a path.
* `PermissionRule`, `compileRow`: A compiled rule.
* `firstMatchingRule`, `ruleVerdict`: The evaluation.

## Theorems

* `firstMatchingRule_eq`: The first rule that takes the request.
* `matches_compileMatcher`: What a path matches in prefix and exact mode.
-/

namespace JenticOne

namespace Permissions

open Wildcard

/-- How a rule's path is interpreted. -/
inductive MatchMode
  | regexMode
  | prefixMode
  | exactMode
  deriving DecidableEq

/-- What a rule does with a request it matches. -/
inductive Effect
  | allow
  | deny
  | requireApproval
  deriving DecidableEq

/-- A regular-expression engine on the patterns of `regex` mode. -/
structure Engine (α : Type) where
  /-- Why a pattern does not compile, if it does not. -/
  error : List α → Option Text
  /-- The pattern has nested unbounded quantifiers. -/
  catastrophic : List α → Bool
  fullmatch : List α → List α → Bool

/-! ## Validation -/

def maxPatternLength : Nat := 1000

inductive PathValidationCode
  | invalidRegex
  | patternTooLong
  | emptyPath
  | unsafeRegex
  deriving DecidableEq

structure PathValidationError where
  code : PathValidationCode
  reason : Text
  deriving DecidableEq

/-- `_check`. A mode that is none of the three is no `MatchMode`. -/
def check (engine : Engine Char) (path : Option Text) (mode : MatchMode) :
    Option PathValidationError :=
  path.bind fun path =>
    if maxPatternLength < path.length then
      some ⟨.patternTooLong, "path exceeds maximum length (1000 characters)".toList⟩
    else if path = [] then
      some ⟨.emptyPath, "path must not be empty; omit it to mean 'no path constraint'".toList⟩
    else if mode = .regexMode then
      match engine.error path with
      | some message => some ⟨.invalidRegex, "invalid regex: ".toList ++ message⟩
      | none =>
          if engine.catastrophic path then
            some ⟨.unsafeRegex, ("regex contains nested unbounded quantifiers (e.g. (x+)+, " ++
              "(x*)*, (x+)*) which can cause catastrophic backtracking; rewrite without " ++
              "nesting or use prefix/exact mode with {name} placeholders").toList⟩
          else none
    else none

/-- `validate_path`. -/
def validatePath (engine : Engine Char) (path : Option Text) (mode : MatchMode) :
    Option PathValidationError := check engine path mode

/-- A rule as the permission API takes it. -/
structure PermissionRuleSchema where
  effect : Effect
  methods : Option (List Text)
  path : Option Text
  matchMode : MatchMode
  operations : Option (List Text)

/-- Effects a rule may only carry when it constrains something. -/
def conditionRequiredEffects : List Effect := [.allow, .requireApproval]

/-- An optional list that holds something. -/
def given {β : Type} (l : Option (List β)) : Bool := l.any (fun l => !l.isEmpty)

/-- The two validators of the schema. -/
def PermissionRuleSchema.accepted (engine : Engine Char) (rule : PermissionRuleSchema) : Bool :=
  (validatePath engine rule.path rule.matchMode).isNone &&
    !(rule.effect ∈ conditionRequiredEffects &&
      !(given rule.methods || given rule.path || given rule.operations))

/-! ## Paths -/

structure PathMatcher where
  mode : MatchMode
  literal : Option Text
  /-- The source of the pattern. -/
  pattern : Option Text
  never : Bool

/-- `re.escape`. -/
def escaped : List Char :=
  ['(', ')', '[', ']', '{', '}', '?', '*', '+', '-', '|', '^', '$', '\\', '.', '&', '~', '#', ' ',
   '\t', '\n', '\r', Char.ofNat 11, Char.ofNat 12]

/-- `_has_placeholders`. -/
def hasPlaceholders (path : Text) : Bool :=
  path.contains '{' && (template id path).contains .segment

/-- `_template_path_to_regex`. -/
def templatePathToRegex (path : Text) : Text :=
  (split id path).tail.foldl
    (fun out literalAfter => out ++ wildcard id ++ escape id escaped literalAfter)
    (escape id escaped ((split id path).headD []))

/-- `compile_matcher`. -/
def compileMatcher (engine : Engine Char) (path : Option Text) (mode : MatchMode) :
    Option PathMatcher :=
  path.map fun p =>
    if (check engine path mode).isSome then ⟨.regexMode, none, none, true⟩
    else if mode = .regexMode then ⟨.regexMode, none, some p, false⟩
    else if hasPlaceholders p then ⟨mode, some p, some (templatePathToRegex p), false⟩
    else ⟨mode, some p, none, false⟩

/-- A template pattern matches in the way of its mode. -/
def templateMatches {α : Type} [DecidableEq α] (sep : α) (mode : MatchMode)
    (pattern : List (Token α)) (requestPath : List α) : Bool :=
  if mode = .prefixMode then startmatch sep pattern requestPath
  else fullmatch sep pattern requestPath

/-- `PathMatcher.matches`. -/
def PathMatcher.matches (engine : Engine Char) (matcher : PathMatcher) (requestPath : Text) :
    Bool :=
  if matcher.never then false
  else if matcher.mode = .regexMode then
    matcher.pattern.any fun pattern => engine.fullmatch pattern requestPath
  else
    match matcher.pattern with
    | some pattern =>
        (readFrom id 0 pattern).any fun ts => templateMatches '/' matcher.mode ts requestPath
    | none =>
        matcher.literal.any fun literal =>
          if matcher.mode = .prefixMode then literal.isPrefixOf requestPath
          else requestPath = literal

/-! ## Rules -/

structure PermissionRule where
  effect : Effect
  methods : Option (List Text)
  path : Option PathMatcher
  operations : Option (List Text)

/-- `normalize_methods`, with `upper` as the default upper-case conversion. -/
def normalizeMethods (upper : Text → Text) (raw : Option (List Text)) : Option (List Text) :=
  raw.map fun raw => raw.map upper

/-- A stored row as the broker and the dry run load it. -/
def compileRow (engine : Engine Char) (upper : Text → Text) (row : PermissionRuleSchema) :
    PermissionRule where
  effect := row.effect
  methods := normalizeMethods upper row.methods
  path := compileMatcher engine row.path row.matchMode
  operations := row.operations

/-- `is_condition_less`. -/
def isConditionLess (rule : PermissionRule) : Bool :=
  rule.methods.isNone && rule.path.isNone && rule.operations.isNone

structure Request where
  method : Text
  path : Text
  operationId : Option Text

/-- `rule_matches`. -/
def ruleMatches (engine : Engine Char) (upper : Text → Text) (rule : PermissionRule)
    (req : Request) : Bool :=
  if rule.methods.any fun methods => !methods.contains (upper req.method) then false
  else if rule.path.any fun path => !path.matches engine req.path then false
  else
    match rule.operations with
    | some operations => req.operationId.any fun operationId => operations.contains operationId
    | none => true

/-- The loop of `first_matching_rule` from the rule at an index on. -/
def firstMatchingFrom (engine : Engine Char) (upper : Text → Text) (req : Request) :
    Nat → List PermissionRule → Option Nat
  | _, [] => none
  | idx, rule :: rules =>
      if isConditionLess rule && rule.effect ∈ conditionRequiredEffects then
        firstMatchingFrom engine upper req (idx + 1) rules
      else if ruleMatches engine upper rule req then some idx
      else firstMatchingFrom engine upper req (idx + 1) rules

/-- `first_matching_rule`. -/
def firstMatchingRule (engine : Engine Char) (upper : Text → Text) (rules : List PermissionRule)
    (req : Request) : Option Nat := firstMatchingFrom engine upper req 0 rules

/-- `rule_verdict`. -/
def ruleVerdict (rules : List PermissionRule) (idx : Option Nat) : Effect :=
  match idx.bind (rules[·]?) with
  | some rule => if rule.effect ∈ conditionRequiredEffects then rule.effect else .deny
  | none => .deny

/-! ## The rule that decides -/

/-- A rule takes a request if it is not skipped and matches. -/
def takes (engine : Engine Char) (upper : Text → Text) (req : Request) (rule : PermissionRule) :
    Bool :=
  !(isConditionLess rule && rule.effect ∈ conditionRequiredEffects) &&
    ruleMatches engine upper rule req

theorem firstMatchingFrom_eq (engine : Engine Char) (upper : Text → Text) (req : Request)
    (idx : Nat) (rules : List PermissionRule) :
    firstMatchingFrom engine upper req idx rules =
      (rules.findIdx? (takes engine upper req)).map (· + idx) := by
  induction rules generalizing idx with
  | nil => rfl
  | cons rule rules ih =>
      unfold firstMatchingFrom
      rw [List.findIdx?_cons]
      unfold takes
      cases hskip : isConditionLess rule && decide (rule.effect ∈ conditionRequiredEffects) with
      | true =>
          rw [if_pos rfl, Bool.not_true, Bool.false_and, if_neg (by decide), ih, Option.map_map]
          exact congrArg (fun f => Option.map f _) (funext fun i => by
            rw [Function.comp_apply]
            omega)
      | false =>
          rw [if_neg (by decide), Bool.not_false, Bool.true_and]
          cases hmatch : ruleMatches engine upper rule req with
          | true =>
              rw [if_pos rfl, if_pos rfl, Option.map_some, Nat.zero_add]
          | false =>
              rw [if_neg (by decide), if_neg (by decide), ih, Option.map_map]
              exact congrArg (fun f => Option.map f _) (funext fun i => by
                rw [Function.comp_apply]
                omega)

/-- The first rule that takes the request decides it. -/
theorem firstMatchingRule_eq (engine : Engine Char) (upper : Text → Text)
    (rules : List PermissionRule) (req : Request) :
    firstMatchingRule engine upper rules req = rules.findIdx? (takes engine upper req) := by
  unfold firstMatchingRule
  rw [firstMatchingFrom_eq]
  exact Option.map_id'

/-! ## Template paths -/

theorem foldl_source (specials : List Char) (init : Text) (ps : List Text) :
    ps.foldl (fun out p => out ++ wildcard id ++ escape id specials p) init =
      init ++ ps.flatMap fun p => wildcard id ++ escape id specials p := by
  induction ps generalizing init with
  | nil => exact (List.append_nil init).symm
  | cons p ps ih => rw [List.foldl_cons, ih, List.flatMap_cons, List.append_assoc,
      List.append_assoc, List.append_assoc]

theorem templatePathToRegex_eq (path : Text) :
    templatePathToRegex path = source id escaped (split id path) :=
  foldl_source escaped _ _

theorem escaped_spec : (∀ c ∈ escaped, c.toNat < 128) ∧ (∀ c ∈ reserved, c ∈ escaped) ∧
    ∀ c ∈ escaped, c ∉ letters := by
  have hascii : (escaped.all fun c => c.toNat < 128) = true := rfl
  have hreserved : (reserved.all fun c => escaped.contains c) = true := rfl
  have hletters : (escaped.all fun c => !letters.contains c) = true := rfl
  refine ⟨fun c hc => of_decide_eq_true (List.all_eq_true.mp hascii c hc), fun c hc => ?_,
    fun c hc => ?_⟩
  · exact List.contains_iff_mem.mp (List.all_eq_true.mp hreserved c hc)
  · have := List.all_eq_true.mp hletters c hc
    rw [Bool.not_eq_true'] at this
    exact fun hmem => absurd (List.contains_iff_mem.mpr hmem) (by rw [this]; decide)

/-- The source of a path is read as its template. -/
theorem read_templatePathToRegex (path : Text) :
    readFrom id 0 (templatePathToRegex path) = some (template id path) := by
  rw [templatePathToRegex_eq]
  exact read_template tells_id escaped_spec.1 escaped_spec.2.1 escaped_spec.2.2 path

/-- What an accepted path matches in prefix and exact mode: with placeholders as
    a template, otherwise as it is. -/
theorem matches_compileMatcher {engine : Engine Char} {p : Text} {mode : MatchMode}
    (hmode : mode ≠ .regexMode) (hcheck : check engine (some p) mode = none) (requestPath : Text) :
    (compileMatcher engine (some p) mode).any (fun m => m.matches engine requestPath) =
      if hasPlaceholders p then templateMatches '/' mode (template id p) requestPath
      else if mode = .prefixMode then p.isPrefixOf requestPath else requestPath = p := by
  unfold compileMatcher
  rw [Option.map_some, hcheck, Option.isSome_none, if_neg (by decide), if_neg hmode,
    Option.any_some]
  by_cases hp : hasPlaceholders p = true
  · rw [if_pos hp, if_pos hp]
    unfold PathMatcher.matches
    dsimp only
    rw [if_neg (by decide), if_neg hmode, read_templatePathToRegex, Option.any_some]
  · rw [if_neg hp, if_neg hp]
    unfold PathMatcher.matches
    dsimp only
    rw [if_neg (by decide), if_neg hmode, Option.any_some]

end Permissions

end JenticOne
