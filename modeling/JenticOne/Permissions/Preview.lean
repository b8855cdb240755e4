import JenticOne.Library.Lists
import JenticOne.Permissions.RuleMatcher

/-!
# The Preview Against the Enforcement

The user interface explains what a rule list does with a request, the broker
does it. The two decide by the same rule, unless one of two kinds of rules
matches for the interface only: a rule with an empty list of methods or
operations, which the broker never matches and for the interface constrains
nothing; and a rule whose path has two placeholders next to each other that a
supplementary character of the request's path, a single one for the broker, is
enough for.

## Main definitions

* `toUi`: A rule and a request as the interface gets them.
* `EmptyList`, `HalfMatched`: The two kinds of rules.
* `DecidedBefore`: An earlier rule decides wherever one of these matches.
* `Agrees`: The same index and the same effect.

## Theorems

* `halfMatched_rare`: What a rule of the second kind takes.
* `preview_agrees`: When the preview agrees.
* `empty_list_previewed`: A rule with an empty list of methods.
-/

namespace JenticOne

namespace Permissions

open Wildcard Utf16

/-! ## The two sides -/

def PermissionRuleSchema.toUi (rule : PermissionRuleSchema) : Ui.PermissionRule where
  effect := rule.effect
  methods := rule.methods.map (·.map encode)
  path := rule.path.map encode
  matchMode := some rule.matchMode
  operations := rule.operations.map (·.map encode)

def Request.toUi (req : Request) : Ui.Request where
  method := encode req.method
  path := encode req.path
  operationId := req.operationId.map encode

/-- A rule with a list that nothing is in. -/
def EmptyList (rule : PermissionRuleSchema) : Prop :=
  rule.methods = some [] ∨ rule.operations = some []

/-- The rule's path matches with the two units of a character counted as two
    characters, and not otherwise. -/
def HalfMatched (rule : PermissionRuleSchema) (req : Request) : Prop :=
  ∃ p, rule.path = some p ∧ hasPlaceholders p = true ∧
    templateMatches (unit '/') rule.matchMode (encodeTokens (template id p)) (encode req.path) =
      true ∧
    templateMatches '/' rule.matchMode (template id p) req.path = false

section Sides

variable (engine : Engine Char) (uiEngine : Engine Nat) (upper : Text → Text)

/-- A rule as the broker matches it. -/
def Matches (req : Request) (rule : PermissionRuleSchema) : Bool :=
  ruleMatches engine upper (compileRow engine upper rule) req

/-- A rule as the interface matches it. -/
def UiMatches (req : Request) (rule : PermissionRuleSchema) : Bool :=
  Ui.ruleMatches uiEngine upper (Ui.compileRule uiEngine upper 0 rule.toUi).1 req.toUi

/-- Before a rule of one of the two kinds that matches for the interface there
    is one that matches for the broker. -/
def DecidedBefore (rules : List PermissionRuleSchema) (req : Request) : Prop :=
  ∀ (i : Nat) (rule : PermissionRuleSchema), rules[i]? = some rule →
    UiMatches uiEngine upper req rule = true →
    EmptyList rule ∨ HalfMatched rule req →
      ∃ j < i, ∃ rule', rules[j]? = some rule' ∧ Matches engine upper req rule' = true

/-- The preview names the rule that decides, and its effect. -/
def Agrees (rules : List PermissionRuleSchema) (req : Request) : Prop :=
  (Ui.explainRules uiEngine upper 0 (rules.map (·.toUi)) req.toUi).1.ruleIndex =
      firstMatchingRule engine upper (rules.map (compileRow engine upper)) req ∧
    (Ui.explainRules uiEngine upper 0 (rules.map (·.toUi)) req.toUi).1.effect =
      ruleVerdict (rules.map (compileRow engine upper))
        (firstMatchingRule engine upper (rules.map (compileRow engine upper)) req)

/-! ## One rule -/

variable {engine uiEngine upper}

theorem contains_encode (l : List Text) (t : Text) :
    (l.map encode).contains (encode t) = l.contains t := by
  rw [Bool.eq_iff_iff, List.contains_iff_mem, List.contains_iff_mem, List.mem_map]
  constructor
  · rintro ⟨u, hu, h⟩
    rw [← encode_injective h]
    exact hu
  · exact fun h => ⟨t, h, rfl⟩

theorem toUpperCase_encode (t : Text) : Ui.toUpperCase upper (encode t) = encode (upper t) := by
  unfold Ui.toUpperCase
  rw [decode_encode]

theorem constraint_encode (l : Option (List Text)) :
    Ui.constraint (l.map (·.map encode)) = if l = some [] then none else l.map (·.map encode) := by
  cases l with
  | none => rfl
  | some l =>
      cases l with
      | nil => rfl
      | cons t l => rfl

/-- The conditions on the method. -/
theorem methods_agree {l : Option (List Text)} (hl : l ≠ some []) (method : Text) :
    ((Ui.constraint (l.map (·.map encode))).map (·.map (Ui.toUpperCase upper))).any
        (fun ms => !ms.contains (Ui.toUpperCase upper (encode method))) =
      (normalizeMethods upper l).any (fun ms => !ms.contains (upper method)) := by
  rw [constraint_encode, if_neg hl]
  cases l with
  | none => rfl
  | some l =>
      have hmap : (l.map encode).map (Ui.toUpperCase upper) = (l.map upper).map encode := by
        rw [List.map_map, List.map_map]
        exact List.map_congr_left fun t _ => toUpperCase_encode t
      change (!((l.map encode).map (Ui.toUpperCase upper)).contains _) =
        !(l.map upper).contains (upper method)
      rw [hmap, toUpperCase_encode, contains_encode]

/-- A path of an accepted rule is not empty. -/
theorem path_ne_nil {rule : PermissionRuleSchema} {p : Text}
    (hacc : rule.accepted engine = true) (hp : rule.path = some p) :
    p ≠ [] ∧ check engine (some p) rule.matchMode = none := by
  unfold PermissionRuleSchema.accepted validatePath at hacc
  rw [Bool.and_eq_true, Option.isNone_iff_eq_none, hp] at hacc
  refine ⟨fun he => ?_, hacc.1⟩
  rw [he] at hacc
  unfold check at hacc
  rw [Option.bind_some, if_neg (by decide), if_pos rfl] at hacc
  exact nomatch hacc.1

theorem isPrefixOf_encode (l s : Text) : (encode l).isPrefixOf (encode s) = l.isPrefixOf s := by
  rw [Bool.eq_iff_iff, List.isPrefixOf_iff_prefix, List.isPrefixOf_iff_prefix]
  exact encode_isPrefix

theorem eq_encode (s t : Text) : decide (encode s = encode t) = decide (s = t) := by
  rw [decide_eq_decide]
  exact ⟨encode_injective, congrArg encode⟩

/-- What matches by characters matches by units. -/
theorem templateMatches_units {mode : MatchMode} {ts : List (Token Char)} {s : Text}
    (h : templateMatches '/' mode ts s = true) :
    templateMatches (unit '/') mode (encodeTokens ts) (encode s) = true := by
  unfold templateMatches at h ⊢
  by_cases hmode : mode = .prefixMode
  · rw [if_pos hmode] at h ⊢
    rcases startmatch_iff.mp h with ⟨t, r, ht, rfl⟩
    exact startmatch_iff.mpr ⟨encode t, encode r, spells_encode ht, encode_append t r⟩
  · rw [if_neg hmode] at h ⊢
    exact fullmatch_iff.mpr (spells_encode (fullmatch_iff.mp h))

/-- The conditions on the path: the interface's are those of the broker, or the
    path is matched half. -/
theorem path_agree {rule : PermissionRuleSchema} (hacc : rule.accepted engine = true)
    (hmode : rule.matchMode ≠ .regexMode) (req : Request) :
    (Ui.compileMatcher uiEngine 0 (rule.path.map encode) rule.matchMode).1.any
        (fun m => !Ui.matcherMatches uiEngine m (encode req.path)) = true ↔
      (compileMatcher engine rule.path rule.matchMode).any (fun m => !m.matches engine req.path) =
        true ∧ ¬ HalfMatched rule req := by
  have hany : ∀ {β : Type} (o : Option β) (f : β → Bool), o.isSome = true →
      o.any (fun b => !f b) = !o.any f := by
    intro β o f ho
    cases o with
    | none => exact nomatch ho
    | some b => rfl
  cases hp : rule.path with
  | none => exact ⟨fun h => (nomatch h), fun h => (nomatch h.1)⟩
  | some p =>
      rcases path_ne_nil hacc hp with ⟨hne, hcheck⟩
      have hui : ((Ui.compileMatcher uiEngine 0 (some (encode p)) rule.matchMode).1).isSome =
          true := by
        rw [Ui.compileMatcher_some uiEngine hmode (fun h => hne (encode_eq_nil.mp h))]
        rfl
      rw [Option.map_some, hany _ _ hui, Ui.matches_compileMatcher hmode hne,
        hany (compileMatcher engine (some p) rule.matchMode) _ rfl,
        matches_compileMatcher hmode hcheck]
      unfold HalfMatched
      rw [hp]
      by_cases hplace : hasPlaceholders p = true
      · rw [if_pos hplace, if_pos hplace, Bool.not_eq_true', Bool.not_eq_true']
        constructor
        · intro hunits
          refine ⟨?_, fun ⟨q, hq, _, hmatch, _⟩ => ?_⟩
          · rw [Bool.eq_false_iff]
            exact fun hchars => absurd (templateMatches_units hchars) (by rw [hunits]; decide)
          · rw [← Option.some.inj hq, hunits] at hmatch
            exact absurd hmatch (by decide)
        · rintro ⟨hchars, hhalf⟩
          rw [Bool.eq_false_iff]
          exact fun hunits => hhalf ⟨p, rfl, hplace, hunits, hchars⟩
      · rw [if_neg hplace, if_neg hplace, isPrefixOf_encode, eq_encode]
        constructor
        · exact fun h => ⟨h, fun ⟨q, hq, hq', _⟩ => hplace (by rw [Option.some.inj hq]; exact hq')⟩
        · exact fun h => h.1

/-- The conditions on the operation. -/
theorem operations_agree {l : Option (List Text)} (hl : l ≠ some []) (operationId : Option Text) :
    (∃ ops, Ui.constraint (l.map (·.map encode)) = some ops ∧
        (operationId.map encode).any (fun operationId => ops.contains operationId) = false) ↔
      ∃ ops, l = some ops ∧
        operationId.any (fun operationId => ops.contains operationId) = false := by
  rw [constraint_encode, if_neg hl]
  have hany : ∀ ops : List Text,
      (operationId.map encode).any (fun operationId => (ops.map encode).contains operationId) =
        operationId.any (fun operationId => ops.contains operationId) := by
    intro ops
    cases operationId with
    | none => rfl
    | some o => exact contains_encode ops o
  cases l with
  | none => exact ⟨fun ⟨_, h, _⟩ => (nomatch h), fun ⟨_, h, _⟩ => (nomatch h)⟩
  | some ops =>
      constructor
      · rintro ⟨_, h, hno⟩
        rw [← Option.some.inj h, hany] at hno
        exact ⟨ops, rfl, hno⟩
      · rintro ⟨_, h, hno⟩
        rw [← Option.some.inj h] at hno
        exact ⟨_, rfl, by rw [hany]; exact hno⟩

theorem either_fails {a b c : Bool} :
    (if a then false else if b then false else c) = false ↔ a = true ∨ b = true ∨ c = false := by
  cases a <;> cases b <;> cases c <;> decide

/-- A rule does not match the request by one of its conditions. -/
theorem ruleMatches_eq_false {rule : PermissionRule} {req : Request} :
    ruleMatches engine upper rule req = false ↔
      rule.methods.any (fun methods => !methods.contains (upper req.method)) = true ∨
        rule.path.any (fun path => !path.matches engine req.path) = true ∨
        ∃ ops, rule.operations = some ops ∧
          req.operationId.any (fun operationId => ops.contains operationId) = false := by
  unfold ruleMatches
  rw [either_fails]
  cases rule.operations with
  | none => exact or_congr_right (or_congr_right ⟨fun h => (nomatch h), fun ⟨_, h, _⟩ => (nomatch h)⟩)
  | some ops =>
      refine or_congr_right (or_congr_right ⟨fun h => ⟨ops, rfl, h⟩, fun ⟨ops', hops, h⟩ => ?_⟩)
      rw [← Option.some.inj hops] at h
      exact h

theorem ui_ruleMatches_eq_false {rule : Ui.CompiledRule} {req : Ui.Request} :
    Ui.ruleMatches uiEngine upper rule req = false ↔
      rule.methods.any (fun methods => !methods.contains (Ui.toUpperCase upper req.method)) = true ∨
        rule.path.any (fun path => !Ui.matcherMatches uiEngine path req.path) = true ∨
        ∃ ops, rule.operations = some ops ∧
          req.operationId.any (fun operationId => ops.contains operationId) = false := by
  unfold Ui.ruleMatches
  rw [either_fails]
  cases rule.operations with
  | none => exact or_congr_right (or_congr_right ⟨fun h => (nomatch h), fun ⟨_, h, _⟩ => (nomatch h)⟩)
  | some ops =>
      refine or_congr_right (or_congr_right ⟨fun h => ⟨ops, rfl, h⟩, fun ⟨ops', hops, h⟩ => ?_⟩)
      rw [← Option.some.inj hops] at h
      exact h

/-- A rule that is neither of the two kinds matches alike. -/
theorem matches_agree {rule : PermissionRuleSchema} (hacc : rule.accepted engine = true)
    (hmode : rule.matchMode ≠ .regexMode) (req : Request) (hempty : ¬ EmptyList rule)
    (hhalf : ¬ HalfMatched rule req) :
    UiMatches uiEngine upper req rule = Matches engine upper req rule := by
  have hmethods : rule.methods ≠ some [] := fun h => hempty (Or.inl h)
  have hoperations : rule.operations ≠ some [] := fun h => hempty (Or.inr h)
  have hiff : UiMatches uiEngine upper req rule = false ↔ Matches engine upper req rule = false := by
    unfold UiMatches Matches
    rw [ui_ruleMatches_eq_false, ruleMatches_eq_false]
    refine or_congr ?_ (or_congr ?_ ?_)
    · exact Bool.eq_iff_iff.mp (methods_agree hmethods req.method)
    · exact (path_agree hacc hmode req).trans ⟨fun h => h.1, fun h => ⟨h, hhalf⟩⟩
    · exact operations_agree hoperations req.operationId
  rw [Bool.eq_iff_iff, ← Bool.not_eq_false, ← Bool.not_eq_false]
  exact not_congr hiff

/-- A rule of one of the two kinds does not match for the broker. -/
theorem not_matches_of_kind {rule : PermissionRuleSchema} (hacc : rule.accepted engine = true)
    (hmode : rule.matchMode ≠ .regexMode) {req : Request}
    (hkind : EmptyList rule ∨ HalfMatched rule req) : Matches engine upper req rule = false := by
  refine ruleMatches_eq_false.mpr ?_
  rcases hkind with (hempty | hempty) | ⟨p, hp, hplace, _, hchars⟩
  · refine Or.inl ?_
    change (normalizeMethods upper rule.methods).any _ = true
    rw [hempty]
    rfl
  · refine Or.inr (Or.inr ⟨[], hempty, ?_⟩)
    cases req.operationId <;> rfl
  · refine Or.inr (Or.inl ?_)
    change (compileMatcher engine rule.path rule.matchMode).any _ = true
    have hmatch := matches_compileMatcher hmode (path_ne_nil hacc hp).2 req.path
    rw [if_pos hplace, hchars] at hmatch
    rw [hp]
    unfold compileMatcher at hmatch ⊢
    rw [Option.map_some, Option.any_some] at hmatch ⊢
    rw [hmatch]
    rfl

/-- What matches for the broker matches for the interface. -/
theorem uiMatches_of_matches {rule : PermissionRuleSchema} (hacc : rule.accepted engine = true)
    (hmode : rule.matchMode ≠ .regexMode) {req : Request}
    (h : Matches engine upper req rule = true) : UiMatches uiEngine upper req rule = true := by
  have hkind : ¬ (EmptyList rule ∨ HalfMatched rule req) := by
    intro hkind
    rw [not_matches_of_kind hacc hmode hkind] at h
    exact absurd h (by decide)
  rw [not_or] at hkind
  rw [matches_agree hacc hmode req hkind.1 hkind.2]
  exact h

/-- A path that is matched half has two placeholders next to each other, and
    the request's path a supplementary character. -/
theorem halfMatched_rare {rule : PermissionRuleSchema} {req : Request}
    (h : HalfMatched rule req) :
    (∃ p, rule.path = some p ∧ ¬ Apart (template id p)) ∧
      ∃ c ∈ req.path, 0x10000 ≤ c.toNat := by
  rcases h with ⟨p, hp, _, hunits, hchars⟩
  have hboth : ¬ (Apart (template id p) ∨ Basic req.path) := by
    intro hboth
    unfold templateMatches at hunits hchars
    by_cases hmode : rule.matchMode = .prefixMode
    · rw [if_pos hmode, startmatch_encode hboth] at hunits
      rw [if_pos hmode, hunits] at hchars
      exact absurd hchars (by decide)
    · rw [if_neg hmode, fullmatch_encode hboth] at hunits
      rw [if_neg hmode, hunits] at hchars
      exact absurd hchars (by decide)
  rw [not_or] at hboth
  refine ⟨⟨p, hp, hboth.1⟩, ?_⟩
  by_contra hnone
  push Not at hnone
  exact hboth.2 hnone

example : templateMatches (unit '/') .exactMode (encodeTokens (template id "/{a}{b}".toList))
      (encode ['/', Char.ofNat 0x1F600]) = true ∧
    templateMatches '/' .exactMode (template id "/{a}{b}".toList)
      ['/', Char.ofNat 0x1F600] = false := by
  decide

/-- An accepted rule that does more than deny has a condition. -/
theorem given_of_accepted {rule : PermissionRuleSchema} (hacc : rule.accepted engine = true)
    (heffect : rule.effect ∈ conditionRequiredEffects) :
    given rule.methods = true ∨ given rule.path = true ∨ given rule.operations = true := by
  unfold PermissionRuleSchema.accepted at hacc
  rw [Bool.and_eq_true, decide_eq_true heffect, Bool.true_and, Bool.not_not, Bool.or_eq_true,
    Bool.or_eq_true, or_assoc] at hacc
  exact hacc.2

theorem given_iff {β : Type} {l : Option (List β)} :
    given l = true ↔ ∃ a as, l = some (a :: as) := by
  cases l with
  | none => exact ⟨fun h => (nomatch h), fun ⟨_, _, h⟩ => (nomatch h)⟩
  | some l =>
      cases l with
      | nil => exact ⟨fun h => (nomatch h), fun ⟨_, _, h⟩ => (nomatch h)⟩
      | cons a as => exact ⟨fun _ => ⟨a, as, rfl⟩, fun _ => rfl⟩

/-- An accepted rule is not skipped, on either side. -/
theorem takes_eq {rule : PermissionRuleSchema} (hacc : rule.accepted engine = true)
    (hmode : rule.matchMode ≠ .regexMode) (req : Request) :
    takes engine upper req (compileRow engine upper rule) = Matches engine upper req rule ∧
      Ui.takes uiEngine upper req.toUi rule.toUi = UiMatches uiEngine upper req rule := by
  have hskip : (isConditionLess (compileRow engine upper rule) &&
        decide (rule.effect ∈ conditionRequiredEffects)) = false ∧
      (Ui.isConditionLess (Ui.compileRule uiEngine upper 0 rule.toUi).1 &&
        decide (rule.effect ≠ .deny)) = false := by
    by_cases heffect : rule.effect ∈ conditionRequiredEffects
    · have hless : isConditionLess (compileRow engine upper rule) = false ∧
          Ui.isConditionLess (Ui.compileRule uiEngine upper 0 rule.toUi).1 = false := by
        unfold isConditionLess Ui.isConditionLess
        rcases given_of_accepted hacc heffect with h | h | h
        · rcases given_iff.mp h with ⟨a, as, h⟩
          unfold compileRow Ui.compileRule PermissionRuleSchema.toUi
          rw [h]
          exact ⟨rfl, rfl⟩
        · rcases given_iff.mp h with ⟨a, as, h⟩
          have hne : encode (a :: as) ≠ [] := fun he => (nomatch encode_eq_nil.mp he)
          have hui : (Ui.compileRule uiEngine upper 0 rule.toUi).1.path.isNone = false := by
            change (Ui.compileMatcher uiEngine 0 (rule.path.map encode) rule.matchMode).1.isNone = _
            rw [h, Option.map_some, Ui.compileMatcher_some uiEngine hmode hne]
            rfl
          have hpy : (compileRow engine upper rule).path.isNone = false := by
            change (compileMatcher engine rule.path rule.matchMode).isNone = _
            rw [h]
            rfl
          rw [hui, hpy, Bool.and_false, Bool.and_false]
          exact ⟨rfl, rfl⟩
        · rcases given_iff.mp h with ⟨a, as, h⟩
          have hui : (Ui.compileRule uiEngine upper 0 rule.toUi).1.operations.isNone = false := by
            change (Ui.constraint (rule.operations.map (·.map encode))).isNone = _
            rw [h]
            rfl
          have hpy : (compileRow engine upper rule).operations.isNone = false := by
            change rule.operations.isNone = _
            rw [h]
            rfl
          rw [hui, hpy, Bool.and_false, Bool.and_false]
          exact ⟨rfl, rfl⟩
      rw [hless.1, hless.2]
      exact ⟨rfl, rfl⟩
    · have hdeny : rule.effect = .deny := by
        cases heff : rule.effect with
        | deny => rfl
        | allow => rw [heff] at heffect; exact absurd (by decide) heffect
        | requireApproval => rw [heff] at heffect; exact absurd (by decide) heffect
      rw [decide_eq_false heffect, decide_eq_false (fun h => h hdeny), Bool.and_false,
        Bool.and_false]
      exact ⟨rfl, rfl⟩
  constructor
  · unfold takes Matches
    change (!(isConditionLess (compileRow engine upper rule) &&
      decide (rule.effect ∈ conditionRequiredEffects)) && _) = _
    rw [hskip.1]
    rfl
  · unfold Ui.takes UiMatches
    change (!(Ui.isConditionLess (Ui.compileRule uiEngine upper 0 rule.toUi).1 &&
      decide (rule.effect ≠ .deny)) && _) = _
    rw [hskip.2]
    rfl

/-! ## The whole list -/

theorem findIdx?_takes {rules : List PermissionRuleSchema} {req : Request}
    (hacc : ∀ rule ∈ rules, rule.accepted engine = true)
    (hmode : ∀ rule ∈ rules, rule.matchMode ≠ .regexMode) :
    (rules.map (compileRow engine upper)).findIdx? (takes engine upper req) =
        rules.findIdx? (Matches engine upper req) ∧
      (rules.map (·.toUi)).findIdx? (Ui.takes uiEngine upper req.toUi) =
        rules.findIdx? (UiMatches uiEngine upper req) := by
  induction rules with
  | nil => exact ⟨rfl, rfl⟩
  | cons rule rules ih =>
      have ih := ih (fun r hr => hacc r (List.mem_cons_of_mem rule hr))
        (fun r hr => hmode r (List.mem_cons_of_mem rule hr))
      have htakes := @takes_eq engine uiEngine upper rule (hacc rule List.mem_cons_self)
        (hmode rule List.mem_cons_self) req
      rw [List.map_cons, List.map_cons, List.findIdx?_cons, List.findIdx?_cons,
        List.findIdx?_cons, List.findIdx?_cons, htakes.1, htakes.2, ih.1, ih.2]
      exact ⟨rfl, rfl⟩

/-- The effect of the rule at an index, on either side. -/
theorem effect_agree {rules : List PermissionRuleSchema} {idx : Option Nat} :
    ((idx.bind ((rules.map (·.toUi))[·]?)).map Ui.PermissionRule.effect).getD .deny =
      ruleVerdict (rules.map (compileRow engine upper)) idx := by
  unfold ruleVerdict
  cases idx with
  | none => rfl
  | some i =>
      rw [Option.bind_some, Option.bind_some, List.getElem?_map, List.getElem?_map]
      cases rules[i]? with
      | none => rfl
      | some rule =>
          change rule.effect = if rule.effect ∈ conditionRequiredEffects then rule.effect else .deny
          cases rule.effect <;> decide

/-- The preview agrees with the enforcement just if, before every rule with an
    empty list or a path that is matched half which matches for the interface,
    there is a rule that matches for the broker. -/
theorem preview_agrees {rules : List PermissionRuleSchema} (req : Request)
    (hacc : ∀ rule ∈ rules, rule.accepted engine = true)
    (hmode : ∀ rule ∈ rules, rule.matchMode ≠ .regexMode) :
    Agrees engine uiEngine upper rules req ↔ DecidedBefore engine uiEngine upper rules req := by
  have hidx := @findIdx?_takes engine uiEngine upper rules req hacc hmode
  have hui := Ui.explainFrom_eq uiEngine upper req.toUi 0 (rules.map (·.toUi))
  have hsearch := Lists.findIdx?_eq_iff (p := UiMatches uiEngine upper req)
    (q := Matches engine upper req) (l := rules)
    (fun rule hrule => uiMatches_of_matches (hacc rule hrule) (hmode rule hrule))
  have hagrees : Agrees engine uiEngine upper rules req ↔
      rules.findIdx? (UiMatches uiEngine upper req) =
        rules.findIdx? (Matches engine upper req) := by
    have hzero : ∀ o : Option Nat, o.map (· + 0) = o := fun o => Option.map_id'
    unfold Agrees Ui.explainRules
    rw [hui.1, hui.2.1, firstMatchingRule_eq, hidx.1, List.find?_eq_bind_findIdx?_getElem?,
      hidx.2, hzero]
    constructor
    · exact fun h => h.1
    · intro h
      rw [h]
      exact ⟨rfl, effect_agree⟩
  rw [hagrees, hsearch]
  unfold DecidedBefore
  refine forall_congr' fun i => forall_congr' fun rule => forall_congr' fun hi =>
    forall_congr' fun hmatch => ?_
  have hmem := List.mem_of_getElem? hi
  constructor
  · intro h hkind
    exact h (not_matches_of_kind (hacc rule hmem) (hmode rule hmem) hkind)
  · intro h hpy
    refine h ?_
    by_contra hkind
    rw [not_or] at hkind
    rw [matches_agree (hacc rule hmem) (hmode rule hmem) req hkind.1 hkind.2, hpy] at hmatch
    exact absurd hmatch (by decide)

end Sides

/-! ## A rule with an empty list -/

/-- An engine for rules that have no pattern. -/
def idleEngine (α : Type) : Engine α := ⟨fun _ => none, fun _ => false, fun _ _ => false⟩

def asciiUpper (s : Text) : Text := s.map Char.toUpper

def listRule (methods : List Text) : PermissionRuleSchema :=
  ⟨.allow, some methods, some "/pets/{id}".toList, .prefixMode, none⟩

def petRequest : Request := ⟨"get".toList, "/pets/7".toList, none⟩

theorem preview_agrees_listRule :
    Agrees (idleEngine Char) (idleEngine Nat) asciiUpper [listRule ["GET".toList]] petRequest := by
  refine (preview_agrees petRequest ?_ ?_).mpr ?_
  · intro rule hrule
    rw [List.mem_singleton.mp hrule]
    decide
  · intro rule hrule
    rw [List.mem_singleton.mp hrule]
    decide
  · intro i rule hi _ hkind
    exfalso
    cases i with
    | zero =>
        rw [List.getElem?_cons_zero, Option.some.injEq] at hi
        rw [← hi] at hkind
        rcases hkind with (hempty | hempty) | hhalf
        · exact absurd hempty (by decide)
        · exact absurd hempty (by decide)
        · rcases (halfMatched_rare hhalf).2 with ⟨c, hc, hlarge⟩
          have hbasic : (petRequest.path.all fun c => c.toNat < 0x10000) = true := rfl
          have := of_decide_eq_true (List.all_eq_true.mp hbasic c hc)
          omega
    | succ i => exact absurd hi (by simp only [List.getElem?_cons_succ, List.getElem?_nil,
        reduceCtorEq, not_false_eq_true])

/-- A rule with an empty list of methods is accepted, allows for the interface
    and decides nothing for the broker. -/
theorem empty_list_previewed :
    (listRule []).accepted (idleEngine Char) = true ∧
      (Ui.explainRules (idleEngine Nat) asciiUpper 0 [(listRule []).toUi] petRequest.toUi).1.effect =
        .allow ∧
      firstMatchingRule (idleEngine Char) asciiUpper
        [compileRow (idleEngine Char) asciiUpper (listRule [])] petRequest = none ∧
      ¬ Agrees (idleEngine Char) (idleEngine Nat) asciiUpper [listRule []] petRequest := by
  have hpy : firstMatchingRule (idleEngine Char) asciiUpper
      [compileRow (idleEngine Char) asciiUpper (listRule [])] petRequest = none := by decide +kernel
  have hui : (Ui.explainRules (idleEngine Nat) asciiUpper 0 [(listRule []).toUi]
      petRequest.toUi).1.effect = .allow := by decide +kernel
  have hindex : (Ui.explainRules (idleEngine Nat) asciiUpper 0 [(listRule []).toUi]
      petRequest.toUi).1.ruleIndex = some 0 := by decide +kernel
  refine ⟨by decide, hui, hpy, fun h => ?_⟩
  have hsame := h.1
  change (Ui.explainRules (idleEngine Nat) asciiUpper 0 [(listRule []).toUi]
    petRequest.toUi).1.ruleIndex = firstMatchingRule (idleEngine Char) asciiUpper
      [compileRow (idleEngine Char) asciiUpper (listRule [])] petRequest at hsame
  rw [hindex, hpy] at hsame
  exact absurd hsame (by decide)

end Permissions

end JenticOne
