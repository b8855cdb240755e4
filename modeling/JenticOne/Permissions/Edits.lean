import JenticOne.Permissions.Evaluation

/-!
# Edits of a Binding

A change of an existing binding is resolved against what the binding holds, its
baseline, into the result that confirming it would leave: rules, scopes and
whether the binding is suspended. The rules are those of the attached rule set,
if there is one, else the binding's own.

`widensAccess` compares the two lists of rules as texts and says whether the
result could let the agent do more. Rules are read first match first, so that
what a rule does depends on the ones before it. `Unflagged` is what the
comparison finds nothing in. A rule that asks for approval and is dropped is not
looked at, and where it stood in front of a rule that allows, the request that
it used to hold is run at once.

## Main definitions

* `resolveEdit`: The result of a change.
* `widensAccess`, `addedScopes`: What confirming it adds.
* `verdict`: What the rules of a binding do with a request.
* `NotWider`: The result lets the agent do no more.
* `AskUncovered`: A dropped rule that asked, in front of one that allows.

## Theorems

* `widensAccess_eq_false_iff`: What the comparison finds nothing in.
* `verdict_cases`: The rules that decide before and after.
* `notWider_iff`: What is not flagged is not wider, but for such a rule.
-/

namespace JenticOne

namespace Permissions

namespace Edits

/-! ## Rules -/

/-- A rule as an edit reads it. A rule that is added has no id. -/
structure Rule where
  id : Option Text
  effect : Effect
  methods : Option (List Text)
  path : Option Text
  matchMode : Option MatchMode
  operations : Option (List Text)
  comment : Option Text

/-- A rule's comparable content. -/
structure RuleContent where
  effect : Effect
  methods : Option (List Text)
  path : Option Text
  matchMode : MatchMode
  operations : Option (List Text)
  comment : Option Text
  deriving DecidableEq

/-- `rule_content`. -/
def ruleContent (rule : Rule) : RuleContent where
  effect := rule.effect
  methods := rule.methods
  path := rule.path
  matchMode := rule.matchMode.getD .regexMode
  operations := rule.operations
  comment := rule.comment

/-- `rule_match`: what a rule does, without its comment. -/
def ruleMatch (rule : Rule) : RuleContent := { ruleContent rule with comment := none }

/-- `{"id": id, **content}`. -/
def RuleContent.rule (content : RuleContent) (id : Option Text) : Rule where
  id := id
  effect := content.effect
  methods := content.methods
  path := content.path
  matchMode := some content.matchMode
  operations := content.operations
  comment := content.comment

/-- `rule_to_write`: the rule as it is stored. -/
def RuleContent.row (content : RuleContent) : PermissionRuleSchema where
  effect := content.effect
  methods := content.methods
  path := content.path
  matchMode := content.matchMode
  operations := content.operations

/-! ## Baseline, request and result -/

structure Baseline where
  rules : List Rule
  /-- The rules of the attached rule set. -/
  ruleSet : Option (List Rule)
  suspended : Bool
  /-- `None` for a credential without an OAuth grant. -/
  grantedScopes : Option (List Text)

structure RuleAdd where
  rule : Rule
  before : Option Text

structure EditRequest where
  add : List RuleAdd
  remove : List Text
  setRules : Option (List Rule)
  addScopes : List Text
  removeScopes : List Text
  setScopes : Option (List Text)
  resume : Bool

structure EditResult where
  rules : List Rule
  scopes : List Text
  suspended : Bool

inductive EditError
  | unknownRule (id : Text)
  | scopesNotSupported

/-- `target_rules`: the rule list an edit changes. -/
def targetRules (baseline : Baseline) : List Rule := baseline.ruleSet.getD baseline.rules

/-! ## Resolving a request -/

/-- `check`: the target list holds the rule. The ids that it does not hold are
    dropped from a lenient request, and refused otherwise. -/
def checkKnown (rules : List Rule) (lenient : Bool) (ruleId : Text) (dropped : List Text) :
    Except EditError (Bool × List Text) :=
  if rules.any (·.id = some ruleId) then .ok (true, dropped)
  else if lenient then .ok (false, dropped ++ [ruleId])
  else .error (.unknownRule ruleId)

/-- `{rule_id for rule_id in request.remove if check(rule_id)}`. -/
def checkedRemovals (rules : List Rule) (lenient : Bool) :
    List Text → List Text → Except EditError (List Text × List Text)
  | [], dropped => .ok ([], dropped)
  | ruleId :: remove, dropped => do
    let (held, dropped) ← checkKnown rules lenient ruleId dropped
    let (removed, dropped) ← checkedRemovals rules lenient remove dropped
    return (if held then ruleId :: removed else removed, dropped)

/-- `_follows`: the rule sat after the anchor in the baseline order. -/
def follows (rules : List Rule) (rule : Rule) (anchor : Text) : Bool :=
  match rules.findIdx? (·.id = rule.id), rules.findIdx? (·.id = some anchor) with
  | some i, some j => rule.id.isSome && j < i
  | _, _ => false

/-- The place of a rule that is added before another one. -/
def anchorIndex (rules resolved : List Rule) (removed : List Text) (before : Text) : Nat :=
  if before ∈ removed then (resolved.findIdx? (follows rules · before)).getD resolved.length
  else (resolved.findIdx? (·.id = some before)).getD resolved.length

/-- The rules with the added ones, each at its place unless it is already there. -/
def addRules (rules : List Rule) (lenient : Bool) (removed : List Text) :
    List RuleAdd → List Rule → List Text → Except EditError (List Rule × List Text)
  | [], resolved, dropped => .ok (resolved, dropped)
  | add :: adds, resolved, dropped => do
    let new := (ruleContent add.rule).rule none
    if resolved.any (ruleMatch · = ruleMatch new) then
      addRules rules lenient removed adds resolved dropped
    else
      match add.before with
      | none => addRules rules lenient removed adds (resolved ++ [new]) dropped
      | some before =>
        let (held, dropped) ← checkKnown rules lenient before dropped
        if held then
          let index := anchorIndex rules resolved removed before
          addRules rules lenient removed adds (resolved.insertIdx index new) dropped
        else addRules rules lenient removed adds (resolved ++ [new]) dropped

/-- A full list: a rule that the binding already has keeps its id, and one that
    the list already has is left out. -/
def setRules : List Rule → List Rule → List Rule → List Rule
  | _, [], resolved => resolved
  | pool, rule :: rules, resolved =>
    if resolved.any (ruleMatch · = ruleMatch rule) then setRules pool rules resolved
    else
      match pool.findIdx? (ruleContent · = ruleContent rule) with
      | some i => setRules (pool.eraseIdx i) rules
          (resolved ++ [(ruleContent rule).rule (pool[i]?.bind (·.id))])
      | none => setRules pool rules (resolved ++ [(ruleContent rule).rule none])

/-- `sorted(set(…))`. -/
def sorted (scopes : List Text) : List Text := scopes.dedup.insertionSort (· ≤ ·)

/-- The scopes that a request asks for. -/
def resolveScopes (granted : Option (List Text)) (request : EditRequest) :
    Except EditError (List Text) :=
  let asks := !request.addScopes.isEmpty || !request.removeScopes.isEmpty ||
    request.setScopes.isSome
  if asks && granted.isNone then .error .scopesNotSupported
  else
    match request.setScopes with
    | some scopes => .ok (sorted scopes)
    | none => .ok (sorted ((granted.getD [] ++ request.addScopes).filter
        (· ∉ request.removeScopes)))

/-- `resolve_edit`: the result, and the ids that were dropped. -/
def resolveEdit (baseline : Baseline) (request : EditRequest) (lenient : Bool) :
    Except EditError (EditResult × List Text) := do
  let rules := targetRules baseline
  let (resolved, dropped) ←
    match request.setRules with
    | some set => pure (setRules rules set [], [])
    | none => do
      let (removed, dropped) ← checkedRemovals rules lenient request.remove []
      addRules rules lenient removed request.add
        (rules.filter fun r => !r.id.any (removed.contains ·)) dropped
  let scopes ← resolveScopes baseline.grantedScopes request
  return (⟨resolved, scopes, baseline.suspended && !request.resume⟩, dropped)

/-! ## Widening -/

/-- `_GRANTING_EFFECTS`. -/
def grantingEffects : List Effect := [.allow, .requireApproval]

/-- `added_scopes`. -/
def addedScopes (baseline : Baseline) (result : EditResult) : List Text :=
  sorted (result.scopes.filter (· ∉ baseline.grantedScopes.getD []))

/-- `widens_access`. -/
def widensAccess (baseline : Baseline) (result : EditResult) : Bool :=
  let before := (targetRules baseline).map ruleContent
  let after := result.rules.map ruleContent
  if baseline.suspended && !result.suspended then true
  else if !(addedScopes baseline result).isEmpty then true
  else if after.any fun r => r ∉ before && r.effect ∈ grantingEffects then true
  else if before.any fun r => r ∉ after && r.effect = .deny then true
  else before.filter (· ∈ after) ≠ after.filter (· ∈ before)

/-- What the comparison finds nothing in: no binding resumed and no scope added,
    no granting rule added and no denying rule dropped, and the other rules in
    their order. -/
structure Unflagged (baseline : Baseline) (result : EditResult) : Prop where
  resumed : baseline.suspended = true → result.suspended = true
  scopes : ∀ scope ∈ result.scopes, scope ∈ baseline.grantedScopes.getD []
  added : ∀ r ∈ result.rules.map ruleContent, r ∉ (targetRules baseline).map ruleContent →
    r.effect = .deny
  dropped : ∀ r ∈ (targetRules baseline).map ruleContent, r ∉ result.rules.map ruleContent →
    r.effect ≠ .deny
  order : ((targetRules baseline).map ruleContent).filter (· ∈ result.rules.map ruleContent) =
    (result.rules.map ruleContent).filter (· ∈ (targetRules baseline).map ruleContent)

theorem mem_sorted {scopes : List Text} {scope : Text} : scope ∈ sorted scopes ↔ scope ∈ scopes := by
  rw [sorted, List.mem_insertionSort, List.mem_dedup]

theorem addedScopes_isEmpty (baseline : Baseline) (result : EditResult) :
    (addedScopes baseline result).isEmpty = true ↔
      ∀ scope ∈ result.scopes, scope ∈ baseline.grantedScopes.getD [] := by
  rw [List.isEmpty_iff, List.eq_nil_iff_forall_not_mem]
  constructor
  · intro h scope hscope
    by_contra hnew
    exact h scope (mem_sorted.mpr (List.mem_filter.mpr ⟨hscope, decide_eq_true hnew⟩))
  · intro h scope hscope
    obtain ⟨hmem, hnew⟩ := List.mem_filter.mp (mem_sorted.mp hscope)
    exact of_decide_eq_true hnew (h scope hmem)

theorem granting_iff (e : Effect) : e ∈ grantingEffects ↔ e ≠ .deny := by
  cases e <;> decide

/-- The comparison finds nothing exactly in these. -/
theorem widensAccess_eq_false_iff (baseline : Baseline) (result : EditResult) :
    widensAccess baseline result = false ↔ Unflagged baseline result := by
  rw [widensAccess]
  constructor
  · intro h
    split at h
    · exact absurd h.symm Bool.false_ne_true
    next hresumed =>
    split at h
    · exact absurd h.symm Bool.false_ne_true
    next hscopes =>
    split at h
    · exact absurd h.symm Bool.false_ne_true
    next hadded =>
    split at h
    · exact absurd h.symm Bool.false_ne_true
    next hdropped =>
    refine ⟨fun hs => ?_, (addedScopes_isEmpty baseline result).mp ?_, fun r hr hnew => ?_,
      fun r hr hgone hdeny => ?_, ?_⟩
    · by_contra hr
      exact hresumed (by rw [hs, Bool.eq_false_iff.mpr hr]; rfl)
    · by_contra he
      exact hscopes (by rw [Bool.eq_false_iff.mpr he]; rfl)
    · by_contra he
      refine hadded (List.any_eq_true.mpr ⟨r, hr, ?_⟩)
      rw [Bool.and_eq_true, decide_eq_true_eq, decide_eq_true_eq]
      exact ⟨hnew, (granting_iff r.effect).mpr he⟩
    · refine hdropped (List.any_eq_true.mpr ⟨r, hr, ?_⟩)
      rw [Bool.and_eq_true, decide_eq_true_eq, decide_eq_true_eq]
      exact ⟨hgone, hdeny⟩
    · exact not_not.mp (of_decide_eq_false h)
  · intro h
    rw [if_neg, if_neg, if_neg, if_neg]
    · exact decide_eq_false (not_not.mpr h.order)
    · intro hany
      obtain ⟨r, hr, hboth⟩ := List.any_eq_true.mp hany
      rw [Bool.and_eq_true, decide_eq_true_eq, decide_eq_true_eq] at hboth
      exact h.dropped r hr hboth.1 hboth.2
    · intro hany
      obtain ⟨r, hr, hboth⟩ := List.any_eq_true.mp hany
      rw [Bool.and_eq_true, decide_eq_true_eq, decide_eq_true_eq] at hboth
      exact (granting_iff r.effect).mp hboth.2 (h.added r hr hboth.1)
    · rw [(addedScopes_isEmpty baseline result).mpr h.scopes]
      exact Bool.false_ne_true
    · intro hboth
      rw [Bool.and_eq_true, Bool.not_eq_true'] at hboth
      rw [h.resumed hboth.1] at hboth
      exact absurd hboth.2.symm Bool.false_ne_true

/-! ## Verdicts -/

section Verdicts

variable (engine : Engine Char) (upper : Text → Text)

/-- The rules as they are stored and compiled. -/
def compiled (rules : List Rule) : List PermissionRule :=
  rules.map fun rule => compileRow engine upper (ruleContent rule).row

/-- What the rules of a binding do with a request. A suspended binding denies. -/
def verdict (rules : List Rule) (suspended : Bool) (req : Request) : Effect :=
  if suspended then .deny
  else ruleVerdict (compiled engine upper rules)
    (firstMatchingRule engine upper (compiled engine upper rules) req)

/-- Deny, require approval, allow. -/
def rank : Effect → Nat
  | .deny => 0
  | .requireApproval => 1
  | .allow => 2

/-- The result is no more permissive on a request, and grants no new scope. -/
structure NotWider (baseline : Baseline) (result : EditResult) : Prop where
  verdicts : ∀ req, rank (verdict engine upper result.rules result.suspended req) ≤
    rank (verdict engine upper (targetRules baseline) baseline.suspended req)
  scopes : ∀ scope ∈ result.scopes, scope ∈ baseline.grantedScopes.getD []

/-- A rule with this content takes the request. -/
def contentTakes (req : Request) (c : RuleContent) : Bool :=
  takes engine upper req (compileRow engine upper c.row)

/-- The rule decides the request: it is the first to take it. -/
def Decides (cs : List RuleContent) (req : Request) (c : RuleContent) : Prop :=
  ∃ front back, cs = front ++ c :: back ∧ contentTakes engine upper req c = true ∧
    ∀ c' ∈ front, contentTakes engine upper req c' = false

/-- Of a request that a rule asked approval for, and that the result allows, the
    rule is dropped. -/
structure AskUncovered (baseline : Baseline) (result : EditResult) (req : Request) : Prop where
  active : result.suspended = false
  asked : ∃ ask, Decides engine upper ((targetRules baseline).map ruleContent) req ask ∧
    ask.effect = .requireApproval ∧ ask ∉ result.rules.map ruleContent
  allowed : ∃ allow, Decides engine upper (result.rules.map ruleContent) req allow ∧
    allow.effect = .allow

variable {engine upper}

theorem decides_iff {cs : List RuleContent} {req : Request} {c : RuleContent} :
    Decides engine upper cs req c ↔ cs.find? (contentTakes engine upper req) = some c := by
  rw [List.find?_eq_some_iff_append]
  constructor
  · rintro ⟨front, back, hcs, htakes, hfront⟩
    exact ⟨htakes, front, back, hcs, fun c' hc' => by rw [hfront c' hc']; rfl⟩
  · rintro ⟨htakes, front, back, hcs, hfront⟩
    exact ⟨front, back, hcs, htakes, fun c' hc' => by
      simpa only [Bool.not_eq_true'] using hfront c' hc'⟩

/-- The verdict is the effect of the rule that decides, or to deny. -/
theorem verdict_eq (rules : List Rule) (req : Request) :
    verdict engine upper rules false req =
      (((rules.map ruleContent).find? (contentTakes engine upper req)).map
        RuleContent.effect).getD .deny := by
  have hfind : (compiled engine upper rules).find? (takes engine upper req) =
      ((rules.map ruleContent).find? (contentTakes engine upper req)).map
        fun c => compileRow engine upper c.row := by
    have hmap : compiled engine upper rules =
        (rules.map ruleContent).map fun c => compileRow engine upper c.row := by
      rw [List.map_map]
      rfl
    rw [hmap, List.find?_map]
    rfl
  rw [verdict, if_neg Bool.false_ne_true, firstMatchingRule_eq, ruleVerdict,
    ← List.find?_eq_bind_findIdx?_getElem?, hfind]
  cases (rules.map ruleContent).find? (contentTakes engine upper req) with
  | none => rfl
  | some c =>
      change (if c.effect ∈ conditionRequiredEffects then c.effect else .deny) = c.effect
      cases c.effect <;> decide

/-- The first kept rule that takes a request is the same before and after. -/
theorem find?_kept {cs kept : List RuleContent} {req : Request} {c : RuleContent}
    (h : cs.find? (contentTakes engine upper req) = some c) (hc : c ∈ kept) :
    (cs.filter (· ∈ kept)).find? (contentTakes engine upper req) = some c := by
  obtain ⟨htakes, front, back, hcs, hfront⟩ := List.find?_eq_some_iff_append.mp h
  rw [List.find?_eq_some_iff_append]
  refine ⟨htakes, front.filter (· ∈ kept), back.filter (· ∈ kept), ?_, fun c' hc' => ?_⟩
  · rw [hcs, List.filter_append, List.filter_cons, if_pos (decide_eq_true hc)]
  · exact hfront c' (List.mem_of_mem_filter hc')

/-- Where nothing is flagged and the result does not deny, the rule that decides
    is the one that decided before, or that one is dropped and did not deny. -/
theorem verdict_cases {baseline : Baseline} {result : EditResult} (h : Unflagged baseline result)
    {req : Request} {c : RuleContent}
    (hafter : Decides engine upper (result.rules.map ruleContent) req c)
    (hgrants : c.effect ≠ .deny) :
    Decides engine upper ((targetRules baseline).map ruleContent) req c ∨
      ∃ d, Decides engine upper ((targetRules baseline).map ruleContent) req d ∧
        d ∉ result.rules.map ruleContent ∧ d.effect ≠ .deny := by
  rw [decides_iff] at hafter
  have hmem : c ∈ result.rules.map ruleContent := List.mem_of_find?_eq_some hafter
  -- a rule that grants is not new, so that the baseline has it
  have hold : c ∈ (targetRules baseline).map ruleContent := by
    by_contra hnew
    exact hgrants (h.added c hmem hnew)
  have htakes : contentTakes engine upper req c = true := List.find?_some hafter
  cases hbefore : ((targetRules baseline).map ruleContent).find?
      (contentTakes engine upper req) with
  | none =>
      have hnone := List.find?_eq_none.mp hbefore c hold
      exact absurd htakes hnone
  | some d =>
      by_cases hkept : d ∈ result.rules.map ruleContent
      · -- both are the first of the kept rules, which are in one order
        have hd := find?_kept hbefore hkept
        rw [h.order, find?_kept hafter hold] at hd
        rw [← Option.some.inj hd] at hbefore
        exact .inl (decides_iff.mpr hbefore)
      · exact .inr ⟨d, decides_iff.mpr hbefore, hkept,
          h.dropped d (List.mem_of_find?_eq_some hbefore) hkept⟩

theorem verdict_of_decides {rules : List Rule} {req : Request} {c : RuleContent}
    (h : Decides engine upper (rules.map ruleContent) req c) :
    verdict engine upper rules false req = c.effect := by
  rw [verdict_eq, decides_iff.mp h]
  rfl

theorem verdict_suspended (rules : List Rule) (req : Request) :
    verdict engine upper rules true req = .deny := rfl

/-- A result that nothing is flagged in is no wider, unless it drops a rule that
    asked for approval of a request that it then allows. -/
theorem notWider_of_unflagged {baseline : Baseline} {result : EditResult}
    (h : Unflagged baseline result)
    (hask : ∀ req, ¬ AskUncovered engine upper baseline result req) :
    NotWider engine upper baseline result := by
  refine ⟨fun req => ?_, h.scopes⟩
  cases hactive : result.suspended with
  | true =>
      rw [verdict_suspended]
      exact Nat.zero_le _
  | false =>
      have hbase : baseline.suspended = false := by
        cases hb : baseline.suspended with
        | false => rfl
        | true => exact absurd (hactive.symm.trans (h.resumed hb)) Bool.false_ne_true
      rw [hbase]
      cases hafter : (result.rules.map ruleContent).find? (contentTakes engine upper req) with
      | none =>
          rw [verdict_eq result.rules, hafter]
          exact Nat.zero_le _
      | some c =>
          have hc := decides_iff.mpr hafter
          rw [verdict_of_decides hc]
          by_cases hdeny : c.effect = .deny
          · rw [hdeny]
            exact Nat.zero_le _
          · rcases verdict_cases h hc hdeny with hsame | ⟨d, hd, hgone, hgrants⟩
            · rw [verdict_of_decides hsame]
            · rw [verdict_of_decides hd]
              cases heffect : d.effect with
              | deny => exact absurd heffect hgrants
              | allow => cases c.effect <;> decide
              | requireApproval =>
                  cases hallow : c.effect with
                  | deny => decide
                  | requireApproval => decide
                  | allow =>
                      exact absurd ⟨hactive, ⟨d, hd, heffect, hgone⟩, c, hc, hallow⟩ (hask req)

/-- An edit that is not flagged leaves the access no wider, exactly if it drops
    no rule that asked for approval of a request that it then allows. -/
theorem notWider_iff (engine : Engine Char) (upper : Text → Text) (baseline : Baseline)
    (result : EditResult) :
    (widensAccess baseline result = false → NotWider engine upper baseline result) ↔
      ¬ (Unflagged baseline result ∧ ∃ req, AskUncovered engine upper baseline result req) := by
  rw [widensAccess_eq_false_iff]
  constructor
  · rintro hwider ⟨hunflagged, req, hactive, ⟨ask, hask, hasks, -⟩, allow, hallow, hallows⟩
    have hbase : baseline.suspended = false := by
      cases hb : baseline.suspended with
      | false => rfl
      | true => exact absurd (hactive.symm.trans (hunflagged.resumed hb)) Bool.false_ne_true
    have hle := (hwider hunflagged).verdicts req
    rw [hactive, hbase, verdict_of_decides hask, verdict_of_decides hallow, hasks, hallows] at hle
    exact absurd hle (by decide)
  · intro hask hunflagged
    exact notWider_of_unflagged hunflagged fun req h => hask ⟨hunflagged, req, h⟩

/-! ## A rule that asked -/

/-- An engine for patterns that are texts. -/
def literalEngine : Engine Char where
  error _ := none
  catastrophic _ := false
  fullmatch pattern path := pattern = path

/-- A rule for a method. -/
def methodRule (id : Text) (effect : Effect) (method : Text) : Rule where
  id := some id
  effect := effect
  methods := some [method]
  path := none
  matchMode := none
  operations := none
  comment := none

/-- A binding that asks before a method that a later rule allows. -/
def askingBinding : Baseline where
  rules := [methodRule ['1'] .requireApproval ['G'], methodRule ['2'] .allow ['G']]
  ruleSet := none
  suspended := false
  grantedScopes := none

/-- The removal of its first rule. -/
def removeAsk : EditRequest where
  add := []
  remove := [['1']]
  setRules := none
  addScopes := []
  removeScopes := []
  setScopes := none
  resume := false

/-- The removal is not flagged, and the method is allowed without asking. -/
theorem not_notWider : ¬ ∀ (baseline : Baseline) (request : EditRequest) (result : EditResult)
    (dropped : List Text), resolveEdit baseline request false = .ok (result, dropped) →
      widensAccess baseline result = false → NotWider literalEngine id baseline result := by
  intro h
  have hwider := h askingBinding removeAsk ⟨[methodRule ['2'] .allow ['G']], [], false⟩ [] rfl rfl
  exact absurd (hwider.verdicts ⟨['G'], [], none⟩) (by decide +kernel)

end Verdicts

end Edits

end Permissions

end JenticOne
