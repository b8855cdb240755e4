import JenticOne.Library.Dict
import JenticOne.Library.Lists
import JenticOne.Permissions.Edits

/-!
# Revisions of an Edit

A session keeps each request that was made as a proposal, and the result it was
resolved into: the rules with who added each, the scopes, and who asked for each
change of a scope.

What is to be changed can be said in two ways, by what is added and removed, or by
the whole list. The first keeps the rules that are there and places the new ones; the
second finds the rules that are there by their content. For a baseline whose rules are
different permissions both come to the same, but for one thing: a rule that is removed
and added again is a new rule of the first, and the second finds it.

## Main definitions

* `RevisionRequest`, `RevisionResult`: What an edit asks for, and what it comes to.
* `asProposal`, `fromProposal`: The request as stored, and back.
* `attributeRules`, `scopeNotes`: Who added a rule, and who asked for a scope.
* `resolve`: A request resolved, with both.
* `Reidentified`: The id of a rule that the whole list names.

## Theorems

* `resolve_fromProposal`: A stored request resolves as it did.
* `addRules_spec`: What the rules with the added ones are.
* `setRules_eq`: What a whole list of different permissions resolves into.
* `attributeRules_eq`: Who added a rule does not depend on which way it was said.
* `wholeList_agrees`: Both ways come to the same.
-/

namespace JenticOne

namespace Permissions

namespace EditRevisions

open Edits

/-! ## Requests and results -/

/-- `target`: which rule list an edit changes. -/
inductive Target
  | binding
  | ruleSet
  deriving DecidableEq

/-- A rule of a result, and who added it. -/
structure AttributedRule extends Rule where
  addedBy : Option Text

/-- Who asked for the change of a scope, and why. -/
structure ScopeNote where
  addedBy : Option Text
  comment : Option Text
  deriving DecidableEq

/-- `EditRequest`, with the reasons. -/
structure RevisionRequest extends EditRequest where
  scopeComments : Dict Text Text
  reason : Option Text

/-- The result of a revision. -/
structure RevisionResult where
  target : Target
  rules : List AttributedRule
  scopes : List Text
  scopeNotes : Dict Text ScopeNote
  suspended : Bool

/-! ## Proposals -/

structure ProposedAdd where
  rule : Rule
  before : Option Text

/-- The `rules` of a proposal, each key of it present or not. -/
structure ProposedRules where
  set : Option (List Rule)
  add : Option (List ProposedAdd)
  remove : Option (List Text)

/-- The `scopes` of a proposal. -/
structure ProposedScopes where
  set : Option (List Text)
  add : Option (List Text)
  remove : Option (List Text)
  comments : Option (Dict Text Text)

structure Proposal where
  rules : Option ProposedRules
  scopes : Option ProposedScopes
  resume : Option Bool
  reason : Option Text

/-- `as_proposal`: the request as stored on its revision. -/
def asProposal (request : RevisionRequest) : Proposal where
  rules := some <|
    match request.setRules with
    | some set => ⟨some set, none, none⟩
    | none => ⟨none, some (request.add.map fun a => ⟨a.rule, a.before⟩), some request.remove⟩
  scopes :=
    let comments := if request.scopeComments.items = [] then none else some request.scopeComments
    some <|
      match request.setScopes with
      | some set => ⟨some set, none, none, comments⟩
      | none => ⟨none, some request.addScopes, some request.removeScopes, comments⟩
  resume := some request.resume
  reason := request.reason

/-- `from_proposal`. -/
def fromProposal (proposal : Proposal) : RevisionRequest :=
  let rules := proposal.rules.getD ⟨none, none, none⟩
  let scopes := proposal.scopes.getD ⟨none, none, none, none⟩
  { add := (rules.add.getD []).map fun a => ⟨a.rule, a.before⟩
    remove := rules.remove.getD []
    setRules := rules.set
    addScopes := scopes.add.getD []
    removeScopes := scopes.remove.getD []
    setScopes := scopes.set
    scopeComments := scopes.comments.getD .empty
    resume := proposal.resume.getD false
    reason := proposal.reason }

/-! ## Attribution -/

/-- The loop of `_attribute_rules`, with the contents of the binding's own rules and
    the rules added earlier that have not been found yet. -/
def attributeFrom (actor : Option Text) :
    List RuleContent → List (RuleContent × Text) → List Rule → List AttributedRule
  | _, _, [] => []
  | own, earlier, rule :: rules =>
    if rule.id.isNone then
      if ruleContent rule ∈ own then
        ⟨rule, none⟩ :: attributeFrom actor (own.erase (ruleContent rule)) earlier rules
      else
        match earlier.findIdx? (·.1 = ruleContent rule) with
        | some i =>
          ⟨rule, earlier[i]?.map Prod.snd⟩ :: attributeFrom actor own (earlier.eraseIdx i) rules
        | none => ⟨rule, actor⟩ :: attributeFrom actor own earlier rules
    else if ruleContent rule ∈ own then
      ⟨rule, none⟩ :: attributeFrom actor (own.erase (ruleContent rule)) earlier rules
    else ⟨rule, none⟩ :: attributeFrom actor own earlier rules

/-- The rules of the previous revision that somebody added. -/
def earlierRules (previous : Option RevisionResult) : List (RuleContent × Text) :=
  (previous.elim [] RevisionResult.rules).filterMap fun r =>
    r.addedBy.map fun who => (ruleContent r.toRule, who)

/-- `_attribute_rules`. -/
def attributeRules (rules baselineRules : List Rule) (previous : Option RevisionResult)
    (actor : Option Text) : List AttributedRule :=
  attributeFrom actor (baselineRules.map ruleContent) (earlierRules previous) rules

/-- `a or b`, of comments. -/
def orComment : Option Text → Option Text → Option Text
  | some [], b => b
  | none, b => b
  | a, _ => a

/-- The note of one scope. What was asked for already keeps who asked, and why. -/
def scopeNote (scopes : List Text) (request : RevisionRequest) (previous : Option RevisionResult)
    (actor : Option Text) (scope : Text) : ScopeNote :=
  let note := previous.bind fun earlier =>
    if scope ∈ earlier.scopes ↔ scope ∈ scopes then earlier.scopeNotes.get? scope else none
  { addedBy := note.elim actor ScopeNote.addedBy
    comment := orComment (request.scopeComments.get? scope) (note.bind ScopeNote.comment) }

/-- `_scope_notes`, of every scope that is added or removed. -/
def scopeNotes (granted scopes : List Text) (request : RevisionRequest)
    (previous : Option RevisionResult) (actor : Option Text) : Dict Text ScopeNote :=
  (sorted (scopes.filter (· ∉ granted) ++ granted.filter (· ∉ scopes))).foldl
    (fun notes scope => notes.set scope (scopeNote scopes request previous actor scope)) .empty

/-- The result that is kept. -/
def revisionResult (baseline : Baseline) (request : RevisionRequest)
    (previous : Option RevisionResult) (actor : Option Text) (result : EditResult) :
    RevisionResult where
  target := if baseline.ruleSet.isSome then .ruleSet else .binding
  rules := attributeRules result.rules (targetRules baseline) previous actor
  scopes := result.scopes
  scopeNotes := scopeNotes (baseline.grantedScopes.getD []) result.scopes request previous actor
  suspended := result.suspended

/-- `resolve_edit`. -/
def resolve (baseline : Baseline) (request : RevisionRequest) (lenient : Bool)
    (previous : Option RevisionResult) (actor : Option Text) :
    Except EditError (RevisionResult × List Text) :=
  (resolveEdit baseline request.toEditRequest lenient).map fun out =>
    (revisionResult baseline request previous actor out.1, out.2)

/-! ## Stored requests -/

theorem resolveScopes_asks {granted : Option (List Text)} {request request' : EditRequest}
    (hset : request'.setScopes = request.setScopes)
    (hadd : request.setScopes = none → request'.addScopes = request.addScopes)
    (hremove : request.setScopes = none → request'.removeScopes = request.removeScopes) :
    resolveScopes granted request' = resolveScopes granted request := by
  unfold resolveScopes
  cases hs : request.setScopes with
  | none => rw [hset, hadd hs, hremove hs, hs]
  | some scopes => rw [hset, hs, Option.isSome_some, Bool.or_true, Bool.or_true]

/-- What is resolved of a request: its whole lists where it has them, else what is added
    and removed. -/
theorem resolveEdit_congr {baseline : Baseline} {request request' : EditRequest} (lenient : Bool)
    (hset : request'.setRules = request.setRules)
    (hadd : request.setRules = none → request'.add = request.add)
    (hremove : request.setRules = none → request'.remove = request.remove)
    (hscopes : resolveScopes baseline.grantedScopes request' =
      resolveScopes baseline.grantedScopes request) (hresume : request'.resume = request.resume) :
    resolveEdit baseline request' lenient = resolveEdit baseline request lenient := by
  unfold resolveEdit
  rw [hscopes, hresume]
  cases hs : request.setRules with
  | none => rw [hset, hadd hs, hremove hs, hs]
  | some set => rw [hset, hs]

theorem map_proposedAdd (adds : List RuleAdd) :
    (adds.map fun a => (⟨a.rule, a.before⟩ : ProposedAdd)).map
      (fun a => (⟨a.rule, a.before⟩ : RuleAdd)) = adds := by
  rw [List.map_map]
  exact List.map_id adds

theorem comments_fromProposal (request : RevisionRequest) :
    (fromProposal (asProposal request)).scopeComments = request.scopeComments := by
  have hempty : request.scopeComments.items = [] → Dict.empty = request.scopeComments := by
    intro h
    cases hc : request.scopeComments with
    | mk items nodup =>
        rw [hc] at h
        subst h
        rfl
  unfold fromProposal asProposal
  by_cases h : request.scopeComments.items = []
  · rw [if_pos h]
    cases request.setScopes <;> exact hempty h
  · rw [if_neg h]
    cases request.setScopes <;> rfl

/-- A stored request resolves as it did. -/
theorem resolve_fromProposal (baseline : Baseline) (request : RevisionRequest) (lenient : Bool)
    (previous : Option RevisionResult) (actor : Option Text) :
    resolve baseline (fromProposal (asProposal request)) lenient previous actor =
      resolve baseline request lenient previous actor := by
  have hrules : (fromProposal (asProposal request)).setRules = request.setRules := by
    unfold fromProposal asProposal
    cases request.setRules <;> rfl
  have hadd : request.setRules = none → (fromProposal (asProposal request)).add = request.add := by
    intro h
    unfold fromProposal asProposal
    rw [h]
    exact map_proposedAdd request.add
  have hremove : request.setRules = none →
      (fromProposal (asProposal request)).remove = request.remove := by
    intro h
    unfold fromProposal asProposal
    rw [h]
    rfl
  have hscopes : resolveScopes baseline.grantedScopes
      (fromProposal (asProposal request)).toEditRequest =
        resolveScopes baseline.grantedScopes request.toEditRequest := by
    refine resolveScopes_asks ?_ (fun h => ?_) (fun h => ?_)
    · unfold fromProposal asProposal
      cases request.setScopes <;> rfl
    · unfold fromProposal asProposal
      rw [h]
      rfl
    · unfold fromProposal asProposal
      rw [h]
      rfl
  have hedit := resolveEdit_congr lenient hrules hadd hremove hscopes rfl
  unfold resolve
  rw [hedit]
  have hnotes : ∀ result : EditResult,
      revisionResult baseline (fromProposal (asProposal request)) previous actor result =
        revisionResult baseline request previous actor result := by
    intro result
    unfold revisionResult scopeNotes scopeNote
    rw [comments_fromProposal]
  exact congrArg (fun f => Except.map f (resolveEdit baseline request.toEditRequest lenient))
    (funext fun out => by rw [hnotes])

/-! ## Added and removed -/

@[simp] theorem ruleContent_rule (content : RuleContent) (id : Option Text) :
    ruleContent (content.rule id) = content := rfl

@[simp] theorem ruleMatch_rule (rule : Rule) (id : Option Text) :
    ruleMatch ((ruleContent rule).rule id) = ruleMatch rule := rfl

/-- Different permissions have different contents. -/
theorem ruleContent_ne {r r' : Rule} (h : ruleMatch r ≠ ruleMatch r') :
    ruleContent r ≠ ruleContent r' :=
  fun he => h (by rw [ruleMatch, he, ruleMatch])

theorem nodup_content {rules : List Rule} (h : (rules.map ruleMatch).Nodup) :
    (rules.map ruleContent).Nodup := by
  have hmap : rules.map ruleMatch =
      (rules.map ruleContent).map (fun content => { content with comment := none }) := by
    rw [List.map_map]
    rfl
  rw [hmap] at h
  exact h.of_map _

/-- One more rule, somewhere among different permissions that it is none of. -/
theorem nodup_insertRule {rules : List Rule} (h : (rules.map ruleMatch).Nodup) {new : Rule}
    (hnew : ∀ r ∈ rules, ruleMatch r ≠ ruleMatch new) (i : Nat) :
    ((rules.insertIdx i new).map ruleMatch).Nodup := by
  by_cases hi : i ≤ rules.length
  · rw [((List.perm_insertIdx new rules hi).map ruleMatch).nodup_iff, List.map_cons,
      List.nodup_cons]
    refine ⟨fun hmem => ?_, h⟩
    rcases List.mem_map.mp hmem with ⟨r, hr, he⟩
    exact hnew r hr he
  · rw [List.insertIdx_of_length_lt (by omega)]
    exact h

/-- A rule that an edit adds carries no id, and nothing but its content. -/
def Added (r : Rule) : Prop := r = (ruleContent r).rule none

/-- The rules with the added ones are the rules there were and added ones, and they are
    different permissions if those were. -/
theorem addRules_spec {rules : List Rule} {lenient : Bool} {removed : List Text}
    {adds : List RuleAdd} {resolved resolved' : List Rule} {dropped dropped' : List Text}
    (h : addRules rules lenient removed adds resolved dropped = .ok (resolved', dropped')) :
    (∀ r ∈ resolved', r ∈ resolved ∨ Added r) ∧ (∀ r ∈ resolved, r ∈ resolved') ∧
    ((resolved.map ruleMatch).Nodup → (resolved'.map ruleMatch).Nodup) := by
  induction adds generalizing resolved dropped with
  | nil =>
      rw [addRules, Except.ok.injEq, Prod.mk.injEq] at h
      rw [← h.1]
      exact ⟨fun r hr => .inl hr, fun r hr => hr, fun hn => hn⟩
  | cons add adds ih =>
      have hadded : Added ((ruleContent add.rule).rule none) := rfl
      -- One rule is added somewhere, and the rest as they are.
      have hinsert : ∀ i dropped, (∀ r ∈ resolved, ruleMatch r ≠ ruleMatch add.rule) →
          addRules rules lenient removed adds
            (resolved.insertIdx i ((ruleContent add.rule).rule none)) dropped =
              .ok (resolved', dropped') →
          (∀ r ∈ resolved', r ∈ resolved ∨ Added r) ∧ (∀ r ∈ resolved, r ∈ resolved') ∧
          ((resolved.map ruleMatch).Nodup → (resolved'.map ruleMatch).Nodup) := by
        intro i dropped hnew hrest
        rcases ih hrest with ⟨hmem, hkept, hnodup⟩
        have hnew' : ∀ r ∈ resolved, ruleMatch r ≠ ruleMatch ((ruleContent add.rule).rule none) :=
          hnew
        refine ⟨fun r hr => ?_, fun r hr => hkept r ((List.sublist_insertIdx _ i _).subset hr),
          fun hn => hnodup (nodup_insertRule hn hnew' i)⟩
        rcases hmem r hr with hr | hr
        · rcases List.eq_or_mem_of_mem_insertIdx hr with rfl | hr
          · exact .inr hadded
          · exact .inl hr
        · exact .inr hr
      rw [addRules] at h
      by_cases hany : (resolved.any (ruleMatch · = ruleMatch ((ruleContent add.rule).rule none))) =
          true
      · rw [if_pos hany] at h
        exact ih h
      · rw [if_neg hany] at h
        have hnew : ∀ r ∈ resolved, ruleMatch r ≠ ruleMatch add.rule := by
          intro r hr he
          exact hany (List.any_eq_true.mpr ⟨r, hr, decide_eq_true he⟩)
        have happend : resolved ++ [(ruleContent add.rule).rule none] =
            resolved.insertIdx resolved.length ((ruleContent add.rule).rule none) := by
          rw [List.insertIdx_length_self]
        cases hbefore : add.before with
        | none =>
            rw [hbefore] at h
            exact hinsert _ _ hnew (happend ▸ h)
        | some before =>
            rw [hbefore] at h
            rcases Lists.bind_eq_ok_iff.mp h with ⟨⟨held, dropped₁⟩, _, hrest⟩
            cases held with
            | true => exact hinsert _ _ hnew hrest
            | false => exact hinsert _ _ hnew (happend ▸ hrest)

/-- Every rule to be removed has been found. -/
theorem checkedRemovals_ok {rules : List Rule} {remove removed dropped dropped' : List Text}
    (h : checkedRemovals rules false remove dropped = .ok (removed, dropped')) :
    removed = remove := by
  induction remove generalizing removed dropped dropped' with
  | nil =>
      rw [checkedRemovals, Except.ok.injEq, Prod.mk.injEq] at h
      exact h.1.symm
  | cons ruleId remove ih =>
      rw [checkedRemovals] at h
      rcases Lists.bind_eq_ok_iff.mp h with ⟨⟨held, dropped₁⟩, hcheck, hrest⟩
      rcases Lists.bind_eq_ok_iff.mp hrest with ⟨⟨removed₁, dropped₂⟩, hremovals, hlast⟩
      have hheld : held = true := by
        unfold checkKnown at hcheck
        split at hcheck
        · rw [Except.ok.injEq, Prod.mk.injEq] at hcheck
          exact hcheck.1.symm
        · exact absurd hcheck (by simp only [Bool.false_eq_true, if_false, reduceCtorEq,
            not_false_eq_true])
      rw [hheld] at hlast
      have hsame : ruleId :: removed₁ = removed := congrArg Prod.fst (Except.ok.inj hlast)
      rw [← hsame, ih hremovals]

/-! ## The whole list -/

/-- The id that the whole list gives to a rule: that of the rule with its content. -/
def idOf (pool : List Rule) (r : Rule) : Option Text :=
  (pool.find? (ruleContent · = ruleContent r)).bind Rule.id

/-- A search does not miss what it would not have found. -/
theorem find?_eraseIdx {α : Type} {p : α → Bool} {l : List α} {i : Nat} {a : α}
    (ha : l[i]? = some a) (hp : p a = false) : (l.eraseIdx i).find? p = l.find? p := by
  induction l generalizing i with
  | nil => rfl
  | cons b l ih =>
      cases i with
      | zero =>
          rw [List.getElem?_cons_zero, Option.some.injEq] at ha
          rw [List.eraseIdx_cons_zero, List.find?_cons, ha, hp]
      | succ i =>
          rw [List.getElem?_cons_succ] at ha
          rw [List.eraseIdx_cons_succ, List.find?_cons, List.find?_cons, ih ha]

/-- A whole list of different permissions: every rule is there, with the id of the rule
    of the binding that has its content. -/
theorem setRules_eq {pool rules resolved : List Rule} (hrules : (rules.map ruleMatch).Nodup)
    (hnew : ∀ r ∈ resolved, ∀ r' ∈ rules, ruleMatch r ≠ ruleMatch r') :
    setRules pool rules resolved =
      resolved ++ rules.map fun r => (ruleContent r).rule (idOf pool r) := by
  induction rules generalizing pool resolved with
  | nil =>
      rw [setRules, List.map_nil, List.append_nil]
  | cons rule rules ih =>
      rw [List.map_cons, List.nodup_cons] at hrules
      have hany : ¬ (resolved.any (ruleMatch · = ruleMatch rule)) = true := by
        intro h
        rcases List.any_eq_true.mp h with ⟨r, hr, he⟩
        exact hnew r hr rule List.mem_cons_self (of_decide_eq_true he)
      have hapart : ∀ r' ∈ rules, ruleMatch rule ≠ ruleMatch r' := by
        intro r' hr' he
        exact hrules.1 (List.mem_map.mpr ⟨r', hr', he.symm⟩)
      have hnext : ∀ id, ∀ r ∈ resolved ++ [(ruleContent rule).rule id], ∀ r' ∈ rules,
          ruleMatch r ≠ ruleMatch r' := by
        intro id r hr r' hr'
        rcases List.mem_append.mp hr with hr | hr
        · exact hnew r hr r' (List.mem_cons_of_mem rule hr')
        · rw [List.mem_singleton.mp hr]
          exact hapart r' hr'
      rw [setRules, if_neg hany, List.map_cons]
      cases hfind : pool.findIdx? (ruleContent · = ruleContent rule) with
      | none =>
          have hnone : pool.find? (ruleContent · = ruleContent rule) = none :=
            List.find?_eq_none.mpr fun r hr =>
              Bool.eq_false_iff.mp (List.findIdx?_eq_none_iff.mp hfind r hr)
          rw [idOf, hnone]
          exact (ih hrules.2 (hnext none)).trans (List.append_assoc _ _ _)
      | some i =>
          have hidx := (List.findIdx?_eq_some_iff_findIdx_eq.mp hfind).2
          have hsome : pool.find? (ruleContent · = ruleContent rule) = pool[i]? := by
            rw [List.find?_eq_getElem?_findIdx, hidx]
          -- What has been found is not what the rest looks for.
          have hrest : ∀ r ∈ rules, idOf (pool.eraseIdx i) r = idOf pool r := by
            intro r hr
            rcases List.findIdx?_eq_some_iff_getElem.mp hfind with ⟨hlt, hcontent, _⟩
            have hne : decide (ruleContent pool[i] = ruleContent r) = false := by
              rw [of_decide_eq_true hcontent]
              exact decide_eq_false (ruleContent_ne (hapart r hr))
            rw [idOf, idOf, find?_eraseIdx (List.getElem?_eq_getElem hlt) hne]
          have hmap := List.map_congr_left fun r hr =>
            congrArg (ruleContent r).rule (hrest r hr)
          rw [idOf, hsome, ← hmap]
          exact (ih hrules.2 (hnext _)).trans (List.append_assoc _ _ _)

/-! ## Who added a rule -/

theorem toRule_attributeFrom (actor : Option Text) (own : List RuleContent)
    (earlier : List (RuleContent × Text)) (rules : List Rule) :
    (attributeFrom actor own earlier rules).map AttributedRule.toRule = rules := by
  induction rules generalizing own earlier with
  | nil => rfl
  | cons rule rules ih =>
      rw [attributeFrom]
      split
      · split
        · rw [List.map_cons, ih]
        · split
          · rw [List.map_cons, ih]
          · rw [List.map_cons, ih]
      · split
        · rw [List.map_cons, ih]
        · rw [List.map_cons, ih]

/-- Two ways to name the same rules, where a rule may have its id or none if the binding
    has it: nothing else of it changes. -/
theorem addedBy_attributeFrom {actor : Option Text} {own : List RuleContent}
    {earlier : List (RuleContent × Text)} {rules : List Rule} {id : Rule → Option Text}
    (hrules : (rules.map ruleContent).Nodup)
    (hid : ∀ r ∈ rules, id r = r.id ∨ ruleContent r ∈ own) :
    (attributeFrom actor own earlier
      (rules.map fun r => (ruleContent r).rule (id r))).map AttributedRule.addedBy =
    (attributeFrom actor own earlier rules).map AttributedRule.addedBy := by
  induction rules generalizing own earlier with
  | nil => rfl
  | cons rule rules ih =>
      rw [List.map_cons, List.nodup_cons] at hrules
      have hrest : ∀ r ∈ rules, id r = r.id ∨ ruleContent r ∈ own := fun r hr =>
        hid r (List.mem_cons_of_mem rule hr)
      have herased : ∀ r ∈ rules, id r = r.id ∨ ruleContent r ∈ own.erase (ruleContent rule) := by
        intro r hr
        refine (hrest r hr).imp_right fun hmem => (List.mem_erase_of_ne fun he => ?_).mpr hmem
        exact hrules.1 (List.mem_map.mpr ⟨r, hr, he⟩)
      rw [List.map_cons, attributeFrom, attributeFrom, ruleContent_rule]
      by_cases hown : ruleContent rule ∈ own
      · rw [if_pos hown, if_pos hown, if_pos hown, if_pos hown]
        split
        · split
          · rw [List.map_cons, List.map_cons, ih hrules.2 herased]
          · rw [List.map_cons, List.map_cons, ih hrules.2 herased]
        · split
          · rw [List.map_cons, List.map_cons, ih hrules.2 herased]
          · rw [List.map_cons, List.map_cons, ih hrules.2 herased]
      · have hsame : id rule = rule.id := (hid rule List.mem_cons_self).resolve_right hown
        have hid' : ((ruleContent rule).rule (id rule)).id = rule.id := hsame
        rw [if_neg hown, if_neg hown, if_neg hown, if_neg hown, hid']
        split
        · split
          · rw [List.map_cons, List.map_cons, ih hrules.2 hrest]
          · rw [List.map_cons, List.map_cons, ih hrules.2 hrest]
        · rw [List.map_cons, List.map_cons, ih hrules.2 hrest]

/-! ## Both ways -/

/-- A rule of the whole list that was named by what is added and removed: it has the id it
    had, and a rule that is removed and added again has the one it used to have. -/
structure Reidentified (rules : List Rule) (removed : List Text) (r s : Rule) : Prop where
  content : ruleContent s = ruleContent r
  kept : r.id ≠ none → s.id = r.id
  again : r.id = none → ∀ b ∈ rules, ruleContent b = ruleContent r →
    s.id = b.id ∧ ∃ id ∈ removed, b.id = some id
  added : r.id = none → (∀ b ∈ rules, ruleContent b ≠ ruleContent r) → s.id = none

theorem idOf_of_content {rules : List Rule} (hrules : (rules.map ruleContent).Nodup) {b r : Rule}
    (hb : b ∈ rules) (hcontent : ruleContent b = ruleContent r) : idOf rules r = b.id := by
  unfold idOf
  cases hfind : rules.find? (ruleContent · = ruleContent r) with
  | none =>
      have hne := List.find?_eq_none.mp hfind b hb
      exact absurd (decide_eq_true hcontent) hne
  | some b' =>
      have hfound := List.find?_some hfind
      simp only [decide_eq_true_eq] at hfound
      have hsame : ruleContent b' = ruleContent b := hfound.trans hcontent.symm
      rw [List.inj_on_of_nodup_map hrules (List.mem_of_find?_eq_some hfind) hb hsame]
      rfl

theorem idOf_eq_none {rules : List Rule} {r : Rule}
    (h : ∀ b ∈ rules, ruleContent b ≠ ruleContent r) : idOf rules r = none := by
  have hnone : rules.find? (ruleContent · = ruleContent r) = none :=
    List.find?_eq_none.mpr fun b hb he => h b hb (of_decide_eq_true he)
  rw [idOf, hnone]
  rfl

/-- What is added and removed resolves into rules of the baseline that are not removed and
    added ones, which are different permissions. -/
theorem resolveEdit_added {baseline : Baseline} {request : EditRequest} {result : EditResult}
    {dropped : List Text} (hset : request.setRules = none)
    (hmatch : ((targetRules baseline).map ruleMatch).Nodup)
    (h : resolveEdit baseline request false = .ok (result, dropped)) :
    (∀ r ∈ result.rules, r ∈ targetRules baseline ∨ Added r) ∧
    (result.rules.map ruleMatch).Nodup ∧
    (∀ b ∈ targetRules baseline, (∀ id ∈ request.remove, b.id ≠ some id) → b ∈ result.rules) ∧
    resolveScopes baseline.grantedScopes request = .ok result.scopes := by
  unfold resolveEdit at h
  rw [hset] at h
  rcases Lists.bind_eq_ok_iff.mp h with ⟨⟨removed, dropped₁⟩, hremoved, hrest⟩
  rcases Lists.bind_eq_ok_iff.mp hrest with ⟨⟨resolved, dropped₂⟩, hadds, hrest⟩
  rcases Lists.bind_eq_ok_iff.mp hrest with ⟨scopes, hscopes, hresult⟩
  have hout : (⟨resolved, scopes, baseline.suspended && !request.resume⟩ : EditResult) = result :=
    congrArg Prod.fst (Except.ok.inj hresult)
  rw [checkedRemovals_ok hremoved] at hadds
  rcases addRules_spec hadds with ⟨hmem, hkept, hnodup⟩
  rw [← hout]
  refine ⟨fun r hr => ?_, hnodup (hmatch.sublist (List.filter_sublist.map ruleMatch)),
    fun b hb hid => hkept b (List.mem_filter.mpr ⟨hb, ?_⟩), hscopes⟩
  · exact (hmem r hr).imp_left fun hr => (List.mem_filter.mp hr).1
  · rw [Bool.not_eq_true', Option.any_eq_false]
    intro id hb
    rw [List.contains_eq_mem]
    exact decide_eq_false fun hin => hid id hin hb

theorem sorted_sorted (scopes : List Text) : sorted (sorted scopes) = sorted scopes := by
  unfold sorted
  have hnodup : (scopes.dedup.insertionSort (· ≤ ·)).Nodup :=
    (List.perm_insertionSort (· ≤ ·) scopes.dedup).nodup_iff.mpr (List.nodup_dedup scopes)
  rw [hnodup.dedup]
  exact List.Pairwise.insertionSort_eq (List.pairwise_insertionSort (· ≤ ·) scopes.dedup)

theorem resolveScopes_some (g : List Text) (request : EditRequest) :
    resolveScopes (some g) request = .ok (sorted (request.setScopes.getD
      ((g ++ request.addScopes).filter (· ∉ request.removeScopes)))) := by
  simp only [resolveScopes, Option.isNone_some, Bool.and_false, Bool.false_eq_true, if_false]
  cases request.setScopes <;> rfl

/-- Without a grant nothing may be asked for. -/
theorem resolveScopes_none (request : EditRequest) (scopes : List Text) :
    resolveScopes none request = .ok scopes ↔ request.setScopes = none ∧
      request.addScopes = [] ∧ request.removeScopes = [] ∧ sorted [] = scopes := by
  simp only [resolveScopes, Option.isNone_none, Bool.and_true]
  cases request.setScopes with
  | some set => simp
  | none =>
      cases request.addScopes with
      | cons scope add => simp
      | nil =>
          cases request.removeScopes with
          | cons scope remove => simp
          | nil => simp

/-- The scopes that came of a request, asked for as a whole. -/
theorem resolveScopes_whole {granted : Option (List Text)} {request whole : EditRequest}
    {scopes : List Text} (h : resolveScopes granted request = .ok scopes)
    (hscopes : whole.setScopes = granted.map fun _ => scopes)
    (hnone : granted = none → whole.addScopes = [] ∧ whole.removeScopes = []) :
    resolveScopes granted whole = .ok scopes := by
  cases granted with
  | none =>
      have hempty := ((resolveScopes_none request scopes).mp h).2.2.2
      exact (resolveScopes_none whole scopes).mpr
        ⟨hscopes, (hnone rfl).1, (hnone rfl).2, hempty⟩
  | some g =>
      rw [resolveScopes_some, Except.ok.injEq] at h
      rw [resolveScopes_some, hscopes, Option.map_some, Option.getD_some, ← h, sorted_sorted]

/-- A rule of the result, as the whole list names it. -/
theorem reidentified {rules resolved : List Rule} {removed : List Text} {r : Rule}
    (hids : ∀ r ∈ rules, r.id ≠ none) (hcontents : (rules.map ruleContent).Nodup)
    (hmem : ∀ r ∈ resolved, r ∈ rules ∨ Added r) (hnodup : (resolved.map ruleMatch).Nodup)
    (hkept : ∀ b ∈ rules, (∀ id ∈ removed, b.id ≠ some id) → b ∈ resolved) (hr : r ∈ resolved) :
    Reidentified rules removed r ((ruleContent r).rule (idOf rules r)) := by
  refine ⟨rfl, fun hid => ?_, fun hid b hb hcontent => ⟨idOf_of_content hcontents hb hcontent, ?_⟩,
    fun _ hnew => idOf_eq_none hnew⟩
  · rcases hmem r hr with hin | hadded
    · exact idOf_of_content hcontents hin rfl
    · rw [hadded] at hid
      exact absurd rfl hid
  · -- It is not there any more, or it would be the rule that was added.
    by_contra hno
    have hb' : b ∈ resolved := hkept b hb fun id hin he => hno ⟨id, hin, he⟩
    have hmatch : ruleMatch b = ruleMatch r := by
      rw [ruleMatch, hcontent, ruleMatch]
    rw [List.inj_on_of_nodup_map hnodup hb' hr hmatch] at hb
    exact hids r hb hid

/-- What is added and removed, and then the whole list of what came of it: the same rules in
    the same order, with the same ids but for those that were removed and added again, and
    added by the same. -/
theorem wholeList_agrees {baseline : Baseline} {request : RevisionRequest} (whole : RevisionRequest)
    {previous : Option RevisionResult} {actor : Option Text} {result : RevisionResult}
    {dropped : List Text} (hids : ∀ r ∈ targetRules baseline, r.id ≠ none)
    (hmatch : ((targetRules baseline).map ruleMatch).Nodup) (hadd : request.setRules = none)
    (h : resolve baseline request false previous actor = .ok (result, dropped))
    (hrules : whole.setRules = some (result.rules.map AttributedRule.toRule))
    (hscopes : whole.setScopes = baseline.grantedScopes.map fun _ => result.scopes)
    (hnone : baseline.grantedScopes = none → whole.addScopes = [] ∧ whole.removeScopes = []) :
    (∃ result', resolve baseline whole false previous actor = .ok (result', []) ∧
      result'.scopes = result.scopes ∧
      result'.rules.map AttributedRule.addedBy = result.rules.map AttributedRule.addedBy ∧
      List.Forall₂ (Reidentified (targetRules baseline) request.remove)
        (result.rules.map AttributedRule.toRule) (result'.rules.map AttributedRule.toRule)) ∧
    resolve baseline (fromProposal (asProposal request)) false previous actor =
      resolve baseline request false previous actor ∧
    resolve baseline (fromProposal (asProposal whole)) false previous actor =
      resolve baseline whole false previous actor := by
  refine ⟨?_, resolve_fromProposal _ _ _ _ _, resolve_fromProposal _ _ _ _ _⟩
  have hcontents := nodup_content hmatch
  cases hedit : resolveEdit baseline request.toEditRequest false with
  | error e =>
      rw [resolve, hedit] at h
      exact nomatch h
  | ok out =>
      rw [resolve, hedit] at h
      have hresult : revisionResult baseline request previous actor out.1 = result :=
        congrArg Prod.fst (Except.ok.inj h)
      rcases resolveEdit_added hadd hmatch hedit with ⟨hmem, hnodup, hkept, hgranted⟩
      have htoRule : result.rules.map AttributedRule.toRule = out.1.rules := by
        rw [← hresult]
        exact toRule_attributeFrom _ _ _ _
      have hout : result.scopes = out.1.scopes := by
        rw [← hresult]
        rfl
      rw [htoRule] at hrules
      rw [hout] at hscopes ⊢
      have hwhole : resolveEdit baseline whole.toEditRequest false =
          .ok (⟨out.1.rules.map fun r => (ruleContent r).rule (idOf (targetRules baseline) r),
            out.1.scopes, baseline.suspended && !whole.resume⟩, []) := by
        have hset : setRules (targetRules baseline) out.1.rules [] =
            out.1.rules.map fun r => (ruleContent r).rule (idOf (targetRules baseline) r) :=
          (setRules_eq hnodup (fun r hr => absurd hr List.not_mem_nil)).trans (List.nil_append _)
        unfold resolveEdit
        rw [hrules, resolveScopes_whole hgranted hscopes hnone, ← hset]
        rfl
      refine ⟨_, by rw [resolve, hwhole]; rfl, rfl, ?_, ?_⟩
      · rw [← hresult]
        refine addedBy_attributeFrom (nodup_content hnodup) (fun r hr => ?_)
        by_cases hown : ruleContent r ∈ (targetRules baseline).map ruleContent
        · exact .inr hown
        · refine .inl ?_
          rcases hmem r hr with hr | hr
          · exact absurd (List.mem_map_of_mem hr) hown
          · rw [idOf_eq_none (fun b hb he => hown (he ▸ List.mem_map_of_mem hb)), hr]
            rfl
      · have htoRule' : (revisionResult baseline whole previous actor
            ⟨out.1.rules.map fun r => (ruleContent r).rule (idOf (targetRules baseline) r),
              out.1.scopes, baseline.suspended && !whole.resume⟩).rules.map AttributedRule.toRule =
            out.1.rules.map fun r => (ruleContent r).rule (idOf (targetRules baseline) r) :=
          toRule_attributeFrom _ _ _ _
        rw [htoRule, htoRule', List.forall₂_map_right_iff]
        refine List.forall₂_same.mpr (fun r hr => ?_)
        exact reidentified hids hcontents hmem hnodup hkept hr

/-- A rule of a binding, the only one. -/
def mailRule : Rule :=
  ⟨some "rul_1".toList, .allow, none, some "/mail".toList, none, none, none⟩

def mailBaseline : Baseline := ⟨[mailRule], none, false, some ["read".toList]⟩

/-- The rule is removed and added again, and another one in its place before. -/
def mailRequest : RevisionRequest where
  add := [⟨{ mailRule with id := none, effect := .deny }, some "rul_1".toList⟩,
    ⟨{ mailRule with id := none }, none⟩]
  remove := ["rul_1".toList]
  setRules := none
  addScopes := ["send".toList]
  removeScopes := []
  setScopes := none
  resume := false
  scopeComments := .empty
  reason := none

/-- The whole list names the rule that was added again by the id it used to have. -/
theorem wholeList_agrees_mail : ∃ result result' : RevisionResult,
    result.rules.map (·.id) = [none, none] ∧
    resolve mailBaseline mailRequest false none none = .ok (result, []) ∧
    resolve mailBaseline { mailRequest with
      add := [], remove := [], setRules := some (result.rules.map AttributedRule.toRule),
      setScopes := some result.scopes } false none none = .ok (result', []) ∧
    List.Forall₂ (Reidentified (targetRules mailBaseline) mailRequest.remove)
      (result.rules.map AttributedRule.toRule) (result'.rules.map AttributedRule.toRule) := by
  obtain ⟨result, hids, hresult⟩ : ∃ result : RevisionResult,
      result.rules.map (·.id) = [none, none] ∧
      resolve mailBaseline mailRequest false none none = .ok (result, []) := ⟨_, rfl, rfl⟩
  have hall := wholeList_agrees { mailRequest with
    add := [], remove := [], setRules := some (result.rules.map AttributedRule.toRule),
    setScopes := some result.scopes } (by decide) (by decide) rfl hresult rfl rfl
    (fun h => nomatch h)
  rcases hall.1 with ⟨result', hresult', _, _, hpairs⟩
  exact ⟨result, result', hids, hresult, hresult', hpairs⟩

end EditRevisions

end Permissions

end JenticOne
