import JenticOne.Permissions.BasePathRewrite

/-!
# The Job That Rewrites Rules

The job goes through the stored rules with a path, decides each of them for the APIs of
the credentials it is about, and writes the new path if the stored one is still what it
has read. The write stands only with its audit entry. A rule of a binding is about one
credential, and a shared rule about those of every binding that has its rule set.

A run changes just the rules that are to be rewritten and whose audit entries are
written, and what it would do is what it reports when it may not write. A later run makes
up for the writes that failed, and after a run without a failure there is nothing left to
rewrite.

## Main definitions

* `RuleRow`, `Job`: Stored rules, and what the job reads besides.
* `Job.decide`: The decision for a stored rule.
* `runRule`, `run`: A run.

## Theorems

* `run_spec`: A run, rule by rule.
* `decide_settled`: A rule that is rewritten is settled.
* `run_sound`: Runs, and runs that follow them.
-/

namespace JenticOne

namespace Permissions

namespace RewriteJob

open BasePathRewrite Registry.BasePaths

/-! ## Rules and what they are about -/

inductive Source
  | binding (agentId credentialId : Text)
  | ruleSet (ruleSetId : Text)
deriving DecidableEq

structure RuleRow where
  ruleId : Text
  source : Source
  path : Text
  matchMode : MatchMode
deriving DecidableEq

def RuleRow.ownerKey (rule : RuleRow) : Text :=
  match rule.source with
  | .binding agentId credentialId => agentId ++ ':' :: credentialId
  | .ruleSet ruleSetId => ruleSetId

/-- The table and the id of a stored rule. -/
def RuleRow.key (rule : RuleRow) : Bool × Text :=
  match rule.source with
  | .binding _ _ => (true, rule.ruleId)
  | .ruleSet _ => (false, rule.ruleId)

structure ApiIdentity where
  vendor : Text
  name : Text
  version : Text
deriving DecidableEq

structure BindingRow where
  bindingId : Text
  agentId : Text
  credentialId : Text
  ruleSetId : Option Text

/-- What the job reads besides the rules. -/
structure Job where
  credentialApis : Text → Option (Option ApiIdentity)
  bindings : List BindingRow
  shape : ApiIdentity → Option ApiPathShape

namespace Job

variable (job : Job)

/-- The binding of a rule; the last one of a pair counts. -/
def bindingId (rule : RuleRow) : Option Text :=
  match rule.source with
  | .binding agentId credentialId =>
      (job.bindings.reverse.find? fun b =>
        b.agentId = agentId ∧ b.credentialId = credentialId).map BindingRow.bindingId
  | .ruleSet _ => none

def credentialIds (rule : RuleRow) : List Text :=
  match rule.source with
  | .binding _ credentialId => [credentialId]
  | .ruleSet ruleSetId =>
      ((job.bindings.filter fun b => b.ruleSetId = some ruleSetId).map
        BindingRow.credentialId).dedup.insertionSort (· ≤ ·)

/-- The APIs of the credentials up to the first that names none. -/
def resolve : List ApiIdentity → List Text → Option SkipReason × List ApiIdentity
  | resolved, [] => (none, resolved)
  | resolved, credentialId :: rest =>
      match job.credentialApis credentialId with
      | none => (some .credentialNotFound, resolved)
      | some none => (some .credentialNotApiScoped, resolved)
      | some (some api) => resolve (if api ∈ resolved then resolved else resolved ++ [api]) rest

/-- `_decide`. -/
def decide (rule : RuleRow) : RewriteDecision × List ApiIdentity :=
  if rule.key.1 ∧ job.bindingId rule = none then (.skipped .bindingNotFound, [])
  else if job.credentialIds rule = [] then (.skipped .ruleSetNotAttached, [])
  else
    match job.resolve [] (job.credentialIds rule) with
    | (some reason, resolved) => (.skipped reason, resolved)
    | (none, resolved) =>
        (decideRewrite (some rule.path) rule.matchMode (resolved.map job.shape), resolved)

/-- The new path of a rule that is to be rewritten. -/
def newPath (rule : RuleRow) : Option Text :=
  match (job.decide rule).1 with
  | .rewrite new => some new
  | _ => none

end Job

/-! ## Runs -/

inductive Category
  | rewritten (newPath : Text)
  | wouldRewrite (newPath : Text)
  | skipped (reason : SkipReason)
  | changedConcurrently (newPath : Text)
  | writeFailed (newPath : Text)
deriving DecidableEq

/-- A line of the report. -/
structure Finding where
  rule : RuleRow
  ownerKey : Text
  bindingId : Option Text
  apis : List ApiIdentity
  category : Category

/-- An audit entry: what it is about, and the rule before and after. -/
structure Audit where
  targetId : Text
  ruleId : Text
  before : Text
  after : Text
deriving DecidableEq

structure RunState where
  rows : List RuleRow
  rulesScanned : Nat
  rewritten : Nat
  skipped : Nat
  findings : List Finding
  audits : List Audit

/-- `set_rule_path`, if a stored rule has the path still. -/
def setRulePath (rows : List RuleRow) (rule : RuleRow) (new : Text) : Option (List RuleRow) :=
  if rows.any fun row => row.key = rule.key ∧ row.path = rule.path then
    some (rows.map fun row =>
      if row.key = rule.key ∧ row.path = rule.path then { row with path := new } else row)
  else none

def Job.audit (job : Job) (rule : RuleRow) (new : Text) : Audit :=
  ⟨(job.bindingId rule).getD rule.ownerKey, rule.ruleId, rule.path, new⟩

/-- One rule of a run. The audit entries of some rules cannot be written. -/
def runRule (job : Job) (diffOnly : Bool) (fails : RuleRow → Bool) (st : RunState)
    (rule : RuleRow) : RunState :=
  let finding := fun category =>
    (⟨rule, rule.ownerKey, job.bindingId rule, (job.decide rule).2, category⟩ : Finding)
  match (job.decide rule).1 with
  | .unchanged => { st with rulesScanned := st.rulesScanned + 1 }
  | .skipped reason =>
      { st with
        rulesScanned := st.rulesScanned + 1
        skipped := st.skipped + 1
        findings := st.findings ++ [finding (.skipped reason)] }
  | .rewrite new =>
      if diffOnly then
        { st with
          rulesScanned := st.rulesScanned + 1
          rewritten := st.rewritten + 1
          findings := st.findings ++ [finding (.wouldRewrite new)] }
      else
        match setRulePath st.rows rule new with
        | none =>
            { st with
              rulesScanned := st.rulesScanned + 1
              skipped := st.skipped + 1
              findings := st.findings ++ [finding (.changedConcurrently new)] }
        | some rows =>
            if fails rule then
              { st with
                rulesScanned := st.rulesScanned + 1
                skipped := st.skipped + 1
                findings := st.findings ++ [finding (.writeFailed new)] }
            else
              { rows := rows
                rulesScanned := st.rulesScanned + 1
                rewritten := st.rewritten + 1
                skipped := st.skipped
                findings := st.findings ++ [finding (.rewritten new)]
                audits := st.audits ++ [job.audit rule new] }

/-- A run over the rules that are stored when it begins. -/
def run (job : Job) (diffOnly : Bool) (fails : RuleRow → Bool) (rows : List RuleRow) : RunState :=
  rows.foldl (runRule job diffOnly fails) ⟨rows, 0, 0, 0, [], []⟩

/-! ## One rule -/

/-- The APIs a rule is judged against, as far as the registry knows them; `none` if it is
skipped before. -/
def Job.shapes (job : Job) (rule : RuleRow) : Option (List (Option ApiPathShape)) :=
  if rule.key.1 ∧ job.bindingId rule = none then none
  else if job.credentialIds rule = [] then none
  else
    match job.resolve [] (job.credentialIds rule) with
    | (some _, _) => none
    | (none, resolved) => some (resolved.map job.shape)

/-- A rule after a run. -/
def Job.after (job : Job) (fails : RuleRow → Bool) (rule : RuleRow) : RuleRow :=
  match job.newPath rule with
  | some new => if fails rule then rule else { rule with path := new }
  | none => rule

/-- The audit entry that a run writes for a rule. -/
def Job.audited (job : Job) (fails : RuleRow → Bool) (rule : RuleRow) : Option Audit :=
  (job.newPath rule).bind fun new => if fails rule then none else some (job.audit rule new)

section OneRule

variable {job : Job} {rule : RuleRow} {new : Text} {fails : RuleRow → Bool} {st : RunState}

theorem newPath_eq_some : job.newPath rule = some new ↔ ∃ shapes, job.shapes rule = some shapes ∧
    decideRewrite (some rule.path) rule.matchMode shapes = .rewrite new := by
  unfold Job.newPath Job.decide Job.shapes
  split
  · rename_i new' hdecide
    rw [Option.some.injEq]
    split at hdecide
    · exact absurd hdecide (by simp only [reduceCtorEq, not_false_eq_true])
    · split at hdecide
      · exact absurd hdecide (by simp only [reduceCtorEq, not_false_eq_true])
      · rename_i hbinding hcredentials
        rw [if_neg hbinding, if_neg hcredentials]
        split at hdecide
        · exact absurd hdecide (by simp only [reduceCtorEq, not_false_eq_true])
        · rename_i resolved _
          dsimp only at hdecide ⊢
          constructor
          · rintro rfl
            exact ⟨_, rfl, hdecide⟩
          · rintro ⟨shapes, hshapes, hnew⟩
            rw [← Option.some.inj hshapes, hdecide, RewriteDecision.rewrite.injEq] at hnew
            exact hnew
  · rename_i hnone
    refine iff_of_false (by simp only [reduceCtorEq, not_false_eq_true]) ?_
    rintro ⟨shapes, hshapes, hnew⟩
    split at hshapes
    · exact absurd hshapes (by simp only [reduceCtorEq, not_false_eq_true])
    · split at hshapes
      · exact absurd hshapes (by simp only [reduceCtorEq, not_false_eq_true])
      · rename_i hbinding hcredentials
        rw [if_neg hbinding, if_neg hcredentials] at hnone
        split at hshapes
        · exact absurd hshapes (by simp only [reduceCtorEq, not_false_eq_true])
        · rename_i resolved hresolve
          rw [hresolve] at hnone
          rw [← Option.some.inj hshapes] at hnew
          exact hnone new hnew

/-- A rule that is rewritten is settled. -/
theorem decide_settled (h : job.newPath rule = some new) :
    job.newPath { rule with path := new } = none := by
  rcases newPath_eq_some.mp h with ⟨shapes, hshapes, hdecide⟩
  rw [Option.eq_none_iff_forall_ne_some]
  intro newer hnewer
  rcases newPath_eq_some.mp hnewer with ⟨shapes', hshapes', hagain⟩
  -- What the rule is about has not changed.
  have hsame : job.shapes { rule with path := new } = job.shapes rule := rfl
  rw [hsame, hshapes, Option.some.injEq] at hshapes'
  rw [← hshapes'] at hagain
  have hsound := decideRewrite_sound ⟨fun _ => none, fun _ => false, fun _ _ => false⟩ hdecide
  exact hsound.again newer hagain

theorem runRule_diffOnly (job : Job) (fails : RuleRow → Bool) (st : RunState) (rule : RuleRow) :
    (runRule job true fails st rule).rows = st.rows ∧
      (runRule job true fails st rule).audits = st.audits ∧
      (runRule job true fails st rule).rewritten =
        st.rewritten + if (job.newPath rule).isSome then 1 else 0 := by
  cases hdecide : (job.decide rule).1 with
  | unchanged =>
      simp only [runRule, Job.newPath, hdecide, Option.isSome_none, Bool.false_eq_true, if_false,
        Nat.add_zero, and_self]
  | skipped reason =>
      simp only [runRule, Job.newPath, hdecide, Option.isSome_none, Bool.false_eq_true, if_false,
        Nat.add_zero, and_self]
  | rewrite new =>
      simp only [runRule, Job.newPath, hdecide, Option.isSome_some, if_true, and_self]

/-- The rule is written where it stands. -/
theorem setRulePath_of_nodup {before rest : List RuleRow}
    (hkeys : ((before ++ rule :: rest).map RuleRow.key).Nodup) :
    setRulePath (before ++ rule :: rest) rule new =
      some (before ++ { rule with path := new } :: rest) := by
  rw [List.map_append, List.map_cons, List.nodup_append, List.nodup_cons] at hkeys
  rcases hkeys with ⟨_, ⟨hrest, _⟩, hbefore⟩
  have hsame : ∀ rows : List RuleRow, (∀ row ∈ rows, row.key ≠ rule.key) →
      rows.map (fun row => if row.key = rule.key ∧ row.path = rule.path then
        { row with path := new } else row) = rows := by
    intro rows hrows
    conv_rhs => rw [← List.map_id rows]
    exact List.map_congr_left fun row hrow => if_neg fun hand => hrows row hrow hand.1
  have hany : (before ++ rule :: rest).any
      (fun row => decide (row.key = rule.key ∧ row.path = rule.path)) = true :=
    List.any_eq_true.mpr ⟨rule, List.mem_append_right _ List.mem_cons_self, decide_eq_true ⟨rfl, rfl⟩⟩
  rw [setRulePath, if_pos hany, List.map_append, List.map_cons, if_pos ⟨rfl, rfl⟩,
    hsame before, hsame rest]
  · exact fun row hrow hkey => hrest (List.mem_map.mpr ⟨row, hrow, hkey⟩)
  · exact fun row hrow hkey => hbefore _ (List.mem_map_of_mem hrow) _ List.mem_cons_self hkey

theorem runRule_write (job : Job) (fails : RuleRow → Bool) {before rest : List RuleRow} (hrows : st.rows = before ++ rule :: rest)
    (hkeys : ((before ++ rule :: rest).map RuleRow.key).Nodup) :
    (runRule job false fails st rule).rows = before ++ job.after fails rule :: rest ∧
      (runRule job false fails st rule).audits = st.audits ++ (job.audited fails rule).toList ∧
      (runRule job false fails st rule).rewritten =
        st.rewritten + if (job.audited fails rule).isSome then 1 else 0 := by
  cases hdecide : (job.decide rule).1 with
  | unchanged =>
      simp only [runRule, Job.after, Job.audited, Job.newPath, hdecide, hrows, Option.bind_none,
        Option.toList_none, List.append_nil, Option.isSome_none, Bool.false_eq_true, if_false,
        Nat.add_zero, and_self]
  | skipped reason =>
      simp only [runRule, Job.after, Job.audited, Job.newPath, hdecide, hrows, Option.bind_none,
        Option.toList_none, List.append_nil, Option.isSome_none, Bool.false_eq_true, if_false,
        Nat.add_zero, and_self]
  | rewrite new =>
      have hset : setRulePath (before ++ rule :: rest) rule new =
          some (before ++ { rule with path := new } :: rest) := setRulePath_of_nodup hkeys
      cases hfails : fails rule with
      | true =>
          simp only [runRule, Job.after, Job.audited, Job.newPath, hdecide, hrows, hset, hfails,
            Option.bind_some, if_true, Bool.false_eq_true, if_false, Option.toList_none,
            List.append_nil, Option.isSome_none, Nat.add_zero, and_self]
      | false =>
          simp only [runRule, Job.after, Job.audited, Job.newPath, hdecide, hrows, hset, hfails,
            Option.bind_some, if_true, Bool.false_eq_true, if_false, Option.toList_some,
            Option.isSome_some, and_self]

end OneRule

/-! ## All rules -/

/-- No audit entry fails. -/
def never : RuleRow → Bool := fun _ => false

section Runs

variable {job : Job} {fails : RuleRow → Bool} {st : RunState} {rows : List RuleRow}

theorem key_after (rule : RuleRow) : (job.after fails rule).key = rule.key := by
  unfold Job.after
  split
  · split <;> rfl
  · rfl

theorem after_of_none {rule : RuleRow} (h : job.newPath rule = none) :
    job.after fails rule = rule := by
  rw [Job.after, h]

theorem audited_of_none {rule : RuleRow} (h : job.newPath rule = none) :
    job.audited fails rule = none := by
  rw [Job.audited, h]
  rfl

/-- A run that may not write. -/
theorem foldl_diffOnly (job : Job) (fails : RuleRow → Bool) (rest : List RuleRow) (st : RunState) :
    (rest.foldl (runRule job true fails) st).rows = st.rows ∧
      (rest.foldl (runRule job true fails) st).audits = st.audits ∧
      (rest.foldl (runRule job true fails) st).rewritten =
        st.rewritten + rest.countP fun rule => (job.newPath rule).isSome := by
  induction rest generalizing st with
  | nil => exact ⟨rfl, rfl, rfl⟩
  | cons rule rest ih =>
      rcases ih (runRule job true fails st rule) with ⟨hrows, haudits, hrewritten⟩
      rcases runRule_diffOnly job fails st rule with ⟨hrows', haudits', hrewritten'⟩
      rw [List.foldl_cons, hrows, haudits, hrewritten, hrows', haudits', hrewritten',
        List.countP_cons]
      exact ⟨rfl, rfl, by omega⟩

/-- What a run has left to do stands as it was read. -/
theorem foldl_write (job : Job) (fails : RuleRow → Bool) {before rest : List RuleRow} (hrows : st.rows = before ++ rest)
    (hkeys : ((before ++ rest).map RuleRow.key).Nodup) :
    (rest.foldl (runRule job false fails) st).rows = before ++ rest.map (job.after fails) ∧
      (rest.foldl (runRule job false fails) st).audits =
        st.audits ++ rest.filterMap (job.audited fails) ∧
      (rest.foldl (runRule job false fails) st).rewritten =
        st.rewritten + rest.countP fun rule => (job.audited fails rule).isSome := by
  induction rest generalizing before st with
  | nil => exact ⟨hrows, (List.append_nil _).symm, rfl⟩
  | cons rule rest ih =>
      rcases runRule_write job fails hrows hkeys with ⟨hrows', haudits', hrewritten'⟩
      have hsplit : before ++ job.after fails rule :: rest =
          (before ++ [job.after fails rule]) ++ rest := by
        rw [List.append_assoc, List.singleton_append]
      have hkeys' : (((before ++ [job.after fails rule]) ++ rest).map RuleRow.key).Nodup := by
        rw [← hsplit, List.map_append, List.map_cons, key_after, ← List.map_cons, ← List.map_append]
        exact hkeys
      rcases ih (hrows'.trans hsplit) hkeys' with ⟨hrows'', haudits'', hrewritten''⟩
      rw [List.foldl_cons, hrows'', haudits'', hrewritten'', haudits', hrewritten',
        List.countP_cons, List.filterMap_cons, List.map_cons]
      refine ⟨List.append_assoc before _ _, ?_, by omega⟩
      cases job.audited fails rule with
      | none => rw [Option.toList_none, List.append_nil]
      | some audit => rw [Option.toList_some, List.append_assoc, List.singleton_append]

/-- A run, rule by rule. -/
theorem run_spec (hkeys : (rows.map RuleRow.key).Nodup) :
    (run job false fails rows).rows = rows.map (job.after fails) ∧
      (run job false fails rows).audits = rows.filterMap (job.audited fails) ∧
      (run job false fails rows).rewritten =
        rows.countP fun rule => (job.audited fails rule).isSome := by
  have hstart : (⟨rows, 0, 0, 0, [], []⟩ : RunState).rows = [] ++ rows := rfl
  rcases foldl_write job fails hstart hkeys with ⟨hrows, haudits, hrewritten⟩
  exact ⟨hrows, haudits, hrewritten.trans (Nat.zero_add _)⟩

/-- After a run in which its write succeeds, a rule is not rewritten. -/
theorem newPath_after (rule : RuleRow) : job.newPath (job.after never rule) = none := by
  cases hnew : job.newPath rule with
  | none =>
      rw [after_of_none hnew]
      exact hnew
  | some new =>
      rw [Job.after, hnew]
      exact decide_settled hnew

theorem after_after (rule : RuleRow) :
    job.after never (job.after fails rule) = job.after never rule := by
  cases hnew : job.newPath rule with
  | none => rw [after_of_none hnew]
  | some new =>
      cases hfails : fails rule with
      | true =>
          have hsame : job.after fails rule = rule := by
            rw [Job.after, hnew]
            exact if_pos hfails
          rw [hsame]
      | false =>
          have hsame : job.after fails rule = job.after never rule := by
            rw [Job.after, Job.after, hnew]
            dsimp only
            rw [hfails]
            rfl
          rw [hsame]
          exact after_of_none (newPath_after rule)

/-- Runs, and runs that follow them: what changes and what is audited, what rules that
change keep, what a run that may not write reports, and what is left for a later run. -/
structure RunMeets (engine : Engine Char) (job : Job) (fails : RuleRow → Bool)
    (rows : List RuleRow) : Prop where
  written : (run job false fails rows).rows = rows.map (job.after fails)
  audits : (run job false fails rows).audits = rows.filterMap (job.audited fails)
  kept : ∀ row ∈ rows, job.after fails row ≠ row → ∃ shapes, job.shapes row = some shapes ∧
    Rewritten engine row.path row.matchMode shapes (job.after fails row).path
  diffOnly : (run job true fails rows).rows = rows ∧ (run job true fails rows).audits = [] ∧
    (run job true fails rows).rewritten = (run job false never rows).rewritten
  later : (run job false never (run job false fails rows).rows).rows =
    (run job false never rows).rows
  settled : ∀ fails', (run job false fails' (run job false never rows).rows).rewritten = 0

theorem run_sound (engine : Engine Char) (job : Job) (fails : RuleRow → Bool)
    (hkeys : (rows.map RuleRow.key).Nodup) : RunMeets engine job fails rows := by
  have hafter : ∀ fails, ((rows.map (job.after fails)).map RuleRow.key).Nodup := by
    intro fails
    have hsame : (rows.map (job.after fails)).map RuleRow.key = rows.map RuleRow.key := by
      rw [List.map_map]
      exact List.map_congr_left fun row _ => key_after row
    rw [hsame]
    exact hkeys
  have hnever : (run job false never rows).rows = rows.map (job.after never) := (run_spec hkeys).1
  refine ⟨(run_spec hkeys).1, (run_spec hkeys).2.1, fun row _ hne => ?_, ?_, ?_, fun fails' => ?_⟩
  · cases hnew : job.newPath row with
    | none => exact absurd (after_of_none hnew) hne
    | some new =>
        rcases newPath_eq_some.mp hnew with ⟨shapes, hshapes, hdecide⟩
        refine ⟨shapes, hshapes, ?_⟩
        have hpath : (job.after fails row).path = new := by
          rw [Job.after, hnew] at hne ⊢
          dsimp only at hne ⊢
          by_cases hfails : fails row = true
          · rw [if_pos hfails] at hne
            exact absurd rfl hne
          · rw [if_neg hfails]
        rw [hpath]
        exact decideRewrite_sound engine hdecide
  · rcases foldl_diffOnly job fails rows ⟨rows, 0, 0, 0, [], []⟩ with ⟨hrows, haudits, hrewritten⟩
    refine ⟨hrows, haudits, hrewritten.trans ?_⟩
    rw [(run_spec hkeys).2.2, Nat.zero_add]
    refine List.countP_congr fun row _ => ?_
    rw [Job.audited]
    cases job.newPath row with
    | none => exact Iff.rfl
    | some new => exact Iff.rfl
  · rw [(run_spec hkeys).1, hnever, (run_spec (hafter fails)).1, List.map_map]
    exact List.map_congr_left fun row _ => after_after row
  · rw [hnever, (run_spec (hafter never)).2.2, List.countP_eq_zero]
    intro row hrow
    rcases List.mem_map.mp hrow with ⟨row', _, rfl⟩
    rw [audited_of_none (newPath_after row')]
    exact Bool.false_ne_true

/-- A rule of a binding and a shared one, for one API. -/
def petRows : List RuleRow :=
  [⟨"r1".toList, .binding "agt".toList "crd".toList, "/api/v3/pet".toList, .prefixMode⟩,
    ⟨"r1".toList, .ruleSet "set".toList, "/api/v3/store".toList, .exactMode⟩]

def petJob : Job :=
  ⟨fun _ => some (some ⟨"acme".toList, "pets".toList, "1".toList⟩),
    [⟨"bnd".toList, "agt".toList, "crd".toList, some "set".toList⟩], fun _ => some petShape⟩

theorem run_sound_pet :
    RunMeets ⟨fun _ => none, fun _ => false, fun _ _ => false⟩ petJob
      (fun rule => rule.matchMode = .exactMode) petRows :=
  run_sound _ petJob _ (by decide)

/-- Both rules are rewritten, and only the first if the other one's audit entry fails. -/
example : ((run petJob false never petRows).rewritten,
    (run petJob false (fun rule => rule.matchMode = .exactMode) petRows).rewritten) = (2, 1) := by
  decide +kernel

end Runs

end RewriteJob

end Permissions

end JenticOne
