import JenticOne.Flattening.Snapshot
import JenticOne.Library.Machine

/-!
# The Flattening Job

The job writes in many transactions: one for the rule sets of all pairs it is going to
bind, one for each binding, one for the toolkit names of old executions. It can be cut
off between any two of them, and by an insertion that the database refuses, and is run
again from the beginning. A run that is cut off leaves rule sets without a binding and
never a binding without its rules.

The rows of a table carry its constraints: no two rule sets of one name or one id, no
rule of a set that is not there, no two bindings of one pair. The ids that a run draws
are the choices of its steps.

## Main definitions

* `RuleSets`, `Db`: The rows the job writes, beside those it reads.
* `ensureRuleSets`, `insertCredentialBinding`, `backfillExecutionNames`: What the
  transactions do.
* `job`: The job as a machine, with crashes and re-runs.
* `verify`: The verification of a database.
* `effectiveRules`: The rules the broker reads for a binding.

## Theorems

* `ensureRuleSet_cases`: What becomes of the rule set of a pair.
* `insertCredentialBinding_cases`: What becomes of the binding of a pair.
* `named_backfillExecutionNames`, `backfillExecutionNames_of_named`: The names of the
  executions after one backfill and after another.
-/

namespace JenticOne

namespace Flattening

open Permissions

/-! ## Rule sets -/

structure RuleSetRow where
  id : Text
  name : Text
  description : Option Text
  createdBy : Option Text
  deriving DecidableEq

/-- A row of `permission_rule_set_rules`. -/
structure SetRuleRow where
  ruleSetId : Text
  rule : PermissionRuleSchema
  isSystem : Bool
  comment : Option Text
  sequence : Nat
  createdBy : Option Text
  deriving DecidableEq

/-- The rule sets with their rules, under the constraints of the tables. -/
structure RuleSets where
  sets : Table RuleSetRow.name
  rules : List SetRuleRow
  ids : (sets.rows.map RuleSetRow.id).Nodup
  owned : ∀ r ∈ rules, r.ruleSetId ∈ sets.rows.map RuleSetRow.id

namespace RuleSets

/-- The rules of a set, as they are stored. -/
def rowsOf (s : RuleSets) (ruleSetId : Text) : List SetRuleRow :=
  s.rules.filter fun r => r.ruleSetId = ruleSetId

/-- `insert_for_flattening`. -/
def insertForFlattening (s : RuleSets) (row : RuleSetRow) : Option RuleSets :=
  if hid : row.id ∈ s.sets.rows.map RuleSetRow.id then none
  else
    match hsets : s.sets.insert row with
    | none => none
    | some sets =>
        some
          { sets := sets
            rules := s.rules
            ids := by
              rw [(Table.insert_eq_some hsets).2, List.map_append, List.nodup_append]
              refine ⟨s.ids, List.nodup_singleton _, fun a ha b hb hab => ?_⟩
              rw [List.map_singleton, List.mem_singleton] at hb
              rw [hab, hb] at ha
              exact hid ha
            owned := by
              intro r hr
              rw [(Table.insert_eq_some hsets).2, List.map_append, List.mem_append]
              exact Or.inl (s.owned r hr) }

/-- The rules of a set as they are written anew. -/
def userRules (ruleSetId createdBy : Text) (rules : List RuleRow) : List SetRuleRow :=
  rules.mapIdx fun idx rule =>
    { ruleSetId := ruleSetId
      rule := rule.rule
      isSystem := false
      comment := rule.comment
      sequence := idx
      createdBy := some createdBy }

/-- `replace_user_rules`, of a set that is there. -/
def replaceUserRules (s : RuleSets) (ruleSetId createdBy : Text) (rules : List RuleRow) :
    Option RuleSets :=
  if hid : ruleSetId ∈ s.sets.rows.map RuleSetRow.id then
    some
      { sets := s.sets
        rules := (s.rules.filter fun r => !(r.ruleSetId = ruleSetId && !r.isSystem)) ++
          userRules ruleSetId createdBy rules
        ids := s.ids
        owned := by
          intro r hr
          rcases List.mem_append.mp hr with hr | hr
          · exact s.owned r (List.mem_filter.mp hr).1
          · unfold userRules at hr
            rcases List.mem_mapIdx.mp hr with ⟨i, hi, rfl⟩
            exact hid }
  else none

end RuleSets

def systemActor : Text := "system:theme5-flattening".toList

/-- `_ensure_rule_set`, with the id that is drawn for a new set. -/
def ensureRuleSet (s : RuleSets) (newId : Text) (pair : DerivedPair) :
    Option (RuleSets × Text) :=
  match s.sets.get pair.setName with
  | some existing => some (s, existing.id)
  | none =>
      (s.insertForFlattening
        { id := newId
          name := pair.setName
          description := some ("Rules of toolkit ".toList ++
            ((pair.sourcePath.map Path.toolkitId).getD []) ++ " / credential ".toList ++
            pair.credentialId ++ ", copied by the theme-5 Phase 6a flattening job".toList)
          createdBy := some systemActor }).bind fun s =>
        (s.replaceUserRules newId systemActor pair.targetRules).map fun s => (s, newId)

/-- The transaction for the rule sets of all pairs to bind. -/
def ensureRuleSets (newId : Pair → Text) :
    List DerivedPair → RuleSets → Dict Pair (Option Text) →
      Option (RuleSets × Dict Pair (Option Text))
  | [], s, ids => some (s, ids)
  | pair :: rest, s, ids =>
      if pair.targetRules = [] then ensureRuleSets newId rest s (ids.set pair.key none)
      else
        (ensureRuleSet s (newId pair.key) pair).bind fun x =>
          ensureRuleSets newId rest x.1 (ids.set pair.key (some x.2))

/-! ## The databases -/

/-- A row of `agent_credential_bindings`. -/
structure DirectRow where
  id : Text
  agentId : Text
  credentialId : Text
  ruleSetId : Option Text
  boundAt : Nat
  createdBy : Text
  deriving DecidableEq

def DirectRow.pair (b : DirectRow) : Pair := (b.agentId, b.credentialId)

/-- An audit entry of a binding. -/
structure AuditRow where
  targetId : Text
  targetParentId : Text
  actorId : Text
  deriving DecidableEq

structure ExecutionRow where
  id : Text
  toolkitId : Option Text
  toolkitName : Option Text
  deriving DecidableEq

/-- Both databases. -/
structure Db where
  graph : Graph
  ruleSets : RuleSets
  direct : Table DirectRow.pair
  audits : List AuditRow
  /-- `execution_records` has a column for the name of the toolkit. -/
  toolkitNameColumn : Bool
  executions : List ExecutionRow

/-- `insert_credential_binding` with its audit entry: nothing is inserted for a pair that
    has a binding. -/
def insertCredentialBinding (db : Db) (newId : Text) (now : Nat) (pair : DerivedPair)
    (ruleSetId : Option Text) : Option Db :=
  if (db.direct.get pair.key).isSome then
    some { db with audits := db.audits ++ [⟨newId, pair.agentId, systemActor⟩] }
  else if newId ∈ db.direct.rows.map DirectRow.id then none
  else
    (db.direct.insert ⟨newId, pair.agentId, pair.credentialId, ruleSetId, pair.boundAt now,
      systemActor⟩).map fun direct =>
        { db with
          direct := direct
          audits := db.audits ++ [⟨newId, pair.agentId, systemActor⟩] }

/-! ## Execution names -/

/-- `ensure_execution_toolkit_name_column`. -/
def ensureColumn (db : Db) : Db :=
  if db.toolkitNameColumn then db
  else
    { db with
      toolkitNameColumn := true
      executions := db.executions.map fun e => { e with toolkitName := none } }

/-- `list_unbackfilled_toolkit_ids`. -/
def listUnbackfilledToolkitIds (db : Db) : List Text :=
  ((if db.toolkitNameColumn then db.executions.filter (fun e => e.toolkitName = none)
    else db.executions).filterMap ExecutionRow.toolkitId).dedup

/-- `backfill_execution_toolkit_name`. -/
def backfillName (toolkit : ToolkitRow) (e : ExecutionRow) : ExecutionRow :=
  if e.toolkitId = some toolkit.id ∧ e.toolkitName = none then
    { e with toolkitName := some toolkit.name }
  else e

/-- The loop of `_backfill_execution_names`, with the number of rows it wrote. -/
def backfillLoop (graph : Graph) : List Text → List ExecutionRow → Nat → List ExecutionRow × Nat
  | [], executions, total => (executions, total)
  | toolkitId :: rest, executions, total =>
      match graph.toolkits.get toolkitId with
      | none => backfillLoop graph rest executions total
      | some toolkit =>
          backfillLoop graph rest (executions.map (backfillName toolkit))
            (total + executions.countP fun e =>
              e.toolkitId = some toolkit.id ∧ e.toolkitName = none)

/-- `_backfill_execution_names`, with the toolkits of the snapshot. -/
def backfillExecutionNames (graph : Graph) (db : Db) : Db × Nat :=
  ({ ensureColumn db with
      executions := (backfillLoop graph (listUnbackfilledToolkitIds (ensureColumn db))
        (ensureColumn db).executions 0).1 },
    (backfillLoop graph (listUnbackfilledToolkitIds (ensureColumn db))
      (ensureColumn db).executions 0).2)

/-! ## Runs -/

structure FlatteningRunResult where
  pairsTotal : Nat
  created : Nat
  alreadyPresent : Nat
  backfilledExecutionNames : Nat
  deriving DecidableEq

/-- A pair has a direct binding. -/
def Db.bound (db : Db) (key : Pair) : Bool := (db.direct.get key).isSome

/-- Where a run is: not under way, before its first transaction, before a binding or the
    names, at its end. -/
inductive Job
  | idle
  | planned (snapshot : Graph) (result : FlatteningRunResult) (toCreate : List DerivedPair)
  | binding (snapshot : Graph) (result : FlatteningRunResult)
      (ruleSetIds : Dict Pair (Option Text)) (rest : List DerivedPair)
  | done (result : FlatteningRunResult)

structure State where
  db : Db
  job : Job

inductive Action
  | begin
  | commitRules (newId : Pair → Text)
  | commitBinding (newId : Text) (now : Nat)
  | commitNames
  | crash

/-- The plan of a run: which derived pairs it is going to bind. -/
def plan (db : Db) : Job :=
  .planned db.graph
    { pairsTotal := (derivePairs db.graph).length
      created := 0
      alreadyPresent := ((derivePairs db.graph).filter fun pair => db.bound pair.key).length
      backfilledExecutionNames := 0 }
    ((derivePairs db.graph).filter fun pair => !db.bound pair.key)

/-- `run`, transaction by transaction. -/
def step (s : State) : Action → Option State
  | .begin =>
      match s.job with
      | .idle | .done _ => some { s with job := plan s.db }
      | _ => none
  | .commitRules newId =>
      match s.job with
      | .planned snapshot result toCreate =>
          (ensureRuleSets newId toCreate s.db.ruleSets Dict.empty).map fun x =>
            ⟨{ s.db with ruleSets := x.1 }, .binding snapshot result x.2 toCreate⟩
      | _ => none
  | .commitBinding newId now =>
      match s.job with
      | .binding snapshot result ruleSetIds (pair :: rest) =>
          (insertCredentialBinding s.db newId now pair
            ((ruleSetIds.get? pair.key).getD none)).map fun db =>
              ⟨db, .binding snapshot { result with created := result.created + 1 } ruleSetIds rest⟩
      | _ => none
  | .commitNames =>
      match s.job with
      | .binding snapshot result _ [] =>
          some ⟨(backfillExecutionNames snapshot s.db).1, .done { result with
            backfilledExecutionNames := (backfillExecutionNames snapshot s.db).2 }⟩
      | _ => none
  | .crash => some { s with job := .idle }

/-- The job on a database that no one else writes to. -/
def job (db : Db) : Machine State Action where
  start s := s = ⟨db, .idle⟩
  step := step

/-! ## Verification -/

structure VerificationResult where
  passed : Bool
  legacyPairCount : Nat
  directBindingCount : Nat
  missing : List Pair
  unbackfilled : List Text
  liveKeys : List Text
  deriving DecidableEq

/-- `verify`, without the acknowledgement. -/
def verify (db : Db) : VerificationResult :=
  let missing := ((derivePairs db.graph).map DerivedPair.key).filter fun key => !db.bound key
  let unbackfilled := ((listUnbackfilledToolkitIds db).filter
    fun t => (db.graph.toolkits.get t).isSome).insertionSort (· ≤ ·)
  let liveKeys := (db.graph.keys.filter
    fun k => !k.revoked && k.migratedActorId.isNone).map KeyRow.id
  { passed := missing.isEmpty && unbackfilled.isEmpty && liveKeys.isEmpty
    legacyPairCount := (derivePairs db.graph).length
    directBindingCount := db.direct.rows.length
    missing := missing
    unbackfilled := unbackfilled
    liveKeys := liveKeys }

/-! ## Enforcement -/

/-- `_fetch_rules` of the broker: the rules of the binding's set, or its own. -/
def effectiveRules (db : Db) (b : DirectRow) : List PermissionRuleSchema :=
  match b.ruleSetId with
  | some ruleSetId =>
      ((db.ruleSets.rowsOf ruleSetId).insertionSort fun r r' => r.sequence ≤ r'.sequence).map
        SetRuleRow.rule
  | none =>
      ((db.graph.inlineRules.filter fun r =>
        r.agentId = b.agentId ∧ r.credentialId = b.credentialId).insertionSort
          fun r r' => r.sequence ≤ r'.sequence).map InlineRuleRow.rule

/-- The verdict of a rule list on a request. -/
def verdict (engine : Engine Char) (upper : Text → Text) (rows : List PermissionRuleSchema)
    (req : Request) : Effect :=
  ruleVerdict (rows.map (compileRow engine upper))
    (firstMatchingRule engine upper (rows.map (compileRow engine upper)) req)

/-! ## What a transaction does -/

section Cases

variable {s s' : RuleSets} {pair : DerivedPair}

namespace RuleSets

theorem insertForFlattening_spec {row : RuleSetRow} (h : s.insertForFlattening row = some s') :
    row.id ∉ s.sets.rows.map RuleSetRow.id ∧ s'.sets.rows = s.sets.rows ++ [row] ∧
      s'.rules = s.rules := by
  unfold insertForFlattening at h
  split at h
  · exact absurd h (by simp only [reduceCtorEq, not_false_eq_true])
  · rename_i hid
    split at h
    · exact absurd h (by simp only [reduceCtorEq, not_false_eq_true])
    · rename_i sets hsets
      rw [Option.some.injEq] at h
      rw [← h]
      exact ⟨hid, (Table.insert_eq_some hsets).2, rfl⟩

theorem replaceUserRules_spec {ruleSetId createdBy : Text} {rules : List RuleRow}
    (h : s.replaceUserRules ruleSetId createdBy rules = some s') :
    s'.sets = s.sets ∧ s'.rules = (s.rules.filter fun r => !(r.ruleSetId = ruleSetId &&
      !r.isSystem)) ++ userRules ruleSetId createdBy rules := by
  unfold replaceUserRules at h
  split at h
  · rw [Option.some.injEq] at h
    rw [← h]
    exact ⟨rfl, rfl⟩
  · exact absurd h (by simp only [reduceCtorEq, not_false_eq_true])

theorem ruleSetId_of_mem_userRules {ruleSetId createdBy : Text} {rules : List RuleRow}
    {r : SetRuleRow} (h : r ∈ userRules ruleSetId createdBy rules) : r.ruleSetId = ruleSetId := by
  unfold userRules at h
  rcases List.mem_mapIdx.mp h with ⟨i, hi, rfl⟩
  rfl

end RuleSets

/-- The rule set of a pair is the one of its name, or a new one with its rules. -/
theorem ensureRuleSet_cases {newId id : Text}
    (h : ensureRuleSet s newId pair = some (s', id)) :
    (s' = s ∧ ∃ row ∈ s.sets, row.name = pair.setName ∧ row.id = id) ∨
      (id ∉ s.sets.rows.map RuleSetRow.id ∧
        (∃ row, row.name = pair.setName ∧ row.id = id ∧ s'.sets.rows = s.sets.rows ++ [row]) ∧
        s'.rules = s.rules ++ RuleSets.userRules id systemActor pair.targetRules) := by
  unfold ensureRuleSet at h
  cases hget : s.sets.get pair.setName with
  | some existing =>
      rw [hget] at h
      rcases Prod.mk.inj (Option.some.inj h) with ⟨rfl, rfl⟩
      have hrow := (Table.get_eq_some_iff s.sets pair.setName existing).mp hget
      exact Or.inl ⟨rfl, existing, hrow.1, hrow.2, rfl⟩
  | none =>
      rw [hget] at h
      dsimp only at h
      rcases Option.bind_eq_some_iff.mp h with ⟨s₁, hinsert, hmap⟩
      rcases Option.map_eq_some_iff.mp hmap with ⟨s₂, hreplace, heq⟩
      rcases Prod.mk.inj heq with ⟨rfl, rfl⟩
      rcases RuleSets.insertForFlattening_spec hinsert with ⟨hid, hsets, hrules⟩
      rcases RuleSets.replaceUserRules_spec hreplace with ⟨hsets', hrules'⟩
      refine Or.inr ⟨hid, ⟨_, rfl, rfl, by rw [hsets', hsets]⟩, ?_⟩
      -- No rule is of the new set yet.
      have hkeep : (s₁.rules.filter fun r => !(r.ruleSetId = newId && !r.isSystem)) = s.rules := by
        rw [hrules, List.filter_eq_self]
        intro r hr
        have hne : ¬ r.ruleSetId = newId := fun hc => hid (hc ▸ s.owned r hr)
        simp only [hne, decide_false, Bool.false_and, Bool.not_false]
      rw [hrules', hkeep]

/-- A pair with a binding keeps it, another one gets a new row. -/
theorem insertCredentialBinding_cases {db db' : Db} {newId : Text} {now : Nat}
    {ruleSetId : Option Text} (h : insertCredentialBinding db newId now pair ruleSetId = some db') :
    db'.graph = db.graph ∧ db'.ruleSets = db.ruleSets ∧
      ((db.bound pair.key = true ∧ db'.direct = db.direct) ∨
        (db.bound pair.key = false ∧ ∃ row : DirectRow, row.pair = pair.key ∧
          row.ruleSetId = ruleSetId ∧ db'.direct.rows = db.direct.rows ++ [row])) := by
  unfold insertCredentialBinding at h
  by_cases hbound : (db.direct.get pair.key).isSome = true
  · rw [if_pos hbound, Option.some.injEq] at h
    rw [← h]
    exact ⟨rfl, rfl, Or.inl ⟨hbound, rfl⟩⟩
  · rw [if_neg hbound] at h
    split at h
    · exact absurd h (by simp only [reduceCtorEq, not_false_eq_true])
    · rcases Option.map_eq_some_iff.mp h with ⟨direct, hinsert, rfl⟩
      exact ⟨rfl, rfl, Or.inr ⟨Bool.eq_false_iff.mpr hbound,
        ⟨newId, pair.agentId, pair.credentialId, ruleSetId, pair.boundAt now, systemActor⟩,
        rfl, rfl, (Table.insert_eq_some hinsert).2⟩⟩

end Cases

/-! ## Names -/

/-- What the loop makes of an execution. -/
def backfillAll (graph : Graph) (toolkitIds : List Text) (e : ExecutionRow) : ExecutionRow :=
  toolkitIds.foldl (fun e t => (graph.toolkits.get t).elim e fun toolkit => backfillName toolkit e) e

theorem backfillLoop_eq {graph : Graph} {toolkitIds : List Text} {executions : List ExecutionRow}
    {total : Nat} :
    (backfillLoop graph toolkitIds executions total).1 =
      executions.map (backfillAll graph toolkitIds) := by
  induction toolkitIds generalizing executions total with
  | nil => exact (List.map_id' executions).symm
  | cons t rest ih =>
      unfold backfillLoop
      cases htoolkit : graph.toolkits.get t with
      | none =>
          dsimp only
          rw [ih]
          refine List.map_congr_left fun e _ => ?_
          unfold backfillAll
          rw [List.foldl_cons, htoolkit, Option.elim_none]
      | some toolkit =>
          dsimp only
          rw [ih, List.map_map]
          refine List.map_congr_left fun e _ => ?_
          unfold backfillAll
          rw [Function.comp_apply, List.foldl_cons, htoolkit, Option.elim_some]

theorem backfillName_toolkitId {toolkit : ToolkitRow} {e : ExecutionRow} :
    (backfillName toolkit e).toolkitId = e.toolkitId := by
  unfold backfillName
  split <;> rfl

theorem backfillName_of_named {toolkit : ToolkitRow} {e : ExecutionRow}
    (h : e.toolkitName ≠ none) : backfillName toolkit e = e :=
  if_neg fun hc => h hc.2

theorem backfillAll_toolkitId {graph : Graph} {toolkitIds : List Text} {e : ExecutionRow} :
    (backfillAll graph toolkitIds e).toolkitId = e.toolkitId := by
  unfold backfillAll
  induction toolkitIds generalizing e with
  | nil => rfl
  | cons t rest ih =>
      rw [List.foldl_cons, ih]
      cases graph.toolkits.get t with
      | none => rfl
      | some toolkit => exact backfillName_toolkitId

theorem backfillAll_of_named {graph : Graph} {toolkitIds : List Text} {e : ExecutionRow}
    (h : e.toolkitName ≠ none) : backfillAll graph toolkitIds e = e := by
  unfold backfillAll
  induction toolkitIds with
  | nil => rfl
  | cons t rest ih =>
      rw [List.foldl_cons]
      cases graph.toolkits.get t with
      | none => exact ih
      | some toolkit =>
          rw [Option.elim_some, backfillName_of_named h]
          exact ih

/-- An execution of a toolkit that is there gets a name. -/
theorem backfillAll_named {graph : Graph} {toolkitIds : List Text} {e : ExecutionRow} {t : Text}
    (ht : e.toolkitId = some t) (hmem : t ∈ toolkitIds)
    (htoolkit : (graph.toolkits.get t).isSome = true) :
    (backfillAll graph toolkitIds e).toolkitName ≠ none := by
  by_cases hname : e.toolkitName = none
  · induction toolkitIds with
    | nil => exact absurd hmem List.not_mem_nil
    | cons t' rest ih =>
        unfold backfillAll at ih ⊢
        rw [List.foldl_cons]
        by_cases hsame : t' = t
        · -- The row is written here.
          rcases Option.isSome_iff_exists.mp htoolkit with ⟨toolkit, hget⟩
          have hid : toolkit.id = t := Table.get_key hget
          have hwritten : backfillName toolkit e = { e with toolkitName := some toolkit.name } :=
            if_pos ⟨by rw [ht, hid], hname⟩
          have hnamed : (backfillName toolkit e).toolkitName ≠ none := by
            rw [hwritten]
            exact Option.some_ne_none _
          have hkept : backfillAll graph rest (backfillName toolkit e) = backfillName toolkit e :=
            backfillAll_of_named hnamed
          unfold backfillAll at hkept
          rw [hsame, hget, Option.elim_some, hkept]
          exact hnamed
        · have hrest : t ∈ rest := (List.mem_cons.mp hmem).resolve_left fun hc => hsame hc.symm
          have hskip : ((graph.toolkits.get t').elim e fun toolkit => backfillName toolkit e) =
              e := by
            cases hget : graph.toolkits.get t' with
            | none => rfl
            | some toolkit =>
                have hid : toolkit.id = t' := Table.get_key hget
                refine if_neg fun hc => hsame ?_
                rw [ht, hid, Option.some.injEq] at hc
                exact hc.1.symm
          rw [hskip]
          exact ih hrest
  · rw [backfillAll_of_named hname]
    exact hname

theorem mem_listUnbackfilledToolkitIds {db : Db} (hcolumn : db.toolkitNameColumn = true)
    {t : Text} : t ∈ listUnbackfilledToolkitIds db ↔
      ∃ e ∈ db.executions, e.toolkitName = none ∧ e.toolkitId = some t := by
  unfold listUnbackfilledToolkitIds
  rw [if_pos hcolumn, List.mem_dedup, List.mem_filterMap]
  simp only [List.mem_filter, decide_eq_true_eq, and_assoc]

/-- All executions have the names of the toolkits that are there. -/
def Named (db : Db) : Prop :=
  db.toolkitNameColumn = true ∧
    ∀ t ∈ listUnbackfilledToolkitIds db, db.graph.toolkits.get t = none

/-- The backfill leaves no name out. -/
theorem named_backfillExecutionNames (db : Db) :
    Named (backfillExecutionNames db.graph db).1 := by
  have hcolumn : (ensureColumn db).toolkitNameColumn = true := by
    unfold ensureColumn
    split
    · assumption
    · rfl
  have hgraph : (ensureColumn db).graph = db.graph := by
    unfold ensureColumn
    split <;> rfl
  have hcolumn' : (backfillExecutionNames db.graph db).1.toolkitNameColumn = true := hcolumn
  refine ⟨hcolumn', fun t ht => ?_⟩
  rw [mem_listUnbackfilledToolkitIds hcolumn'] at ht
  rcases ht with ⟨e, he, hname, hid⟩
  change e ∈ (backfillLoop db.graph (listUnbackfilledToolkitIds (ensureColumn db))
    (ensureColumn db).executions 0).1 at he
  rw [backfillLoop_eq] at he
  rcases List.mem_map.mp he with ⟨e', he', rfl⟩
  rw [backfillAll_toolkitId] at hid
  have hname' : e'.toolkitName = none := by
    by_contra hc
    rw [backfillAll_of_named hc] at hname
    exact hc hname
  have hmem : t ∈ listUnbackfilledToolkitIds (ensureColumn db) :=
    (mem_listUnbackfilledToolkitIds hcolumn).mpr ⟨e', he', hname', hid⟩
  change (ensureColumn db).graph.toolkits.get t = none
  rw [hgraph]
  by_contra hc
  exact backfillAll_named hid hmem (Option.isSome_iff_ne_none.mpr hc) hname

theorem backfillLoop_of_gone {graph : Graph} {toolkitIds : List Text}
    {executions : List ExecutionRow} {total : Nat}
    (h : ∀ t ∈ toolkitIds, graph.toolkits.get t = none) :
    backfillLoop graph toolkitIds executions total = (executions, total) := by
  induction toolkitIds with
  | nil => rfl
  | cons t rest ih =>
      unfold backfillLoop
      rw [h t List.mem_cons_self]
      exact ih fun t' ht' => h t' (List.mem_cons_of_mem t ht')

/-- A second backfill writes nothing. -/
theorem backfillExecutionNames_of_named {db : Db} (h : Named db) :
    backfillExecutionNames db.graph db = (db, 0) := by
  have hcolumn : ensureColumn db = db := if_pos h.1
  unfold backfillExecutionNames
  rw [hcolumn, backfillLoop_of_gone h.2]

end Flattening

end JenticOne
