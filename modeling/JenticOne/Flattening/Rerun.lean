import JenticOne.Flattening.Job

/-!
# Crashes and Re-Runs of the Flattening Job

What holds of the databases at every step of every run, whatever crashed before: the
rule sets and the bindings that were there at the start are kept, every other rule set
has the rules of a toolkit for a credential under the name of the two, and every other
binding is one of a derived pair, with the rule set of the pair's name or without one.

A run that comes to its end has bound every derived pair, and leaves nothing to be done
for another run. A pair without a binding, inline rules and a rule set of its name at
the start ends with the rules that its toolkits agree on. A pair that was bound at the
start keeps its rules, which may be others.

## Main definitions

* `Grown`: The rule sets after some transactions.
* `Granted`: The rule set of a pair's binding.
* `Inv`: What holds at every step.
* `Settled`: Nothing is left to be done.

## Theorems

* `inv_of_reachable`: The invariant of all runs.
* `quiet_of_reachable`: Runs on a settled database change nothing.
* `flattening_rerun_safe`: What a completed run leaves.
-/

namespace JenticOne

namespace Flattening

open Permissions

/-! ## Rule sets -/

/-- Rule sets are added to those at the start, each with the rules of a toolkit for a
    credential. -/
structure Grown (graph : Graph) (s₀ s : RuleSets) : Prop where
  kept : ∀ row ∈ s₀.sets, row ∈ s.sets
  rows : ∀ id ∈ s₀.sets.rows.map RuleSetRow.id, s.rowsOf id = s₀.rowsOf id
  new : ∀ row ∈ s.sets, row ∈ s₀.sets ∨ ∃ toolkitId credentialId rules,
    (graph.toolkits.get toolkitId).isSome = true ∧
      row.name = ruleSetName toolkitId credentialId ∧
      rules.map ruleSemantics = rulesOf graph toolkitId credentialId ∧
      s.rowsOf row.id = RuleSets.userRules row.id systemActor rules

/-- A pair without target rules has no rule set, another one the set of its name. -/
def Granted (sets : Table RuleSetRow.name) (pair : DerivedPair) (ruleSetId : Option Text) :
    Prop :=
  (pair.targetRules = [] → ruleSetId = none) ∧
    (pair.targetRules ≠ [] → ∃ row ∈ sets, row.name = pair.setName ∧ ruleSetId = some row.id)

section Sets

variable {graph : Graph} {s₀ s s' : RuleSets} {pair : DerivedPair}

theorem Grown.refl : Grown graph s₀ s₀ where
  kept _ h := h
  rows _ _ := rfl
  new _ h := Or.inl h

theorem Granted.mono {sets sets' : Table RuleSetRow.name} {ruleSetId : Option Text}
    (hle : ∀ row ∈ sets, row ∈ sets') (h : Granted sets pair ruleSetId) :
    Granted sets' pair ruleSetId := by
  refine ⟨h.1, fun hne => ?_⟩
  rcases h.2 hne with ⟨row, hrow, hname, hid⟩
  exact ⟨row, hle row hrow, hname, hid⟩

theorem not_conflicting_of_targetRules (h : pair.targetRules ≠ []) :
    ¬ pair.conflicting = true :=
  fun hc => h (targetRules_of_conflicting hc)

/-- The rules of a new set are those it is written with, and no other set has new rules. -/
theorem rowsOf_of_append {newId : Text} {rules : List RuleRow}
    (hid : newId ∉ s.sets.rows.map RuleSetRow.id)
    (hrules : s'.rules = s.rules ++ RuleSets.userRules newId systemActor rules) (id : Text) :
    s'.rowsOf id = if id = newId then RuleSets.userRules newId systemActor rules
      else s.rowsOf id := by
  unfold RuleSets.rowsOf
  rw [hrules, List.filter_append]
  by_cases hsame : id = newId
  · have hold : s.rules.filter (fun r => r.ruleSetId = id) = [] := by
      rw [List.filter_eq_nil_iff]
      intro r hr hc
      rw [decide_eq_true_eq, hsame] at hc
      exact hid (hc ▸ s.owned r hr)
    have hnew : (RuleSets.userRules newId systemActor rules).filter (fun r => r.ruleSetId = id) =
        RuleSets.userRules newId systemActor rules := by
      rw [List.filter_eq_self]
      intro r hr
      rw [decide_eq_true_eq, RuleSets.ruleSetId_of_mem_userRules hr, hsame]
    rw [if_pos hsame, hold, hnew, List.nil_append]
  · have hnew : (RuleSets.userRules newId systemActor rules).filter
        (fun r => r.ruleSetId = id) = [] := by
      rw [List.filter_eq_nil_iff]
      intro r hr hc
      rw [decide_eq_true_eq, RuleSets.ruleSetId_of_mem_userRules hr] at hc
      exact hsame hc.symm
    rw [if_neg hsame, hnew, List.append_nil]

/-- The set of one pair. -/
theorem grown_ensureRuleSet {newId id : Text} (hgrown : Grown graph s₀ s)
    (hpair : pair ∈ derivePairs graph) (htarget : pair.targetRules ≠ [])
    (h : ensureRuleSet s newId pair = some (s', id)) :
    Grown graph s₀ s' ∧ (∀ row ∈ s.sets, row ∈ s'.sets) ∧
      Granted s'.sets pair (some id) := by
  rcases ensureRuleSet_cases h with ⟨rfl, row, hrow, hname, hid⟩ |
    ⟨hfree, ⟨row, hname, hid, hsets⟩, hrules⟩
  · exact ⟨hgrown, fun _ h => h, fun hc => absurd hc htarget,
      fun _ => ⟨row, hrow, hname, congrArg some hid.symm⟩⟩
  · have hmem (x : RuleSetRow) : x ∈ s'.sets ↔ x ∈ s.sets ∨ x = row := by
      change x ∈ s'.sets.rows ↔ x ∈ s.sets.rows ∨ x = row
      rw [hsets, List.mem_append, List.mem_singleton]
    have hrows := rowsOf_of_append hfree hrules
    -- A set that was there is not the new one.
    have hother : ∀ x ∈ s.sets, x.id ≠ id := fun x hx hc => hfree (hc ▸ List.mem_map_of_mem hx)
    refine ⟨⟨fun x hx => (hmem x).mpr (Or.inl (hgrown.kept x hx)), fun i hi => ?_, fun x hx => ?_⟩,
      fun x hx => (hmem x).mpr (Or.inl hx), fun hc => absurd hc htarget,
      fun _ => ⟨row, (hmem row).mpr (Or.inr rfl), hname, congrArg some hid.symm⟩⟩
    · rcases List.mem_map.mp hi with ⟨x, hx, rfl⟩
      rw [hrows, if_neg (hother x (hgrown.kept x hx)), hgrown.rows x.id hi]
    · rcases (hmem x).mp hx with hx | rfl
      · rcases hgrown.new x hx with hold | ⟨t, c, rules, ht, hn, hr, hrow⟩
        · exact Or.inl hold
        · refine Or.inr ⟨t, c, rules, ht, hn, hr, ?_⟩
          rw [hrows, if_neg (hother x hx)]
          exact hrow
      · rcases exists_setName hpair with ⟨t, hreach, hset⟩
        refine Or.inr ⟨t, pair.credentialId, pair.targetRules, hreach.2.2.1, hname.trans hset,
          ruleSemantics_targetRules hpair (not_conflicting_of_targetRules htarget) hreach, ?_⟩
        rw [hrows, hid, if_pos rfl]

/-- The sets of all pairs, and the ids that are kept for them. -/
theorem grown_ensureRuleSets {newId : Pair → Text} {todo d : List DerivedPair}
    {ids ids' : Dict Pair (Option Text)} (hgrown : Grown graph s₀ s)
    (htodo : ∀ p ∈ todo, p ∈ derivePairs graph) (hdone : ∀ p ∈ d, p ∈ derivePairs graph ∧
      Granted s.sets p ((ids.get? p.key).getD none))
    (h : ensureRuleSets newId todo s ids = some (s', ids')) :
    Grown graph s₀ s' ∧ (∀ row ∈ s.sets, row ∈ s'.sets) ∧
      ∀ p, p ∈ d ∨ p ∈ todo → Granted s'.sets p ((ids'.get? p.key).getD none) := by
  induction todo generalizing s ids d with
  | nil =>
      rcases Prod.mk.inj (Option.some.inj h) with ⟨rfl, rfl⟩
      exact ⟨hgrown, fun _ h => h, fun p hp =>
        (hdone p (hp.resolve_right List.not_mem_nil)).2⟩
  | cons pair rest ih =>
      have hpair := htodo pair List.mem_cons_self
      have hrest : ∀ p ∈ rest, p ∈ derivePairs graph :=
        fun p hp => htodo p (List.mem_cons_of_mem pair hp)
      -- An id for this pair, and the ids that were kept before.
      have hkeep {s₁ : RuleSets} {id : Option Text} (hle : ∀ row ∈ s.sets, row ∈ s₁.sets)
          (hid : Granted s₁.sets pair id) : ∀ p ∈ pair :: d, p ∈ derivePairs graph ∧
            Granted s₁.sets p (((ids.set pair.key id).get? p.key).getD none) := by
        intro p hp
        by_cases hkey : pair.key = p.key
        · rw [Dict.get?_set, if_pos hkey, Option.getD_some]
          have hsame : p ∈ derivePairs graph := by
            rcases List.mem_cons.mp hp with rfl | hp
            · exact hpair
            · exact (hdone p hp).1
          rw [← eq_of_key hpair hsame hkey]
          exact ⟨hpair, hid⟩
        · have hp' : p ∈ d :=
            (List.mem_cons.mp hp).resolve_left fun hc => hkey (congrArg DerivedPair.key hc).symm
          rw [Dict.get?_set, if_neg hkey]
          exact ⟨(hdone p hp').1, (hdone p hp').2.mono hle⟩
      have hall {p : DerivedPair} (hp : p ∈ d ∨ p ∈ pair :: rest) :
          p ∈ pair :: d ∨ p ∈ rest := by
        rcases hp with hp | hp
        · exact Or.inl (List.mem_cons_of_mem pair hp)
        · rcases List.mem_cons.mp hp with rfl | hp
          · exact Or.inl List.mem_cons_self
          · exact Or.inr hp
      unfold ensureRuleSets at h
      by_cases htarget : pair.targetRules = []
      · rw [if_pos htarget] at h
        have hid : Granted s.sets pair none := ⟨fun _ => rfl, fun hc => absurd htarget hc⟩
        rcases ih hgrown hrest (hkeep (fun _ h => h) hid) h with ⟨hgrown', hle, hgranted⟩
        exact ⟨hgrown', hle, fun p hp => hgranted p (hall hp)⟩
      · rw [if_neg htarget] at h
        rcases Option.bind_eq_some_iff.mp h with ⟨⟨s₁, id⟩, hset, h⟩
        rcases grown_ensureRuleSet hgrown hpair htarget hset with ⟨hgrown₁, hle₁, hid⟩
        rcases ih hgrown₁ hrest (hkeep hle₁ hid) h with ⟨hgrown', hle, hgranted⟩
        exact ⟨hgrown', fun row hrow => hle row (hle₁ row hrow), fun p hp => hgranted p (hall hp)⟩

end Sets

/-! ## All runs -/

/-- Every derived pair is bound and every execution has its name. -/
def Settled (db : Db) : Prop :=
  (∀ pair ∈ derivePairs db.graph, db.bound pair.key = true) ∧ Named db

/-- What a run has still to do covers the derived pairs that are not bound. -/
def JobSound (db : Db) : Job → Prop
  | .idle => True
  | .planned snapshot _ toCreate =>
      snapshot = db.graph ∧ (∀ pair ∈ toCreate, pair ∈ derivePairs db.graph) ∧
        ∀ pair ∈ derivePairs db.graph, db.bound pair.key = true ∨ pair ∈ toCreate
  | .binding snapshot _ ruleSetIds rest =>
      snapshot = db.graph ∧ (∀ pair ∈ rest, pair ∈ derivePairs db.graph ∧
        Granted db.ruleSets.sets pair ((ruleSetIds.get? pair.key).getD none)) ∧
        ∀ pair ∈ derivePairs db.graph, db.bound pair.key = true ∨ pair ∈ rest
  | .done _ => Settled db

/-- What holds at every step of the runs from a database. -/
structure Inv (db₀ : Db) (s : State) : Prop where
  graph : s.db.graph = db₀.graph
  sets : Grown db₀.graph db₀.ruleSets s.db.ruleSets
  kept : ∀ b ∈ db₀.direct, b ∈ s.db.direct
  new : ∀ b ∈ s.db.direct, b ∈ db₀.direct ∨ (db₀.bound b.pair = false ∧
    ∃ pair ∈ derivePairs db₀.graph, pair.key = b.pair ∧
      Granted s.db.ruleSets.sets pair b.ruleSetId)
  job : JobSound s.db s.job

section Steps

variable {db₀ db : Db} {s s' : State}

theorem bound_iff {db : Db} {key : Pair} :
    db.bound key = true ↔ ∃ b ∈ db.direct, b.pair = key := by
  unfold Db.bound
  rw [Option.isSome_iff_exists]
  constructor
  · rintro ⟨b, hb⟩
    exact ⟨b, (Table.get_eq_some_iff db.direct key b).mp hb⟩
  · rintro ⟨b, hb⟩
    exact ⟨b, (Table.get_eq_some_iff db.direct key b).mpr hb⟩

theorem inv_begin (h : Inv db₀ s) (hstep : step s .begin = some s') : Inv db₀ s' := by
  have hplan : s' = { s with job := plan s.db } := by
    unfold step at hstep
    cases hjob : s.job with
    | idle =>
        rw [hjob] at hstep
        exact (Option.some.inj hstep).symm
    | done result =>
        rw [hjob] at hstep
        exact (Option.some.inj hstep).symm
    | planned snapshot result toCreate =>
        rw [hjob] at hstep
        exact absurd hstep (by simp only [reduceCtorEq, not_false_eq_true])
    | binding snapshot result ruleSetIds rest =>
        rw [hjob] at hstep
        exact absurd hstep (by simp only [reduceCtorEq, not_false_eq_true])
  rw [hplan]
  refine ⟨h.graph, h.sets, h.kept, h.new, rfl, fun pair hpair => (List.mem_filter.mp hpair).1,
    fun pair hpair => ?_⟩
  by_cases hbound : s.db.bound pair.key = true
  · exact Or.inl hbound
  · refine Or.inr (List.mem_filter.mpr ⟨hpair, ?_⟩)
    rw [Bool.not_eq_true', Bool.eq_false_iff]
    exact hbound

theorem inv_commitRules {newId : Pair → Text} (h : Inv db₀ s)
    (hstep : step s (.commitRules newId) = some s') : Inv db₀ s' := by
  have hjob := h.job
  unfold step at hstep
  cases hs : s.job with
  | idle =>
      rw [hs] at hstep
      exact absurd hstep (by simp only [reduceCtorEq, not_false_eq_true])
  | done result =>
      rw [hs] at hstep
      exact absurd hstep (by simp only [reduceCtorEq, not_false_eq_true])
  | binding snapshot result ruleSetIds rest =>
      rw [hs] at hstep
      exact absurd hstep (by simp only [reduceCtorEq, not_false_eq_true])
  | planned snapshot result toCreate =>
      rw [hs] at hstep hjob
      dsimp only at hstep
      rcases Option.map_eq_some_iff.mp hstep with ⟨⟨sets, ids⟩, hsets, rfl⟩
      rcases hjob with ⟨hsnapshot, hderived, hcover⟩
      have htodo : ∀ p ∈ toCreate, p ∈ derivePairs db₀.graph := by
        intro p hp
        rw [← h.graph]
        exact hderived p hp
      rcases grown_ensureRuleSets (d := []) h.sets htodo
        (fun p hp => absurd hp List.not_mem_nil) hsets with ⟨hgrown, hle, hgranted⟩
      refine ⟨h.graph, hgrown, h.kept, fun b hb => ?_, hsnapshot,
        fun p hp => ⟨hderived p hp, hgranted p (Or.inr hp)⟩, hcover⟩
      refine (h.new b hb).imp_right fun ⟨hbound, pair, hpair, hkey, hrule⟩ => ?_
      exact ⟨hbound, pair, hpair, hkey, hrule.mono hle⟩

theorem inv_commitBinding {newId : Text} {now : Nat} (h : Inv db₀ s)
    (hstep : step s (.commitBinding newId now) = some s') : Inv db₀ s' := by
  have hjob := h.job
  unfold step at hstep
  cases hs : s.job with
  | idle =>
      rw [hs] at hstep
      exact absurd hstep (by simp only [reduceCtorEq, not_false_eq_true])
  | done result =>
      rw [hs] at hstep
      exact absurd hstep (by simp only [reduceCtorEq, not_false_eq_true])
  | planned snapshot result toCreate =>
      rw [hs] at hstep
      exact absurd hstep (by simp only [reduceCtorEq, not_false_eq_true])
  | binding snapshot result ruleSetIds rest =>
      rw [hs] at hstep hjob
      cases rest with
      | nil => exact absurd hstep (by simp only [reduceCtorEq, not_false_eq_true])
      | cons pair rest =>
          dsimp only at hstep
          rcases Option.map_eq_some_iff.mp hstep with ⟨db', hinsert, rfl⟩
          rcases hjob with ⟨hsnapshot, hrest, hcover⟩
          rcases hrest pair List.mem_cons_self with ⟨hpair, hgranted⟩
          rcases insertCredentialBinding_cases hinsert with ⟨hgraph, hsets, hdirect⟩
          -- The bindings are those before, and one of the pair.
          have hle : ∀ b ∈ s.db.direct, b ∈ db'.direct := by
            intro b hb
            rcases hdirect with ⟨_, hsame⟩ | ⟨_, row, _, _, hrows⟩
            · rw [hsame]
              exact hb
            · change b ∈ db'.direct.rows
              rw [hrows, List.mem_append]
              exact Or.inl hb
          have hbound : db'.bound pair.key = true := by
            rcases hdirect with ⟨hb, hsame⟩ | ⟨_, row, hkey, _, hrows⟩
            · unfold Db.bound at hb ⊢
              rw [hsame]
              exact hb
            · refine bound_iff.mpr ⟨row, ?_, hkey⟩
              change row ∈ db'.direct.rows
              rw [hrows, List.mem_append, List.mem_singleton]
              exact Or.inr rfl
          refine ⟨hgraph.trans h.graph, by rw [hsets]; exact h.sets,
            fun b hb => hle b (h.kept b hb), fun b hb => ?_, hsnapshot.trans hgraph.symm, ?_, ?_⟩
          · rw [hsets]
            rcases hdirect with ⟨_, hsame⟩ | ⟨hfree, row, hkey, hrule, hrows⟩
            · rw [hsame] at hb
              exact h.new b hb
            · change b ∈ db'.direct.rows at hb
              rw [hrows, List.mem_append, List.mem_singleton] at hb
              rcases hb with hb | rfl
              · exact h.new b hb
              · refine Or.inr ⟨?_, pair, ?_, hkey.symm, ?_⟩
                · rw [hkey, Bool.eq_false_iff]
                  intro hc
                  rcases bound_iff.mp hc with ⟨b', hb', hkey'⟩
                  rw [bound_iff.mpr ⟨b', h.kept b' hb', hkey'⟩] at hfree
                  exact absurd hfree (by decide)
                · rw [← h.graph]
                  exact hpair
                · rw [hrule]
                  exact hgranted
          · intro p hp
            change p ∈ derivePairs db'.graph ∧ Granted db'.ruleSets.sets p _
            rw [hgraph, hsets]
            exact hrest p (List.mem_cons_of_mem pair hp)
          · intro p hp
            change p ∈ derivePairs db'.graph at hp
            rw [hgraph] at hp
            rcases hcover p hp with hb | hp'
            · rcases bound_iff.mp hb with ⟨b, hb, hkey⟩
              exact Or.inl (bound_iff.mpr ⟨b, hle b hb, hkey⟩)
            · rcases List.mem_cons.mp hp' with rfl | hp'
              · exact Or.inl hbound
              · exact Or.inr hp'

theorem ensureColumn_frame (db : Db) : (ensureColumn db).graph = db.graph ∧
    (ensureColumn db).ruleSets = db.ruleSets ∧ (ensureColumn db).direct = db.direct := by
  unfold ensureColumn
  split <;> exact ⟨rfl, rfl, rfl⟩

/-- The names touch neither the graph nor the rule sets nor the bindings. -/
theorem backfillExecutionNames_frame (graph : Graph) (db : Db) :
    (backfillExecutionNames graph db).1.graph = db.graph ∧
      (backfillExecutionNames graph db).1.ruleSets = db.ruleSets ∧
      (backfillExecutionNames graph db).1.direct = db.direct :=
  ensureColumn_frame db

theorem inv_commitNames (h : Inv db₀ s) (hstep : step s .commitNames = some s') :
    Inv db₀ s' := by
  have hjob := h.job
  unfold step at hstep
  cases hs : s.job with
  | idle =>
      rw [hs] at hstep
      exact absurd hstep (by simp only [reduceCtorEq, not_false_eq_true])
  | done result =>
      rw [hs] at hstep
      exact absurd hstep (by simp only [reduceCtorEq, not_false_eq_true])
  | planned snapshot result toCreate =>
      rw [hs] at hstep
      exact absurd hstep (by simp only [reduceCtorEq, not_false_eq_true])
  | binding snapshot result ruleSetIds rest =>
      rw [hs] at hstep hjob
      cases rest with
      | cons pair rest => exact absurd hstep (by simp only [reduceCtorEq, not_false_eq_true])
      | nil =>
          dsimp only at hstep
          rw [Option.some.injEq] at hstep
          rw [← hstep]
          rcases hjob with ⟨hsnapshot, _, hcover⟩
          rcases backfillExecutionNames_frame snapshot s.db with ⟨hgraph, hsets, hdirect⟩
          refine ⟨hgraph.trans h.graph, by rw [hsets]; exact h.sets,
            fun b hb => by rw [hdirect]; exact h.kept b hb, fun b hb => ?_, fun pair hpair => ?_, ?_⟩
          · rw [hdirect] at hb
            rw [hsets]
            exact h.new b hb
          · change (Option.isSome (Table.get (backfillExecutionNames snapshot s.db).1.direct _)) = _
            rw [hdirect]
            rw [hgraph] at hpair
            exact (hcover pair hpair).resolve_right List.not_mem_nil
          · rw [hsnapshot]
            exact named_backfillExecutionNames s.db

/-- Every step of every run, and every crash, keeps the invariant. -/
theorem inv_of_reachable (h : (job db₀).Reachable s) : Inv db₀ s := by
  refine Machine.reachable_invariant (P := Inv db₀) ?_ ?_ h
  · intro s hs
    rw [show s = ⟨db₀, .idle⟩ from hs]
    exact ⟨rfl, Grown.refl, fun _ h => h, fun _ h => Or.inl h, trivial⟩
  · intro s a s' hinv hstep
    cases a with
    | begin => exact inv_begin hinv hstep
    | commitRules newId => exact inv_commitRules hinv hstep
    | commitBinding newId now => exact inv_commitBinding hinv hstep
    | commitNames => exact inv_commitNames hinv hstep
    | crash =>
        rw [← Option.some.inj hstep]
        exact ⟨hinv.graph, hinv.sets, hinv.kept, hinv.new, trivial⟩

end Steps

/-! ## Runs on a settled database -/

/-- A run that has nothing to do. -/
def QuietJob (db : Db) : Job → Prop
  | .idle => True
  | .planned snapshot result toCreate =>
      snapshot = db.graph ∧ result.created = 0 ∧ toCreate = []
  | .binding snapshot result _ rest => snapshot = db.graph ∧ result.created = 0 ∧ rest = []
  | .done result => result.created = 0 ∧ result.backfilledExecutionNames = 0

theorem quiet_step {db : Db} (hsettled : Settled db) {s s' : State} {a : Action}
    (h : s.db = db ∧ QuietJob db s.job) (hstep : step s a = some s') :
    s'.db = db ∧ QuietJob db s'.job := by
  rcases h with ⟨hdb, hjob⟩
  have hplan : QuietJob db (plan db) := by
    refine ⟨rfl, rfl, List.filter_eq_nil_iff.mpr fun pair hpair => ?_⟩
    rw [hsettled.1 pair hpair]
    decide
  cases a with
  | crash =>
      rw [← Option.some.inj hstep]
      exact ⟨hdb, trivial⟩
  | begin =>
      unfold step at hstep
      cases hs : s.job with
      | idle =>
          rw [hs, hdb] at hstep
          rw [← Option.some.inj hstep]
          exact ⟨rfl, hplan⟩
      | done result =>
          rw [hs, hdb] at hstep
          rw [← Option.some.inj hstep]
          exact ⟨rfl, hplan⟩
      | planned snapshot result toCreate =>
          rw [hs] at hstep
          exact absurd hstep (by simp only [reduceCtorEq, not_false_eq_true])
      | binding snapshot result ruleSetIds rest =>
          rw [hs] at hstep
          exact absurd hstep (by simp only [reduceCtorEq, not_false_eq_true])
  | commitRules newId =>
      unfold step at hstep
      cases hs : s.job with
      | planned snapshot result toCreate =>
          rw [hs] at hjob hstep
          rcases hjob with ⟨hsnapshot, hcreated, rfl⟩
          -- There is no pair to make a rule set for.
          rw [← Option.some.inj hstep]
          exact ⟨hdb, hsnapshot, hcreated, rfl⟩
      | idle =>
          rw [hs] at hstep
          exact absurd hstep (by simp only [reduceCtorEq, not_false_eq_true])
      | done result =>
          rw [hs] at hstep
          exact absurd hstep (by simp only [reduceCtorEq, not_false_eq_true])
      | binding snapshot result ruleSetIds rest =>
          rw [hs] at hstep
          exact absurd hstep (by simp only [reduceCtorEq, not_false_eq_true])
  | commitBinding newId now =>
      unfold step at hstep
      cases hs : s.job with
      | binding snapshot result ruleSetIds rest =>
          rw [hs] at hjob hstep
          rcases hjob with ⟨_, _, rfl⟩
          exact absurd hstep (by simp only [reduceCtorEq, not_false_eq_true])
      | idle =>
          rw [hs] at hstep
          exact absurd hstep (by simp only [reduceCtorEq, not_false_eq_true])
      | done result =>
          rw [hs] at hstep
          exact absurd hstep (by simp only [reduceCtorEq, not_false_eq_true])
      | planned snapshot result toCreate =>
          rw [hs] at hstep
          exact absurd hstep (by simp only [reduceCtorEq, not_false_eq_true])
  | commitNames =>
      unfold step at hstep
      cases hs : s.job with
      | binding snapshot result ruleSetIds rest =>
          rw [hs] at hjob hstep
          rcases hjob with ⟨hsnapshot, hcreated, rfl⟩
          dsimp only at hstep
          rw [hsnapshot, hdb, backfillExecutionNames_of_named hsettled.2] at hstep
          rw [← Option.some.inj hstep]
          exact ⟨rfl, hcreated, rfl⟩
      | idle =>
          rw [hs] at hstep
          exact absurd hstep (by simp only [reduceCtorEq, not_false_eq_true])
      | done result =>
          rw [hs] at hstep
          exact absurd hstep (by simp only [reduceCtorEq, not_false_eq_true])
      | planned snapshot result toCreate =>
          rw [hs] at hstep
          exact absurd hstep (by simp only [reduceCtorEq, not_false_eq_true])

/-- Runs on a settled database create and change nothing. -/
theorem quiet_of_reachable {db : Db} (hsettled : Settled db) {s : State}
    (h : (job db).Reachable s) : s.db = db ∧ QuietJob db s.job := by
  refine Machine.reachable_invariant (P := fun s => s.db = db ∧ QuietJob db s.job) ?_ ?_ h
  · intro s hs
    rw [show s = ⟨db, .idle⟩ from hs]
    exact ⟨rfl, trivial⟩
  · exact fun s a s' hquiet hstep => quiet_step hsettled hquiet hstep

/-! ## The rules of a binding -/

section Rules

variable {db : Db} {s : State}

/-- The rules of a set that is written anew, as the broker reads them. -/
theorem map_insertionSort_userRules (ruleSetId createdBy : Text) (rules : List RuleRow) :
    ((RuleSets.userRules ruleSetId createdBy rules).insertionSort
      fun r r' => r.sequence ≤ r'.sequence).map SetRuleRow.rule = rules.map ruleSemantics := by
  have hsorted : (RuleSets.userRules ruleSetId createdBy rules).Pairwise
      fun r r' => r.sequence ≤ r'.sequence := by
    unfold RuleSets.userRules
    rw [List.pairwise_iff_getElem]
    intro i j hi hj hij
    rw [List.getElem_mapIdx, List.getElem_mapIdx]
    exact Nat.le_of_lt hij
  rw [hsorted.insertionSort_eq]
  unfold RuleSets.userRules
  refine List.ext_getElem? fun i => ?_
  rw [List.getElem?_map, List.getElem?_mapIdx, List.getElem?_map, Option.map_map]
  rfl

/-- At the start the pair has no binding, no rules of its own, and none of its toolkits
    has a rule set under the name the job gives it. -/
structure Untouched (db : Db) (key : Pair) : Prop where
  free : db.bound key = false
  inline : ∀ r ∈ db.graph.inlineRules, ¬ (r.agentId = key.1 ∧ r.credentialId = key.2)
  unnamed : ∀ toolkitId, Reaches db.graph key.1 toolkitId key.2 →
    ∀ row ∈ db.ruleSets.sets, row.name ≠ ruleSetName toolkitId key.2

/-- A pair that was not touched before has the rules of its target. -/
theorem effectiveRules_of_untouched (hids : ∀ t ∈ db.graph.toolkits, ':' ∉ t.id)
    (hinv : Inv db s) {b : DirectRow} (hb : b ∈ s.db.direct) (h : Untouched db b.pair) :
    ∃ pair ∈ derivePairs db.graph, pair.key = b.pair ∧
      effectiveRules s.db b = pair.targetRules.map ruleSemantics := by
  have hnew := (hinv.new b hb).resolve_left fun hold => by
    have hbound := bound_iff.mpr ⟨b, hold, rfl⟩
    rw [h.free] at hbound
    exact absurd hbound (by decide)
  rcases hnew with ⟨_, pair, hpair, hkey, hgranted⟩
  refine ⟨pair, hpair, hkey, ?_⟩
  have hagent : pair.agentId = b.agentId := congrArg Prod.fst hkey
  have hcredential : pair.credentialId = b.credentialId := congrArg Prod.snd hkey
  by_cases htarget : pair.targetRules = []
  · have hinline : (s.db.graph.inlineRules.filter fun r =>
        r.agentId = b.agentId ∧ r.credentialId = b.credentialId) = [] := by
      rw [hinv.graph, List.filter_eq_nil_iff]
      exact fun r hr hc => h.inline r hr (of_decide_eq_true hc)
    unfold effectiveRules
    rw [hgranted.1 htarget, htarget]
    dsimp only
    rw [hinline]
    rfl
  · rcases hgranted.2 htarget with ⟨row, hrow, hname, hid⟩
    rcases exists_setName hpair with ⟨t, hreach, hset⟩
    have hcolon : ∀ t', (db.graph.toolkits.get t').isSome = true → ':' ∉ t' := by
      intro t' ht'
      rcases Option.isSome_iff_exists.mp ht' with ⟨toolkit, htoolkit⟩
      rcases (Table.get_eq_some_iff _ _ _).mp htoolkit with ⟨hmem, rfl⟩
      exact hids toolkit hmem
    have hreach' : Reaches db.graph b.agentId t b.credentialId := by
      rw [← hagent, ← hcredential]
      exact hreach
    rcases hinv.sets.new row hrow with hold | ⟨t', c', rules, ht', hname', hrules, hrows⟩
    · refine absurd (hname.trans hset) ?_
      rw [hcredential]
      exact h.unnamed t hreach' row hold
    · -- The name says whose rules the set has.
      rcases ruleSetName_inj (hcolon t' ht') (hcolon t hreach.2.2.1)
        (hname'.symm.trans (hname.trans hset)) with ⟨rfl, rfl⟩
      have hrule : effectiveRules s.db b = rules.map ruleSemantics := by
        unfold effectiveRules
        rw [hid]
        dsimp only
        rw [hrows, map_insertionSort_userRules]
      rw [hrule, hrules, ruleSemantics_targetRules hpair
        (not_conflicting_of_targetRules htarget) hreach]

/-- A binding that was there at the start keeps its rules. -/
theorem effectiveRules_of_kept (hinv : Inv db s) {b : DirectRow}
    (hset : ∀ id, b.ruleSetId = some id → id ∈ db.ruleSets.sets.rows.map RuleSetRow.id) :
    effectiveRules s.db b = effectiveRules db b := by
  unfold effectiveRules
  cases hid : b.ruleSetId with
  | none =>
      dsimp only
      rw [hinv.graph]
  | some id =>
      dsimp only
      rw [hinv.sets.rows id (hset id hid)]

end Rules

/-! ## Completed runs -/

/-- What a completed run leaves, whatever crashed before it: one binding of every pair
    that a toolkit leads to. A pair that was bound keeps its binding with its rules,
    another one, if nothing was there under its names, has the verdicts that its
    toolkits agree on, or no rules where they disagree. Further runs create and change
    nothing, and the verification misses no pair. -/
theorem flattening_rerun_safe (db : Db) (hids : ∀ t ∈ db.graph.toolkits, ':' ∉ t.id) {s : State}
    (hs : (job db).Reachable s) {result : FlatteningRunResult} (hdone : s.job = .done result) :
    (∀ agentId credentialId, (∃ toolkitId, Reaches db.graph agentId toolkitId credentialId) →
      ∃ b ∈ s.db.direct, b.pair = (agentId, credentialId) ∧
        (∀ b' ∈ s.db.direct, b'.pair = (agentId, credentialId) → b' = b) ∧
        (db.bound (agentId, credentialId) = true → b ∈ db.direct ∧
          ((∀ id, b.ruleSetId = some id → id ∈ db.ruleSets.sets.rows.map RuleSetRow.id) →
            effectiveRules s.db b = effectiveRules db b)) ∧
        (Untouched db (agentId, credentialId) →
          (∀ rows, (∀ toolkitId, Reaches db.graph agentId toolkitId credentialId →
              rulesOf db.graph toolkitId credentialId = rows) →
            ∀ engine upper req, verdict engine upper (effectiveRules s.db b) req =
              verdict engine upper rows req) ∧
          ((∃ t t', Reaches db.graph agentId t credentialId ∧
              Reaches db.graph agentId t' credentialId ∧
              rulesOf db.graph t credentialId ≠ rulesOf db.graph t' credentialId) →
            effectiveRules s.db b = []))) ∧
      (∀ s', (job s.db).Reachable s' →
        s'.db = s.db ∧ ∀ result', s'.job = .done result' → result'.created = 0) ∧
      (verify s.db).missing = [] := by
  have hinv := inv_of_reachable hs
  have hsettled : Settled s.db := by
    have hjob := hinv.job
    rw [hdone] at hjob
    exact hjob
  refine ⟨fun agentId credentialId hreach => ?_, fun s' hs' => ?_, ?_⟩
  · rcases mem_derivePairs_iff.mpr hreach with ⟨pair, hpair, hkey⟩
    have hbound := hsettled.1 pair (by rw [hinv.graph]; exact hpair)
    rw [hkey] at hbound
    rcases bound_iff.mp hbound with ⟨b, hb, hbkey⟩
    have honly : ∀ b' ∈ s.db.direct, b'.pair = (agentId, credentialId) → b' = b :=
      fun b' hb' hkey' => List.inj_on_of_nodup_map s.db.direct.nodup hb' hb (hkey'.trans hbkey.symm)
    refine ⟨b, hb, hbkey, honly, fun hbefore => ?_, fun huntouched => ?_⟩
    · rcases bound_iff.mp hbefore with ⟨b₀, hb₀, hkey₀⟩
      rw [← honly b₀ (hinv.kept b₀ hb₀) hkey₀]
      exact ⟨hb₀, effectiveRules_of_kept hinv⟩
    · rw [← hbkey] at huntouched
      rcases effectiveRules_of_untouched hids hinv hb huntouched with
        ⟨pair', hpair', hkey', hrules⟩
      have hagent : pair'.agentId = agentId := congrArg Prod.fst (hkey'.trans hbkey)
      have hcredential : pair'.credentialId = credentialId := congrArg Prod.snd (hkey'.trans hbkey)
      constructor
      · intro rows hagree engine upper req
        rcases hreach with ⟨t, ht⟩
        have hnot : ¬ pair'.conflicting = true := by
          rw [conflicting_iff hpair', hagent, hcredential]
          rintro ⟨t₁, t₂, h₁, h₂, hne⟩
          exact hne ((hagree t₁ h₁).trans (hagree t₂ h₂).symm)
        have ht' : Reaches db.graph pair'.agentId t pair'.credentialId := by
          rw [hagent, hcredential]
          exact ht
        have htarget := ruleSemantics_targetRules hpair' hnot ht'
        rw [hrules, htarget, hcredential, hagree t ht]
      · intro hdiffer
        have hconflict : pair'.conflicting = true := by
          rw [conflicting_iff hpair', hagent, hcredential]
          exact hdiffer
        rw [hrules, targetRules_of_conflicting hconflict]
        rfl
  · rcases quiet_of_reachable hsettled hs' with ⟨hdb, hjob⟩
    refine ⟨hdb, fun result' hdone' => ?_⟩
    rw [hdone'] at hjob
    exact hjob.1
  · change (((derivePairs s.db.graph).map DerivedPair.key).filter fun key => !s.db.bound key) = []
    rw [List.filter_eq_nil_iff]
    intro key hkey
    rcases List.mem_map.mp hkey with ⟨pair, hpair, rfl⟩
    rw [hsettled.1 pair hpair]
    decide

/-! ## A binding from before -/

/-- The rule that a toolkit has for a credential. -/
def readRule : PermissionRuleSchema := ⟨.allow, some ["GET".toList], none, .regexMode, none⟩

/-- An agent with a toolkit that lets it read through a credential. -/
def readGraph : Graph where
  toolkits := ⟨[⟨"tk".toList, "reader".toList, true⟩], by decide⟩
  credentials := ⟨[⟨"cred".toList, "vendor".toList, some "usr".toList⟩], by decide⟩
  credentialBindings := [⟨"tcb".toList, "tk".toList, "cred".toList, some 2⟩]
  rules := [⟨"tpr".toList, "tk".toList, "cred".toList, readRule, false, none, 0⟩]
  keys := []
  toolkitBindings := [⟨"atb".toList, "agnt".toList, "tk".toList, some 1⟩]
  actors := ⟨[⟨"agnt".toList, some "usr".toList⟩], by decide⟩
  inlineRules := []

def noRuleSets : RuleSets where
  sets := ⟨[], by decide⟩
  rules := []
  ids := by decide
  owned := by decide

/-- The agent is bound to the credential by hand already, without rules. -/
def boundDb : Db where
  graph := readGraph
  ruleSets := noRuleSets
  direct := ⟨[⟨"acb".toList, "agnt".toList, "cred".toList, none, 3, "usr".toList⟩], by decide⟩
  audits := []
  toolkitNameColumn := true
  executions := []

/-- The agent is not bound to the credential. -/
def unboundDb : Db := { boundDb with direct := ⟨[], by decide⟩ }

/-- The run from a binding by hand: the pair is already present. -/
def boundEnd : State := ⟨boundDb, .done ⟨1, 0, 1, 0⟩⟩

theorem boundDb_run : (job boundDb).runActions ⟨boundDb, .idle⟩
    [.begin, .commitRules fun _ => "prs".toList, .commitNames] = some boundEnd := rfl

theorem toolkit_of_reaches {agentId toolkitId credentialId : Text}
    (h : Reaches readGraph agentId toolkitId credentialId) : toolkitId = "tk".toList := by
  rcases h.1 with ⟨atb, hatb, _, rfl⟩
  rw [List.mem_singleton.mp hatb]

/-- A pair that was bound before keeps the rules it had, though its toolkits agree on
    others: the request that they allow stays denied. -/
theorem bound_pair_keeps_rules :
    ¬ ∀ s result, (job boundDb).Reachable s → s.job = .done result →
      ∀ agentId credentialId rows,
        (∃ toolkitId, Reaches boundDb.graph agentId toolkitId credentialId) →
        (∀ toolkitId, Reaches boundDb.graph agentId toolkitId credentialId →
          rulesOf boundDb.graph toolkitId credentialId = rows) →
        ∃ b ∈ s.db.direct, b.pair = (agentId, credentialId) ∧ ∀ engine upper req,
          verdict engine upper (effectiveRules s.db b) req = verdict engine upper rows req := by
  intro h
  have hreach : Reaches readGraph "agnt".toList "tk".toList "cred".toList :=
    ⟨⟨_, List.mem_singleton_self _, rfl, rfl⟩, ⟨_, List.mem_singleton_self _, rfl, rfl⟩, by decide,
      by decide, by decide⟩
  have hrun := Machine.reachable_runActions (.start _ rfl) boundDb_run
  rcases h boundEnd _ hrun rfl "agnt".toList "cred".toList [readRule] ⟨_, hreach⟩
    (fun t ht => by rw [toolkit_of_reaches ht]; decide) with ⟨b, hb, _, hverdict⟩
  have hrow : b = ⟨"acb".toList, "agnt".toList, "cred".toList, none, 3, "usr".toList⟩ :=
    List.mem_singleton.mp hb
  have hsame := hverdict ⟨fun _ => none, fun _ => false, fun _ _ => false⟩ id
    ⟨"GET".toList, "/".toList, none⟩
  rw [hrow] at hsame
  exact absurd hsame (by decide)

/-- A run that is cut off after the rule sets, and another one. -/
def interrupted : List Action :=
  [.begin, .commitRules fun _ => "prs".toList, .crash, .begin,
    .commitRules fun _ => "prs2".toList, .commitBinding "acb".toList 5, .commitNames]

/-- The pair that was not bound is, and the request that its toolkit allows is allowed. -/
theorem unbound_pair_flattened : ∃ s, (job unboundDb).Reachable s ∧
    s.job = .done ⟨1, 1, 0, 0⟩ ∧ (verify s.db).missing = [] ∧
      ∃ b ∈ s.db.direct, b.pair = ("agnt".toList, "cred".toList) ∧
        verdict ⟨fun _ => none, fun _ => false, fun _ _ => false⟩ id (effectiveRules s.db b)
          ⟨"GET".toList, "/".toList, none⟩ = .allow := by
  have hrun : ((job unboundDb).runActions ⟨unboundDb, .idle⟩ interrupted).map State.job =
      some (.done ⟨1, 1, 0, 0⟩) := by rfl
  rcases Option.map_eq_some_iff.mp hrun with ⟨s, hs, hdone⟩
  have hreachable := Machine.reachable_runActions (.start _ rfl) hs
  have hids : ∀ t ∈ unboundDb.graph.toolkits, ':' ∉ t.id := by
    intro t ht
    rw [List.mem_singleton.mp ht]
    decide
  have hreach : Reaches unboundDb.graph "agnt".toList "tk".toList "cred".toList :=
    ⟨⟨_, List.mem_singleton_self _, rfl, rfl⟩, ⟨_, List.mem_singleton_self _, rfl, rfl⟩, by decide,
      by decide, by decide⟩
  rcases flattening_rerun_safe unboundDb hids hreachable hdone with ⟨hpairs, _, hmissing⟩
  rcases hpairs _ _ ⟨_, hreach⟩ with ⟨b, hb, hkey, _, _, huntouched⟩
  have hverdict := (huntouched ⟨by decide, fun r hr => absurd hr List.not_mem_nil,
    fun t _ row hrow => absurd hrow List.not_mem_nil⟩).1 [readRule]
      (fun t ht => by rw [toolkit_of_reaches ht]; decide)
      ⟨fun _ => none, fun _ => false, fun _ _ => false⟩ id ⟨"GET".toList, "/".toList, none⟩
  refine ⟨s, hreachable, hdone, hmissing, b, hb, hkey, ?_⟩
  rw [hverdict]
  decide

end Flattening

end JenticOne
