import JenticOne.Library.Groups
import JenticOne.Library.Segments
import JenticOne.Library.Table
import JenticOne.Permissions.Evaluation

/-!
# The Toolkit Graph and Its Pairs

An agent used to reach a credential through a toolkit that both were bound to, under
the rules of the toolkit for that credential. The flattening job derives the pairs of
an agent and a credential, each with every toolkit path that leads from one to the
other, and gives the pair the rules that its paths agree on, or none.

The pairs are derived from rows that the job only reads: `Graph`. Report lines and the
log, of which no decision is made, are left out.

## Main definitions

* `Graph`: The rows the job reads and never writes.
* `pairRules`: The rules of a toolkit for a credential, in their order.
* `derivePairs`: The pairs with their paths.
* `DerivedPair.conflicting`, `DerivedPair.targetRules`: The decision on a pair.
* `Reaches`: A toolkit leads from an agent to a credential.

## Theorems

* `mem_derivePairs_iff`: The derived pairs are those that a toolkit leads to.
* `conflicting_iff`: A pair is conflicting if two of its toolkits have other rules.
* `ruleSemantics_targetRules`: The target of another pair are the rules of each of
  its toolkits.
-/

namespace JenticOne

namespace Flattening

open Permissions

deriving instance DecidableEq for PermissionRuleSchema

/-- An agent and a credential. -/
abbrev Pair := Text × Text

/-! ## Rows -/

structure ToolkitRow where
  id : Text
  name : Text
  active : Bool
  deriving DecidableEq

structure CredentialRow where
  id : Text
  apiVendor : Text
  createdBy : Option Text
  deriving DecidableEq

/-- A row of `toolkit_credential_bindings`. -/
structure CredentialBindingRow where
  id : Text
  toolkitId : Text
  credentialId : Text
  boundAt : Option Nat
  deriving DecidableEq

/-- A row of `toolkit_permission_rules`. -/
structure RuleRow where
  id : Text
  toolkitId : Text
  credentialId : Text
  rule : PermissionRuleSchema
  isSystem : Bool
  comment : Option Text
  sequence : Nat
  deriving DecidableEq

structure KeyRow where
  id : Text
  revoked : Bool
  migratedActorId : Option Text
  deriving DecidableEq

/-- A row of `agent_toolkit_bindings`. -/
structure ToolkitBindingRow where
  id : Text
  agentId : Text
  toolkitId : Text
  boundAt : Option Nat
  deriving DecidableEq

/-- An agent or a service account. -/
structure ActorRow where
  id : Text
  ownerId : Option Text
  deriving DecidableEq

/-- A row of `agent_permission_rules`. -/
structure InlineRuleRow where
  agentId : Text
  credentialId : Text
  rule : PermissionRuleSchema
  isSystem : Bool
  sequence : Nat
  deriving DecidableEq

/-- The rows of both databases that the job reads and never writes. -/
structure Graph where
  toolkits : Table ToolkitRow.id
  credentials : Table CredentialRow.id
  credentialBindings : List CredentialBindingRow
  rules : List RuleRow
  keys : List KeyRow
  toolkitBindings : List ToolkitBindingRow
  actors : Table ActorRow.id
  inlineRules : List InlineRuleRow

/-! ## Rules -/

/-- The order `_LIST_TOOLKIT_PERMISSION_RULES` asks for. -/
def RuleRow.Before (a b : RuleRow) : Prop :=
  a.toolkitId < b.toolkitId ∨ (a.toolkitId = b.toolkitId ∧
    (a.credentialId < b.credentialId ∨ (a.credentialId = b.credentialId ∧
      ((a.isSystem = false ∧ b.isSystem = true) ∨
        (a.isSystem = b.isSystem ∧ a.sequence ≤ b.sequence)))))

instance (a b : RuleRow) : Decidable (a.Before b) := by
  unfold RuleRow.Before
  infer_instance

/-- `list_permission_rules`. -/
def listPermissionRules (graph : Graph) : List RuleRow :=
  graph.rules.insertionSort RuleRow.Before

/-- The rules of the toolkits by toolkit and credential. -/
def pairRules (graph : Graph) : Dict (Text × Text) (List RuleRow) :=
  Dict.group ((listPermissionRules graph).map fun rule => ((rule.toolkitId, rule.credentialId), rule))

/-- The order of a pool. -/
def RuleRow.PoolBefore (a b : RuleRow) : Prop :=
  a.sequence < b.sequence ∨ (a.sequence = b.sequence ∧ a.id ≤ b.id)

instance (a b : RuleRow) : Decidable (a.PoolBefore b) := by
  unfold RuleRow.PoolBefore
  infer_instance

/-- The rules of a pair, under its toolkit and the vendor of its credential. -/
def poolEntries (graph : Graph) (x : (Text × Text) × List RuleRow) :
    List ((Text × Text) × RuleRow) :=
  if graph.credentialBindings.any fun b => b.toolkitId = x.1.1 ∧ b.credentialId = x.1.2 then
    (graph.credentials.get x.1.2).elim [] fun credential =>
      x.2.map fun rule => ((x.1.1, credential.apiVendor), rule)
  else []

/-- The rules of every bound pair of a toolkit whose credential is of a vendor. -/
def pooledRules (graph : Graph) (toolkitId apiVendor : Text) : List RuleRow :=
  (((Dict.group ((pairRules graph).items.flatMap (poolEntries graph))).get?
    (toolkitId, apiVendor)).getD []).insertionSort RuleRow.PoolBefore

/-- `_rule_semantics`. -/
def ruleSemantics (rule : RuleRow) : PermissionRuleSchema := rule.rule

/-! ## Pairs -/

/-- `_Path`. -/
structure Path where
  toolkitId : Text
  toolkitName : Text
  toolkitActive : Bool
  atbId : Text
  tcbId : Text
  boundAt : Option Nat
  rules : List RuleRow
  pooledRules : List RuleRow
  deriving DecidableEq

/-- `_DerivedPair`. -/
structure DerivedPair where
  agentId : Text
  credentialId : Text
  paths : List Path
  deriving DecidableEq

def DerivedPair.key (pair : DerivedPair) : Pair := (pair.agentId, pair.credentialId)

/-- The contributing rule lists differ. -/
def DerivedPair.conflicting (pair : DerivedPair) : Bool :=
  (pair.paths.map fun p => p.rules.map ruleSemantics).dedup.length > 1

/-- The rules of the binding: what the paths agree on, or none. -/
def DerivedPair.targetRules (pair : DerivedPair) : List RuleRow :=
  if pair.conflicting then [] else (pair.paths.head?.map Path.rules).getD []

/-- The path of the lowest toolkit id. -/
def DerivedPair.sourcePath (pair : DerivedPair) : Option Path := pair.paths.argmin Path.toolkitId

/-- The latest time of the paths, or the present. -/
def DerivedPair.boundAt (pair : DerivedPair) (now : Nat) : Nat :=
  ((pair.paths.filterMap Path.boundAt).max?).getD now

/-- `_rule_set_name`. -/
def ruleSetName (toolkitId credentialId : Text) : Text :=
  "theme5-flattening:".toList ++ toolkitId ++ ':' :: credentialId

/-- The name of a pair's rule set. -/
def DerivedPair.setName (pair : DerivedPair) : Text :=
  ruleSetName ((pair.sourcePath.map Path.toolkitId).getD []) pair.credentialId

/-- The later one of two times that may be missing. -/
def latest : Option Nat → Option Nat → Option Nat
  | some a, some b => some (max a b)
  | some a, none => some a
  | none, b => b

/-- A binding of a toolkit to a credential whose ends are there. -/
def CredentialBindingRow.attached (graph : Graph) (tcb : CredentialBindingRow) : Bool :=
  (graph.credentials.get tcb.credentialId).isSome && (graph.toolkits.get tcb.toolkitId).isSome

/-- The credential bindings by toolkit, without those that lack an end. -/
def tcbByToolkit (graph : Graph) : Dict Text (List CredentialBindingRow) :=
  Dict.group (((graph.credentialBindings.insertionSort fun a b => a.id ≤ b.id).filter
    (·.attached graph)).map fun tcb => (tcb.toolkitId, tcb))

/-- The path of two bindings of a toolkit. -/
def pathOf (graph : Graph) (atb : ToolkitBindingRow) (toolkit : ToolkitRow)
    (tcb : CredentialBindingRow) : Path where
  toolkitId := atb.toolkitId
  toolkitName := toolkit.name
  toolkitActive := toolkit.active
  atbId := atb.id
  tcbId := tcb.id
  boundAt := latest atb.boundAt tcb.boundAt
  rules := ((pairRules graph).get? (atb.toolkitId, tcb.credentialId)).getD []
  pooledRules := pooledRules graph atb.toolkitId
    (((graph.credentials.get tcb.credentialId).map CredentialRow.apiVendor).getD [])

/-- The paths of an agent's binding to a toolkit, none where an end is missing. -/
def pathsThrough (graph : Graph) (atb : ToolkitBindingRow) : List (Pair × Path) :=
  match graph.toolkits.get atb.toolkitId with
  | none => []
  | some toolkit =>
      if (graph.actors.get atb.agentId).isNone then []
      else
        (((tcbByToolkit graph).get? atb.toolkitId).getD []).map fun tcb =>
          ((atb.agentId, tcb.credentialId), pathOf graph atb toolkit tcb)

/-- The paths of all pairs, binding by binding. -/
def allPaths (graph : Graph) : List (Pair × Path) :=
  (graph.toolkitBindings.insertionSort fun a b => a.id ≤ b.id).flatMap (pathsThrough graph)

/-- The order of pairs. -/
def PairBefore (a b : Pair) : Prop := a.1 < b.1 ∨ (a.1 = b.1 ∧ a.2 ≤ b.2)

instance (a b : Pair) : Decidable (PairBefore a b) := by
  unfold PairBefore
  infer_instance

/-- `_derive_pairs`, in the order of the pairs. -/
def derivePairs (graph : Graph) : List DerivedPair :=
  ((Dict.group (allPaths graph)).keys.insertionSort PairBefore).map fun key =>
    ⟨key.1, key.2, ((Dict.group (allPaths graph)).get? key).getD []⟩

/-! ## What leads to a pair -/

/-- A toolkit leads from an agent to a credential. -/
def Reaches (graph : Graph) (agentId toolkitId credentialId : Text) : Prop :=
  (∃ atb ∈ graph.toolkitBindings, atb.agentId = agentId ∧ atb.toolkitId = toolkitId) ∧
    (∃ tcb ∈ graph.credentialBindings,
      tcb.toolkitId = toolkitId ∧ tcb.credentialId = credentialId) ∧
    (graph.toolkits.get toolkitId).isSome = true ∧ (graph.actors.get agentId).isSome = true ∧
    (graph.credentials.get credentialId).isSome = true

/-- The rules of a toolkit for a credential, as far as a verdict depends on them. -/
def rulesOf (graph : Graph) (toolkitId credentialId : Text) : List PermissionRuleSchema :=
  (((pairRules graph).get? (toolkitId, credentialId)).getD []).map ruleSemantics

section Derived

variable {graph : Graph}

theorem mem_tcbByToolkit {toolkitId : Text} {tcb : CredentialBindingRow} :
    tcb ∈ ((tcbByToolkit graph).get? toolkitId).getD [] ↔
      tcb ∈ graph.credentialBindings ∧ tcb.attached graph = true ∧ tcb.toolkitId = toolkitId := by
  unfold tcbByToolkit
  rw [Dict.getD_group, List.mem_map]
  constructor
  · rintro ⟨x, hx, rfl⟩
    rw [List.mem_filter, decide_eq_true_eq] at hx
    rcases List.mem_map.mp hx.1 with ⟨tcb, hmem, rfl⟩
    rw [List.mem_filter, List.mem_insertionSort] at hmem
    exact ⟨hmem.1, hmem.2, hx.2⟩
  · rintro ⟨hmem, hattached, htoolkit⟩
    refine ⟨(tcb.toolkitId, tcb), ?_, rfl⟩
    rw [List.mem_filter, decide_eq_true_eq]
    refine ⟨List.mem_map.mpr ⟨tcb, ?_, rfl⟩, htoolkit⟩
    rw [List.mem_filter, List.mem_insertionSort]
    exact ⟨hmem, hattached⟩

/-- The paths through an agent's binding, by the other ends. -/
theorem mem_pathsThrough {atb : ToolkitBindingRow} {x : Pair × Path} :
    x ∈ pathsThrough graph atb ↔ ∃ toolkit ∈ graph.toolkits.get atb.toolkitId,
      (graph.actors.get atb.agentId).isSome = true ∧
        ∃ tcb ∈ graph.credentialBindings, tcb.attached graph = true ∧
          tcb.toolkitId = atb.toolkitId ∧
            x = ((atb.agentId, tcb.credentialId), pathOf graph atb toolkit tcb) := by
  unfold pathsThrough
  cases htoolkit : graph.toolkits.get atb.toolkitId with
  | none =>
      exact ⟨fun h => absurd h List.not_mem_nil,
        fun ⟨_, h, _⟩ => absurd h (Option.not_mem_none _)⟩
  | some toolkit =>
      dsimp only
      by_cases hactor : (graph.actors.get atb.agentId).isNone = true
      · rw [if_pos hactor]
        refine ⟨fun h => absurd h List.not_mem_nil, fun ⟨_, _, hsome, _⟩ => ?_⟩
        rw [Option.isNone_iff_eq_none.mp hactor] at hsome
        exact absurd hsome (by decide)
      · have hsome : (graph.actors.get atb.agentId).isSome = true := by
          rw [Option.isSome_iff_ne_none, ne_eq, ← Option.isNone_iff_eq_none]
          exact hactor
        rw [if_neg hactor, List.mem_map]
        constructor
        · rintro ⟨tcb, htcb, rfl⟩
          rcases mem_tcbByToolkit.mp htcb with ⟨hmem, hattached, hid⟩
          exact ⟨toolkit, rfl, hsome, tcb, hmem, hattached, hid, rfl⟩
        · rintro ⟨toolkit', htoolkit', _, tcb, hmem, hattached, hid, rfl⟩
          rw [Option.mem_some_iff] at htoolkit'
          rw [← htoolkit']
          exact ⟨tcb, mem_tcbByToolkit.mpr ⟨hmem, hattached, hid⟩, rfl⟩

/-- A path is through a toolkit that leads to the pair, and has its rules. -/
theorem reaches_of_mem_allPaths {x : Pair × Path} (h : x ∈ allPaths graph) :
    Reaches graph x.1.1 x.2.toolkitId x.1.2 ∧
      x.2.rules.map ruleSemantics = rulesOf graph x.2.toolkitId x.1.2 := by
  unfold allPaths at h
  rcases List.mem_flatMap.mp h with ⟨atb, hatb, hx⟩
  rw [List.mem_insertionSort] at hatb
  rcases mem_pathsThrough.mp hx with ⟨toolkit, htoolkit, hactor, tcb, htcb, hattached, hid, rfl⟩
  unfold CredentialBindingRow.attached at hattached
  rw [Bool.and_eq_true] at hattached
  exact ⟨⟨⟨atb, hatb, rfl, rfl⟩, ⟨tcb, htcb, hid, rfl⟩,
    Option.isSome_iff_exists.mpr ⟨toolkit, htoolkit⟩, hactor, hattached.1⟩, rfl⟩

/-- Every toolkit that leads to a pair gives it a path. -/
theorem mem_allPaths_of_reaches {agentId toolkitId credentialId : Text}
    (h : Reaches graph agentId toolkitId credentialId) :
    ∃ path, ((agentId, credentialId), path) ∈ allPaths graph ∧ path.toolkitId = toolkitId := by
  rcases h with ⟨⟨atb, hatb, rfl, rfl⟩, ⟨tcb, htcb, hid, rfl⟩, htoolkit, hactor, hcred⟩
  rcases Option.isSome_iff_exists.mp htoolkit with ⟨toolkit, hget⟩
  have hattached : tcb.attached graph = true := by
    unfold CredentialBindingRow.attached
    rw [Bool.and_eq_true, hid]
    exact ⟨hcred, htoolkit⟩
  refine ⟨pathOf graph atb toolkit tcb, ?_, rfl⟩
  unfold allPaths
  rw [List.mem_flatMap]
  exact ⟨atb, (List.mem_insertionSort _).mpr hatb,
    mem_pathsThrough.mpr ⟨toolkit, hget, hactor, tcb, htcb, hattached, hid, rfl⟩⟩

/-- The paths of a derived pair are those to its agent and credential. -/
theorem mem_paths_iff {pair : DerivedPair} (h : pair ∈ derivePairs graph) {path : Path} :
    path ∈ pair.paths ↔ (pair.key, path) ∈ allPaths graph := by
  unfold derivePairs at h
  rcases List.mem_map.mp h with ⟨key, _, rfl⟩
  change path ∈ ((Dict.group (allPaths graph)).get? key).getD [] ↔ (key, path) ∈ allPaths graph
  rw [Dict.getD_group, List.mem_map]
  constructor
  · rintro ⟨x, hx, rfl⟩
    rw [List.mem_filter, decide_eq_true_eq] at hx
    rw [← hx.2]
    exact hx.1
  · exact fun hmem => ⟨(key, path), List.mem_filter.mpr ⟨hmem, decide_eq_true rfl⟩, rfl⟩

/-- No two derived pairs have the same agent and credential. -/
theorem eq_of_key {pair pair' : DerivedPair} (h : pair ∈ derivePairs graph)
    (h' : pair' ∈ derivePairs graph) (hkey : pair.key = pair'.key) : pair = pair' := by
  unfold derivePairs at h h'
  rcases List.mem_map.mp h with ⟨key, _, rfl⟩
  rcases List.mem_map.mp h' with ⟨key', _, rfl⟩
  have heq : key = key' := hkey
  rw [heq]

/-- The derived pairs are those that a toolkit leads to. -/
theorem mem_derivePairs_iff {agentId credentialId : Text} :
    (∃ pair ∈ derivePairs graph, pair.key = (agentId, credentialId)) ↔
      ∃ toolkitId, Reaches graph agentId toolkitId credentialId := by
  constructor
  · rintro ⟨pair, hpair, hkey⟩
    unfold derivePairs at hpair
    rcases List.mem_map.mp hpair with ⟨key, hmem, rfl⟩
    rw [List.mem_insertionSort] at hmem
    rcases Dict.mem_keys_group.mp hmem with ⟨x, hx, rfl⟩
    have hreach := (reaches_of_mem_allPaths hx).1
    have hx1 : x.1 = (agentId, credentialId) := hkey
    rw [hx1] at hreach
    exact ⟨x.2.toolkitId, hreach⟩
  · rintro ⟨toolkitId, h⟩
    rcases mem_allPaths_of_reaches h with ⟨path, hpath, _⟩
    refine ⟨_, List.mem_map.mpr ⟨(agentId, credentialId), ?_, rfl⟩, rfl⟩
    rw [List.mem_insertionSort, Dict.mem_keys_group]
    exact ⟨_, hpath, rfl⟩

/-- A pair has a path through a toolkit if and only if the toolkit leads to it. -/
theorem exists_path_iff {pair : DerivedPair} (h : pair ∈ derivePairs graph) {toolkitId : Text} :
    (∃ path ∈ pair.paths, path.toolkitId = toolkitId) ↔
      Reaches graph pair.agentId toolkitId pair.credentialId := by
  constructor
  · rintro ⟨path, hpath, rfl⟩
    exact (reaches_of_mem_allPaths ((mem_paths_iff h).mp hpath)).1
  · intro hreach
    rcases mem_allPaths_of_reaches hreach with ⟨path, hpath, htoolkit⟩
    exact ⟨path, (mem_paths_iff h).mpr hpath, htoolkit⟩

theorem rules_of_mem_paths {pair : DerivedPair} (h : pair ∈ derivePairs graph) {path : Path}
    (hpath : path ∈ pair.paths) :
    path.rules.map ruleSemantics = rulesOf graph path.toolkitId pair.credentialId :=
  (reaches_of_mem_allPaths ((mem_paths_iff h).mp hpath)).2

/-- A derived pair has a path. -/
theorem paths_ne_nil {pair : DerivedPair} (h : pair ∈ derivePairs graph) : pair.paths ≠ [] := by
  rcases mem_derivePairs_iff.mp ⟨pair, h, rfl⟩ with ⟨toolkitId, hreach⟩
  rcases (exists_path_iff h).mpr hreach with ⟨path, hpath, _⟩
  exact List.ne_nil_of_mem hpath

/-! ## The decision on a pair -/

theorem conflicting_eq_true_iff {pair : DerivedPair} :
    pair.conflicting = true ↔ ∃ p ∈ pair.paths, ∃ p' ∈ pair.paths,
      p.rules.map ruleSemantics ≠ p'.rules.map ruleSemantics := by
  unfold DerivedPair.conflicting
  rw [decide_eq_true_eq, gt_iff_lt, ← List.card_toFinset, Finset.one_lt_card]
  simp only [List.mem_toFinset, List.mem_map, exists_exists_and_eq_and]

/-- A pair is conflicting if two of its toolkits have other rules for the credential. -/
theorem conflicting_iff {pair : DerivedPair} (h : pair ∈ derivePairs graph) :
    pair.conflicting = true ↔ ∃ t t', Reaches graph pair.agentId t pair.credentialId ∧
      Reaches graph pair.agentId t' pair.credentialId ∧
      rulesOf graph t pair.credentialId ≠ rulesOf graph t' pair.credentialId := by
  rw [conflicting_eq_true_iff]
  constructor
  · rintro ⟨p, hp, p', hp', hne⟩
    refine ⟨p.toolkitId, p'.toolkitId, (exists_path_iff h).mp ⟨p, hp, rfl⟩,
      (exists_path_iff h).mp ⟨p', hp', rfl⟩, ?_⟩
    rw [← rules_of_mem_paths h hp, ← rules_of_mem_paths h hp']
    exact hne
  · rintro ⟨t, t', ht, ht', hne⟩
    rcases (exists_path_iff h).mpr ht with ⟨p, hp, rfl⟩
    rcases (exists_path_iff h).mpr ht' with ⟨p', hp', rfl⟩
    refine ⟨p, hp, p', hp', ?_⟩
    rw [rules_of_mem_paths h hp, rules_of_mem_paths h hp']
    exact hne

/-- Without a conflict the target are the rules of any toolkit of the pair. -/
theorem ruleSemantics_targetRules {pair : DerivedPair} (h : pair ∈ derivePairs graph)
    (hagree : ¬ pair.conflicting = true) {toolkitId : Text}
    (hreach : Reaches graph pair.agentId toolkitId pair.credentialId) :
    pair.targetRules.map ruleSemantics = rulesOf graph toolkitId pair.credentialId := by
  rcases List.exists_cons_of_ne_nil (paths_ne_nil h) with ⟨first, rest, hpaths⟩
  have hfirst : first ∈ pair.paths := by
    rw [hpaths]
    exact List.mem_cons_self
  have htarget : pair.targetRules = first.rules := by
    unfold DerivedPair.targetRules
    rw [if_neg hagree, hpaths]
    rfl
  rw [htarget, rules_of_mem_paths h hfirst]
  by_contra hne
  exact hagree ((conflicting_iff h).mpr
    ⟨_, _, (exists_path_iff h).mp ⟨first, hfirst, rfl⟩, hreach, hne⟩)

theorem targetRules_of_conflicting {pair : DerivedPair} (h : pair.conflicting = true) :
    pair.targetRules = [] :=
  if_pos h

/-- The name of a pair's rule set is that of a toolkit which leads to the pair. -/
theorem exists_setName {pair : DerivedPair} (h : pair ∈ derivePairs graph) :
    ∃ toolkitId, Reaches graph pair.agentId toolkitId pair.credentialId ∧
      pair.setName = ruleSetName toolkitId pair.credentialId := by
  unfold DerivedPair.setName DerivedPair.sourcePath
  cases hsource : pair.paths.argmin Path.toolkitId with
  | none => exact absurd (List.argmin_eq_none.mp hsource) (paths_ne_nil h)
  | some path =>
      exact ⟨path.toolkitId, (exists_path_iff h).mp ⟨path, List.argmin_mem hsource, rfl⟩, rfl⟩

/-- A name tells the toolkit and the credential, since an id of a toolkit has no colon. -/
theorem ruleSetName_inj {t t' c c' : Text} (ht : ':' ∉ t) (ht' : ':' ∉ t')
    (h : ruleSetName t c = ruleSetName t' c') : t = t' ∧ c = c' := by
  unfold ruleSetName at h
  rw [List.append_assoc, List.append_assoc] at h
  exact Segments.append_sep_inj ht ht' (List.append_cancel_left h)

end Derived

end Flattening

end JenticOne
