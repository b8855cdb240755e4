import JenticOne.Library.Skeleton
import JenticOne.Registry.UrlIndex

/-!
# Indexing a Revision

The stage that writes the rows of a revision. It builds the entries of each operation
for its servers and skips an entry when an earlier one has its structural key: the
method, the host and the path without the names of its placeholders.

The key is not enough to tell what a path matches. A name that occurs twice stands for
one value, a name is a catch-all only if each of its placeholders is one, and a server
variable may stand for itself. So the row that is kept may be narrower than the entry
that is skipped. Where some row is as general, no request is lost.

## Main definitions

* `structuralRegex`, `dedupKey`: The structural key.
* `upsertEntry`, `buildUrlIndex`: The rows of a revision.
* `LosesNothing`: Every request of an entry is one of a row.
* `SkippedCovered`: Every entry is an instance of one that is kept.

## Theorems

* `upsertEntry_of_new`: The unique key of the table never decides.
* `row_of_first`: The first entry with a key has its row.
* `dedup_loses_nothing`: No request is lost when the skipped entries are covered.
* `repeatedName_lost`: A request that is lost.
-/

namespace JenticOne

namespace Registry

/-! ## The structural key -/

/-- The characters `re.escape` puts a backslash before. -/
def reSpecial : List Char :=
  ['(', ')', '[', ']', '{', '}', '?', '*', '+', '-', '|', '^', '$', '\\', '.', '&', '~', '#', ' ',
    '\t', '\n', '\r', '\x0b', '\x0c']

def reEscape (s : Text) : Text := s.flatMap fun c => if c ∈ reSpecial then ['\\', c] else [c]

def bodySource : Pattern.Body → Text
  | .text s => reEscape s
  | .run excluded => if excluded = ['\n'] then ['.', '+'] else ['[', '^'] ++ excluded ++ [']', '+']

def pieceSource : Pattern.Piece → Text
  | .plain b => bodySource b
  | .group name b => ['(', '?', 'P', '<'] ++ name ++ ['>'] ++ bodySource b ++ [')']
  | .back name => ['(', '?', 'P', '='] ++ name ++ [')']

/-- The source of the regular expression of a host. -/
def hostSource (r : Pattern.Regex) : Text := '^' :: (r.pieces.flatMap pieceSource ++ ['$'])

def partSource : Part → Text
  | .text s => reEscape s
  | .token t => bodySource (if (splitParamToken t).2 then anySegments else oneSegment)

/-- The source of a path template without the names of its placeholders. -/
def structuralRegex (template : Text) : Text :=
  '^' :: ((split template).flatMap partSource ++ ['$'])

/-- Method, host, source of the host, and structure of the path. -/
structure DedupKey where
  method : Text
  host : Text
  hostRegex : Text
  path : Text
deriving DecidableEq

/-! ## The stage -/

/-- An operation with its effective servers: their URLs and declared variables. -/
structure IndexedOperation where
  id : Text
  method : Text
  path : Text
  servers : List (Text × Json)

/-- A row of `operation_url_indexes`, of one revision. -/
structure IndexRow where
  operationId : Text
  method : Text
  host : Text
  hostRegex : Pattern.Regex
  pathTemplate : Text
  pathRegex : Pattern.Regex
  paramNames : List Text
  segmentCount : Int

/-- The method as it is stored. -/
def IndexedOperation.stored (op : IndexedOperation) : Text := op.method.map Char.toUpper

/-- The row of an entry. -/
def indexRow (op : IndexedOperation) (e : URLIndexEntry) : IndexRow :=
  { operationId := op.id, method := op.stored, host := e.hostPattern, hostRegex := e.hostRegex,
    pathTemplate := e.pathPattern, pathRegex := e.pathRegex, paramNames := e.paramNames,
    segmentCount := e.segmentCount }

def IndexRow.dedupKey (row : IndexRow) : DedupKey :=
  ⟨row.method, row.host, hostSource row.hostRegex, structuralRegex row.pathTemplate⟩

/-- The unique key of the table. -/
def IndexRow.lookupKey (row : IndexRow) : Text × Text × Text × Text :=
  (row.host, row.method, hostSource row.hostRegex, row.pathTemplate)

/-- `INSERT .. ON CONFLICT DO UPDATE` on the unique key. -/
def upsertEntry (rows : List IndexRow) (row : IndexRow) : List IndexRow :=
  if rows.any (fun r => r.lookupKey = row.lookupKey) then
    rows.map fun r => if r.lookupKey = row.lookupKey then row else r
  else rows ++ [row]

structure IndexState where
  seen : List DedupKey
  rows : List IndexRow

/-- The row of one more entry, unless its structural key was seen. -/
def addRow (st : IndexState) (row : IndexRow) : IndexState :=
  if row.dedupKey ∈ st.seen then st
  else ⟨row.dedupKey :: st.seen, upsertEntry st.rows row⟩

def addServer (lib : Stdlib) (op : IndexedOperation) (st : IndexState) (server : Text × Json) :
    Except Failure IndexState := do
  let expansion ← buildServerIndexEntries lib server.1 server.2 op.path
  return (expansion.entries.map (indexRow op)).foldl addRow st

def addOperation (lib : Stdlib) (st : IndexState) (op : IndexedOperation) :
    Except Failure IndexState :=
  op.servers.foldlM (addServer lib op) st

/-- `BuildURLIndexStage`: the rows of a revision. -/
def buildUrlIndex (lib : Stdlib) (ops : List IndexedOperation) : Except Failure (List IndexRow) := do
  let st ← ops.foldlM (addOperation lib) ⟨[], []⟩
  return st.rows

/-! ## What is indexed -/

/-- The entries of an operation for its servers. -/
def builtEntries (lib : Stdlib) (op : IndexedOperation) : List URLIndexEntry :=
  op.servers.flatMap fun server =>
    match buildServerIndexEntries lib server.1 server.2 op.path with
    | .ok expansion => expansion.entries
    | .error _ => []

/-- The rows of all entries, in the order of the stage. -/
def candidates (lib : Stdlib) (ops : List IndexedOperation) : List IndexRow :=
  ops.flatMap fun op => (builtEntries lib op).map (indexRow op)

/-- Every request path that an entry of an operation matches is matched by a row of the
operation's method and the entry's host. -/
def LosesNothing (lib : Stdlib) (ops : List IndexedOperation) (rows : List IndexRow) : Prop :=
  ∀ op ∈ ops, ∀ e ∈ builtEntries lib op, ∀ raw : Text,
    (e.pathRegex.fullmatch (· == ·) (normalizePath raw)).isSome →
      ∃ row ∈ rows, row.method = op.stored ∧ row.host = e.hostPattern ∧
        (row.pathRegex.fullmatch (· == ·) (normalizePath raw)).isSome

/-- The row is the first with its structural key. -/
def FirstOfKey (rows : List IndexRow) (row : IndexRow) : Prop :=
  rows.find? (fun y => y.dedupKey = row.dedupKey) = some row

/-- Every entry is an instance of one that is the first with its structural key, and has
the entry's method and host. -/
def SkippedCovered (lib : Stdlib) (ops : List IndexedOperation) : Prop :=
  ∀ x ∈ candidates lib ops, ∃ y, FirstOfKey (candidates lib ops) y ∧
    y.method = x.method ∧ y.host = x.host ∧
    (Pattern.skeleton y.pathRegex.pieces).General (Pattern.skeleton x.pathRegex.pieces)

/-- A loop that can fail, over what its steps return. -/
theorem foldlM_addServer {lib : Stdlib} {op : IndexedOperation} {servers : List (Text × Json)}
    {st st' : IndexState} (h : servers.foldlM (addServer lib op) st = .ok st') :
    st' = ((servers.flatMap fun server =>
      match buildServerIndexEntries lib server.1 server.2 op.path with
      | .ok expansion => expansion.entries
      | .error _ => []).map (indexRow op)).foldl addRow st := by
  induction servers generalizing st with
  | nil => exact (Except.ok.inj h).symm
  | cons server rest ih =>
      rw [List.foldlM_cons] at h
      rcases Lists.bind_eq_ok_iff.mp h with ⟨st₁, hfirst, hrest⟩
      rcases Lists.bind_eq_ok_iff.mp hfirst with ⟨expansion, hexpansion, hst₁⟩
      rw [ih hrest, List.flatMap_cons, hexpansion, List.map_append, List.foldl_append,
        ← Except.ok.inj hst₁]

theorem foldlM_addOperation {lib : Stdlib} {ops : List IndexedOperation} {st st' : IndexState}
    (h : ops.foldlM (addOperation lib) st = .ok st') :
    st' = (candidates lib ops).foldl addRow st := by
  induction ops generalizing st with
  | nil => exact (Except.ok.inj h).symm
  | cons op rest ih =>
      rw [List.foldlM_cons] at h
      rcases Lists.bind_eq_ok_iff.mp h with ⟨st₁, hfirst, hrest⟩
      rw [ih hrest, foldlM_addServer hfirst, ← builtEntries, ← List.foldl_append]
      rfl

/-- The rows of a revision are those of the entries, added one by one. -/
theorem buildUrlIndex_eq {lib : Stdlib} {ops : List IndexedOperation} {rows : List IndexRow}
    (h : buildUrlIndex lib ops = .ok rows) :
    rows = ((candidates lib ops).foldl addRow ⟨[], []⟩).rows := by
  rcases Lists.bind_eq_ok_iff.mp h with ⟨st, hst, hrows⟩
  rw [← foldlM_addOperation hst]
  exact (Except.ok.inj hrows).symm

/-! ## What is stored -/

/-- Rows with one unique key have one structural key. -/
theorem dedupKey_of_lookupKey {r r' : IndexRow} (h : r.lookupKey = r'.lookupKey) :
    r.dedupKey = r'.dedupKey := by
  rw [IndexRow.lookupKey, IndexRow.lookupKey, Prod.mk.injEq, Prod.mk.injEq, Prod.mk.injEq] at h
  rw [IndexRow.dedupKey, IndexRow.dedupKey, h.1, h.2.1, h.2.2.1, h.2.2.2]

/-- A row whose structural key is new is appended. -/
theorem upsertEntry_of_new {rows : List IndexRow} {row : IndexRow}
    (h : ∀ r ∈ rows, r.dedupKey ≠ row.dedupKey) : upsertEntry rows row = rows ++ [row] := by
  rw [upsertEntry, if_neg]
  rw [Bool.not_eq_true, List.any_eq_false]
  intro r hr
  rw [decide_eq_true_eq]
  exact fun hkey => h r hr (dedupKey_of_lookupKey hkey)

/-- The keys seen are those of the rows. -/
def IndexState.Agrees (st : IndexState) : Prop := ∀ r ∈ st.rows, r.dedupKey ∈ st.seen

theorem agrees_addRow {st : IndexState} (h : st.Agrees) (row : IndexRow) : (addRow st row).Agrees := by
  rw [addRow]
  split
  · exact h
  · next hnew =>
      intro r hr
      dsimp only at hr
      rw [upsertEntry_of_new fun r hr hkey => hnew (hkey ▸ h r hr), List.mem_append,
        List.mem_singleton] at hr
      rcases hr with hr | hr
      · exact List.mem_cons_of_mem _ (h r hr)
      · rw [hr]
        exact List.mem_cons_self

theorem mem_rows_foldl {st : IndexState} (h : st.Agrees) {rows : List IndexRow} {r : IndexRow}
    (hr : r ∈ st.rows) : r ∈ (rows.foldl addRow st).rows := by
  induction rows generalizing st with
  | nil => exact hr
  | cons row rest ih =>
      rw [List.foldl_cons]
      refine ih (agrees_addRow h row) ?_
      rw [addRow]
      split
      · exact hr
      · next hnew =>
          dsimp only
          rw [upsertEntry_of_new fun r hr hkey => hnew (hkey ▸ h r hr)]
          exact List.mem_append_left _ hr

/-- The first row with a key that was not seen is stored. -/
theorem row_of_first {st : IndexState} (h : st.Agrees) {rows : List IndexRow} {key : DedupKey}
    {r : IndexRow} (hnew : key ∉ st.seen)
    (hfind : rows.find? (fun y => y.dedupKey = key) = some r) :
    r ∈ (rows.foldl addRow st).rows := by
  induction rows generalizing st with
  | nil => exact absurd hfind (by simp only [List.find?_nil, reduceCtorEq, not_false_eq_true])
  | cons row rest ih =>
      rw [List.foldl_cons]
      rw [List.find?_cons] at hfind
      split at hfind
      · next hkey =>
          rw [decide_eq_true_eq] at hkey
          rw [Option.some.injEq] at hfind
          rw [← hfind]
          have hseen : row.dedupKey ∉ st.seen := hkey ▸ hnew
          refine mem_rows_foldl (agrees_addRow h row) ?_
          rw [addRow, if_neg hseen, upsertEntry_of_new fun r hr hk => hseen (hk ▸ h r hr)]
          exact List.mem_append_right _ List.mem_cons_self
      · next hkey =>
          rw [decide_eq_false_iff_not] at hkey
          refine ih (agrees_addRow h row) ?_ hfind
          rw [addRow]
          split
          · exact hnew
          · rw [List.mem_cons]
            rintro (he | hmem)
            · exact hkey he.symm
            · exact hnew hmem

/-- No request is lost when every entry is an instance of one that is kept. -/
theorem dedup_loses_nothing {lib : Stdlib} {ops : List IndexedOperation} {rows : List IndexRow}
    (h : buildUrlIndex lib ops = .ok rows) (hcovered : SkippedCovered lib ops) :
    LosesNothing lib ops rows := by
  intro op hop e he raw hm
  have hmem : indexRow op e ∈ candidates lib ops :=
    List.mem_flatMap.mpr ⟨op, hop, List.mem_map_of_mem he⟩
  have hagrees : (⟨[], []⟩ : IndexState).Agrees := fun r hr => absurd hr List.not_mem_nil
  rcases hcovered _ hmem with ⟨y, hfirst, hmethod, hhost, hgeneral⟩
  refine ⟨y, ?_, hmethod, hhost, ?_⟩
  · rw [buildUrlIndex_eq h]
    exact row_of_first hagrees List.not_mem_nil hfirst
  · rw [Pattern.fullmatch_iff_skeleton] at hm ⊢
    exact Pattern.Skeleton.matches_of_general hgeneral hm

/-! ## Two revisions -/

def exampleServer : Text × Json := ("https://api.example.com".toList, .null)

/-- Two operations of one method whose paths have one structure. -/
def getPair (path path' : Text) : List IndexedOperation :=
  [⟨"op_1".toList, "get".toList, path, [exampleServer]⟩,
    ⟨"op_2".toList, "get".toList, path', [exampleServer]⟩]

/-- Some row has the operation's method and the entry's host and matches the path. -/
def servedBy (rows : List IndexRow) (op : IndexedOperation) (e : URLIndexEntry) (p : Text) : Bool :=
  rows.any fun row => row.method = op.stored && row.host = e.hostPattern &&
    (row.pathRegex.fullmatch (· == ·) p).isSome

/-- Some entry matches a path that no row serves. -/
def lost (lib : Stdlib) (ops : List IndexedOperation) (raw : Text) : Bool :=
  match buildUrlIndex lib ops with
  | .error _ => false
  | .ok rows => ops.any fun op => (builtEntries lib op).any fun e =>
      (e.pathRegex.fullmatch (· == ·) (normalizePath raw)).isSome &&
        !servedBy rows op e (normalizePath raw)

/-- `/{a}/{b}` is skipped for `/{a}/{a}`, which does not match `/x/y`. -/
theorem repeatedName_lost :
    ¬ ∀ (lib : Stdlib) (ops : List IndexedOperation) (rows : List IndexRow),
      buildUrlIndex lib ops = .ok rows → LosesNothing lib ops rows := by
  intro hall
  have hlost : lost .ascii (getPair "/{a}/{a}".toList "/{a}/{b}".toList) "/x/y".toList = true := by
    decide +kernel
  rw [lost] at hlost
  cases hb : buildUrlIndex .ascii (getPair "/{a}/{a}".toList "/{a}/{b}".toList) with
  | error failure =>
      rw [hb] at hlost
      exact Bool.false_ne_true hlost
  | ok rows =>
      rw [hb] at hlost
      rcases List.any_eq_true.mp hlost with ⟨op, hop, hany⟩
      rcases List.any_eq_true.mp hany with ⟨e, he, hcheck⟩
      rw [Bool.and_eq_true, Bool.not_eq_true', servedBy, List.any_eq_false] at hcheck
      rcases hall _ _ rows hb op hop e he "/x/y".toList hcheck.1 with ⟨row, hrow, hm, hh, hp⟩
      refine hcheck.2 row hrow ?_
      rw [Bool.and_eq_true, Bool.and_eq_true, decide_eq_true_eq, decide_eq_true_eq]
      exact ⟨⟨hm, hh⟩, hp⟩

/-- The skipped entries have the skeletons of the ones they are skipped for. -/
def sameSkeletons (lib : Stdlib) (ops : List IndexedOperation) : Bool :=
  (candidates lib ops).all fun x =>
    ((candidates lib ops).find? fun y => y.dedupKey = x.dedupKey).all fun y =>
      Pattern.skeleton y.pathRegex.pieces = Pattern.skeleton x.pathRegex.pieces

/-- The first row with a key is the first with its own. -/
theorem firstOfKey_of_find {rows : List IndexRow} {key : DedupKey} {y : IndexRow}
    (h : rows.find? (fun y => y.dedupKey = key) = some y) :
    FirstOfKey rows y ∧ y.dedupKey = key := by
  have hkey := List.find?_some h
  rw [decide_eq_true_eq] at hkey
  refine ⟨?_, hkey⟩
  rw [FirstOfKey, hkey]
  exact h

theorem skippedCovered_of_same {lib : Stdlib} {ops : List IndexedOperation}
    (h : sameSkeletons lib ops = true) : SkippedCovered lib ops := by
  intro x hx
  rw [sameSkeletons, List.all_eq_true] at h
  have hsame := h x hx
  have hsome : ((candidates lib ops).find? fun y => y.dedupKey = x.dedupKey).isSome := by
    rw [List.find?_isSome]
    exact ⟨x, hx, decide_eq_true rfl⟩
  rcases Option.isSome_iff_exists.mp hsome with ⟨y, hy⟩
  rw [hy, Option.all_some, decide_eq_true_eq] at hsame
  rcases firstOfKey_of_find hy with ⟨hfirst, hkey⟩
  rw [IndexRow.dedupKey, IndexRow.dedupKey, DedupKey.mk.injEq] at hkey
  refine ⟨y, hfirst, hkey.1, hkey.2.1, ?_⟩
  rw [hsame]
  exact Pattern.Skeleton.general_refl

/-- Two names for one placeholder: one row serves the requests of both operations. -/
theorem dedup_loses_nothing_pets :
    ∃ rows, buildUrlIndex .ascii (getPair "/pets/{id}".toList "/pets/{petId}/".toList) = .ok rows ∧
      rows.length = 1 ∧
      LosesNothing .ascii (getPair "/pets/{id}".toList "/pets/{petId}/".toList) rows := by
  have hcheck : (match buildUrlIndex .ascii (getPair "/pets/{id}".toList "/pets/{petId}/".toList) with
      | .ok rows => rows.length = 1
      | .error _ => false) = true := by
    decide +kernel
  have hsame : sameSkeletons .ascii (getPair "/pets/{id}".toList "/pets/{petId}/".toList) = true := by
    decide +kernel
  cases hb : buildUrlIndex .ascii (getPair "/pets/{id}".toList "/pets/{petId}/".toList) with
  | error failure =>
      rw [hb] at hcheck
      exact absurd hcheck Bool.false_ne_true
  | ok rows =>
      rw [hb, decide_eq_true_eq] at hcheck
      exact ⟨rows, rfl, hcheck, dedup_loses_nothing hb (skippedCovered_of_same hsame)⟩

end Registry

end JenticOne
