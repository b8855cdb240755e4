import JenticOne.Library.Keyset
import JenticOne.Pagination.Cursor

/-!
# The Listing of Agents

One page of the agents that a caller can see, newest first, with the cursor of the next
page, over a table that others may change between two pages.

A listing is a keyset pagination on the instant and the id of a row. The cursor goes
through the caller as a text, and comes back as the key that it was made from, so that the
pages of a caller who follows the cursors are the pages of the keyset.

## Main definitions

* `Agent`, `Database`: The rows of the table.
* `Collation`: The order of ids in the database.
* `listAgents`: One page.
* `Walk`, `Done`: The pages of a caller who follows the cursors.

## Theorems

* `listAgents_eq`: A page is the page of the keyset.
* `keyset_of_walk`: The pages are those of the keyset.
* `listAgents_complete`: No row is lost and none is repeated.
-/

namespace JenticOne

namespace Pagination

open IsoTime (DateTime)

/-! ## The listing -/

/-- A row of the table of agents. The column of ids has a length, and the one of times a
    time zone. -/
structure Agent where
  id : Text
  createdAt : DateTime
  ownerId : Option Text
  status : Text
  aware : createdAt.Aware
  short : id.length ≤ 30

/-- The rows, with their ids as the primary key, and which agents have an API key. -/
structure Database where
  agents : List Agent
  unique : (agents.map Agent.id).Nodup
  withApiKey : Text → Bool

/-- How the database orders ids: by sort keys that tell different ids apart. -/
structure Collation (κ : Type) where
  key : Text → κ
  inj : Function.Injective key

variable {κ : Type} [LinearOrder κ] (coll : Collation κ)

/-- What a row is ordered by. -/
def Agent.key (a : Agent) : Lex (Int × κ) := toLex (a.createdAt.instant, coll.key a.id)

def Cursor.key (c : Cursor) : Lex (Int × κ) := toLex (c.timestamp.instant, coll.key c.id)

/-- `apply_desc_keyset`, with the row-value comparison of `desc_keyset_predicate`. -/
def applyDescKeyset (rows : List Agent) (cursor : Option Cursor) : List Agent :=
  cursor.elim rows fun c => rows.filter fun a => a.key coll < c.key coll

/-- `ORDER BY created_at DESC, id DESC`. -/
def orderByDesc (rows : List Agent) : List Agent :=
  rows.insertionSort fun a b => b.key coll ≤ a.key coll

/-- `AgentRepository.list_by_owner`. -/
def listByOwner (rows : List Agent) (ownerId : Text) (limit : Nat) (cursor : Option Cursor)
    (filters : List (Agent → Bool)) : List Agent :=
  (orderByDesc coll ((applyDescKeyset coll (rows.filter fun a => a.ownerId = some ownerId)
    cursor).filter fun a => filters.all (· a))).take limit

/-- `AgentRepository.list_all`. -/
def listAll (rows : List Agent) (limit : Nat) (status : Option Text) (cursor : Option Cursor)
    (filters : List (Agent → Bool)) : List Agent :=
  (orderByDesc coll (((applyDescKeyset coll rows cursor).filter
    fun a => status.all fun s => a.status = s).filter fun a => filters.all (· a))).take limit

/-- What a caller asks for, with the conditions of the caller's access. -/
structure Query where
  ownerId : Option Text
  status : Option Text
  accessFilters : List (Agent → Bool)

structure AgentView where
  agent : Agent
  hasApiKey : Bool

structure Page where
  data : List AgentView
  hasMore : Bool
  nextCursor : Option Text

/-- The rows that are fetched for a page, one more than it shows. -/
def fetchAgents (db : Database) (q : Query) (limit : Nat) (cursor : Option Cursor) : List Agent :=
  q.ownerId.elim (listAll coll db.agents (limit + 1) q.status cursor q.accessFilters)
    fun ownerId => listByOwner coll db.agents ownerId (limit + 1) cursor q.accessFilters

/-- The rows that a page shows. -/
def shown (fetched : List Agent) (limit : Nat) : List Agent :=
  if fetched.length > limit then fetched.take limit else fetched

def toPage (db : Database) (fetched : List Agent) (limit : Nat) : Page where
  data := (shown fetched limit).map fun a => ⟨a, db.withApiKey a.id⟩
  hasMore := fetched.length > limit
  nextCursor :=
    if fetched.length > limit then
      (shown fetched limit).getLast?.map fun a => encodeCursor a.createdAt a.id
    else none

variable (py : Python)

/-- The key of a request's cursor. -/
def cursorKey (cursor : Option Text) : Except Raised (Option Cursor) :=
  cursor.elim (.ok none) fun c => (decodeCursor py .str c).map some

/-- `AgentService.list_agents`. -/
def listAgents (db : Database) (q : Query) (limit : Nat) (cursor : Option Text) :
    Except Raised Page :=
  (cursorKey py cursor).map fun key => toPage db (fetchAgents coll db q limit key) limit

/-! ## The pages of a caller -/

section Pages

variable (dbs : Nat → Database) (q : Query) (limit : Nat)

/-- The pages so far, and the cursor to ask for the next one with. -/
inductive Walk : List Page → Option Text → Prop
  | start : Walk [] none
  | next {pages : List Page} {cursor : Option Text} {page : Page} {c : Text} :
      Walk pages cursor → listAgents coll py (dbs pages.length) q limit cursor = .ok page →
      page.nextCursor = some c → Walk (pages ++ [page]) (some c)

/-- The pages up to one without a cursor. -/
inductive Done : List Page → Prop
  | last {pages : List Page} {cursor : Option Text} {page : Page} :
      Walk coll py dbs q limit pages cursor →
      listAgents coll py (dbs pages.length) q limit cursor = .ok page →
      page.nextCursor = none → Done (pages ++ [page])

end Pages

/-- The agents of a page. -/
def Page.agents (page : Page) : List Agent := page.data.map AgentView.agent

/-- The agents of pages. -/
def listed (pages : List Page) : List Agent := pages.flatMap Page.agents

/-- The rows that a caller can see. -/
def Query.visible (q : Query) (a : Agent) : Bool :=
  (q.ownerId.elim (q.status.all fun s => a.status = s) fun o => a.ownerId = some o) &&
    q.accessFilters.all (· a)

/-! ## The keyset -/

section Keyset

variable {coll py} {db : Database} {q : Query} {limit : Nat}

/-- The visible rows of a database. -/
def Database.visible (db : Database) (q : Query) : List Agent := db.agents.filter q.visible

theorem applyDescKeyset_eq (rows : List Agent) (cursor : Option Cursor) :
    applyDescKeyset coll rows cursor =
      rows.filter (Keyset.Below (Agent.key coll) (cursor.map (Cursor.key coll))) := by
  cases cursor with
  | none =>
      refine (List.filter_eq_self.mpr fun a _ => decide_eq_true fun c hc => ?_).symm
      exact absurd hc (by simp only [Option.map_none, Option.mem_def, reduceCtorEq,
        not_false_eq_true])
  | some c =>
      refine List.filter_congr fun a _ => decide_eq_decide.mpr ?_
      rw [Keyset.Below, Option.map_some]
      exact ⟨fun h k hk => Option.mem_some_iff.mp hk ▸ h, fun h => h _ rfl⟩

/-- The rows that are fetched are the first ones of the keyset. -/
theorem fetchAgents_eq (cursor : Option Cursor) :
    fetchAgents coll db q limit cursor =
      Keyset.fetch (Agent.key coll) (db.visible q) (cursor.map (Cursor.key coll)) (limit + 1) := by
  have hrows : ∀ (p : Agent → Bool) (rows : List Agent),
      (rows.filter p).filter (Keyset.Below (Agent.key coll) (cursor.map (Cursor.key coll))) =
        (rows.filter (Keyset.Below (Agent.key coll) (cursor.map (Cursor.key coll)))).filter p :=
    fun p rows => List.filter_comm _ _ _
  have hvisible : db.visible q = (db.agents.filter fun a =>
      (q.ownerId.elim (q.status.all fun s => a.status = s) fun o => a.ownerId = some o)).filter
        fun a => q.accessFilters.all (· a) := by
    rw [Database.visible, List.filter_filter]
    exact List.filter_congr fun a _ => Bool.and_comm _ _
  rw [fetchAgents, Keyset.fetch, Keyset.rest, hvisible, hrows]
  cases howner : q.ownerId with
  | none =>
      simp only [Option.elim_none]
      rw [listAll, applyDescKeyset_eq, hrows]
      rfl
  | some o =>
      simp only [Option.elim_some]
      rw [listByOwner, applyDescKeyset_eq]
      rfl

theorem shown_eq (fetched : List Agent) (limit : Nat) :
    shown fetched limit = fetched.take limit := by
  rw [shown]
  split_ifs with hmore
  · rfl
  · exact (List.take_of_length_le (Nat.le_of_not_lt hmore)).symm

/-- Different rows have different keys. -/
theorem nodup_keys (db : Database) (q : Query) :
    ((db.visible q).map (Agent.key coll)).Nodup := by
  have hids : ((db.visible q).map Agent.id).Nodup :=
    db.unique.sublist (List.filter_sublist.map Agent.id)
  refine List.Nodup.of_map (fun k : Lex (Int × κ) => (ofLex k).2) ?_
  rw [List.map_map]
  have hmap : (db.visible q).map ((fun k : Lex (Int × κ) => (ofLex k).2) ∘ Agent.key coll) =
      ((db.visible q).map Agent.id).map coll.key := by
    rw [List.map_map]
    rfl
  rw [hmap]
  exact hids.map coll.inj

/-- The cursor of a request, and the key of the keyset. -/
def Follows (coll : Collation κ) : Option Text → Option (Lex (Int × κ)) → Prop
  | none, k => k = none
  | some c, k => ∃ a : Agent, c = encodeCursor a.createdAt a.id ∧ k = some (a.key coll)

theorem cursorKey_of_follows (py : Python) {cursor : Option Text} {k : Option (Lex (Int × κ))}
    (h : Follows coll cursor k) :
    ∃ c, cursorKey py cursor = .ok c ∧ c.map (Cursor.key coll) = k := by
  cases cursor with
  | none => exact ⟨none, rfl, h.symm⟩
  | some text =>
      rcases h with ⟨a, rfl, rfl⟩
      refine ⟨some ⟨a.createdAt, a.id⟩, ?_, rfl⟩
      rw [cursorKey, Option.elim_some,
        decodeCursor_encodeCursor py a.aware (show OfKind .str a.id from trivial)
          (length_encodeCursor a.createdAt a.short)]
      rfl

/-- A page is the page of the keyset, and its cursor is the cursor of the keyset. -/
theorem listAgents_eq (py : Python) (db : Database) (q : Query) (limit : Nat)
    {cursor : Option Text} {k : Option (Lex (Int × κ))}
    (h : Follows coll cursor k) :
    ∃ page, listAgents coll py db q limit cursor = .ok page ∧
      page.agents = Keyset.pageRows (Agent.key coll) (db.visible q) k limit ∧
      Follows coll page.nextCursor (Keyset.nextKey (Agent.key coll) (db.visible q) k limit) := by
  rcases cursorKey_of_follows py h with ⟨c, hc, rfl⟩
  refine ⟨toPage db (fetchAgents coll db q limit c) limit, ?_, ?_, ?_⟩
  · rw [listAgents, hc]
    rfl
  · have hagents : ∀ l : List Agent,
        (l.map fun a => (⟨a, db.withApiKey a.id⟩ : AgentView)).map AgentView.agent = l := by
      intro l
      rw [List.map_map]
      exact List.map_id l
    rw [Page.agents, toPage, hagents, shown_eq, fetchAgents_eq, Keyset.pageRows]
  · rw [toPage, fetchAgents_eq, shown_eq, Keyset.nextKey, Keyset.pageRows]
    dsimp only
    split_ifs with hmore
    · cases hlast : ((Keyset.fetch (Agent.key coll) (db.visible q) (c.map (Cursor.key coll))
        (limit + 1)).take limit).getLast? with
      | none => rfl
      | some a => exact ⟨a, rfl, rfl⟩
    · rfl

variable {dbs : Nat → Database} {pages : List Page}

/-- The tables of a caller, one for each page. -/
def tables (dbs : Nat → Database) (q : Query) (i : Nat) : List Agent := (dbs i).visible q

/-- The pages of a caller are pages of the keyset. -/
theorem keyset_of_walk {cursor : Option Text} (h : Walk coll py dbs q limit pages cursor) :
    ∃ k, Keyset.Walk (Agent.key coll) (tables dbs q) limit (pages.map Page.agents) k ∧
      Follows coll cursor k := by
  induction h with
  | start => exact ⟨none, .start, rfl⟩
  | @next pages cursor page c _ hpage hnext ih =>
      rcases ih with ⟨k, hwalk, hfollows⟩
      rcases listAgents_eq py (dbs pages.length) q limit hfollows with
        ⟨page', hpage', hagents, hcursor⟩
      rw [hpage, Except.ok.injEq] at hpage'
      rw [← hpage'] at hagents hcursor
      rw [hnext] at hcursor
      have hk := hcursor
      rcases hcursor with ⟨a, -, hkey⟩
      refine ⟨some (a.key coll), ?_, hkey ▸ hk⟩
      rw [List.map_append, List.map_singleton, hagents]
      have hlength : pages.length = (pages.map Page.agents).length := by rw [List.length_map]
      rw [hlength] at hkey ⊢
      exact .next hwalk hkey

theorem keyset_of_done (h : Done coll py dbs q limit pages) :
    Keyset.Done (Agent.key coll) (tables dbs q) limit (pages.map Page.agents) := by
  cases h with
  | @last pages cursor page hwalk hpage hnext =>
      rcases keyset_of_walk hwalk with ⟨k, hkeyset, hfollows⟩
      rcases listAgents_eq py (dbs pages.length) q limit hfollows with
        ⟨page', hpage', hagents, hcursor⟩
      rw [hpage, Except.ok.injEq] at hpage'
      rw [← hpage'] at hagents hcursor
      rw [hnext] at hcursor
      rw [List.map_append, List.map_singleton, hagents]
      have hlength : pages.length = (pages.map Page.agents).length := by rw [List.length_map]
      have hkey : Keyset.nextKey (Agent.key coll) ((dbs pages.length).visible q) k limit = none :=
        hcursor
      rw [hlength] at hkey ⊢
      exact .last hkeyset hkey

/-- A finished walk of the keyset is one of a caller. -/
theorem exists_walk_of_keyset (py : Python) {lists : List (List Agent)}
    {k : Option (Lex (Int × κ))}
    (h : Keyset.Walk (Agent.key coll) (tables dbs q) limit lists k) :
    ∃ pages cursor, Walk coll py dbs q limit pages cursor ∧ pages.map Page.agents = lists ∧
      Follows coll cursor k := by
  induction h with
  | start => exact ⟨[], none, .start, rfl, rfl⟩
  | @next lists k c _ hnext ih =>
      rcases ih with ⟨pages, cursor, hwalk, rfl, hfollows⟩
      rw [List.length_map] at hnext ⊢
      rcases listAgents_eq py (dbs pages.length) q limit hfollows with
        ⟨page, hpage, hagents, hcursor⟩
      have hnext' : Keyset.nextKey (Agent.key coll) ((dbs pages.length).visible q) k limit =
        some c := hnext
      rw [hnext'] at hcursor
      cases htext : page.nextCursor with
      | none =>
          rw [htext] at hcursor
          exact absurd hcursor (by simp only [Follows, reduceCtorEq, not_false_eq_true])
      | some text =>
          rw [htext] at hcursor
          refine ⟨pages ++ [page], some text, .next hwalk hpage htext, ?_, hcursor⟩
          rw [List.map_append, List.map_singleton, hagents]
          rfl

theorem exists_done_of_keyset (py : Python) {lists : List (List Agent)}
    (h : Keyset.Done (Agent.key coll) (tables dbs q) limit lists) :
    ∃ pages, Done coll py dbs q limit pages := by
  cases h with
  | @last lists k hkeyset hnext =>
      rcases exists_walk_of_keyset py hkeyset with ⟨pages, cursor, hwalk, rfl, hfollows⟩
      rw [List.length_map] at hnext
      rcases listAgents_eq py (dbs pages.length) q limit hfollows with ⟨page, hpage, -, hcursor⟩
      have hnext' : Keyset.nextKey (Agent.key coll) ((dbs pages.length).visible q) k limit =
        none := hnext
      rw [hnext'] at hcursor
      cases htext : page.nextCursor with
      | none => exact ⟨_, .last hwalk hpage htext⟩
      | some text =>
          rw [htext] at hcursor
          rcases hcursor with ⟨a, -, hkey⟩
          exact absurd hkey (by simp only [reduceCtorEq, not_false_eq_true])

theorem listed_eq (pages : List Page) : listed pages = (pages.map Page.agents).flatten := by
  rw [listed, List.flatMap]

theorem distinct (dbs : Nat → Database) (q : Query) (i : Nat) :
    ((tables dbs q i).map (Agent.key coll)).Nodup := nodup_keys (dbs i) q

/-- Every request of a caller who follows the cursors is answered. -/
theorem listAgents_of_walk {cursor : Option Text} (h : Walk coll py dbs q limit pages cursor) :
    ∃ page, listAgents coll py (dbs pages.length) q limit cursor = .ok page := by
  rcases keyset_of_walk h with ⟨k, -, hfollows⟩
  rcases listAgents_eq py (dbs pages.length) q limit hfollows with ⟨page, hpage, -⟩
  exact ⟨page, hpage⟩

/-- There are no more pages over one table than rows. -/
theorem length_pages_le (hlimit : 1 ≤ limit) {cursor : Option Text}
    (h : Walk coll py (fun _ => db) q limit pages cursor) :
    pages.length ≤ (db.visible q).length := by
  rcases keyset_of_walk h with ⟨k, hwalk, -⟩
  have hdistinct : ((db.visible q).map (Agent.key coll)).Nodup := nodup_keys db q
  have hpages := Keyset.length_le_of_walk hdistinct hlimit hwalk
  rw [List.length_map] at hpages
  exact hpages.trans (Keyset.length_flatten_le hdistinct hlimit hwalk)

/-- The pages over one table list it. -/
theorem listed_of_done (hlimit : 1 ≤ limit) (h : Done coll py (fun _ => db) q limit pages) :
    (listed pages).Perm (db.visible q) ∧
      (listed pages).Pairwise fun a b => b.key coll < a.key coll := by
  have hdistinct : ((db.visible q).map (Agent.key coll)).Nodup := nodup_keys db q
  have hdone := keyset_of_done h
  have hflatten := Keyset.flatten_of_done hdistinct hlimit hdone
  rw [listed_eq]
  refine ⟨?_, hdone.sorted (distinct (fun _ => db) q) hlimit⟩
  rw [hflatten]
  exact List.perm_insertionSort _ _

/-- A row that stays is listed once, whatever happens to the others. -/
theorem count_of_done (hlimit : 1 ≤ limit) (h : Done coll py dbs q limit pages) {x : Text} {t : Int}
    (hstays : ∀ i < pages.length, ∃ a ∈ (dbs i).visible q, a.id = x ∧ a.createdAt.instant = t) :
    ((listed pages).map Agent.id).count x = 1 := by
  have hdone := keyset_of_done h
  have hsorted := hdone.sorted (distinct dbs q) hlimit
  have hkey : ∀ {i}, i < pages.length → ∀ a ∈ (dbs i).visible q, a.id = x →
      a.key coll = toLex (t, coll.key x) := by
    intro i hi a ha hid
    rcases hstays i hi with ⟨b, hb, hbid, hbt⟩
    -- The row is the one with its id in its table.
    have hab : a = b := List.inj_on_of_nodup_map (dbs i).unique (List.mem_filter.mp ha).1
      (List.mem_filter.mp hb).1 (hid.trans hbid.symm)
    rw [hab, Agent.key, hbt, hbid]
  have hkept : ∃ a ∈ listed pages, a.key coll = toLex (t, coll.key x) := by
    rw [listed_eq]
    refine hdone.kept (distinct dbs q) hlimit fun i hi => ?_
    rw [List.length_map] at hi
    rcases hstays i hi with ⟨a, ha, hid, -⟩
    exact ⟨a, ha, hkey hi a ha hid⟩
  have hsource : ∀ a ∈ listed pages, a.id = x → a.key coll = toLex (t, coll.key x) := by
    intro a ha hid
    rw [listed_eq] at ha
    rcases hdone.source (distinct dbs q) hlimit a ha with ⟨i, hi, hmem⟩
    rw [List.length_map] at hi
    exact hkey hi a hmem hid
  have hnodup : ((listed pages).map (Agent.key coll)).Nodup := by
    rw [listed_eq]
    exact Keyset.nodup_of_descends hsorted
  rcases hkept with ⟨a, ha, hak⟩
  have hid : a.id = x := coll.inj (congrArg (fun k => (ofLex k).2) hak)
  have hcount : ((listed pages).map Agent.id).count x = (listed pages).countP (·.id = x) := by
    rw [List.count, List.countP_map]
    exact List.countP_congr fun b _ => by simp only [Function.comp, beq_iff_eq, decide_eq_true_eq]
  have hsame : (listed pages).countP (·.id = x) =
      ((listed pages).map (Agent.key coll)).count (toLex (t, coll.key x)) := by
    rw [List.count, List.countP_map]
    refine List.countP_congr fun b hb => ?_
    rw [decide_eq_true_eq, Function.comp, beq_iff_eq]
    exact ⟨hsource b hb, fun hbk => coll.inj (congrArg (fun k => (ofLex k).2) hbk)⟩
  rw [hcount, hsame]
  exact List.count_eq_one_of_mem hnodup (hak ▸ List.mem_map_of_mem ha)

/-- No row is lost and none is repeated: the pages over one table end and list it in order,
    a row that stays is listed once, and cursors are read as they were written. -/
theorem listAgents_complete (coll : Collation κ) (py : Python) (q : Query) :
    (∀ limit, 1 ≤ limit → ∀ db, (∃ pages, Done coll py (fun _ => db) q limit pages) ∧
      (∀ pages cursor, Walk coll py (fun _ => db) q limit pages cursor →
        pages.length ≤ (db.visible q).length) ∧
      ∀ pages, Done coll py (fun _ => db) q limit pages → (listed pages).Perm (db.visible q) ∧
        (listed pages).Pairwise fun a b => b.key coll < a.key coll) ∧
    (∀ limit, 1 ≤ limit → ∀ dbs : Nat → Database,
      (∀ pages cursor, Walk coll py dbs q limit pages cursor →
        ∃ page, listAgents coll py (dbs pages.length) q limit cursor = .ok page) ∧
      ∀ pages, Done coll py dbs q limit pages → ∀ (x : Text) (t : Int),
        (∀ i < pages.length, ∃ a ∈ (dbs i).visible q, a.id = x ∧ a.createdAt.instant = t) →
        ((listed pages).map Agent.id).count x = 1) ∧
    (∀ idKind (t : DateTime) id, t.Aware → OfKind idKind id →
      (encodeCursor t id).length ≤ maxCursorLength →
      decodeCursor py idKind (encodeCursor t id) = .ok ⟨t, id⟩) ∧
    ∀ idKind s, (∃ c, decodeCursor py idKind s = .ok c) ∨
      decodeCursor py idKind s = .error invalidCursor := by
  refine ⟨fun limit hlimit db => ⟨?_, fun pages cursor h => length_pages_le hlimit h,
      fun pages h => listed_of_done hlimit h⟩,
    fun limit hlimit dbs => ⟨fun pages cursor h => listAgents_of_walk h,
      fun pages h x t hstays => count_of_done hlimit h hstays⟩,
    fun idKind t id haware hkind hlen => decodeCursor_encodeCursor py haware hkind hlen,
    fun idKind s => decodeCursor_total py idKind s⟩
  have hdistinct : ((db.visible q).map (Agent.key coll)).Nodup := nodup_keys db q
  rcases Keyset.exists_done hdistinct hlimit with ⟨lists, hdone⟩
  exact exists_done_of_keyset py hdone

/-- The library on texts of digits, without the other forms of a time. -/
def Python.plain : Python where
  toHexInt := .plain
  otherTimes := fun _ => none
  deep := fun _ => false
  deep_flat := fun _ => rfl

/-- Noon of a day, to the microsecond, in a zone east of UTC. -/
def noon : DateTime :=
  ⟨⟨2026, 2, 28, 12, 0, 0, 1, some 19800000000⟩, by decide⟩

/-- Two agents of one instant. -/
def twins : Database where
  agents := [⟨['a'], noon, none, ['x'], rfl, by decide⟩, ⟨['b'], noon, none, ['x'], rfl, by decide⟩]
  unique := by decide
  withApiKey := fun _ => false

/-- The theorem at pages of one row. -/
theorem listAgents_complete_twins :
    (∃ pages, Done ⟨id, Function.injective_id⟩ .plain (fun _ => twins) ⟨none, none, []⟩ 1 pages ∧
      ((listed pages).map Agent.id).count ['a'] = 1) ∧
    decodeCursor .plain .str (encodeCursor noon ['b']) = .ok ⟨noon, ['b']⟩ := by
  have hall := listAgents_complete ⟨id, Function.injective_id⟩ .plain ⟨none, none, []⟩
  rcases (hall.1 1 (Nat.le_refl 1) twins).1 with ⟨pages, hdone⟩
  refine ⟨⟨pages, hdone, (hall.2.1 1 (Nat.le_refl 1) fun _ => twins).2 pages hdone ['a']
    noon.instant fun i _ => ⟨⟨['a'], noon, none, ['x'], rfl, by decide⟩, ?_, rfl, rfl⟩⟩,
    hall.2.2.1 .str noon ['b'] rfl trivial (length_encodeCursor noon (by decide))⟩
  exact List.mem_filter.mpr ⟨List.mem_cons_self, rfl⟩

end Keyset

end Pagination

end JenticOne
