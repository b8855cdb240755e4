import Mathlib

/-!
# Keyset Pagination

Pages of a table in descending order of a key, each of which resumes below the key of the
last row of the page before it. The table may be another one at every page.

Every page is a whole interval of the keys of its table: between the cursor it was asked
for with and the cursor it hands on there is no row that it leaves out. The cursors of a
walk go down, so that the intervals are apart and, at its end, cover every key.

## Main definitions

* `fetch`: The first rows below a cursor.
* `pageRows`, `nextKey`: A page and its cursor.
* `Walk`, `Done`: Pages one after another, up to one without a cursor.

## Theorems

* `mem_pageRows`: A page is an interval.
* `Done.kept`, `Done.sorted`: A finished walk has every row that stays, in order.
* `exists_done`: A walk over one table ends.
* `flatten_of_done`: It lists the table.
-/

namespace Keyset

variable {α κ : Type} [LinearOrder κ] (key : α → κ)

/-- The row comes after the cursor. -/
def Below (cursor : Option κ) (a : α) : Prop := ∀ c ∈ cursor, key a < c

instance (cursor : Option κ) : DecidablePred (Below key cursor) := fun a =>
  inferInstanceAs (Decidable (∀ c ∈ cursor, key a < c))

/-- The rows in descending order of their keys. -/
def descending (rows : List α) : List α := rows.insertionSort fun a b => key b ≤ key a

/-- The rows after the cursor. -/
def rest (rows : List α) (cursor : Option κ) : List α :=
  descending key (rows.filter (Below key cursor))

/-- The first rows after the cursor. -/
def fetch (rows : List α) (cursor : Option κ) (n : Nat) : List α := (rest key rows cursor).take n

/-- The rows of a page, for which one row more is fetched. -/
def pageRows (rows : List α) (cursor : Option κ) (limit : Nat) : List α :=
  (fetch key rows cursor (limit + 1)).take limit

/-- The cursor that a page hands on: the key of its last row, if there are more rows. -/
def nextKey (rows : List α) (cursor : Option κ) (limit : Nat) : Option κ :=
  if limit < (fetch key rows cursor (limit + 1)).length then
    (pageRows key rows cursor limit).getLast?.map key
  else none

/-- In descending order, without ties. -/
def Descends (l : List α) : Prop := l.Pairwise fun a b => key b < key a

variable {key} {rows : List α} {cursor : Option κ} {limit : Nat}

theorem mem_descending {a : α} : a ∈ descending key rows ↔ a ∈ rows :=
  List.mem_insertionSort _

/-- Rows with different keys are sorted without ties. -/
theorem descends_descending (h : (rows.map key).Nodup) : Descends key (descending key rows) := by
  have htotal : Std.Total fun a b : α => key b ≤ key a := ⟨fun a b => le_total (key b) (key a)⟩
  have htrans : IsTrans α fun a b => key b ≤ key a := ⟨fun _ _ _ hab hbc => le_trans hbc hab⟩
  have hsorted := List.pairwise_insertionSort (fun a b => key b ≤ key a) rows
  have hdistinct : (descending key rows).Pairwise fun a b => key a ≠ key b := by
    rw [← List.pairwise_map]
    exact (((List.perm_insertionSort _ rows).map key).nodup_iff).mpr h
  exact (hsorted.and hdistinct).imp fun h => lt_of_le_of_ne h.1 h.2.symm

theorem mem_rest {a : α} : a ∈ rest key rows cursor ↔ a ∈ rows ∧ Below key cursor a := by
  rw [rest, mem_descending, List.mem_filter, decide_eq_true_eq]

theorem descends_rest (h : (rows.map key).Nodup) : Descends key (rest key rows cursor) :=
  descends_descending (h.sublist (List.filter_sublist.map key))

theorem pageRows_eq : pageRows key rows cursor limit = (rest key rows cursor).take limit := by
  rw [pageRows, fetch, List.take_take, Nat.min_eq_left (Nat.le_succ limit)]

theorem lt_length_fetch :
    limit < (fetch key rows cursor (limit + 1)).length ↔ limit < (rest key rows cursor).length := by
  rw [fetch, List.length_take]
  omega

/-- A cursor is the key of the last row, and every row that is left is below it. -/
theorem nextKey_spec (hlimit : 1 ≤ limit) (hrows : (rows.map key).Nodup) {c : κ}
    (h : nextKey key rows cursor limit = some c) :
    limit < (rest key rows cursor).length ∧
      (∃ a ∈ pageRows key rows cursor limit, key a = c) ∧
      (∀ a ∈ pageRows key rows cursor limit, c ≤ key a) ∧
      ∀ a ∈ (rest key rows cursor).drop limit, key a < c := by
  rw [nextKey] at h
  by_cases hmore : limit < (fetch key rows cursor (limit + 1)).length
  · rw [if_pos hmore, Option.map_eq_some_iff] at h
    rcases h with ⟨x, hx, rfl⟩
    rw [pageRows_eq] at hx ⊢
    have hdescends : Descends key (rest key rows cursor) := descends_rest hrows
    rcases List.getLast?_eq_some_iff.mp hx with ⟨front, hfront⟩
    rw [Descends, ← List.take_append_drop limit (rest key rows cursor), List.pairwise_append,
      hfront, List.pairwise_append] at hdescends
    refine ⟨lt_length_fetch.mp hmore, ⟨x, List.mem_of_getLast? hx, rfl⟩, fun a ha => ?_,
      fun a ha => hdescends.2.2 x (List.mem_append_right _ List.mem_cons_self) a ha⟩
    rw [hfront] at ha
    rcases List.mem_append.mp ha with ha | ha
    · exact le_of_lt (hdescends.1.2.2 a ha x List.mem_cons_self)
    · rw [List.mem_singleton.mp ha]
  · rw [if_neg hmore] at h
    exact absurd h (by simp only [reduceCtorEq, not_false_eq_true])

theorem nextKey_eq_none (hlimit : 1 ≤ limit) (h : nextKey key rows cursor limit = none) :
    pageRows key rows cursor limit = rest key rows cursor := by
  rw [nextKey] at h
  rw [pageRows_eq]
  by_cases hmore : limit < (fetch key rows cursor (limit + 1)).length
  · -- A page that is not empty has a last row.
    rw [if_pos hmore, pageRows_eq, Option.map_eq_none_iff, List.getLast?_eq_none_iff,
      List.take_eq_nil_iff] at h
    rcases h with h | h
    · omega
    · rw [lt_length_fetch, h] at hmore
      exact absurd hmore (Nat.not_lt_zero limit)
  · rw [lt_length_fetch] at hmore
    exact List.take_of_length_le (Nat.le_of_not_lt hmore)

/-- A page has the rows from the cursor down to the next one. -/
theorem mem_pageRows (hlimit : 1 ≤ limit) (hrows : (rows.map key).Nodup) {a : α} :
    a ∈ pageRows key rows cursor limit ↔
      a ∈ rows ∧ Below key cursor a ∧ ∀ c ∈ nextKey key rows cursor limit, c ≤ key a := by
  cases hnext : nextKey key rows cursor limit with
  | none =>
      rw [nextKey_eq_none hlimit hnext, mem_rest]
      exact ⟨fun h => ⟨h.1, h.2, fun c hc => absurd hc (by
        simp only [Option.mem_def, reduceCtorEq, not_false_eq_true])⟩, fun h => ⟨h.1, h.2.1⟩⟩
  | some c =>
      rcases nextKey_spec hlimit hrows hnext with ⟨-, -, habove, hbelow⟩
      have hsplit : ∀ b, b ∈ rest key rows cursor ↔
          b ∈ pageRows key rows cursor limit ∨ b ∈ (rest key rows cursor).drop limit := by
        intro b
        rw [pageRows_eq, ← List.mem_append, List.take_append_drop]
      constructor
      · intro ha
        have hrest := mem_rest.mp ((hsplit a).mpr (Or.inl ha))
        refine ⟨hrest.1, hrest.2, fun c' hc' => ?_⟩
        rw [← Option.some.inj hc']
        exact habove a ha
      · rintro ⟨hmem, hlow, hc⟩
        rcases (hsplit a).mp (mem_rest.mpr ⟨hmem, hlow⟩) with ha | ha
        · exact ha
        · exact absurd (hbelow a ha) (not_lt_of_ge (hc c rfl))

theorem descends_pageRows (hrows : (rows.map key).Nodup) :
    Descends key (pageRows key rows cursor limit) := by
  rw [pageRows_eq]
  exact List.Pairwise.take (descends_rest hrows)

/-! ## Walks -/

section Walk

variable (key) (tables : Nat → List α) (limit : Nat)

/-- Pages one after another, and the cursor of the next one. -/
inductive Walk : List (List α) → Option κ → Prop
  | start : Walk [] none
  | next {pages : List (List α)} {cursor : Option κ} {c : κ} : Walk pages cursor →
      nextKey key (tables pages.length) cursor limit = some c →
      Walk (pages ++ [pageRows key (tables pages.length) cursor limit]) (some c)

/-- Pages up to one that hands on no cursor. -/
inductive Done : List (List α) → Prop
  | last {pages : List (List α)} {cursor : Option κ} : Walk key tables limit pages cursor →
      nextKey key (tables pages.length) cursor limit = none →
      Done (pages ++ [pageRows key (tables pages.length) cursor limit])

variable {key tables limit} {pages : List (List α)}

/-- A key that stays in the table during pages. -/
def Stays (key : α → κ) (tables : Nat → List α) (n : Nat) (k : κ) : Prop :=
  ∀ i < n, ∃ a ∈ tables i, key a = k

/-- What a walk has listed: rows above its cursor, in order, with every key that stays. -/
structure Listed (key : α → κ) (tables : Nat → List α) (pages : List (List α))
    (cursor : Option κ) : Prop where
  sorted : Descends key pages.flatten
  above : ∀ a ∈ pages.flatten, ∃ c ∈ cursor, c ≤ key a
  source : ∀ a ∈ pages.flatten, ∃ i < pages.length, a ∈ tables i
  kept : ∀ k, Stays key tables pages.length k → (∃ c ∈ cursor, c ≤ k) →
    ∃ a ∈ pages.flatten, key a = k

theorem descends_append_page (hrows : ∀ i, ((tables i).map key).Nodup) (hlimit : 1 ≤ limit)
    (h : Listed key tables pages cursor) :
    Descends key (pages ++ [pageRows key (tables pages.length) cursor limit]).flatten := by
  rw [List.flatten_append, List.flatten_singleton, Descends, List.pairwise_append]
  refine ⟨h.sorted, descends_pageRows (hrows _), fun a ha b hb => ?_⟩
  rcases h.above a ha with ⟨c, hc, hle⟩
  exact lt_of_lt_of_le (((mem_pageRows hlimit (hrows _)).mp hb).2.1 c hc) hle

theorem source_append_page (hrows : ∀ i, ((tables i).map key).Nodup) (hlimit : 1 ≤ limit)
    (h : Listed key tables pages cursor) :
    ∀ a ∈ (pages ++ [pageRows key (tables pages.length) cursor limit]).flatten,
      ∃ i < (pages ++ [pageRows key (tables pages.length) cursor limit]).length,
        a ∈ tables i := by
  rw [List.flatten_append, List.flatten_singleton, List.length_append, List.length_singleton]
  intro a ha
  rcases List.mem_append.mp ha with ha | ha
  · rcases h.source a ha with ⟨i, hi, hmem⟩
    exact ⟨i, Nat.lt_succ_of_lt hi, hmem⟩
  · exact ⟨pages.length, Nat.lt_succ_self _, ((mem_pageRows hlimit (hrows _)).mp ha).1⟩

/-- A key that stays is on the page or below its cursor, if it was not listed before. -/
theorem kept_append_page (hrows : ∀ i, ((tables i).map key).Nodup) (hlimit : 1 ≤ limit)
    (h : Listed key tables pages cursor) {k : κ} (hk : Stays key tables (pages.length + 1) k)
    (hnext : ∀ c ∈ nextKey key (tables pages.length) cursor limit, c ≤ k) :
    ∃ a ∈ (pages ++ [pageRows key (tables pages.length) cursor limit]).flatten, key a = k := by
  rw [List.flatten_append, List.flatten_singleton]
  by_cases hlisted : ∃ c ∈ cursor, c ≤ k
  · rcases h.kept k (fun i hi => hk i (Nat.lt_succ_of_lt hi)) hlisted with ⟨a, ha, hak⟩
    exact ⟨a, List.mem_append_left _ ha, hak⟩
  · rcases hk pages.length (Nat.lt_succ_self _) with ⟨a, ha, hak⟩
    refine ⟨a, List.mem_append_right _ ((mem_pageRows hlimit (hrows _)).mpr ⟨ha, ?_, ?_⟩), hak⟩
    · intro c hc
      rw [hak]
      exact lt_of_not_ge fun hle => hlisted ⟨c, hc, hle⟩
    · rw [hak]
      exact hnext

/-- A walk lists as it should. -/
theorem listed_of_walk (hrows : ∀ i, ((tables i).map key).Nodup) (hlimit : 1 ≤ limit)
    (h : Walk key tables limit pages cursor) : Listed key tables pages cursor := by
  induction h with
  | start =>
      refine ⟨List.Pairwise.nil, fun a ha => absurd ha List.not_mem_nil,
        fun a ha => absurd ha List.not_mem_nil, fun k _ hc => ?_⟩
      rcases hc with ⟨c, hc, -⟩
      exact absurd hc (by simp only [Option.mem_def, reduceCtorEq, not_false_eq_true])
  | @next pages cursor c _ hnext ih =>
      refine ⟨descends_append_page hrows hlimit ih, fun a ha => ⟨c, rfl, ?_⟩,
        source_append_page hrows hlimit ih, fun k hk hc => ?_⟩
      · rcases nextKey_spec hlimit (hrows _) hnext with ⟨-, ⟨x, hx, hxc⟩, habove, -⟩
        rw [List.flatten_append, List.flatten_singleton] at ha
        rcases List.mem_append.mp ha with ha | ha
        · rcases ih.above a ha with ⟨c', hc', hle⟩
          rw [← hxc]
          exact le_of_lt (lt_of_lt_of_le (((mem_pageRows hlimit (hrows _)).mp hx).2.1 c' hc') hle)
        · exact habove a ha
      · rw [List.length_append, List.length_singleton] at hk
        rcases hc with ⟨c', hc', hle⟩
        refine kept_append_page hrows hlimit ih hk fun c'' hc'' => ?_
        rw [hnext, Option.mem_some_iff] at hc''
        rw [← hc'', Option.some.inj hc']
        exact hle

/-- A finished walk lists in order, without ties. -/
theorem Done.sorted (hrows : ∀ i, ((tables i).map key).Nodup) (hlimit : 1 ≤ limit)
    (h : Done key tables limit pages) : Descends key pages.flatten := by
  cases h with
  | last hwalk hnext => exact descends_append_page hrows hlimit (listed_of_walk hrows hlimit hwalk)

theorem Done.source (hrows : ∀ i, ((tables i).map key).Nodup) (hlimit : 1 ≤ limit)
    (h : Done key tables limit pages) :
    ∀ a ∈ pages.flatten, ∃ i < pages.length, a ∈ tables i := by
  cases h with
  | last hwalk hnext => exact source_append_page hrows hlimit (listed_of_walk hrows hlimit hwalk)

/-- A finished walk has every key that stays. -/
theorem Done.kept (hrows : ∀ i, ((tables i).map key).Nodup) (hlimit : 1 ≤ limit)
    (h : Done key tables limit pages) {k : κ} (hk : Stays key tables pages.length k) :
    ∃ a ∈ pages.flatten, key a = k := by
  cases h with
  | last hwalk hnext =>
      rw [List.length_append, List.length_singleton] at hk
      refine kept_append_page hrows hlimit (listed_of_walk hrows hlimit hwalk) hk fun c hc => ?_
      rw [hnext] at hc
      exact absurd hc (by simp only [Option.mem_def, reduceCtorEq, not_false_eq_true])

theorem nodup_of_descends {l : List α} (h : Descends key l) : (l.map key).Nodup :=
  List.pairwise_map.mpr (h.imp fun hab => (ne_of_lt hab).symm)

end Walk

/-! ## One table -/

section Table

variable {pages : List (List α)}

/-- The pages of a walk are not empty, so there are no more of them than rows. -/
theorem length_le_of_walk (hrows : (rows.map key).Nodup) (hlimit : 1 ≤ limit)
    (h : Walk key (fun _ => rows) limit pages cursor) : pages.length ≤ pages.flatten.length := by
  induction h with
  | start => exact Nat.le_refl 0
  | @next pages cursor c hwalk hnext ih =>
      rcases nextKey_spec hlimit hrows hnext with ⟨-, ⟨x, hx, -⟩, -, -⟩
      have hpos := List.length_pos_of_mem hx
      rw [List.flatten_append, List.flatten_singleton, List.length_append, List.length_append,
        List.length_singleton]
      omega

theorem length_flatten_le (hrows : (rows.map key).Nodup) (hlimit : 1 ≤ limit)
    (h : Walk key (fun _ => rows) limit pages cursor) : pages.flatten.length ≤ rows.length := by
  have hlisted := listed_of_walk (fun _ => hrows) hlimit h
  have hnodup : pages.flatten.Nodup := List.Nodup.of_map key (nodup_of_descends hlisted.sorted)
  refine (List.subperm_of_subset hnodup fun a ha => ?_).length_le
  rcases hlisted.source a ha with ⟨i, -, hmem⟩
  exact hmem

/-- A walk over one table ends. -/
theorem exists_done (hrows : (rows.map key).Nodup) (hlimit : 1 ≤ limit) :
    ∃ pages, Done key (fun _ => rows) limit pages := by
  have hfuel : ∀ (n : Nat) (pages : List (List α)) (cursor : Option κ),
      Walk key (fun _ => rows) limit pages cursor → rows.length + 1 ≤ pages.length + n →
      ∃ pages, Done key (fun _ => rows) limit pages := by
    intro n
    induction n with
    | zero =>
        intro pages cursor hwalk hle
        have hpages := length_le_of_walk hrows hlimit hwalk
        have hflatten := length_flatten_le hrows hlimit hwalk
        omega
    | succ n ih =>
        intro pages cursor hwalk hle
        cases hnext : nextKey key rows cursor limit with
        | none => exact ⟨_, .last hwalk hnext⟩
        | some c =>
            refine ih _ _ (.next hwalk hnext) ?_
            rw [List.length_append, List.length_singleton]
            omega
  exact hfuel (rows.length + 1) [] none .start (Nat.le_add_left _ _)

/-- A finished walk over one table lists it. -/
theorem flatten_of_done (hrows : (rows.map key).Nodup) (hlimit : 1 ≤ limit)
    (h : Done key (fun _ => rows) limit pages) : pages.flatten = descending key rows := by
  have hsorted := h.sorted (fun _ => hrows) hlimit
  have hsorted' := descends_descending hrows
  have hmem : ∀ a, a ∈ pages.flatten ↔ a ∈ descending key rows := by
    intro a
    rw [mem_descending]
    constructor
    · intro ha
      rcases h.source (fun _ => hrows) hlimit a ha with ⟨i, -, hmem⟩
      exact hmem
    · intro ha
      rcases h.kept (fun _ => hrows) hlimit (k := key a) (fun _ _ => ⟨a, ha, rfl⟩) with
        ⟨b, hb, hkey⟩
      rcases h.source (fun _ => hrows) hlimit b hb with ⟨i, -, hbmem⟩
      rwa [List.inj_on_of_nodup_map hrows hbmem ha hkey] at hb
  have hperm : pages.flatten.Perm (descending key rows) :=
    (List.perm_ext_iff_of_nodup (List.Nodup.of_map key (nodup_of_descends hsorted))
      (List.Nodup.of_map key (nodup_of_descends hsorted'))).mpr hmem
  exact hperm.eq_of_pairwise (fun a b _ _ hab hba => absurd hab (lt_asymm hba)) hsorted hsorted'

end Table

end Keyset
