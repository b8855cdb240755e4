import JenticOne.State.Runs

/-!
# The Expiry Index Stays Exact and Small

No item is in the heaps of a scope twice. With every entry indexed, that makes
exactly one item of each scope current for an entry: two current items of one
key agree in sequence and deadline, so they are the same item.

The heaps hold superseded items too, and how many is what the compaction is for.
A compaction starts when `index` outgrows twice the entries, moves all of it to
`draining`, and then every write takes 64 items off `draining` for the one it
adds. `Tight` is the account of that: the items of `index`, the current items
still in `draining` and the writes the drain still takes are bounded together.
A write of a drain adds an item to the first and takes one from the last, and
moving a current item moves it from the second to the first.

## Main definitions

* `currentItems`: The current items of a list.
* `Tight`: A usage without duplicates and without too many items.
* `Exact`: A backend that satisfies the invariant and whose usages are tight.

## Theorems

* `tight_indexItem`: Indexing an item, with its compaction.
* `exact_liveEntry`, `exact_store`, `exact_tokenBucket`: What calls are made of.
* `run_rule`: What these keep is kept by every call.
* `exact_of_reachable`: Every state of a run.
-/

namespace JenticOne

namespace State

/-- The items of a list that are current. -/
def currentItems (kv : Dict String Entry) (l : List Item) : List Item :=
  l.filter (Backend.isCurrent kv)

/-- How many writes it takes to drain so many items. -/
def drainWrites (n : Nat) : Nat := (n + (compactionStep - 1)) / compactionStep

/-- No item is twice in the heaps of a usage, and where the usage may count up
    to `most` entries the heaps are short: `index` with the current items that
    `draining` will still give it, one item for each write that takes, and
    `draining` itself. -/
structure Tight (most : Int) (kv : Dict String Entry) (u : Usage) : Prop where
  nodup : (u.index ++ u.draining).Nodup
  room : ((u.index.length + (currentItems kv u.draining).length +
    drainWrites u.draining.length : Nat) : Int) ≤ 2 * most + indexSlack
  drained : (u.draining.length : Int) ≤ 2 * most + indexSlack + 1

theorem isCurrent_iff {kv : Dict String Entry} {i : Item} :
    Backend.isCurrent kv i = true ↔ ∃ e, kv.get? i.key = some e ∧ e.seq = i.seq := by
  unfold Backend.isCurrent
  rw [Option.any_eq_true]
  exact exists_congr fun e => and_congr_right fun _ => decide_eq_true_iff

/-! ## Usages -/

section Usages

variable {most : Int} {kv kv' : Dict String Entry} {u u' : Usage}

theorem tight_new (hmost : 0 ≤ most) : Tight most kv Usage.new := by
  refine ⟨List.nodup_nil, ?_, ?_⟩
  · change ((0 : Nat) : Int) ≤ 2 * most + (64 : Nat)
    omega
  · change ((0 : Nat) : Int) ≤ 2 * most + (64 : Nat) + 1
    omega

theorem drainWrites_le {m n : Nat} (h : m ≤ n) : drainWrites m ≤ drainWrites n := by
  unfold drainWrites compactionStep
  omega

/-- A usage with fewer items, fewer of them current, is no less tight. -/
theorem tight_of_subperm (h : Tight most kv u) (hindex : u'.index.Subperm u.index)
    (hdraining : u'.draining.Subperm u.draining)
    (hcur : ∀ i ∈ u.draining, Backend.isCurrent kv' i = true → Backend.isCurrent kv i = true) :
    Tight most kv' u' := by
  have hlen := hindex.length_le
  have hlen' := hdraining.length_le
  have hcurrent : (currentItems kv' u'.draining).length ≤ (currentItems kv u.draining).length := by
    have hsub : (currentItems kv' u'.draining).length ≤ (currentItems kv' u.draining).length :=
      (hdraining.filter _).length_le
    have himp : (currentItems kv' u.draining).length ≤ (currentItems kv u.draining).length := by
      unfold currentItems
      rw [← List.countP_eq_length_filter, ← List.countP_eq_length_filter]
      exact List.countP_mono_left hcur
    omega
  have hwrites := drainWrites_le hlen'
  refine ⟨?_, ?_, ?_⟩
  · rcases hindex.append hdraining with ⟨l, hperm, hsub⟩
    exact hperm.nodup_iff.mp (h.nodup.sublist hsub)
  · have hroom := h.room
    omega
  · have hdrained := h.drained
    omega

/-- What a compaction step does to the account: items that stay are moved, and
    `draining` gets shorter. -/
theorem compactStep_account (kv : Dict String Entry) (n : Nat) (u : Usage)
    (hnodup : (u.index ++ u.draining).Nodup) :
    ((Backend.compactStep kv n u).index ++ (Backend.compactStep kv n u).draining).Nodup ∧
      (Backend.compactStep kv n u).index.length +
          (currentItems kv (Backend.compactStep kv n u).draining).length =
        u.index.length + (currentItems kv u.draining).length ∧
      (Backend.compactStep kv n u).draining.length = u.draining.length - n := by
  induction n generalizing u with
  | zero => exact ⟨hnodup, rfl, rfl⟩
  | succ n ih =>
      unfold Backend.compactStep
      split
      · rename_i hlast
        rw [List.getLast?_eq_none_iff] at hlast
        refine ⟨hnodup, rfl, ?_⟩
        rw [hlast, List.length_nil, Nat.zero_sub]
      · rename_i item hlast
        have hsplit : u.draining = u.draining.dropLast ++ [item] := by
          rw [List.dropLast_append_getLast? item hlast]
        have hlen : u.draining.length = u.draining.dropLast.length + 1 := by
          conv_lhs => rw [hsplit]
          rw [List.length_append, List.length_singleton]
        have hmoved : (u.index ++ u.draining).Perm (item :: u.index ++ u.draining.dropLast) := by
          conv_lhs => rw [hsplit]
          rw [← List.append_assoc]
          exact List.perm_append_singleton item _
        -- The item comes off the end, and goes to `index` if it is current.
        by_cases hcur : Backend.isCurrent kv item = true
        · rw [if_pos hcur]
          have hpush := BinaryHeap.perm_heappush u.index item
          rcases ih { u with draining := u.draining.dropLast,
                             index := BinaryHeap.heappush u.index item }
            ((hpush.append_right _).nodup_iff.mpr (hmoved.nodup_iff.mp hnodup)) with
            ⟨hnodup', hsum, hshort⟩
          refine ⟨hnodup', hsum.trans ?_, hshort.trans (by dsimp only; omega)⟩
          dsimp only
          unfold currentItems
          conv_rhs => rw [hsplit]
          rw [hpush.length_eq, List.filter_append, List.filter_cons_of_pos hcur,
            List.filter_nil, List.length_append, List.length_singleton, List.length_cons]
          omega
        · rw [if_neg hcur]
          rcases ih { u with draining := u.draining.dropLast, index := u.index }
            (List.Nodup.of_cons (hmoved.nodup_iff.mp hnodup)) with ⟨hnodup', hsum, hshort⟩
          refine ⟨hnodup', hsum.trans ?_, hshort.trans (by dsimp only; omega)⟩
          dsimp only
          unfold currentItems
          conv_rhs => rw [hsplit]
          rw [List.filter_append, List.filter_cons_of_neg hcur, List.filter_nil, List.append_nil]

/-- Indexing an item that is not in the heaps, where the current items of
    `index` are no more than the entries counted. -/
theorem tight_indexItem {item : Item} (h : Tight most kv u)
    (hfresh : item ∉ u.index ++ u.draining) (hentries : u.entries ≤ most)
    (hcurrent : ((currentItems kv (u.push item).index).length : Int) ≤ u.entries) :
    Tight most kv (Backend.indexItem kv u item) := by
  have hpush := BinaryHeap.perm_heappush u.index item
  have hlen : (u.push item).index.length = u.index.length + 1 := hpush.length_eq
  have hnodup : ((u.push item).index ++ u.draining).Nodup :=
    (hpush.append_right _).nodup_iff.mpr (List.nodup_cons.mpr ⟨hfresh, h.nodup⟩)
  have hroom := h.room
  have hdrained := h.drained
  unfold indexSlack at hroom hdrained
  unfold Backend.indexItem
  dsimp only
  split
  · -- A drain goes on: one item more, one write of the drain less.
    rename_i hne
    have hpos : 1 ≤ u.draining.length := List.length_pos_iff.mpr hne
    rcases compactStep_account kv compactionStep (u.push item) hnodup with ⟨hnodup', hsum, hshort⟩
    refine ⟨hnodup', ?_, ?_⟩
    · have hdraining : (u.push item).draining.length = u.draining.length := rfl
      have hsame : (currentItems kv (u.push item).draining).length =
        (currentItems kv u.draining).length := rfl
      change ((_ : Nat) : Int) ≤ 2 * most + (64 : Nat)
      unfold Usage.push at *
      unfold drainWrites compactionStep at *
      dsimp only at *
      omega
    · change ((_ : Nat) : Int) ≤ 2 * most + (64 : Nat) + 1
      unfold Usage.push at *
      dsimp only at *
      omega
  · rename_i hempty
    rw [not_not] at hempty
    rw [hempty, List.append_nil] at hnodup
    have hindex : (u.index.length : Int) ≤ 2 * most + 64 := by
      rw [hempty] at hroom
      omega
    split
    · -- A drain starts: all of `index` is to be drained.
      rename_i hlong
      rcases compactStep_account kv compactionStep
        { u.push item with draining := (u.push item).index, index := [] } hnodup with
        ⟨hnodup', hsum, hshort⟩
      dsimp only at hsum hshort
      refine ⟨hnodup', ?_, ?_⟩
      · change ((_ : Nat) : Int) ≤ 2 * most + (64 : Nat)
        unfold Usage.push at *
        unfold drainWrites compactionStep at *
        dsimp only at *
        rw [List.length_nil] at hsum
        omega
      · change ((_ : Nat) : Int) ≤ 2 * most + (64 : Nat) + 1
        unfold Usage.push at *
        unfold compactionStep at *
        dsimp only at *
        omega
    · rename_i hshort
      have hlong : ((u.push item).index.length : Int) ≤ 2 * u.entries + 64 := not_lt.mp hshort
      refine ⟨?_, ?_, ?_⟩
      · change ((u.push item).index ++ u.draining).Nodup
        rw [hempty, List.append_nil]
        exact hnodup
      · change (((u.push item).index.length + (currentItems kv u.draining).length +
          drainWrites u.draining.length : Nat) : Int) ≤ 2 * most + (64 : Nat)
        rw [hempty]
        change (((u.push item).index.length + 0 + 0 : Nat) : Int) ≤ 2 * most + (64 : Nat)
        omega
      · exact h.drained

/-- Items that are current are as many as entries: they have different keys. -/
theorem length_currentItems_le {cfg : MemoryConfig} {sc : Scope} {l : List Item}
    (hnodup : l.Nodup) (hscope : ∀ i ∈ l, sc ∈ scopesOf cfg i.key)
    (hdeadline : ∀ i ∈ l, ∀ e, kv.get? i.key = some e → e.seq = i.seq →
      e.expiresAt = i.expiresAt) :
    (currentItems kv l).length ≤ kv.sumBy (countIn cfg sc) := by
  have hkeys : ((currentItems kv l).map Item.key).Nodup := by
    refine List.Nodup.map_on (fun i hi j hj hkey => ?_) (hnodup.filter _)
    unfold currentItems at hi hj
    rw [List.mem_filter, isCurrent_iff] at hi hj
    rcases hi with ⟨hil, e, he, hseq⟩
    rcases hj with ⟨hjl, e', he', hseq'⟩
    rw [← hkey, he, Option.some.injEq] at he'
    rw [← he'] at hseq'
    have hd := hdeadline i hil e he hseq
    have hd' := hdeadline j hjl e (by rw [← hkey]; exact he) hseq'
    cases i
    cases j
    dsimp only at *
    rw [← hd, ← hd', ← hseq, ← hseq', hkey]
  rw [← List.length_map Item.key]
  refine Dict.length_le_sumBy hkeys (fun k hk => ?_)
  rcases List.mem_map.mp hk with ⟨i, hi, rfl⟩
  unfold currentItems at hi
  rw [List.mem_filter, isCurrent_iff] at hi
  rcases hi with ⟨hil, e, he, _⟩
  refine ⟨e, he, ?_⟩
  unfold countIn
  rw [if_pos (hscope i hil)]

end Usages

/-! ## Backends -/

/-- Every usage is tight for the entries its scope may hold. -/
def AllTight (cfg : MemoryConfig) (b : Backend) : Prop :=
  ∀ sc u, b.usage.get? sc = some u → Tight (limits cfg sc).1 b.kv u

section Backends

variable {cfg : MemoryConfig} {b : Backend}

theorem allTight_congr {b' : Backend} (h : AllTight cfg b) (hkv : b'.kv = b.kv)
    (husage : b'.usage = b.usage) : AllTight cfg b' := by
  unfold AllTight
  rw [hkv, husage]
  exact h

theorem allTight_delete (h : AllTight cfg b) (key : String) :
    AllTight cfg (b.delete cfg key) := by
  cases hget : b.kv.get? key with
  | none =>
      unfold Backend.delete
      rw [hget]
      exact h
  | some e =>
      have hcur : ∀ i, Backend.isCurrent (b.delete cfg key).kv i = true →
          Backend.isCurrent b.kv i = true := by
        intro i hi
        rw [isCurrent_iff, delete_kv hget] at hi
        rcases hi with ⟨e', he', hseq⟩
        rw [Dict.get?_erase] at he'
        split at he'
        · exact absurd he' (by simp only [reduceCtorEq, not_false_eq_true])
        · exact isCurrent_iff.mpr ⟨e', he', hseq⟩
      intro sc u' hu'
      have hold : ∃ u, b.usage.get? sc = some u ∧ u'.index = u.index ∧ u'.draining = u.draining := by
        rw [get?_delete_usage cfg hget] at hu'
        split at hu'
        · cases hu : b.usage.get? sc with
          | none =>
              rw [hu] at hu'
              exact absurd hu' (by simp only [Backend.release, reduceCtorEq, not_false_eq_true])
          | some u =>
              rw [hu] at hu'
              rcases release_some e.size sc u with hrel | ⟨hrel, _⟩
              · rw [hrel, Option.some.injEq] at hu'
                exact ⟨u, rfl, by rw [← hu']; rfl, by rw [← hu']; rfl⟩
              · rw [hrel] at hu'
                exact absurd hu' (by simp only [reduceCtorEq, not_false_eq_true])
        · exact ⟨u', hu', rfl, rfl⟩
      rcases hold with ⟨u, hu, hindex, hdraining⟩
      refine tight_of_subperm (h sc u hu) ?_ ?_ (fun i _ hi => hcur i hi)
      · rw [hindex]
      · rw [hdraining]

theorem allTight_setHeap {sc : Scope} {u : Usage} {side : Backend.Side} {item : Item}
    {rest : List Item} (h : AllTight cfg b) (hu : b.usage.get? sc = some u)
    (hpop : BinaryHeap.heappop (side.heap u) = some (item, rest)) :
    AllTight cfg (b.setHeap sc side rest) := by
  have hsub : rest.Subperm (side.heap u) :=
    (List.sublist_cons_self item rest).subperm.trans
      (BinaryHeap.perm_heappop hpop).2.symm.subperm
  intro sc' v hv
  rw [get?_setHeap hu] at hv
  by_cases hsc : sc' = sc
  · rw [if_pos hsc, Option.some.injEq] at hv
    rw [← hv, hsc]
    cases side with
    | index => exact tight_of_subperm (h sc u hu) hsub (List.Subperm.refl _) (fun _ _ hi => hi)
    | draining => exact tight_of_subperm (h sc u hu) (List.Subperm.refl _) hsub (fun _ _ hi => hi)
  · rw [if_neg hsc] at hv
    exact h sc' v hv

theorem allTight_insertEntry {key : String} {value : Bytes} {expiresAt : ℚ} {size : Nat}
    (inv : Inv cfg noKey b) (h : AllTight cfg b) (hfree : b.kv.get? key = none)
    (hroom : ∀ sc ∈ scopesOf cfg key, b.entriesOf sc + 1 ≤ (limits cfg sc).1) :
    AllTight cfg (b.insertEntry cfg key value expiresAt size) := by
  have hkv : (b.insertEntry cfg key value expiresAt size).kv =
      b.kv.set key (newEntry b value expiresAt size) := rfl
  -- Items of before keep their standing, or lose it.
  have hcur : ∀ i : Item, i.seq ≤ b.seq →
      Backend.isCurrent (b.kv.set key (newEntry b value expiresAt size)) i = true →
      Backend.isCurrent b.kv i = true := by
    intro i hseq hi
    rcases isCurrent_iff.mp hi with ⟨e, he, heq⟩
    exact isCurrent_iff.mpr ⟨e, get?_of_get?_set hseq he heq, heq⟩
  intro sc u' hu'
  rw [hkv]
  rw [get?_insertEntry_usage] at hu'
  by_cases hmem : sc ∈ scopesOf cfg key
  · rw [if_pos hmem, Option.some.injEq] at hu'
    rw [← hu']
    have hitems : ∀ i ∈ ((b.usage.get? sc).getD Usage.new).index ++
        ((b.usage.get? sc).getD Usage.new).draining, sc ∈ scopesOf cfg i.key ∧ i.seq ≤ b.seq ∧
        ∀ e, b.kv.get? i.key = some e → e.seq = i.seq → e.expiresAt = i.expiresAt := by
      intro i hi
      cases hu : b.usage.get? sc with
      | none =>
          rw [hu] at hi
          exact absurd hi List.not_mem_nil
      | some u =>
          rw [hu] at hi
          exact inv.items sc u hu i (List.mem_append.mp hi)
    have htight : Tight (limits cfg sc).1 b.kv ((b.usage.get? sc).getD Usage.new) := by
      cases hu : b.usage.get? sc with
      | none => exact tight_new (limits_nonneg cfg sc).1
      | some u => exact h sc u hu
    have hcount : ((b.usage.get? sc).getD Usage.new).entries + 1 =
        (b.kv.set key (newEntry b value expiresAt size)).sumBy (countIn cfg sc) := by
      have hsum := Dict.sumBy_set b.kv (countIn cfg sc) key (newEntry b value expiresAt size)
      rw [Dict.weight_of_get?_eq_none hfree] at hsum
      have hentries := inv.entries sc
      rw [entriesOf_eq] at hentries
      unfold countIn at hsum hentries ⊢
      rw [if_pos hmem] at hsum
      omega
    have hmost := hroom sc hmem
    rw [entriesOf_eq] at hmost
    generalize (b.usage.get? sc).getD Usage.new = u at *
    refine tight_indexItem ?_ ?_ hmost ?_
    · exact tight_of_subperm htight (List.Subperm.refl _) (List.Subperm.refl _)
        (fun i hi => hcur i (hitems i (List.mem_append_right _ hi)).2.1)
    · intro hc
      have hseq := (hitems _ hc).2.1
      dsimp only at hseq
      omega
    · change ((_ : Nat) : Int) ≤ u.entries + 1
      rw [hcount, Int.ofNat_le]
      have hpush := BinaryHeap.perm_heappush u.index ⟨expiresAt, b.seq + 1, key⟩
      refine length_currentItems_le (hpush.nodup_iff.mpr (List.nodup_cons.mpr ⟨fun hc => ?_,
        (List.nodup_append.mp htight.nodup).1⟩)) (fun i hi => ?_) (fun i hi e he heq => ?_)
      · have hseq := (hitems _ (List.mem_append_left _ hc)).2.1
        dsimp only at hseq
        omega
      · rcases List.mem_cons.mp (hpush.mem_iff.mp hi) with rfl | hi
        · exact hmem
        · exact (hitems i (List.mem_append_left _ hi)).1
      · rcases List.mem_cons.mp (hpush.mem_iff.mp hi) with rfl | hi
        · rw [Dict.get?_set, if_pos rfl, Option.some.injEq] at he
          rw [← he]
          rfl
        · rcases hitems i (List.mem_append_left _ hi) with ⟨_, hseq, hdeadline⟩
          exact hdeadline e (get?_of_get?_set hseq he heq) heq
  · rw [if_neg hmem] at hu'
    exact tight_of_subperm (h sc u' hu') (List.Subperm.refl _) (List.Subperm.refl _)
      (fun i hi => hcur i (inv.items sc u' hu' i (Or.inr hi)).2.1)

theorem allTight_updateEntry {key : String} {existing : Entry} {value : Bytes} {size : Nat}
    (h : AllTight cfg b) (hget : b.kv.get? key = some existing) :
    AllTight cfg (b.updateEntry cfg key existing value size) := by
  have hcur : ∀ i, Backend.isCurrent (b.updateEntry cfg key existing value size).kv i = true →
      Backend.isCurrent b.kv i = true := by
    intro i hi
    change Backend.isCurrent (b.kv.set key _) i = true at hi
    rw [isCurrent_iff] at hi ⊢
    rcases hi with ⟨e, he, hseq⟩
    rw [Dict.get?_set] at he
    split at he
    · rename_i hkey
      rw [Option.some.injEq] at he
      rw [← he] at hseq
      exact ⟨existing, by rw [← hkey]; exact hget, hseq⟩
    · exact ⟨e, he, hseq⟩
  intro sc u' hu'
  have hold : ∃ u, b.usage.get? sc = some u ∧ u'.index = u.index ∧ u'.draining = u.draining := by
    rw [get?_updateEntry_usage] at hu'
    split at hu'
    · rw [Option.map_eq_some_iff] at hu'
      rcases hu' with ⟨u, hu, rfl⟩
      exact ⟨u, hu, rfl, rfl⟩
    · exact ⟨u', hu', rfl, rfl⟩
  rcases hold with ⟨u, hu, hindex, hdraining⟩
  refine tight_of_subperm (h sc u hu) ?_ ?_ (fun i _ hi => hcur i hi)
  · rw [hindex]
  · rw [hdraining]

theorem allTight_drainHeap {sc : Scope} {n : Nat} (side : Backend.Side) (now : ℚ)
    (h : AllTight cfg b) (hn : ∀ u, b.usage.get? sc = some u → (side.heap u).length ≤ n) :
    AllTight cfg (Backend.drainHeap cfg sc side now n b).2 :=
  (drainHeap_rule cfg (P := AllTight cfg) (fun _ _ _ _ h hu hpop _ => allTight_setHeap h hu hpop)
    (fun _ _ item _ h hu hpop _ _ => allTight_delete (allTight_setHeap h hu hpop) item.key) h hn).1

theorem allTight_earliestLive (h : AllTight cfg b) (sc : Scope) (now : ℚ) :
    AllTight cfg (b.earliestLive cfg sc now).2 :=
  allTight_drainHeap .draining now
    (allTight_drainHeap .index now h (fun _ hu => heapLength_le hu)) (fun _ hu => heapLength_le hu)

theorem allTight_earliestLiveOf {now : ℚ} {scs : List Scope} (h : AllTight cfg b) :
    AllTight cfg (Backend.earliestLiveOf cfg now scs b).2 := by
  induction scs generalizing b with
  | nil => exact h
  | cons sc rest ih => exact ih (allTight_earliestLive h sc now)

theorem allTight_write {key : String} {value : Bytes} (inv : Inv cfg noKey b)
    (h : AllTight cfg b) (hfits : Fits cfg b key (Backend.entrySize key value)) (expiresAt : ℚ) :
    AllTight cfg (b.write cfg key value expiresAt) := by
  unfold Backend.write
  dsimp only
  split
  · rename_i existing hget
    rcases addedEntries_of_some hget with ⟨hadded, _⟩
    split
    · exact allTight_updateEntry h hget
    · refine allTight_insertEntry (inv_delete inv hget (fun _ hc => hc.elim))
        (allTight_delete h key) ?_ (fun sc hsc => ?_)
      · rw [delete_kv hget, Dict.get?_erase, if_pos rfl]
      · have hroom := (hfits.scopes sc hsc).1
        have hcounters := (counters_delete inv hget hsc).1
        rw [hadded] at hroom
        omega
  · rename_i hget
    rcases addedEntries_of_none hget with ⟨hadded, _⟩
    refine allTight_insertEntry inv h hget (fun sc hsc => ?_)
    have hroom := (hfits.scopes sc hsc).1
    rw [hadded] at hroom
    exact hroom

/-! ## Calls -/

/-- What every state of a run satisfies. -/
structure Exact (cfg : MemoryConfig) (b : Backend) : Prop where
  inv : Inv cfg noKey b
  tight : AllTight cfg b

theorem exact_new (cfg : MemoryConfig) (now : ℚ) : Exact cfg (Backend.new cfg now) :=
  ⟨inv_new cfg now, fun sc u h => absurd h (by
    simp only [Backend.new, Dict.get?_empty, reduceCtorEq, not_false_eq_true])⟩

theorem exact_liveEntry (key : String) (now : ℚ) (h : Exact cfg b) :
    Exact cfg (b.liveEntry cfg key now).2 := by
  unfold Backend.liveEntry
  split
  · exact h
  · rename_i e hget
    split
    · exact ⟨inv_delete h.inv hget (fun _ hc => hc.elim), allTight_delete h.tight key⟩
    · exact h

theorem exact_reclaim (refusal : Refusal) (now : ℚ) (h : Exact cfg b) :
    Exact cfg (b.reclaim cfg refusal now).2 := by
  refine ⟨(reclaims_reclaim h.inv refusal now).inv, ?_⟩
  cases refusal with
  | scope sc => exact allTight_earliestLive h.tight sc now
  | total => exact allTight_earliestLiveOf h.tight

theorem exact_maybeSweep (now : ℚ) (h : Exact cfg b) : Exact cfg (b.maybeSweep cfg now) := by
  unfold Backend.maybeSweep
  split
  · refine ⟨(reclaims_sweep h.inv now).inv, ?_⟩
    have hdrained : AllTight cfg (b.earliestLiveAnywhere cfg now).2 :=
      allTight_earliestLiveOf h.tight
    rcases sweepBuckets_same now (b.earliestLiveAnywhere cfg now).2.bucketIndex.length
      (b.earliestLiveAnywhere cfg now).2 with ⟨hkv, husage, _⟩
    exact allTight_congr hdrained hkv husage
  · exact h

theorem exact_store (key : String) (value : Bytes) (expiresAt now : ℚ) (h : Exact cfg b) :
    Exact cfg (b.store cfg key value expiresAt now).2 := by
  rcases store_rule (exact_maybeSweep now h) (fun _ refusal h' => exact_reclaim refusal now h') key
    value expiresAt with ⟨b₁, h₁, ⟨hok, hfits⟩ | ⟨err, herr⟩⟩
  · rw [hok]
    exact ⟨inv_write h₁.inv hfits expiresAt, allTight_write h₁.inv h₁.tight hfits expiresAt⟩
  · rw [herr]
    exact h₁

theorem exact_tokenBucket (key : String) (rate : ℚ) (burst cost : Int) (now : ℚ)
    (h : Exact cfg b) : Exact cfg (b.tokenBucket cfg key rate burst cost now).2 := by
  have hswept := exact_maybeSweep now h
  unfold Backend.tokenBucket
  dsimp only
  rcases reindexBucket_same (b.maybeSweep cfg now) key _ _ with ⟨hkv, husage, htotal, hseq⟩
  exact ⟨inv_congr hswept.inv hkv husage htotal hseq, allTight_congr hswept.tight hkv husage⟩

end Backends

theorem exact_of_reachable {cfg : MemoryConfig} {w : World} (h : (memory cfg).Reachable w) :
    Exact cfg w.backend :=
  reachable_rule (exact_new cfg) (fun _ key now => exact_liveEntry key now)
    (fun _ key value expiresAt now => exact_store key value expiresAt now)
    (fun _ key rate burst cost now => exact_tokenBucket key rate burst cost now) h

end State

end JenticOne
