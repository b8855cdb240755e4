import JenticOne.State.Accounting

/-!
# Dropping What Has Expired

Every way the backend drops entries in bulk is the loop of `drainHeap` over the
two heaps of some scopes: the reclaim of a refusing scope, the reclaim of every
namespace, and the sweep. `Reclaims` says what such a loop achieves for the keys
it is responsible for: it drops nothing that is live at the time it was given,
and of its keys it leaves nothing that is not.

A loop over one heap ends at an item that is current and live, and the heap
property makes every item behind it live too. The loop over the second heap of
a scope may delete entries that have an item in the first; it never adds an
item, so the first stays as it was left.

## Main definitions

* `Drops`: How a bulk drop changes the store.
* `Drained`: How the loop ends.
* `Reclaims`: A bulk drop that is also complete for its keys.

## Theorems

* `drainHeap_rule`: What a round keeps holds at the end of the loop.
* `drainHeap_spec`: The loop.
* `reclaims_earliestLive`, `reclaims_earliestLiveAnywhere`, `reclaims_sweep`:
  The three bulk drops.
-/

namespace JenticOne

namespace State

/-- Only entries under keys in `may` that have expired by `now` are dropped, and
    no heap gains an item. -/
structure Drops (may : String → Prop) (now : ℚ) (b b' : Backend) : Prop where
  seq : b'.seq = b.seq
  get : ∀ k, b'.kv.get? k = b.kv.get? k ∨
    may k ∧ b'.kv.get? k = none ∧ ∃ e, b.kv.get? k = some e ∧ e.expiresAt ≤ now
  shrinks : ∀ sc u', b'.usage.get? sc = some u' → ∃ u, b.usage.get? sc = some u ∧
    ∀ side : Backend.Side, ∀ i ∈ side.heap u', i ∈ side.heap u

theorem drops_refl (may : String → Prop) (now : ℚ) (b : Backend) : Drops may now b b :=
  ⟨rfl, fun _ => Or.inl rfl, fun _ u hu => ⟨u, hu, fun _ _ => id⟩⟩

theorem drops_trans {may : String → Prop} {now : ℚ} {b b' b'' : Backend} (h : Drops may now b b')
    (h' : Drops may now b' b'') : Drops may now b b'' := by
  refine ⟨h'.seq.trans h.seq, fun k => ?_, fun sc u'' hu'' => ?_⟩
  · rcases h'.get k with hsame' | ⟨hmay, hnone, e, he, hexp⟩
    · rw [hsame']
      exact h.get k
    · rcases h.get k with hsame | ⟨_, hgone, _⟩
      · exact Or.inr ⟨hmay, hnone, e, by rw [← hsame]; exact he, hexp⟩
      · rw [hgone] at he
        exact absurd he (by simp only [reduceCtorEq, not_false_eq_true])
  · rcases h'.shrinks sc u'' hu'' with ⟨u', hu', hsub'⟩
    rcases h.shrinks sc u' hu' with ⟨u, hu, hsub⟩
    exact ⟨u, hu, fun side i hi => hsub side i (hsub' side i hi)⟩

theorem drops_mono {may may' : String → Prop} {now : ℚ} {b b' : Backend}
    (hle : ∀ k, may k → may' k) (h : Drops may now b b') : Drops may' now b b' :=
  ⟨h.seq, fun k => (h.get k).imp_right (fun hd => ⟨hle k hd.1, hd.2⟩), h.shrinks⟩

/-- Whether a key counts against a scope. -/
def inScope (cfg : MemoryConfig) (sc : Scope) (key : String) : Prop := sc ∈ scopesOf cfg key

theorem drops_setHeap {may : String → Prop} {now : ℚ} {b : Backend} {sc : Scope} {u : Usage}
    {side : Backend.Side} {item : Item} {rest : List Item} (hu : b.usage.get? sc = some u)
    (hpop : BinaryHeap.heappop (side.heap u) = some (item, rest)) :
    Drops may now b (b.setHeap sc side rest) := by
  refine ⟨rfl, fun _ => Or.inl rfl, fun sc' v hv => ?_⟩
  rw [get?_setHeap hu] at hv
  by_cases h : sc' = sc
  · rw [if_pos h, Option.some.injEq] at hv
    refine ⟨u, by rw [h]; exact hu, fun side' i hi => ?_⟩
    have hsub : ∀ j ∈ rest, j ∈ side.heap u := fun j hj =>
      (BinaryHeap.perm_heappop hpop).2.mem_iff.mpr (List.mem_cons_of_mem _ hj)
    rw [← hv] at hi
    cases side <;> cases side' <;> first | exact hsub i hi | exact hi
  · rw [if_neg h] at hv
    exact ⟨v, hv, fun _ _ => id⟩

theorem drops_delete {cfg : MemoryConfig} {may : String → Prop} {now : ℚ} {b : Backend}
    {key : String} {e : Entry} (h : b.kv.get? key = some e) (hmay : may key)
    (hexp : e.expiresAt ≤ now) : Drops may now b (b.delete cfg key) := by
  refine ⟨delete_seq cfg b key, fun k => ?_, fun sc u' hu' => ?_⟩
  · rw [delete_kv h, Dict.get?_erase]
    by_cases hk : key = k
    · rw [if_pos hk, ← hk]
      exact Or.inr ⟨hmay, rfl, e, h, hexp⟩
    · rw [if_neg hk]
      exact Or.inl rfl
  · rw [get?_delete_usage cfg h] at hu'
    split at hu'
    · cases hu : b.usage.get? sc with
      | none =>
          rw [hu] at hu'
          exact absurd hu' (by simp only [Backend.release, reduceCtorEq, not_false_eq_true])
      | some u =>
          rw [hu] at hu'
          rcases release_some e.size sc u with hrel | ⟨hrel, _⟩
          · rw [hrel, Option.some.injEq] at hu'
            refine ⟨u, rfl, fun side i hi => ?_⟩
            rw [← hu'] at hi
            cases side <;> exact hi
          · rw [hrel] at hu'
            exact absurd hu' (by simp only [reduceCtorEq, not_false_eq_true])
    · exact ⟨u', hu', fun _ _ => id⟩

/-! ## The loop -/

/-- A current item names its entry, and tells its deadline. -/
theorem entry_of_current {cfg : MemoryConfig} {exempt : String → Prop} {b : Backend} {sc : Scope}
    {u : Usage} {item : Item} (inv : Inv cfg exempt b) (hu : b.usage.get? sc = some u)
    (hheld : u.holds item) (hcur : Backend.isCurrent b.kv item = true) :
    inScope cfg sc item.key ∧
      ∃ e, b.kv.get? item.key = some e ∧ e.expiresAt = item.expiresAt := by
  rcases inv.items sc u hu item hheld with ⟨hsc, _, hdeadline⟩
  unfold Backend.isCurrent at hcur
  rcases (Option.any_eq_true _ _).mp hcur with ⟨e, he, hseq⟩
  exact ⟨hsc, e, he, hdeadline e he (of_decide_eq_true hseq)⟩

theorem holds_of_mem {u : Usage} {side : Backend.Side} {i : Item} (h : i ∈ side.heap u) :
    u.holds i := by
  cases side with
  | index => exact Or.inl h
  | draining => exact Or.inr h

theorem isHeap_side {u : Usage} (h : BinaryHeap.IsHeap u.index ∧ BinaryHeap.IsHeap u.draining)
    (side : Backend.Side) : BinaryHeap.IsHeap (side.heap u) := by
  cases side with
  | index => exact h.1
  | draining => exact h.2

/-- Every item of one heap of a scope is past `now`. -/
def Settled (now : ℚ) (sc : Scope) (side : Backend.Side) (b : Backend) : Prop :=
  ∀ u, b.usage.get? sc = some u → ∀ i ∈ side.heap u, now < i.expiresAt

theorem settled_drops {may : String → Prop} {now : ℚ} {sc : Scope} {side : Backend.Side}
    {b b' : Backend} (h : Drops may now b b') (hs : Settled now sc side b) :
    Settled now sc side b' := by
  intro u' hu' i hi
  rcases h.shrinks sc u' hu' with ⟨u, hu, hsub⟩
  exact hs u hu i (hsub side i hi)

/-- How the loop over one heap of a scope ends: the heap is empty, or it starts
    with a current item that has not expired, whose deadline is the result. -/
def Drained (sc : Scope) (side : Backend.Side) (now : ℚ) (r : Option ℚ × Backend) : Prop :=
  (r.1 = none ∧ ∀ u, r.2.usage.get? sc = some u → side.heap u = []) ∨
    ∃ u item rest, r.2.usage.get? sc = some u ∧
      BinaryHeap.heappop (side.heap u) = some (item, rest) ∧
      Backend.isCurrent r.2.kv item = true ∧ now < item.expiresAt ∧ r.1 = some item.expiresAt

/-- A round of the loop leaves one heap of its scope an item shorter. -/
theorem length_pop (cfg : MemoryConfig) {sc : Scope} {side : Backend.Side} {n : Nat} {b : Backend}
    {u : Usage} {item : Item} {rest : List Item} (hu : b.usage.get? sc = some u)
    (hpop : BinaryHeap.heappop (side.heap u) = some (item, rest))
    (hn : (side.heap u).length ≤ n + 1) (key : String) :
    (∀ v, (b.setHeap sc side rest).usage.get? sc = some v → (side.heap v).length ≤ n) ∧
      ∀ v, ((b.setHeap sc side rest).delete cfg key).usage.get? sc = some v →
        (side.heap v).length ≤ n := by
  have hlen : rest.length ≤ n := by
    have hl := (BinaryHeap.perm_heappop hpop).2.length_eq
    rw [List.length_cons] at hl
    omega
  have hset : (b.setHeap sc side rest).usage.get? sc = some (side.replace u rest) := by
    rw [get?_setHeap hu, if_pos rfl]
  have hshort : ∀ v, (b.setHeap sc side rest).usage.get? sc = some v →
      (side.heap v).length ≤ n := by
    intro v hv
    rw [hset, Option.some.injEq] at hv
    rw [← hv]
    cases side <;> exact hlen
  refine ⟨hshort, fun v hv => ?_⟩
  cases hget : (b.setHeap sc side rest).kv.get? key with
  | none =>
      unfold Backend.delete at hv
      rw [hget] at hv
      exact hshort v hv
  | some e =>
      rw [get?_delete_usage cfg hget] at hv
      split at hv
      · rw [hset] at hv
        rcases release_some e.size sc (side.replace u rest) with hrel | ⟨hrel, _⟩
        · rw [hrel, Option.some.injEq] at hv
          rw [← hv]
          cases side <;> exact hlen
        · rw [hrel] at hv
          exact absurd hv (by simp only [reduceCtorEq, not_false_eq_true])
      · exact hshort v hv

/-- The rule of the loop over one heap: what popping a superseded item keeps,
    and popping and deleting an expired one, holds at its end. -/
theorem drainHeap_rule (cfg : MemoryConfig) {sc : Scope} {side : Backend.Side} {now : ℚ}
    {P : Backend → Prop}
    (hstale : ∀ b u item rest, P b → b.usage.get? sc = some u →
      BinaryHeap.heappop (side.heap u) = some (item, rest) →
      Backend.isCurrent b.kv item = false → P (b.setHeap sc side rest))
    (hexpired : ∀ b u item rest, P b → b.usage.get? sc = some u →
      BinaryHeap.heappop (side.heap u) = some (item, rest) →
      Backend.isCurrent b.kv item = true → item.expiresAt ≤ now →
      P ((b.setHeap sc side rest).delete cfg item.key))
    {n : Nat} {b : Backend} (h : P b)
    (hn : ∀ u, b.usage.get? sc = some u → (side.heap u).length ≤ n) :
    P (Backend.drainHeap cfg sc side now n b).2 ∧
      Drained sc side now (Backend.drainHeap cfg sc side now n b) := by
  induction n generalizing b with
  | zero =>
      refine ⟨h, Or.inl ⟨rfl, fun u hu => ?_⟩⟩
      exact List.eq_nil_of_length_eq_zero (Nat.le_zero.mp (hn u hu))
  | succ n ih =>
      unfold Backend.drainHeap
      split
      · rename_i hnone
        refine ⟨h, Or.inl ⟨rfl, fun u hu => ?_⟩⟩
        rw [hu, Option.bind_some] at hnone
        by_contra hne
        rcases BinaryHeap.heappop_isSome hne with ⟨a, rest, hpop⟩
        rw [hpop] at hnone
        exact absurd hnone (by simp only [reduceCtorEq, not_false_eq_true])
      · rename_i item rest hbind
        rw [Option.bind_eq_some_iff] at hbind
        rcases hbind with ⟨u, hu, hpop⟩
        have hshort := length_pop cfg hu hpop (hn u hu) item.key
        split
        · rename_i hcurrent
          exact ih (hstale b u item rest h hu hpop hcurrent) hshort.1
        · rename_i hcurrent
          rw [Bool.not_eq_false] at hcurrent
          split
          · rename_i hdead
            exact ih (hexpired b u item rest h hu hpop hcurrent hdead) hshort.2
          · rename_i hlive
            exact ⟨h, Or.inr ⟨u, item, rest, hu, hpop, hcurrent, not_le.mp hlive, rfl⟩⟩

/-- The head of a heap the loop stopped at is its least item. -/
theorem settled_of_drained {cfg : MemoryConfig} {exempt : String → Prop} {sc : Scope}
    {side : Backend.Side} {now : ℚ} {r : Option ℚ × Backend} (inv : Inv cfg exempt r.2)
    (h : Drained sc side now r) : Settled now sc side r.2 := by
  intro u hu i hi
  rcases h with ⟨_, hempty⟩ | ⟨v, item, rest, hv, hpop, _, hlive, _⟩
  · rw [hempty u hu] at hi
    exact absurd hi List.not_mem_nil
  · rw [hu, Option.some.injEq] at hv
    rw [← hv] at hpop
    have hleast := BinaryHeap.head_le (isHeap_side (inv.heaps sc u hu) side)
      (BinaryHeap.perm_heappop hpop).1 i hi
    exact lt_of_lt_of_le hlive (Item.expiresAt_le hleast)

theorem drainHeap_spec {cfg : MemoryConfig} {sc : Scope} {n : Nat} {b : Backend}
    (side : Backend.Side) (now : ℚ) (inv : Inv cfg noKey b)
    (hn : ∀ u, b.usage.get? sc = some u → (side.heap u).length ≤ n) :
    Inv cfg noKey (Backend.drainHeap cfg sc side now n b).2 ∧
      Drops (inScope cfg sc) now b (Backend.drainHeap cfg sc side now n b).2 ∧
      Drained sc side now (Backend.drainHeap cfg sc side now n b) := by
  suffices hrule : (Inv cfg noKey (Backend.drainHeap cfg sc side now n b).2 ∧
      Drops (inScope cfg sc) now b (Backend.drainHeap cfg sc side now n b).2) ∧
      Drained sc side now (Backend.drainHeap cfg sc side now n b) from
    ⟨hrule.1.1, hrule.1.2, hrule.2⟩
  refine drainHeap_rule cfg (P := fun b' => Inv cfg noKey b' ∧ Drops (inScope cfg sc) now b b')
    (fun b₁ u item rest h hu hpop hstale => ?_) (fun b₁ u item rest h hu hpop hcur hdead => ?_)
    ⟨inv, drops_refl _ _ _⟩ hn
  · exact ⟨inv_setHeap h.1 hu hpop (fun _ => id)
      (fun hc => absurd (hc.symm.trans hstale) (by decide)), drops_trans h.2 (drops_setHeap hu hpop)⟩
  · -- Between the pop and the deletion the item's key alone may lack an item.
    have hmem : item ∈ side.heap u :=
      (BinaryHeap.perm_heappop hpop).2.mem_iff.mpr List.mem_cons_self
    rcases entry_of_current h.1 hu (holds_of_mem hmem) hcur with ⟨hsc, e, he, hdeadline⟩
    have hpending : Inv cfg (fun k => k = item.key) (b₁.setHeap sc side rest) :=
      inv_setHeap h.1 hu hpop (fun _ hc => hc.elim) (fun _ => rfl)
    have hget : (b₁.setHeap sc side rest).kv.get? item.key = some e := he
    have hdeleted : Drops (inScope cfg sc) now (b₁.setHeap sc side rest)
        ((b₁.setHeap sc side rest).delete cfg item.key) :=
      drops_delete hget hsc (by rw [hdeadline]; exact hdead)
    exact ⟨inv_delete hpending hget (fun _ => id),
      drops_trans h.2 (drops_trans (drops_setHeap hu hpop) hdeleted)⟩

/-! ## Bulk drops -/

/-- A bulk drop keeps the invariant, drops only what has expired, and leaves
    nothing expired under the keys it is for. -/
structure Reclaims (cfg : MemoryConfig) (may : String → Prop) (now : ℚ) (b b' : Backend) :
    Prop where
  inv : Inv cfg noKey b'
  drops : Drops may now b b'
  purged : ∀ k e, b'.kv.get? k = some e → may k → now < e.expiresAt

theorem purged_drops {may may' : String → Prop} {now : ℚ} {b b' : Backend}
    (h : Drops may' now b b') (hp : ∀ k e, b.kv.get? k = some e → may k → now < e.expiresAt) :
    ∀ k e, b'.kv.get? k = some e → may k → now < e.expiresAt := by
  intro k e he hmay
  rcases h.get k with hsame | ⟨_, hnone, _⟩
  · rw [hsame] at he
    exact hp k e he hmay
  · rw [hnone] at he
    exact absurd he (by simp only [reduceCtorEq, not_false_eq_true])

theorem heapLength_le {b : Backend} {sc : Scope} {side : Backend.Side} {u : Usage}
    (hu : b.usage.get? sc = some u) : (side.heap u).length ≤ b.heapLength sc side := by
  unfold Backend.heapLength
  rw [hu, Option.map_some, Option.getD_some]

theorem reclaims_earliestLive {cfg : MemoryConfig} {b : Backend} (inv : Inv cfg noKey b)
    (sc : Scope) (now : ℚ) : Reclaims cfg (inScope cfg sc) now b (b.earliestLive cfg sc now).2 := by
  unfold Backend.earliestLive
  dsimp only
  rcases drainHeap_spec .index now inv (fun _ hu => heapLength_le hu) with
    ⟨inv₁, hdrops₁, hend₁⟩
  have hsettled₁ := settled_of_drained inv₁ hend₁
  clear hend₁
  generalize (Backend.drainHeap cfg sc .index now (b.heapLength sc .index) b).2 = b₁ at *
  rcases drainHeap_spec .draining now inv₁ (fun _ hu => heapLength_le hu) with
    ⟨inv₂, hdrops₂, hend₂⟩
  have hsettled₂ := settled_of_drained inv₂ hend₂
  clear hend₂
  generalize (Backend.drainHeap cfg sc .draining now (b₁.heapLength sc .draining) b₁).2 = b₂ at *
  refine ⟨inv₂, drops_trans hdrops₁ hdrops₂, fun k e he hsc => ?_⟩
  rcases inv₂.indexed k e he sc hsc with ⟨u, hu, hor⟩
  rcases hor.resolve_left id with hi | hi
  · exact settled_drops hdrops₂ hsettled₁ u hu _ hi
  · exact hsettled₂ u hu _ hi

theorem reclaims_earliestLiveOf {cfg : MemoryConfig} {now : ℚ} {scs : List Scope} {b : Backend}
    (inv : Inv cfg noKey b) :
    Reclaims cfg (fun k => ∃ sc ∈ scs, inScope cfg sc k) now b
      (Backend.earliestLiveOf cfg now scs b).2 := by
  induction scs generalizing b with
  | nil => exact ⟨inv, drops_refl _ _ _, fun _ _ _ ⟨_, hmem, _⟩ => absurd hmem List.not_mem_nil⟩
  | cons sc rest ih =>
      unfold Backend.earliestLiveOf
      dsimp only
      have hfirst := reclaims_earliestLive inv sc now
      have hrest := ih hfirst.inv
      refine ⟨hrest.inv, drops_trans (drops_mono ?_ hfirst.drops) (drops_mono ?_ hrest.drops), ?_⟩
      · exact fun k hk => ⟨sc, List.mem_cons_self, hk⟩
      · exact fun k ⟨sc', hmem, hk⟩ => ⟨sc', List.mem_cons_of_mem sc hmem, hk⟩
      · rintro k e he ⟨sc', hmem, hk⟩
        rcases List.mem_cons.mp hmem with rfl | hin
        · exact purged_drops hrest.drops hfirst.purged k e he hk
        · exact hrest.purged k e he ⟨sc', hin, hk⟩

/-- Every key. -/
def anyKey : String → Prop := fun _ => True

/-- A stored key's namespace has a usage. -/
theorem exists_namespace {cfg : MemoryConfig} {exempt : String → Prop} {b : Backend} {k : String}
    {e : Entry} (inv : Inv cfg exempt b) (he : b.kv.get? k = some e) :
    ∃ sc ∈ b.namespaces, inScope cfg sc k := by
  have hmem : Scope.inNamespace (keyNamespace k) ∈ scopesOf cfg k := List.mem_cons_self
  rcases inv.indexed k e he _ hmem with ⟨u, hu, _⟩
  refine ⟨_, ?_, hmem⟩
  unfold Backend.namespaces
  rw [List.mem_filter]
  exact ⟨List.mem_map.mpr ⟨_, (Dict.get?_eq_some_iff _ _ _).mp hu, rfl⟩, rfl⟩

theorem reclaims_earliestLiveAnywhere {cfg : MemoryConfig} {b : Backend} (inv : Inv cfg noKey b)
    (now : ℚ) : Reclaims cfg anyKey now b (b.earliestLiveAnywhere cfg now).2 := by
  have h : Reclaims cfg (fun k => ∃ sc ∈ b.namespaces, inScope cfg sc k) now b
      (b.earliestLiveAnywhere cfg now).2 := reclaims_earliestLiveOf inv
  refine ⟨h.inv, drops_mono (fun _ _ => trivial) h.drops, fun k e he _ => ?_⟩
  -- The key was stored before, so its namespace has a usage.
  have hold : ∃ e₀, b.kv.get? k = some e₀ := by
    rcases h.drops.get k with hsame | ⟨_, hnone, _⟩
    · exact ⟨e, by rw [← hsame]; exact he⟩
    · rw [hnone] at he
      exact absurd he (by simp only [reduceCtorEq, not_false_eq_true])
  rcases hold with ⟨e₀, he₀⟩
  exact h.purged k e he (exists_namespace inv he₀)

/-- The invariant says nothing about buckets and sweep times. -/
theorem inv_congr {cfg : MemoryConfig} {exempt : String → Prop} {b b' : Backend}
    (inv : Inv cfg exempt b) (hkv : b'.kv = b.kv) (husage : b'.usage = b.usage)
    (htotal : b'.totalBytes = b.totalBytes) (hseq : b'.seq = b.seq) : Inv cfg exempt b' := by
  have hentries : ∀ sc, b'.entriesOf sc = b.entriesOf sc := fun sc => by
    unfold Backend.entriesOf
    rw [husage]
  have hbytes : ∀ sc, b'.bytesOf sc = b.bytesOf sc := fun sc => by
    unfold Backend.bytesOf
    rw [husage]
  refine ⟨fun sc => ?_, fun sc => ?_, ?_, ?_, ?_, ?_, ?_, fun sc => ?_, ?_⟩
  · rw [hentries, hkv]
    exact inv.entries sc
  · rw [hbytes, hkv]
    exact inv.bytes sc
  · rw [htotal, hkv]
    exact inv.total
  · rw [hkv, hseq]
    exact inv.stored
  · rw [hkv, husage]
    exact inv.indexed
  · rw [husage, hseq, hkv]
    exact inv.items
  · rw [husage]
    exact inv.heaps
  · rw [hentries, hbytes]
    exact inv.within sc
  · rw [htotal]
    exact inv.totalWithin

theorem sweepBuckets_same (now : ℚ) (n : Nat) (b : Backend) :
    (Backend.sweepBuckets now n b).kv = b.kv ∧ (Backend.sweepBuckets now n b).usage = b.usage ∧
      (Backend.sweepBuckets now n b).totalBytes = b.totalBytes ∧
      (Backend.sweepBuckets now n b).seq = b.seq := by
  induction n generalizing b with
  | zero => exact ⟨rfl, rfl, rfl, rfl⟩
  | succ n ih =>
      unfold Backend.sweepBuckets
      split
      · exact ⟨rfl, rfl, rfl, rfl⟩
      · split
        · exact ih _
        · exact ⟨rfl, rfl, rfl, rfl⟩

/-- Storing a bucket leaves the rest. -/
theorem reindexBucket_same (b : Backend) (key : String) (bucket : Bucket)
    (full : WithBot (WithTop ℚ)) :
    (b.reindexBucket key bucket full).kv = b.kv ∧
      (b.reindexBucket key bucket full).usage = b.usage ∧
      (b.reindexBucket key bucket full).totalBytes = b.totalBytes ∧
      (b.reindexBucket key bucket full).seq = b.seq := by
  unfold Backend.reindexBucket
  split <;> exact ⟨rfl, rfl, rfl, rfl⟩

theorem reclaims_sweep {cfg : MemoryConfig} {b : Backend} (inv : Inv cfg noKey b) (now : ℚ) :
    Reclaims cfg anyKey now b (b.sweep cfg now) := by
  have h := reclaims_earliestLiveAnywhere inv now
  unfold Backend.sweep
  dsimp only
  rcases sweepBuckets_same now (b.earliestLiveAnywhere cfg now).2.bucketIndex.length
    (b.earliestLiveAnywhere cfg now).2 with ⟨hkv, husage, htotal, hseq⟩
  refine ⟨inv_congr h.inv hkv husage htotal hseq, ⟨hseq.trans h.drops.seq, fun k => ?_,
    fun sc u hu => ?_⟩, fun k e he => ?_⟩
  · rw [hkv]
    exact h.drops.get k
  · rw [husage] at hu
    exact h.drops.shrinks sc u hu
  · rw [hkv] at he
    exact h.purged k e he

/-- A sweep that is not due changes nothing. -/
theorem maybeSweep_spec {cfg : MemoryConfig} {b : Backend} (inv : Inv cfg noKey b) (now : ℚ) :
    (now < b.nextSweepAt ∧ b.maybeSweep cfg now = b) ∨
      (b.nextSweepAt ≤ now ∧ Reclaims cfg anyKey now b (b.maybeSweep cfg now)) := by
  unfold Backend.maybeSweep
  split
  · rename_i h
    exact Or.inr ⟨h, reclaims_sweep inv now⟩
  · rename_i h
    exact Or.inl ⟨not_le.mp h, rfl⟩

/-- What a refusal lets a reclaim drop. -/
def Refusal.covers (cfg : MemoryConfig) : Refusal → String → Prop
  | .scope sc => inScope cfg sc
  | .total => anyKey

theorem reclaims_reclaim {cfg : MemoryConfig} {b : Backend} (inv : Inv cfg noKey b)
    (refusal : Refusal) (now : ℚ) :
    Reclaims cfg (refusal.covers cfg) now b (b.reclaim cfg refusal now).2 := by
  cases refusal with
  | scope sc => exact reclaims_earliestLive inv sc now
  | total => exact reclaims_earliestLiveAnywhere inv now

end State

end JenticOne
