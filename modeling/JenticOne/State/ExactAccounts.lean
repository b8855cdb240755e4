import JenticOne.State.Index
import JenticOne.State.Refusal

/-!
# Accounts and Expiry Index

What the documentation says of the backend's books, over every state of a run
and every state a call passes through before it writes: the counters are the
sums they stand for and within their budgets, every entry has one current item
in the heaps of each of its scopes, the heaps of a namespace are short, and a
reclaim drops what has expired and says when the next entry will.

A reclaim reports a deadline it reads off an item. The item it stops at is
current, so the deadline is that of an entry; it is the least of its heap, and
every entry left has an item in one of the two heaps, so no entry is earlier.

## Main definitions

* `Accounts`, `Indexed`: The counters, and the heaps.
* `Reports`: A result is the earliest deadline under some keys.
* `ReclaimExact`: What a reclaim does.
* `DuringCall`: The states a call passes through.

## Theorems

* `reports_reclaim`: A reclaim reports the earliest live deadline.
* `accounts_and_index_exact`: The law.
-/

namespace JenticOne

namespace State

/-- The counters of every scope and the total are sums over the stored entries,
    and within their budgets. -/
structure Accounts (cfg : MemoryConfig) (b : Backend) : Prop where
  entries : ∀ sc, b.entriesOf sc = b.kv.sumBy (fun k _ => if sc ∈ scopesOf cfg k then 1 else 0)
  bytes : ∀ sc, b.bytesOf sc = b.kv.sumBy (fun k e => if sc ∈ scopesOf cfg k then e.size else 0)
  total : b.totalBytes = b.kv.sumBy (fun _ e => e.size)
  sizes : ∀ k e, b.kv.get? k = some e → e.size = Backend.entrySize k e.value
  within : ∀ sc, b.entriesOf sc ≤ (limits cfg sc).1 ∧ b.bytesOf sc ≤ (limits cfg sc).2
  totalWithin : b.totalBytes ≤ cfg.maxTotalBytes

/-- Every entry has one current item in each of its scopes, and a namespace has
    no more items than four times the entries it may hold, and some. -/
structure Indexed (cfg : MemoryConfig) (b : Backend) : Prop where
  one : ∀ k e, b.kv.get? k = some e → ∀ sc ∈ scopesOf cfg k, ∃ u, b.usage.get? sc = some u ∧
    (u.index ++ u.draining).countP (fun i => i.key = k && Backend.isCurrent b.kv i) = 1
  small : ∀ name u, b.usage.get? (.inNamespace name) = some u →
    (u.index ++ u.draining).length ≤ 4 * (cfg.budget name).maxEntries + 129

/-- The earliest deadline stored under the keys of a condition, or none where
    nothing is. -/
structure Reports (may : String → Prop) (b : Backend) (d : Option ℚ) : Prop where
  stored : ∀ m ∈ d, ∃ k e, b.kv.get? k = some e ∧ may k ∧ e.expiresAt = m
  least : ∀ k e, b.kv.get? k = some e → may k → ∃ m ∈ d, m ≤ e.expiresAt

/-- A reclaim drops the expired entries of what refuses, keeps every other
    entry, and returns the earliest deadline that is left there. -/
structure ReclaimExact (cfg : MemoryConfig) (b : Backend) (refusal : Refusal) (now : ℚ) :
    Prop where
  dropped : ∀ k, refusal.covers cfg k →
    (b.reclaim cfg refusal now).2.kv.get? k = (unexpired b.kv now).get? k
  kept : ∀ k, ¬ refusal.covers cfg k → (b.reclaim cfg refusal now).2.kv.get? k = b.kv.get? k
  earliest : Reports (refusal.covers cfg) (b.reclaim cfg refusal now).2
    (b.reclaim cfg refusal now).1

/-- The backends a call passes through before it writes: it may look at a key,
    sweep, and reclaim more than once. -/
inductive DuringCall (cfg : MemoryConfig) (now : ℚ) (b₀ : Backend) : Backend → Prop
  | start : DuringCall cfg now b₀ b₀
  | looked {b : Backend} (key : String) (seen : ℚ) : DuringCall cfg now b₀ b →
      DuringCall cfg now b₀ (b.liveEntry cfg key seen).2
  | swept {b : Backend} : DuringCall cfg now b₀ b → DuringCall cfg now b₀ (b.maybeSweep cfg now)
  | reclaimed {b : Backend} (refusal : Refusal) : DuringCall cfg now b₀ b →
      DuringCall cfg now b₀ (b.reclaim cfg refusal now).2

/-! ## The earliest deadline -/

theorem mem_earlier {a b : Option ℚ} {m : ℚ} (h : m ∈ Backend.earlier a b) : m ∈ a ∨ m ∈ b := by
  rcases Option.merge_eq_or_eq (f := min) min_choice a b with hm | hm
  · exact Or.inl (by rw [← hm]; exact h)
  · exact Or.inr (by rw [← hm]; exact h)

theorem earlier_le {a b : Option ℚ} {m : ℚ} (h : m ∈ a ∨ m ∈ b) :
    ∃ m' ∈ Backend.earlier a b, m' ≤ m := by
  unfold Backend.earlier
  cases a with
  | none =>
      rw [Option.merge_none_left]
      exact ⟨m, h.resolve_left (Option.not_mem_none m), le_refl m⟩
  | some x =>
      cases b with
      | none =>
          rw [Option.merge_none_right]
          exact ⟨m, h.resolve_right (Option.not_mem_none m), le_refl m⟩
      | some y =>
          rw [Option.merge_some_some]
          refine ⟨min x y, rfl, ?_⟩
          rcases h with h | h
          · rw [Option.mem_some_iff] at h
            rw [← h]
            exact min_le_left x y
          · rw [Option.mem_some_iff] at h
            rw [← h]
            exact min_le_right x y

section Reports

variable {cfg : MemoryConfig} {b : Backend} {now : ℚ}

/-- What the loop over one heap returns is a live deadline of the scope, and no
    item of the heap is earlier. -/
theorem drained_reports {sc : Scope} {side : Backend.Side} {r : Option ℚ × Backend}
    (inv : Inv cfg noKey r.2) (h : Drained sc side now r) :
    (∀ m ∈ r.1, now < m ∧ ∃ k e, r.2.kv.get? k = some e ∧ inScope cfg sc k ∧ e.expiresAt = m) ∧
      ∀ u, r.2.usage.get? sc = some u → ∀ i ∈ side.heap u, ∃ m ∈ r.1, m ≤ i.expiresAt := by
  rcases h with ⟨hnone, hempty⟩ | ⟨v, item, rest, hv, hpop, hcur, hlive, hsome⟩
  · refine ⟨fun m hm => ?_, fun u hu i hi => ?_⟩
    · rw [hnone] at hm
      exact absurd hm (Option.not_mem_none _)
    · rw [hempty u hu] at hi
      exact absurd hi List.not_mem_nil
  · have hperm := BinaryHeap.perm_heappop hpop
    have hmem : item ∈ side.heap v := hperm.2.mem_iff.mpr List.mem_cons_self
    rw [hsome]
    refine ⟨fun m hm => ?_, fun u hu i hi => ⟨item.expiresAt, rfl, ?_⟩⟩
    · rw [Option.mem_some_iff] at hm
      rcases entry_of_current inv hv (holds_of_mem hmem) hcur with ⟨hsc, e, he, hdeadline⟩
      exact ⟨by rw [← hm]; exact hlive, item.key, e, he, hsc, hdeadline.trans hm⟩
    · rw [hv, Option.some.injEq] at hu
      rw [← hu] at hi
      exact Item.expiresAt_le
        (BinaryHeap.head_le (isHeap_side (inv.heaps sc v hv) side) hperm.1 i hi)

theorem reports_earliestLive (inv : Inv cfg noKey b) (sc : Scope) (now : ℚ) :
    Reports (inScope cfg sc) (b.earliestLive cfg sc now).2 (b.earliestLive cfg sc now).1 := by
  unfold Backend.earliestLive
  dsimp only
  rcases drainHeap_spec .index now inv (fun _ hu => heapLength_le hu) with ⟨inv₁, _, hend₁⟩
  have hfirst := drained_reports inv₁ hend₁
  clear hend₁
  generalize Backend.drainHeap cfg sc .index now (b.heapLength sc .index) b = r₁ at *
  rcases drainHeap_spec .draining now inv₁ (fun _ hu => heapLength_le hu) with
    ⟨inv₂, hdrops, hend₂⟩
  have hsecond := drained_reports inv₂ hend₂
  clear hend₂
  generalize Backend.drainHeap cfg sc .draining now (r₁.2.heapLength sc .draining) r₁.2 = r₂ at *
  refine ⟨fun m hm => ?_, fun k e he hsc => ?_⟩
  · rcases mem_earlier hm with hm | hm
    · rcases hfirst.1 m hm with ⟨hlive, k, e, he, hsc, rfl⟩
      exact ⟨k, e, get?_of_drops hdrops he hlive, hsc, rfl⟩
    · rcases hsecond.1 m hm with ⟨_, k, e, he, hsc, hdeadline⟩
      exact ⟨k, e, he, hsc, hdeadline⟩
  · -- The entry has an item in one of the two heaps.
    rcases inv₂.indexed k e he sc hsc with ⟨u, hu, hor⟩
    have hitem : ∃ m, (m ∈ r₁.1 ∨ m ∈ r₂.1) ∧ m ≤ e.expiresAt := by
      rcases hor.resolve_left id with hi | hi
      · rcases hdrops.shrinks sc u hu with ⟨v, hv, hsub⟩
        rcases hfirst.2 v hv _ (hsub .index _ hi) with ⟨m, hm, hle⟩
        exact ⟨m, Or.inl hm, hle⟩
      · rcases hsecond.2 u hu _ hi with ⟨m, hm, hle⟩
        exact ⟨m, Or.inr hm, hle⟩
    rcases hitem with ⟨m, hm, hle⟩
    rcases earlier_le hm with ⟨m', hm', hle'⟩
    exact ⟨m', hm', le_trans hle' hle⟩

/-- Scopes one after another: what was reported for the first is live, so the
    later ones leave it. -/
theorem reports_earliestLiveOf {scs : List Scope} (inv : Inv cfg noKey b) :
    Reports (fun k => ∃ sc ∈ scs, inScope cfg sc k) (Backend.earliestLiveOf cfg now scs b).2
      (Backend.earliestLiveOf cfg now scs b).1 := by
  induction scs generalizing b with
  | nil =>
      exact ⟨fun _ hm => absurd hm (Option.not_mem_none _),
        fun _ _ _ ⟨_, hmem, _⟩ => absurd hmem List.not_mem_nil⟩
  | cons sc rest ih =>
      unfold Backend.earliestLiveOf
      dsimp only
      have hreclaims := reclaims_earliestLive inv sc now
      have hfirst := reports_earliestLive inv sc now
      generalize b.earliestLive cfg sc now = r at *
      have hrest := ih hreclaims.inv
      have hdrops : Drops (fun k => ∃ sc ∈ rest, inScope cfg sc k) now r.2
          (Backend.earliestLiveOf cfg now rest r.2).2 :=
        (reclaims_earliestLiveOf hreclaims.inv).drops
      generalize Backend.earliestLiveOf cfg now rest r.2 = r' at *
      refine ⟨fun m hm => ?_, fun k e he hmay => ?_⟩
      · rcases mem_earlier hm with hm | hm
        · rcases hfirst.stored m hm with ⟨k, e, he, hsc, hdeadline⟩
          have hlive := hreclaims.purged k e he hsc
          exact ⟨k, e, get?_of_drops hdrops he hlive, ⟨sc, List.mem_cons_self, hsc⟩, hdeadline⟩
        · rcases hrest.stored m hm with ⟨k, e, he, ⟨sc', hmem, hsc⟩, hdeadline⟩
          exact ⟨k, e, he, ⟨sc', List.mem_cons_of_mem sc hmem, hsc⟩, hdeadline⟩
      · have hleast : ∃ m, (m ∈ r.1 ∨ m ∈ r'.1) ∧ m ≤ e.expiresAt := by
          rcases hmay with ⟨sc', hmem, hsc⟩
          rcases List.mem_cons.mp hmem with rfl | hin
          · have hbefore : r.2.kv.get? k = some e := by
              rcases hdrops.get k with hsame | ⟨_, hnone, _⟩
              · rw [← hsame, he]
              · rw [hnone] at he
                exact absurd he (by simp only [reduceCtorEq, not_false_eq_true])
            rcases hfirst.least k e hbefore hsc with ⟨m, hm, hle⟩
            exact ⟨m, Or.inl hm, hle⟩
          · rcases hrest.least k e he ⟨sc', hin, hsc⟩ with ⟨m, hm, hle⟩
            exact ⟨m, Or.inr hm, hle⟩
        rcases hleast with ⟨m, hm, hle⟩
        rcases earlier_le hm with ⟨m', hm', hle'⟩
        exact ⟨m', hm', le_trans hle' hle⟩

theorem reports_reclaim (inv : Inv cfg noKey b) (refusal : Refusal) (now : ℚ) :
    Reports (refusal.covers cfg) (b.reclaim cfg refusal now).2
      (b.reclaim cfg refusal now).1 := by
  cases refusal with
  | scope sc => exact reports_earliestLive inv sc now
  | total =>
      have hall : Reports (fun k => ∃ sc ∈ b.namespaces, inScope cfg sc k)
        (b.earliestLiveAnywhere cfg now).2 (b.earliestLiveAnywhere cfg now).1 :=
        reports_earliestLiveOf inv
      have hdrops := (reclaims_earliestLiveAnywhere inv now).drops
      refine ⟨fun m hm => ?_, fun k e he _ => ?_⟩
      · rcases hall.stored m hm with ⟨k, e, he, _, hdeadline⟩
        exact ⟨k, e, he, trivial, hdeadline⟩
      · change (b.earliestLiveAnywhere cfg now).2.kv.get? k = some e at he
        refine hall.least k e he ?_
        rcases hdrops.get k with hsame | ⟨_, hnone, _⟩
        · exact exists_namespace inv (hsame.symm.trans he)
        · rw [hnone] at he
          exact absurd he (by simp only [reduceCtorEq, not_false_eq_true])

end Reports

/-! ## The law -/

section Law

variable {cfg : MemoryConfig} {b : Backend}

theorem accounts_of_inv (inv : Inv cfg noKey b) : Accounts cfg b :=
  ⟨inv.entries, inv.bytes, inv.total, fun k e he => (inv.stored k e he).2, inv.within,
    inv.totalWithin⟩

/-- The current items of a key are all the item its entry is indexed under, and
    that is in the heaps once. -/
theorem countP_current {sc : Scope} {u : Usage} {k : String} {e : Entry} (h : Exact cfg b)
    (he : b.kv.get? k = some e) (hu : b.usage.get? sc = some u) (hheld : u.holds (itemOf k e)) :
    (u.index ++ u.draining).countP (fun i => i.key = k && Backend.isCurrent b.kv i) = 1 := by
  rw [List.countP_eq_length_filter]
  have hperm : ((u.index ++ u.draining).filter
      (fun i => i.key = k && Backend.isCurrent b.kv i)).Perm [itemOf k e] := by
    refine (List.perm_ext_iff_of_nodup ((h.tight sc u hu).nodup.filter _)
      (List.nodup_singleton _)).mpr fun i => ?_
    rw [List.mem_filter, List.mem_singleton, Bool.and_eq_true, decide_eq_true_eq, isCurrent_iff]
    constructor
    · rintro ⟨hi, rfl, e', he', hseq⟩
      have hdeadline := (h.inv.items sc u hu i (List.mem_append.mp hi)).2.2 e' he' hseq
      rw [he, Option.some.injEq] at he'
      rw [← he'] at hseq hdeadline
      cases i
      unfold itemOf
      dsimp only at hseq hdeadline ⊢
      rw [hseq, hdeadline]
    · rintro rfl
      exact ⟨List.mem_append.mpr hheld, rfl, e, he, rfl⟩
  rw [hperm.length_eq, List.length_singleton]

theorem indexed_of_exact (h : Exact cfg b) : Indexed cfg b := by
  refine ⟨fun k e he sc hsc => ?_, fun name u hu => ?_⟩
  · rcases h.inv.indexed k e he sc hsc with ⟨u, hu, hor⟩
    exact ⟨u, hu, countP_current h he hu (hor.resolve_left id)⟩
  · have htight := h.tight _ u hu
    have hroom := htight.room
    have hdrained := htight.drained
    change ((_ : Nat) : Int) ≤ 2 * ((cfg.budget name).maxEntries : Int) + (64 : Nat) at hroom
    change ((_ : Nat) : Int) ≤ 2 * ((cfg.budget name).maxEntries : Int) + (64 : Nat) + 1
      at hdrained
    rw [List.length_append]
    omega

theorem reclaimExact_of_inv (inv : Inv cfg noKey b) (refusal : Refusal) (now : ℚ) :
    ReclaimExact cfg b refusal now := by
  refine ⟨fun k hk => ?_, fun k hk => ?_, reports_reclaim inv refusal now⟩
  · have hreclaims := reclaims_reclaim inv refusal now
    unfold unexpired
    rw [Dict.get?_filter]
    rcases hreclaims.drops.get k with hsame | ⟨_, hnone, e, he, hexp⟩
    · rw [← hsame]
      cases hget : (b.reclaim cfg refusal now).2.kv.get? k with
      | none => rfl
      | some e =>
          rw [Option.filter_some, if_pos (decide_eq_true (hreclaims.purged k e hget hk))]
    · rw [hnone, he, Option.filter_some, if_neg]
      rw [decide_eq_true_eq]
      exact not_lt.mpr hexp
  · rcases (reclaims_reclaim inv refusal now).drops.get k with hsame | ⟨hmay, _⟩
    · exact hsame
    · exact absurd hmay hk

theorem exact_duringCall {now : ℚ} {b₀ : Backend} (h₀ : Exact cfg b₀)
    (h : DuringCall cfg now b₀ b) : Exact cfg b := by
  induction h with
  | start => exact h₀
  | looked key seen _ ih => exact exact_liveEntry key seen ih
  | swept _ ih => exact exact_maybeSweep now ih
  | reclaimed refusal _ ih => exact exact_reclaim refusal now ih

end Law

/-- In every state of a run, and every state a call passes through on the way to
    a write, the books are exact, and a reclaim is. -/
theorem accounts_and_index_exact {cfg : MemoryConfig} {w : World}
    (h : (memory cfg).Reachable w) {now : ℚ} {b : Backend}
    (hb : DuringCall cfg now w.backend b) :
    Accounts cfg b ∧ Indexed cfg b ∧ ∀ refusal, ReclaimExact cfg b refusal now := by
  have hexact := exact_duringCall (exact_of_reachable h) hb
  exact ⟨accounts_of_inv hexact.inv, indexed_of_exact hexact,
    fun refusal => reclaimExact_of_inv hexact.inv refusal now⟩

/-- Two entries of one owner, one of them overwritten and one expired before the
    reclaim. -/
def overwrittenRun : List Op :=
  [.set "idem:a:x" [1] 5 0, .set "idem:b:y" [2] 3 0, .set "idem:a:x" [3] 20 1]

theorem accounts_and_index_exact_overwritten :
    ∃ w, (memory exampleConfig).runActions ⟨Backend.new exampleConfig 0, 0, []⟩
        overwrittenRun = some w ∧
      w.backend.entriesOf (.inNamespace "idem") = 2 ∧ Accounts exampleConfig w.backend ∧
      Indexed exampleConfig w.backend ∧
      ∀ refusal, ReclaimExact exampleConfig w.backend refusal 4 := by
  have hrun : ((memory exampleConfig).runActions ⟨Backend.new exampleConfig 0, 0, []⟩
      overwrittenRun).any (fun w => w.backend.entriesOf (.inNamespace "idem") = 2) := by
    decide +kernel
  rcases (Option.any_eq_true _ _).mp hrun with ⟨w, hw, hentries⟩
  rw [decide_eq_true_eq] at hentries
  exact ⟨w, hw, hentries, accounts_and_index_exact
    (Machine.reachable_runActions (Machine.ReachesWhen.start _ ⟨0, rfl⟩) hw)
    (DuringCall.start)⟩

end State

end JenticOne
