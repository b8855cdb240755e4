import JenticOne.State.NoLostEntry

/-!
# When a Write Is Refused

What the documentation promises of a refusal is stated over the entries that
are stored and nothing else: `Room` adds up what the other keys' entries take,
once the expired ones are left out, and asks whether the write fits beside them.

`store` does not quite keep that promise. A write that does not fit first drops
the expired entries of the scope that refuses it, and is then checked once more.
Where the first check stops at the namespace or the owner share, the second may
be the first to look at the total, and the total still counts expired entries of
every other namespace. Such a write is refused although it would fit.
`CrossScope` is exactly that situation, on the state before the write, and
`refusedRightly_iff` says that there is no other.

## Main definitions

* `unexpired`: The entries that are live at a time.
* `Room`: A write fits beside a set of entries.
* `RefusedRightly`: What the documentation promises of a refusal.
* `CrossScope`: Only expired entries of other scopes keep the write out.

## Theorems

* `fits_iff_room`: The counters decide what `Room` says.
* `refusedRightly_iff`: A refusal is right except for `CrossScope`.
-/

namespace JenticOne

namespace State

/-- The entries that have not expired by `now`. -/
def unexpired (kv : Dict String Entry) (now : ℚ) : Dict String Entry :=
  kv.filter (fun _ e => now < e.expiresAt)

/-- The entries less those of a scope that have expired by `now`. -/
def withoutExpiredIn (cfg : MemoryConfig) (sc : Scope) (kv : Dict String Entry) (now : ℚ) :
    Dict String Entry :=
  kv.filter (fun k e => sc ∉ scopesOf cfg k || now < e.expiresAt)

/-- A scope has room for an entry of a size beside the others. -/
def ScopeRoom (cfg : MemoryConfig) (others : Dict String Entry) (size : Nat) (sc : Scope) : Prop :=
  (others.sumBy (countIn cfg sc) + 1 : Int) ≤ (limits cfg sc).1 ∧
    (others.sumBy (sizeIn cfg sc) + size : Int) ≤ (limits cfg sc).2

instance (cfg : MemoryConfig) (others : Dict String Entry) (size : Nat) (sc : Scope) :
    Decidable (ScopeRoom cfg others size sc) :=
  inferInstanceAs (Decidable (_ ∧ _))

/-- The backend has room for an entry of a size beside the others. -/
def TotalRoom (cfg : MemoryConfig) (others : Dict String Entry) (size : Nat) : Prop :=
  others.sumBy sizeOf + size ≤ cfg.maxTotalBytes

instance (cfg : MemoryConfig) (others : Dict String Entry) (size : Nat) :
    Decidable (TotalRoom cfg others size) :=
  inferInstanceAs (Decidable (_ ≤ _))

/-- A write of a size under a key fits beside the others. -/
def Room (cfg : MemoryConfig) (others : Dict String Entry) (key : String) (size : Nat) : Prop :=
  (∀ sc ∈ scopesOf cfg key, ScopeRoom cfg others size sc) ∧ TotalRoom cfg others size

instance (cfg : MemoryConfig) (others : Dict String Entry) (key : String) (size : Nat) :
    Decidable (Room cfg others key size) :=
  inferInstanceAs (Decidable (_ ∧ _))

/-- The first scope of a key without room for a write, counting what has
    expired. -/
def firstFull (cfg : MemoryConfig) (kv : Dict String Entry) (key : String) (size : Nat) :
    Option Scope :=
  (scopesOf cfg key).find? (fun sc => ¬ ScopeRoom cfg (kv.erase key) size sc)

/-- No sweep is due, a scope of the key is full counting what has expired, the
    total is full even without the expired entries of the first such scope, and
    the write fits once nothing expired is counted. -/
structure CrossScope (cfg : MemoryConfig) (b : Backend) (key : String) (size : Nat) (now : ℚ) :
    Prop where
  notDue : now < b.nextSweepAt
  total : ∃ sc, firstFull cfg b.kv key size = some sc ∧
    ¬ TotalRoom cfg ((withoutExpiredIn cfg sc b.kv now).erase key) size
  fits : Room cfg ((unexpired b.kv now).erase key) key size

/-! ## Counters and entries -/

section Counters

variable {cfg : MemoryConfig} {b : Backend} {key : String} {size : Nat}

/-- The counters of a scope of the key, less what the write replaces, are those
    of the other entries. -/
theorem scopeRoom_iff (inv : Inv cfg noKey b) {sc : Scope} (hsc : sc ∈ scopesOf cfg key) :
    (b.entriesOf sc + addedEntries b key ≤ (limits cfg sc).1 ∧
      b.bytesOf sc - existingSize b key + size ≤ (limits cfg sc).2) ↔
    ScopeRoom cfg (b.kv.erase key) size sc := by
  have hcount := Dict.sumBy_erase b.kv (countIn cfg sc) key
  have hsize := Dict.sumBy_erase b.kv (sizeIn cfg sc) key
  unfold ScopeRoom
  rw [inv.entries, inv.bytes]
  cases hget : b.kv.get? key with
  | none =>
      rcases addedEntries_of_none hget with ⟨hadded, hexisting⟩
      rw [Dict.weight_of_get?_eq_none hget] at hcount hsize
      omega
  | some e =>
      rcases addedEntries_of_some hget with ⟨hadded, hexisting⟩
      rw [Dict.weight_of_get? hget] at hcount hsize
      unfold countIn at hcount ⊢
      unfold sizeIn at hsize ⊢
      rw [if_pos hsc] at hcount hsize
      omega

theorem totalRoom_iff (inv : Inv cfg noKey b) :
    b.totalBytes - existingSize b key + size ≤ cfg.maxTotalBytes ↔
    TotalRoom cfg (b.kv.erase key) size := by
  have hsum := Dict.sumBy_erase b.kv sizeOf key
  unfold TotalRoom
  rw [inv.total]
  cases hget : b.kv.get? key with
  | none =>
      rw [Dict.weight_of_get?_eq_none hget] at hsum
      rw [(addedEntries_of_none hget).2]
      omega
  | some e =>
      rw [Dict.weight_of_get? hget] at hsum
      rw [(addedEntries_of_some hget).2]
      unfold sizeOf at *
      omega

theorem fits_iff_room (inv : Inv cfg noKey b) :
    Fits cfg b key size ↔ Room cfg (b.kv.erase key) key size := by
  constructor
  · exact fun h => ⟨fun sc hsc => (scopeRoom_iff inv hsc).mp (h.scopes sc hsc),
      (totalRoom_iff inv).mp h.total⟩
  · exact fun h => ⟨fun sc hsc => (scopeRoom_iff inv hsc).mpr (h.1 sc hsc),
      (totalRoom_iff inv).mpr h.2⟩

/-- What refuses a write, by the entries that are stored. -/
theorem refusingScope_eq (inv : Inv cfg noKey b) (key : String) (size : Nat) :
    b.refusingScope cfg key size =
    match firstFull cfg b.kv key size with
    | some sc => some (.scope sc)
    | none => if TotalRoom cfg (b.kv.erase key) size then none else some .total := by
  have hscopes : (scopesOf cfg key).find?
      (fun sc => !Backend.fits (b.usage.get? sc) (b.kv.get? key) size (limits cfg sc)) =
      firstFull cfg b.kv key size := by
    unfold firstFull
    rw [← List.head?_filter, ← List.head?_filter]
    refine congrArg List.head? (List.filter_congr fun sc hsc => ?_)
    rw [Bool.eq_iff_iff, Bool.not_eq_true', decide_eq_true_eq, ← scopeRoom_iff inv hsc,
      ← fits_eq_true_iff, Bool.not_eq_true]
  have htotal : cfg.maxTotalBytes < b.totalBytes - existingSize b key + size ↔
      ¬ TotalRoom cfg (b.kv.erase key) size := by
    rw [← totalRoom_iff inv, not_le]
  unfold Backend.refusingScope
  dsimp only
  rw [hscopes]
  cases firstFull cfg b.kv key size with
  | some sc => rfl
  | none =>
      dsimp only
      unfold existingSize at htotal
      by_cases hroom : TotalRoom cfg (b.kv.erase key) size
      · rw [if_pos hroom, if_neg (fun hc => htotal.mp hc hroom)]
      · rw [if_neg hroom, if_pos (htotal.mpr hroom)]

end Counters

/-! ## What a reclaim leaves -/

theorem get?_of_reclaims {cfg : MemoryConfig} {may : String → Prop} [DecidablePred may] {now : ℚ}
    {b b' : Backend} (h : Reclaims cfg may now b b') (k : String) :
    b'.kv.get? k = (b.kv.filter (fun k e => ¬ may k ∨ now < e.expiresAt)).get? k := by
  rw [Dict.get?_filter]
  rcases h.drops.get k with hsame | ⟨hmay, hnone, e, he, hexp⟩
  · rw [← hsame]
    cases hget : b'.kv.get? k with
    | none => rfl
    | some e =>
        rw [Option.filter_some, if_pos]
        rw [decide_eq_true_eq]
        by_cases hmay : may k
        · exact Or.inr (h.purged k e hget hmay)
        · exact Or.inl hmay
  · rw [hnone, he, Option.filter_some, if_neg]
    rw [decide_eq_true_eq, not_or, not_not]
    exact ⟨hmay, not_lt.mpr hexp⟩

theorem get?_of_reclaims_scope {cfg : MemoryConfig} {sc : Scope} {now : ℚ} {b b' : Backend}
    (h : Reclaims cfg (inScope cfg sc) now b b') (k : String) :
    b'.kv.get? k = (withoutExpiredIn cfg sc b.kv now).get? k := by
  have hdec : DecidablePred (inScope cfg sc) := fun k => inferInstanceAs (Decidable (sc ∈ _))
  rw [get?_of_reclaims h]
  unfold withoutExpiredIn
  rw [Dict.get?_filter, Dict.get?_filter]
  refine congrArg (fun p => Option.filter p (b.kv.get? k)) (funext fun e => ?_)
  rw [Bool.eq_iff_iff, Bool.or_eq_true, decide_eq_true_eq, decide_eq_true_eq, decide_eq_true_eq]
  exact Iff.rfl

theorem get?_of_reclaims_any {cfg : MemoryConfig} {now : ℚ} {b b' : Backend}
    (h : Reclaims cfg anyKey now b b') (k : String) :
    b'.kv.get? k = (unexpired b.kv now).get? k := by
  have hdec : DecidablePred anyKey := fun _ => isTrue trivial
  rw [get?_of_reclaims h]
  unfold unexpired
  rw [Dict.get?_filter, Dict.get?_filter]
  refine congrArg (fun p => Option.filter p (b.kv.get? k)) (funext fun e => ?_)
  rw [Bool.eq_iff_iff, decide_eq_true_eq, decide_eq_true_eq]
  exact or_iff_right (fun hc => hc trivial)

theorem get?_erase_congr {d d' : Dict String Entry} (h : ∀ k, d'.get? k = d.get? k) (key : String) :
    ∀ k, (d'.erase key).get? k = (d.erase key).get? k := by
  intro k
  rw [Dict.get?_erase, Dict.get?_erase, h]

theorem scopeRoom_congr {cfg : MemoryConfig} {d d' : Dict String Entry}
    (h : ∀ k, d'.get? k = d.get? k) (size : Nat) (sc : Scope) :
    ScopeRoom cfg d' size sc ↔ ScopeRoom cfg d size sc := by
  unfold ScopeRoom
  rw [Dict.sumBy_eq_of_get? h, Dict.sumBy_eq_of_get? h]

theorem totalRoom_congr {cfg : MemoryConfig} {d d' : Dict String Entry}
    (h : ∀ k, d'.get? k = d.get? k) (size : Nat) :
    TotalRoom cfg d' size ↔ TotalRoom cfg d size := by
  unfold TotalRoom
  rw [Dict.sumBy_eq_of_get? h]

theorem room_congr {cfg : MemoryConfig} {d d' : Dict String Entry}
    (h : ∀ k, d'.get? k = d.get? k) (key : String) (size : Nat) :
    Room cfg d' key size ↔ Room cfg d key size :=
  and_congr (forall_congr' fun sc => forall_congr' fun _ => scopeRoom_congr h size sc)
    (totalRoom_congr h size)

theorem sumBy_filter_erase (d : Dict String Entry) (p : String → Entry → Bool) (key : String)
    (f : String → Entry → Nat) :
    ((d.filter p).erase key).sumBy f =
      (d.erase key).sumBy (fun k e => if p k e then f k e else 0) := by
  rw [← Dict.sumBy_filter]
  refine Dict.sumBy_eq_of_get? (fun k => ?_) f
  rw [Dict.get?_filter, Dict.get?_erase, Dict.get?_erase, Dict.get?_filter]
  split <;> rfl

/-- Leaving entries out takes no room away. -/
theorem scopeRoom_filter {cfg : MemoryConfig} {d : Dict String Entry} {key : String} {size : Nat}
    {sc : Scope} (p : String → Entry → Bool) (h : ScopeRoom cfg (d.erase key) size sc) :
    ScopeRoom cfg ((d.filter p).erase key) size sc := by
  have hle : ∀ f : String → Entry → Nat,
      ((d.filter p).erase key).sumBy f ≤ (d.erase key).sumBy f := by
    intro f
    rw [sumBy_filter_erase]
    refine Dict.sumBy_le fun k e _ => ?_
    split
    · exact le_refl _
    · exact Nat.zero_le _
  have hcount := hle (countIn cfg sc)
  have hsize := hle (sizeIn cfg sc)
  unfold ScopeRoom at *
  omega

/-- Within a scope nothing expired is left when the expired entries of a scope
    around it are. -/
theorem scopeRoom_withoutExpiredIn {cfg : MemoryConfig} {kv : Dict String Entry} {key : String}
    {size : Nat} {now : ℚ} {sc sc' : Scope}
    (hsub : ∀ k, sc' ∈ scopesOf cfg k → sc ∈ scopesOf cfg k) :
    ScopeRoom cfg ((withoutExpiredIn cfg sc kv now).erase key) size sc' ↔
      ScopeRoom cfg ((unexpired kv now).erase key) size sc' := by
  have hsame : ∀ f : String → Entry → Nat, (∀ k e, sc' ∉ scopesOf cfg k → f k e = 0) →
      ((withoutExpiredIn cfg sc kv now).erase key).sumBy f =
        ((unexpired kv now).erase key).sumBy f := by
    intro f hf
    unfold withoutExpiredIn unexpired
    rw [sumBy_filter_erase, sumBy_filter_erase]
    refine Dict.sumBy_congr fun k e _ => ?_
    by_cases hmem : sc' ∈ scopesOf cfg k
    · simp only [hsub k hmem, not_true_eq_false, decide_false, Bool.false_or]
    · rw [hf k e hmem, ite_self, ite_self]
  unfold ScopeRoom
  rw [hsame (countIn cfg sc') (fun k e hmem => if_neg hmem),
    hsame (sizeIn cfg sc') (fun k e hmem => if_neg hmem)]

/-- Every scope of a key has room, or lies within the first that has none. -/
theorem firstFull_spec {cfg : MemoryConfig} {kv : Dict String Entry} {key : String} {size : Nat}
    {sc : Scope} (h : firstFull cfg kv key size = some sc) :
    ∀ sc' ∈ scopesOf cfg key, ScopeRoom cfg (kv.erase key) size sc' ∨
      ∀ k, sc' ∈ scopesOf cfg k → sc ∈ scopesOf cfg k := by
  have hname : ∀ {name owner : String} {k : String},
      Scope.ownerShare name owner ∈ scopesOf cfg k → Scope.inNamespace name ∈ scopesOf cfg k := by
    intro name owner k hk
    unfold scopesOf at hk ⊢
    rcases List.mem_cons.mp hk with hk | hk
    · exact absurd hk (by simp only [reduceCtorEq, not_false_eq_true])
    · split at hk
      · rw [List.mem_singleton, Scope.ownerShare.injEq] at hk
        rw [hk.1]
        exact List.mem_cons_self
      · exact absurd hk List.not_mem_nil
  intro sc' hsc'
  unfold firstFull at h
  by_cases hroom : ScopeRoom cfg (kv.erase key) size (.inNamespace (keyNamespace key))
  · by_cases hhead : sc' = .inNamespace (keyNamespace key)
    · rw [hhead]
      exact Or.inl hroom
    · -- Past the namespace there is at most the owner share.
      refine Or.inr fun k hk => ?_
      unfold scopesOf at h hsc'
      dsimp only at h hsc'
      rw [List.find?_cons_of_neg (by rw [decide_eq_true_eq, not_not]; exact hroom)] at h
      split at hsc' <;> rename_i hshare
      · rw [if_pos hshare] at h
        rw [List.mem_cons, or_iff_right hhead, List.mem_singleton] at hsc'
        have hmem := List.mem_of_find?_eq_some h
        rw [List.mem_singleton] at hmem
        rw [hmem, ← hsc']
        exact hk
      · exact absurd (List.mem_singleton.mp hsc') hhead
  · have hfirst : sc = .inNamespace (keyNamespace key) := by
      unfold scopesOf at h
      dsimp only at h
      rw [List.find?_cons_of_pos (by rw [decide_eq_true_eq]; exact hroom), Option.some.injEq] at h
      exact h.symm
    rw [hfirst]
    refine Or.inr fun k hk => ?_
    unfold scopesOf at hsc'
    rcases List.mem_cons.mp hsc' with hsc' | hsc'
    · rw [hsc'] at hk
      exact hk
    · split at hsc'
      · rw [List.mem_singleton] at hsc'
        rw [hsc'] at hk
        exact hname hk
      · exact absurd hsc' List.not_mem_nil

/-! ## Refusals -/

/-- A write raises. -/
def Refused (cfg : MemoryConfig) (b : Backend) (key : String) (value : Bytes)
    (expiresAt now : ℚ) : Prop :=
  ∃ err, (b.store cfg key value expiresAt now).1 = .error err

instance (cfg : MemoryConfig) (b : Backend) (key : String) (value : Bytes) (expiresAt now : ℚ) :
    Decidable (Refused cfg b key value expiresAt now) :=
  match h : (b.store cfg key value expiresAt now).1 with
  | .error err => isTrue ⟨err, h⟩
  | .ok _ => isFalse (fun ⟨err, herr⟩ => by
      rw [h] at herr
      exact absurd herr (by simp only [reduceCtorEq, not_false_eq_true]))

/-- A write that is refused would not fit beside the other live entries. -/
def RefusedRightly (cfg : MemoryConfig) (b : Backend) (key : String) (value : Bytes)
    (expiresAt now : ℚ) : Prop :=
  Refused cfg b key value expiresAt now →
    ¬ Room cfg ((unexpired b.kv now).erase key) key (Backend.entrySize key value)

section Refusals

variable {cfg : MemoryConfig} {b : Backend} {key : String} {value : Bytes} {expiresAt now : ℚ}

/-- A write is refused when it does not fit after the reclaim. -/
theorem refused_iff_of_reclaim {refusal : Refusal} (inv : Inv cfg noKey (b.maybeSweep cfg now))
    (h : (b.maybeSweep cfg now).refusingScope cfg key (Backend.entrySize key value)
      = some refusal) :
    Refused cfg b key value expiresAt now ↔
      ¬ Room cfg (((b.maybeSweep cfg now).reclaim cfg refusal now).2.kv.erase key) key
        (Backend.entrySize key value) := by
  rw [← fits_iff_room (reclaims_reclaim inv refusal now).inv, ← refusingScope_eq_none_iff]
  unfold Refused Backend.store
  dsimp only
  rw [h]
  dsimp only
  cases ((b.maybeSweep cfg now).reclaim cfg refusal now).2.refusingScope cfg key
      (Backend.entrySize key value) with
  | none => simp only [reduceCtorEq, exists_false, not_true_eq_false]
  | some refusal' => simp only [Except.error.injEq, exists_eq', reduceCtorEq, not_false_eq_true]

theorem not_refused_of_fits
    (h : (b.maybeSweep cfg now).refusingScope cfg key (Backend.entrySize key value) = none) :
    ¬ Refused cfg b key value expiresAt now := by
  unfold Refused Backend.store
  dsimp only
  rw [h]
  simp only [reduceCtorEq, exists_false, not_false_eq_true]

/-- After a sweep nothing expired is counted, so the refusal is right. -/
theorem refusedRightly_of_due
    (hswept : Reclaims cfg anyKey now b (b.maybeSweep cfg now)) :
    RefusedRightly cfg b key value expiresAt now := by
  intro hrefused
  cases hrefusing : (b.maybeSweep cfg now).refusingScope cfg key (Backend.entrySize key value) with
  | none => exact absurd hrefused (not_refused_of_fits hrefusing)
  | some refusal =>
      have hroom := (refused_iff_of_reclaim hswept.inv hrefusing).mp hrefused
      have hreclaimed := reclaims_reclaim hswept.inv refusal now
      have hboth : Reclaims cfg anyKey now b ((b.maybeSweep cfg now).reclaim cfg refusal now).2 :=
        ⟨hreclaimed.inv,
          drops_trans hswept.drops (drops_mono (fun _ _ => trivial) hreclaimed.drops),
          purged_drops hreclaimed.drops hswept.purged⟩
      rw [← room_congr (get?_erase_congr (get?_of_reclaims_any hboth) key)]
      exact hroom

/-- With no sweep due, a write that the scopes admit is refused rightly. -/
theorem refusedRightly_of_scopes (inv : Inv cfg noKey b) (hidle : b.maybeSweep cfg now = b)
    (hfirst : firstFull cfg b.kv key (Backend.entrySize key value) = none) :
    RefusedRightly cfg b key value expiresAt now := by
  intro hrefused
  have hrefusing := refusingScope_eq inv key (Backend.entrySize key value)
  rw [hfirst] at hrefusing
  dsimp only at hrefusing
  split at hrefusing
  · exact absurd hrefused (not_refused_of_fits (by rw [hidle]; exact hrefusing))
  · have hroom := (refused_iff_of_reclaim (by rw [hidle]; exact inv)
      (by rw [hidle]; exact hrefusing)).mp hrefused
    rw [hidle] at hroom
    have hreclaimed : Reclaims cfg anyKey now b (b.reclaim cfg .total now).2 :=
      reclaims_reclaim inv .total now
    rw [← room_congr (get?_erase_congr (get?_of_reclaims_any hreclaimed) key)]
    exact hroom

/-- With no sweep due and a scope full, a write is refused unless it fits with
    that scope's expired entries left out. -/
theorem refused_iff_of_scope (inv : Inv cfg noKey b) (hidle : b.maybeSweep cfg now = b) {sc : Scope}
    (hfirst : firstFull cfg b.kv key (Backend.entrySize key value) = some sc) :
    Refused cfg b key value expiresAt now ↔
      ¬ Room cfg ((withoutExpiredIn cfg sc b.kv now).erase key) key
        (Backend.entrySize key value) := by
  have hrefusing := refusingScope_eq inv key (Backend.entrySize key value)
  rw [hfirst] at hrefusing
  have hreclaimed : Reclaims cfg (inScope cfg sc) now b (b.reclaim cfg (.scope sc) now).2 :=
    reclaims_reclaim inv (.scope sc) now
  rw [refused_iff_of_reclaim (by rw [hidle]; exact inv) (by rw [hidle]; exact hrefusing), hidle,
    room_congr (get?_erase_congr (get?_of_reclaims_scope hreclaimed) key)]

/-- A write that fits beside the live entries has room in every scope once the
    expired entries of the first full one are left out. -/
theorem scopes_of_firstFull {kv : Dict String Entry} {size : Nat} {sc : Scope}
    (hfirst : firstFull cfg kv key size = some sc)
    (hfits : Room cfg ((unexpired kv now).erase key) key size) :
    ∀ sc' ∈ scopesOf cfg key, ScopeRoom cfg ((withoutExpiredIn cfg sc kv now).erase key) size sc' := by
  intro sc' hsc'
  rcases firstFull_spec hfirst sc' hsc' with hroom | hsub
  · exact scopeRoom_filter _ hroom
  · exact (scopeRoom_withoutExpiredIn hsub).mpr (hfits.1 sc' hsc')

theorem refusedRightly_iff_of_inv (inv : Inv cfg noKey b) :
    RefusedRightly cfg b key value expiresAt now ↔
      ¬ CrossScope cfg b key (Backend.entrySize key value) now := by
  rcases maybeSweep_spec inv now with ⟨hearly, hidle⟩ | ⟨hdue, hswept⟩
  · cases hfirst : firstFull cfg b.kv key (Backend.entrySize key value) with
    | none =>
        refine iff_of_true (refusedRightly_of_scopes inv hidle hfirst) fun hcross => ?_
        rcases hcross.total with ⟨sc, hsome, _⟩
        rw [hfirst] at hsome
        exact absurd hsome (by simp only [reduceCtorEq, not_false_eq_true])
    | some sc =>
        have hiff : Refused cfg b key value expiresAt now ↔ _ := refused_iff_of_scope inv hidle hfirst
        constructor
        · intro hright hcross
          rcases hcross.total with ⟨sc', hsome, htotal⟩
          rw [hfirst, Option.some.injEq] at hsome
          rw [← hsome] at htotal
          exact hright (hiff.mpr (fun hroom => htotal hroom.2)) hcross.fits
        · intro hcross hrefused hfits
          refine hcross ⟨hearly, ⟨sc, hfirst, fun htotal => ?_⟩, hfits⟩
          exact hiff.mp hrefused ⟨scopes_of_firstFull hfirst hfits, htotal⟩
  · exact iff_of_true (refusedRightly_of_due hswept)
      (fun hcross => absurd hdue (not_le.mpr hcross.notDue))

end Refusals

/-- A backend as a run leaves it, or as an operation's look at a key leaves that.
    Every operation that writes does so there. -/
def AtWrite (cfg : MemoryConfig) (b : Backend) : Prop :=
  ∃ w, (memory cfg).Reachable w ∧
    (b = w.backend ∨ ∃ looked seen, w.clock ≤ seen ∧ b = (w.backend.liveEntry cfg looked seen).2)

theorem inv_of_atWrite {cfg : MemoryConfig} {b : Backend} (h : AtWrite cfg b) :
    Inv cfg noKey b := by
  rcases h with ⟨w, hreach, hb⟩
  rcases refines_of_reachable hreach with ⟨_, s, _, _, hagrees⟩
  rcases hb with rfl | ⟨looked, seen, hseen, rfl⟩
  · exact hagrees.inv
  · exact (liveEntry_spec hagrees.inv hagrees.holds hseen looked).2.1

/-- In every run a write is refused only when it would not fit beside the other
    live entries, except where the expired entries of other scopes fill the
    total. -/
theorem refusedRightly_iff {cfg : MemoryConfig} {b : Backend} (h : AtWrite cfg b) (key : String)
    (value : Bytes) (expiresAt now : ℚ) :
    RefusedRightly cfg b key value expiresAt now ↔
      ¬ CrossScope cfg b key (Backend.entrySize key value) now :=
  refusedRightly_iff_of_inv (inv_of_atWrite h)

/-- One entry a namespace, and room for two small entries in total. -/
def crossConfig : MemoryConfig where
  budget := fun _ => .unshared 1 1900 (by decide) (by decide)
  maxTotalBytes := 1600
  sweepIntervalS := 30
  maxTotalBytes_pos := by decide

/-- Two entries of different namespaces, both for one second. -/
def crossRun : List Op := [.set "a:x" [] 1 0, .set "b:x" [] 1 0]

/-- Four seconds after both have expired, a larger entry is refused in the
    first's namespace. -/
theorem expired_entries_refuse :
    ¬ ∀ b, AtWrite crossConfig b → ∀ key value expiresAt now,
      RefusedRightly crossConfig b key value expiresAt now := by
  intro hclaim
  have hrun : ((memory crossConfig).runActions ⟨Backend.new crossConfig 0, 0, []⟩ crossRun).any
      (fun w => Refused crossConfig w.backend "a:y" (List.replicate 200 0) 15 5 ∧
        unexpired w.backend.kv 5 = Dict.empty) := by
    decide +kernel
  rcases (Option.any_eq_true _ _).mp hrun with ⟨w, hw, hrefused⟩
  rw [decide_eq_true_eq] at hrefused
  have hreach : (memory crossConfig).Reachable w :=
    Machine.reachable_runActions (Machine.ReachesWhen.start _ ⟨0, rfl⟩) hw
  refine hclaim w.backend ⟨w, hreach, Or.inl rfl⟩ "a:y" (List.replicate 200 0) 15 5 hrefused.1 ?_
  rw [hrefused.2]
  decide +kernel

/-- At the same state a write that would not fit is refused, and rightly. -/
theorem refusedRightly_iff_crossRun :
    ∃ w, (memory crossConfig).runActions ⟨Backend.new crossConfig 0, 0, []⟩ crossRun = some w ∧
      Refused crossConfig w.backend "a:y" (List.replicate 1000 0) 15 5 ∧
      (RefusedRightly crossConfig w.backend "a:y" (List.replicate 1000 0) 15 5 ↔
        ¬ CrossScope crossConfig w.backend "a:y"
          (Backend.entrySize "a:y" (List.replicate 1000 0)) 5) := by
  have hrun : ((memory crossConfig).runActions ⟨Backend.new crossConfig 0, 0, []⟩ crossRun).any
      (fun w => Refused crossConfig w.backend "a:y" (List.replicate 1000 0) 15 5) := by
    decide +kernel
  rcases (Option.any_eq_true _ _).mp hrun with ⟨w, hw, hrefused⟩
  rw [decide_eq_true_eq] at hrefused
  have hreach : (memory crossConfig).Reachable w :=
    Machine.reachable_runActions (Machine.ReachesWhen.start _ ⟨0, rfl⟩) hw
  exact ⟨w, hw, hrefused, refusedRightly_iff ⟨w, hreach, Or.inl rfl⟩ _ _ _ _⟩

end State

end JenticOne
