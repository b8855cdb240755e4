import JenticOne.State.Reclaim

/-!
# Writing an Entry

`refusingScope` refuses nothing exactly when the write fits: every scope of the
key has room for it and so has the total, where an overwrite is charged what it
adds. A write that fits keeps the invariant, whether it stores a new entry,
replaces one with another deadline, or updates one in place, and changes what is
stored under its own key only.

`store_spec` is all that the rest needs to know of `store`: it drops some
expired entries, and then either writes, where that fits, or raises.

## Main definitions

* `Fits`: A write has room.

## Theorems

* `refusingScope_eq_none_iff`: When nothing refuses a write.
* `inv_write`, `get?_write`: What a write does.
* `store_rule`, `store_spec`: The store.
* `store_overwrite`: An overwrite with no more bytes.
* `inv_new`: A constructed backend satisfies the invariant.
-/

namespace JenticOne

namespace State

/-- The size charged to the entry a write replaces. -/
def existingSize (b : Backend) (key : String) : Nat :=
  ((b.kv.get? key).map Entry.size).getD 0

/-- How many entries a write adds. -/
def addedEntries (b : Backend) (key : String) : Int :=
  if (b.kv.get? key).isSome then 0 else 1

/-- A write of a size under a key has room in every scope and in total. -/
structure Fits (cfg : MemoryConfig) (b : Backend) (key : String) (size : Nat) : Prop where
  scopes : ∀ sc ∈ scopesOf cfg key, b.entriesOf sc + addedEntries b key ≤ (limits cfg sc).1 ∧
    b.bytesOf sc - existingSize b key + size ≤ (limits cfg sc).2
  total : b.totalBytes - existingSize b key + size ≤ cfg.maxTotalBytes

/-- `Fits` for one scope, as the backend computes it. -/
theorem fits_eq_true_iff (cfg : MemoryConfig) (b : Backend) (key : String) (size : Nat)
    (sc : Scope) : Backend.fits (b.usage.get? sc) (b.kv.get? key) size (limits cfg sc) = true ↔
      b.entriesOf sc + addedEntries b key ≤ (limits cfg sc).1 ∧
      b.bytesOf sc - existingSize b key + size ≤ (limits cfg sc).2 := by
  unfold Backend.fits
  rw [Bool.and_eq_true, decide_eq_true_eq, decide_eq_true_eq]
  exact Iff.rfl

theorem refusingScope_eq_none_iff {cfg : MemoryConfig} {b : Backend} {key : String} {size : Nat} :
    b.refusingScope cfg key size = none ↔ Fits cfg b key size := by
  unfold Backend.refusingScope
  dsimp only
  have hscopes : (scopesOf cfg key).find?
      (fun sc => !Backend.fits (b.usage.get? sc) (b.kv.get? key) size (limits cfg sc)) = none ↔
      ∀ sc ∈ scopesOf cfg key, b.entriesOf sc + addedEntries b key ≤ (limits cfg sc).1 ∧
        b.bytesOf sc - existingSize b key + size ≤ (limits cfg sc).2 := by
    rw [List.find?_eq_none]
    refine forall_congr' fun sc => forall_congr' fun _ => ?_
    rw [Bool.not_eq_true', Bool.not_eq_false, fits_eq_true_iff]
  split
  · rename_i sc hsome
    constructor
    · exact fun h => absurd h (by simp only [reduceCtorEq, not_false_eq_true])
    · intro h
      rw [hscopes.mpr h.scopes] at hsome
      exact absurd hsome (by simp only [reduceCtorEq, not_false_eq_true])
  · rename_i hnone
    rw [ite_eq_right_iff]
    change (_ → (some Refusal.total = none)) ↔ _
    constructor
    · intro h
      refine ⟨hscopes.mp hnone, not_lt.mp fun hc => ?_⟩
      exact absurd (h hc) (by simp only [reduceCtorEq, not_false_eq_true])
    · exact fun h hc => absurd h.total (not_le.mpr hc)

theorem addedEntries_of_some {b : Backend} {key : String} {e : Entry}
    (h : b.kv.get? key = some e) : addedEntries b key = 0 ∧ existingSize b key = e.size := by
  unfold addedEntries existingSize
  rw [h]
  exact ⟨rfl, rfl⟩

theorem addedEntries_of_none {b : Backend} {key : String} (h : b.kv.get? key = none) :
    addedEntries b key = 1 ∧ existingSize b key = 0 := by
  unfold addedEntries existingSize
  rw [h]
  exact ⟨rfl, rfl⟩

/-- What deleting an entry leaves of the counters of its scopes. -/
theorem counters_delete {cfg : MemoryConfig} {b : Backend} {key : String} {e : Entry} {sc : Scope}
    (inv : Inv cfg noKey b) (h : b.kv.get? key = some e) (hsc : sc ∈ scopesOf cfg key) :
    (b.delete cfg key).entriesOf sc + 1 = b.entriesOf sc ∧
      (b.delete cfg key).bytesOf sc + e.size = b.bytesOf sc := by
  have inv' := inv_delete inv h (fun _ hc => hc.elim)
  have hcount := sumBy_delete cfg h (countIn cfg sc)
  have hsize := sumBy_delete cfg h (sizeIn cfg sc)
  rw [inv.entries, inv.bytes, inv'.entries, inv'.bytes]
  unfold countIn sizeIn at *
  rw [if_pos hsc] at hcount hsize
  omega

theorem inv_write {cfg : MemoryConfig} {b : Backend} {key : String} {value : Bytes}
    (inv : Inv cfg noKey b) (hfits : Fits cfg b key (Backend.entrySize key value))
    (expiresAt : ℚ) : Inv cfg noKey (b.write cfg key value expiresAt) := by
  unfold Backend.write
  dsimp only
  split
  · rename_i existing hget
    rcases addedEntries_of_some hget with ⟨hadded, hsize⟩
    split
    · refine inv_updateEntry inv hget rfl (fun sc hsc => ?_) ?_
      · have hroom := (hfits.scopes sc hsc).2
        rw [hsize] at hroom
        exact hroom
      · have hroom := hfits.total
        rw [hsize] at hroom
        exact hroom
    · refine inv_insertEntry (inv_delete inv hget (fun _ hc => hc.elim)) ?_ rfl
        (fun sc hsc => ?_) ?_
      · rw [delete_kv hget, Dict.get?_erase, if_pos rfl]
      · have hroom := hfits.scopes sc hsc
        have hcounters := counters_delete inv hget hsc
        rw [hsize, hadded] at hroom
        omega
      · have hroom := hfits.total
        rw [hsize] at hroom
        rw [delete_total hget]
        exact hroom
  · rename_i hget
    rcases addedEntries_of_none hget with ⟨hadded, hsize⟩
    refine inv_insertEntry inv hget rfl (fun sc hsc => ?_) ?_
    · have hroom := hfits.scopes sc hsc
      rw [hsize, hadded] at hroom
      omega
    · have hroom := hfits.total
      rw [hsize] at hroom
      omega

/-- A write stores its value and deadline under its key, and nothing else. -/
theorem get?_write (cfg : MemoryConfig) (b : Backend) (key : String) (value : Bytes)
    (expiresAt : ℚ) : ∃ e : Entry, e.value = value ∧ e.expiresAt = expiresAt ∧
      e.size = Backend.entrySize key value ∧ ∀ k,
        (b.write cfg key value expiresAt).kv.get? k = if key = k then some e else b.kv.get? k := by
  unfold Backend.write
  dsimp only
  split
  · rename_i existing hget
    split
    · rename_i hsame
      exact ⟨{ existing with value := value, size := Backend.entrySize key value }, rfl, hsame,
        rfl, fun k => Dict.get?_set _ _ _ _⟩
    · refine ⟨newEntry (b.delete cfg key) value expiresAt (Backend.entrySize key value), rfl, rfl,
        rfl, fun k => ?_⟩
      change ((b.delete cfg key).kv.set key _).get? k = _
      rw [Dict.get?_set, delete_kv hget, Dict.get?_erase]
      by_cases hk : key = k
      · rw [if_pos hk, if_pos hk]
        rfl
      · rw [if_neg hk, if_neg hk, if_neg hk]
  · exact ⟨newEntry b value expiresAt (Backend.entrySize key value), rfl, rfl, rfl,
      fun k => Dict.get?_set _ _ _ _⟩

/-- The rule of a store: what a sweep and a reclaim keep holds where it writes,
    which it does where that fits, or raises. -/
theorem store_rule {cfg : MemoryConfig} {P : Backend → Prop} {b : Backend} {now : ℚ}
    (hsweep : P (b.maybeSweep cfg now))
    (hreclaim : ∀ b refusal, P b → P (b.reclaim cfg refusal now).2) (key : String)
    (value : Bytes) (expiresAt : ℚ) : ∃ b₁, P b₁ ∧
      ((b.store cfg key value expiresAt now = (.ok (), b₁.write cfg key value expiresAt) ∧
          Fits cfg b₁ key (Backend.entrySize key value)) ∨
        ∃ err, b.store cfg key value expiresAt now = (.error err, b₁)) := by
  unfold Backend.store
  dsimp only
  generalize b.maybeSweep cfg now = b₀ at *
  cases hrefusing : b₀.refusingScope cfg key (Backend.entrySize key value) with
  | none => exact ⟨b₀, hsweep, Or.inl ⟨rfl, refusingScope_eq_none_iff.mp hrefusing⟩⟩
  | some refusal =>
      have hfirst := hreclaim b₀ refusal hsweep
      dsimp only
      generalize (b₀.reclaim cfg refusal now).2 = b₁ at *
      cases hagain : b₁.refusingScope cfg key (Backend.entrySize key value) with
      | none => exact ⟨b₁, hfirst, Or.inl ⟨rfl, refusingScope_eq_none_iff.mp hagain⟩⟩
      | some refusal' => exact ⟨_, hreclaim b₁ refusal' hfirst, Or.inr ⟨_, rfl⟩⟩

/-- The store drops expired entries, then writes where that fits or raises. -/
theorem store_spec {cfg : MemoryConfig} {b : Backend} (inv : Inv cfg noKey b) (key : String)
    (value : Bytes) (expiresAt now : ℚ) : ∃ b₁, Inv cfg noKey b₁ ∧ Drops anyKey now b b₁ ∧
      ((b.store cfg key value expiresAt now = (.ok (), b₁.write cfg key value expiresAt) ∧
          Fits cfg b₁ key (Backend.entrySize key value)) ∨
        ∃ err, b.store cfg key value expiresAt now = (.error err, b₁)) := by
  have hswept : Inv cfg noKey (b.maybeSweep cfg now) ∧ Drops anyKey now b (b.maybeSweep cfg now) := by
    rcases maybeSweep_spec inv now with ⟨_, hsame⟩ | ⟨_, hswept⟩
    · rw [hsame]
      exact ⟨inv, drops_refl _ _ _⟩
    · exact ⟨hswept.inv, hswept.drops⟩
  have hreclaim : ∀ b₁ refusal, Inv cfg noKey b₁ ∧ Drops anyKey now b b₁ →
      Inv cfg noKey (b₁.reclaim cfg refusal now).2 ∧
        Drops anyKey now b (b₁.reclaim cfg refusal now).2 := by
    intro b₁ refusal h
    have hr := reclaims_reclaim h.1 refusal now
    exact ⟨hr.inv, drops_trans h.2 (drops_mono (fun _ _ => trivial) hr.drops)⟩
  rcases store_rule (P := fun b₁ => Inv cfg noKey b₁ ∧ Drops anyKey now b b₁) hswept hreclaim key
    value expiresAt with ⟨b₁, ⟨inv₁, hdrops⟩, hor⟩
  exact ⟨b₁, inv₁, hdrops, hor⟩

/-! ## Overwriting -/

section Overwrite

variable {cfg : MemoryConfig} {b : Backend} {key : String} {e : Entry} {now : ℚ}

/-- A live entry outlasts a bulk drop. -/
theorem get?_of_drops {may : String → Prop} {b' : Backend} (hdrops : Drops may now b b')
    (h : b.kv.get? key = some e) (hlive : now < e.expiresAt) : b'.kv.get? key = some e := by
  rcases hdrops.get key with hsame | ⟨_, _, e', he', hexp⟩
  · rw [hsame, h]
  · rw [h, Option.some.injEq] at he'
    rw [← he'] at hexp
    exact absurd hlive (not_lt.mpr hexp)

/-- A write under another key, and a write that raises, leave a live entry. -/
theorem get?_store_of_live (inv : Inv cfg noKey b) (h : b.kv.get? key = some e)
    (hlive : now < e.expiresAt) {key' : String} {value : Bytes} {expiresAt : ℚ}
    (hother : key' ≠ key ∨ ∃ err, (b.store cfg key' value expiresAt now).1 = .error err) :
    (b.store cfg key' value expiresAt now).2.kv.get? key = some e := by
  rcases store_spec inv key' value expiresAt now with ⟨b₁, _, hdrops, ⟨hok, _⟩ | ⟨err, herr⟩⟩
  · rcases hother with hne | ⟨err, herr⟩
    · rcases get?_write cfg b₁ key' value expiresAt with ⟨_, _, _, _, hget⟩
      rw [hok, hget, if_neg hne]
      exact get?_of_drops hdrops h hlive
    · rw [hok] at herr
      exact absurd herr (by simp only [reduceCtorEq, not_false_eq_true])
  · rw [herr]
    exact get?_of_drops hdrops h hlive

/-- A value no larger than the stored one fits. -/
theorem fits_overwrite (inv : Inv cfg noKey b) (h : b.kv.get? key = some e) {size : Nat}
    (hsize : size ≤ e.size) : Fits cfg b key size := by
  rcases addedEntries_of_some h with ⟨hadded, hexisting⟩
  refine ⟨fun sc _ => ?_, ?_⟩
  · have hwithin := inv.within sc
    rw [hadded, hexisting]
    omega
  · have hwithin := inv.totalWithin
    rw [hexisting]
    omega

/-- Overwriting a live entry with a value no larger than it never raises. -/
theorem store_overwrite (inv : Inv cfg noKey b) (h : b.kv.get? key = some e)
    (hlive : now < e.expiresAt) {value : Bytes} (hsize : value.length ≤ e.value.length)
    (expiresAt : ℚ) : (b.store cfg key value expiresAt now).1 = .ok () := by
  have hswept : Inv cfg noKey (b.maybeSweep cfg now) ∧
      (b.maybeSweep cfg now).kv.get? key = some e := by
    rcases maybeSweep_spec inv now with ⟨_, hsame⟩ | ⟨_, hswept⟩
    · rw [hsame]
      exact ⟨inv, h⟩
    · exact ⟨hswept.inv, get?_of_drops hswept.drops h hlive⟩
  have hfits : Fits cfg (b.maybeSweep cfg now) key (Backend.entrySize key value) := by
    refine fits_overwrite hswept.1 hswept.2 ?_
    rw [(inv.stored key e h).2]
    unfold Backend.entrySize
    omega
  unfold Backend.store
  dsimp only
  rw [refusingScope_eq_none_iff.mpr hfits]

end Overwrite

theorem inv_new (cfg : MemoryConfig) (now : ℚ) : Inv cfg noKey (Backend.new cfg now) := by
  refine ⟨fun _ => rfl, fun _ => rfl, rfl, fun k e h => ?_, fun k e h => ?_, fun sc u h => ?_,
    fun sc u h => ?_, limits_nonneg cfg, Int.natCast_nonneg _⟩
  all_goals exact absurd h (by
    simp only [Backend.new, Dict.get?_empty, reduceCtorEq, not_false_eq_true])

end State

end JenticOne
