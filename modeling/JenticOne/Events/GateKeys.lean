import JenticOne.Events.RepeatedFailure
import JenticOne.Library.Segments

/-!
# Keys, Clocks and Buckets of the Gate

The keys of the store tell buckets from markers, one bucket of a digest from
another and one marker from another. Two keys with one digest are one key where
the hash does not collide on what is hashed: the identifiers that the server
mints have no separator in them.

The rounding of the scan's clock does not cross a whole microsecond, so a window
that begins at a bucket's edge begins there for the scan too.

## Theorems

* `bucketKey_inj`, `markerKey_inj`, `markerKey_ne_bucketKey`: The keys.
* `raw_injective`: What is hashed determines the key.
* `le_fromTimestamp`, `fromTimestamp_le`: The rounding.
* `bucket_of_windowStart`: The window lies in two buckets.
* `incr_spec`, `noteDedupHit_store`: What the store holds after a write.
-/

namespace JenticOne

namespace Events

/-! ## Keys -/

section Keys

variable {sha256 : Text → Text} {k k' : AxisKey} {window : Nat}

theorem not_mem_repr (n : Int) : ':' ∉ (Int.repr n).toList := by
  have hnat : ∀ m : Nat, ':' ∉ (Nat.repr m).toList := by
    intro m hm
    rw [Nat.toList_repr] at hm
    have hdigit := Nat.isDigit_of_mem_toDigits (by decide) (by decide) hm
    exact absurd hdigit (by decide)
  cases n with
  | ofNat m => exact hnat m
  | negSucc m =>
      intro hm
      have hm' : ':' ∈ ("-" ++ Nat.repr (m + 1)).toList := hm
      rw [String.toList_append, List.mem_append] at hm'
      rcases hm' with hm' | hm'
      · exact absurd hm' (by decide)
      · exact hnat _ hm'

theorem bucketKey_inj {b b' : Int}
    (h : bucketKey sha256 k window b = bucketKey sha256 k' window b') :
    b = b' ∧ k.digest sha256 = k'.digest sha256 := by
  unfold bucketKey at h
  have h' := List.append_cancel_left (List.append_cancel_left h)
  rcases Segments.append_sep_inj (not_mem_repr b) (not_mem_repr b') h' with ⟨hb, hd⟩
  exact ⟨Int.repr_inj.mp (String.toList_inj.mp hb), hd⟩

theorem markerKey_inj {s s' : EventSeverity}
    (h : markerKey sha256 k window s = markerKey sha256 k' window s') :
    s = s' ∧ k.digest sha256 = k'.digest sha256 := by
  unfold markerKey at h
  have h' := List.append_cancel_left (List.append_cancel_left h)
  have hplain : ∀ s : EventSeverity, ':' ∉ s.value := by
    intro s
    cases s <;> decide
  rcases Segments.append_sep_inj (hplain s) (hplain s') h' with ⟨hs, hd⟩
  refine ⟨?_, hd⟩
  cases s <;> cases s' <;> first | rfl | exact absurd hs (by decide)

theorem markerKey_ne_bucketKey (s : EventSeverity) (b : Int) :
    markerKey sha256 k window s ≠ bucketKey sha256 k' window b := by
  intro h
  unfold markerKey bucketKey at h
  have h' : (":seen:".toList ++ _ : Text)[1]? = (":n:".toList ++ _ : Text)[1]? :=
    congrArg (fun t : Text => t[1]?) (List.append_cancel_left h)
  rw [List.getElem?_append_left (by decide), List.getElem?_append_left (by decide)] at h'
  exact absurd h' (by decide)

theorem raw_injective (h : k.raw = k'.raw) : k = k' := by
  have hassoc : ∀ k : AxisKey, k.raw = ((k.actorId ++ separator :: "credential".toList) ++
      separator :: k.credentialId.text) ++ separator :: k.operationId.text := by
    intro k
    simp only [AxisKey.raw, List.append_assoc, List.cons_append]
  rw [hassoc, hassoc] at h
  -- The actor's identifier may hold separators, so the parts are read from the end.
  rcases Segments.append_sep_inj_last k.operationId.plain k'.operationId.plain h with
    ⟨hrest, hoperation⟩
  rcases Segments.append_sep_inj_last k.credentialId.plain k'.credentialId.plain hrest with
    ⟨hactor, hcredential⟩
  exact AxisKey.ext (List.append_cancel_right hactor) (MintedId.ext hcredential)
    (MintedId.ext hoperation)

end Keys

/-! ## Clocks -/

section Clocks

theorem floor_le_roundHalfEven (x : ℚ) : ⌊x⌋ ≤ roundHalfEven x := by
  unfold roundHalfEven
  split
  · exact le_refl _
  · split
    · omega
    · split
      · exact le_refl _
      · omega

theorem roundHalfEven_le (x : ℚ) : roundHalfEven x ≤ ⌊x⌋ + 1 := by
  unfold roundHalfEven
  split
  · omega
  · split
    · exact le_refl _
    · split
      · omega
      · exact le_refl _

/-- Rounding does not go below an integer. -/
theorem le_fromTimestamp {d : DateTime} {t : ℚ} (h : d.timestamp ≤ t) : d ≤ fromTimestamp t := by
  have hd : ((d : Int) : ℚ) ≤ t * 1000000 := by
    rw [DateTime.timestamp, div_le_iff₀ (by norm_num)] at h
    exact h
  exact le_trans (Int.le_floor.mpr hd) (floor_le_roundHalfEven _)

/-- Rounding does not go above an integer. -/
theorem fromTimestamp_le {d : DateTime} {t : ℚ} (h : t ≤ d.timestamp) : fromTimestamp t ≤ d := by
  have hd : t * 1000000 ≤ ((d : Int) : ℚ) := by
    rw [DateTime.timestamp, le_div_iff₀ (by norm_num)] at h
    exact h
  rcases lt_or_eq_of_le hd with hlt | heq
  · have hfloor : ⌊t * 1000000⌋ < d := Int.floor_lt.mpr hlt
    exact le_trans (roundHalfEven_le _) hfloor
  · unfold fromTimestamp roundHalfEven
    rw [heq, Int.floor_intCast, sub_self, mul_zero, if_pos (by norm_num)]

variable {cfg : SecurityConfig}

theorem windowS_pos (cfg : SecurityConfig) : (0 : ℚ) < cfg.windowS :=
  Nat.cast_pos.mpr cfg.windowS_pos

theorem spanS_eq (cfg : SecurityConfig) : cfg.spanS = 2 * cfg.windowS := by
  rw [SecurityConfig.spanS, Nat.cast_mul]
  rfl

theorem bucketOf_mul_le (cfg : SecurityConfig) (t : ℚ) : (bucketOf cfg t : ℚ) * cfg.windowS ≤ t :=
  (le_div_iff₀ (windowS_pos cfg)).mp (Int.floor_le _)

theorem lt_bucketOf_mul (cfg : SecurityConfig) (t : ℚ) : t < ((bucketOf cfg t : ℚ) + 1) * cfg.windowS :=
  (div_lt_iff₀ (windowS_pos cfg)).mp (Int.lt_floor_add_one _)

theorem bucketOf_mono (cfg : SecurityConfig) {t t' : ℚ} (h : t ≤ t') : bucketOf cfg t ≤ bucketOf cfg t' :=
  Int.floor_mono (div_le_div_of_nonneg_right h (windowS_pos cfg).le)

theorem le_bucketOf {b : Int} {t : ℚ} (h : (b : ℚ) * cfg.windowS ≤ t) : b ≤ bucketOf cfg t :=
  Int.le_floor.mpr ((le_div_iff₀ (windowS_pos cfg)).mpr h)

/-- What has started since the scan's window began has started since the
    previous bucket began. -/
theorem bucket_of_windowStart {d : DateTime} {t now : ℚ} (hstart : windowStart cfg now ≤ d)
    (hd : d.timestamp ≤ t) (ht : t ≤ now) :
    bucketOf cfg t = bucketOf cfg now ∨ bucketOf cfg t = bucketOf cfg now - 1 := by
  have hedge : (bucketOf cfg now * cfg.windowS * 1000000 : Int) ≤ fromTimestamp now := by
    refine le_fromTimestamp ?_
    rw [DateTime.timestamp]
    push_cast
    rw [mul_div_cancel_right₀ _ (by norm_num)]
    exact bucketOf_mul_le cfg now
  have hd' : (bucketOf cfg now - 1) * cfg.windowS * 1000000 ≤ d := by
    have hsplit : (bucketOf cfg now - 1) * cfg.windowS * 1000000 =
        bucketOf cfg now * cfg.windowS * 1000000 - cfg.windowS * 1000000 := by ring
    rw [hsplit]
    exact le_trans (sub_le_sub_right hedge _) hstart
  have hge : bucketOf cfg now - 1 ≤ bucketOf cfg t := by
    refine le_bucketOf (le_trans ?_ hd)
    rw [DateTime.timestamp, le_div_iff₀ (by norm_num)]
    exact_mod_cast hd'
  have hle := bucketOf_mono cfg ht
  omega

/-- What has started in the scan's window is less than two windows old. -/
theorem lt_add_spanS {d : DateTime} {t now : ℚ} (hstart : windowStart cfg now ≤ d)
    (hd : d.timestamp ≤ t) : now < t + cfg.spanS := by
  by_contra hlate
  have hedge : d + 2 * cfg.windowS * 1000000 ≤ fromTimestamp now := by
    refine le_fromTimestamp ?_
    rw [spanS_eq] at hlate
    rw [DateTime.timestamp] at hd ⊢
    push_cast
    linarith
  have hpos : (1 : Int) ≤ cfg.windowS := by exact_mod_cast cfg.windowS_pos
  unfold windowStart at hstart
  have : fromTimestamp now - cfg.windowS * 1000000 ≤ d := hstart
  linarith

end Clocks

/-! ## Writes -/

section Writes

variable {st : Store} {key k : Text}

theorem store_write {v : Nat} {d : ℚ} :
    (st.write key v d).store k = if k = key then some (v, d) else st.store k :=
  Function.update_apply _ _ _ _

/-- An increment is one of a live counter, or the first one. -/
theorem incr_spec (st : Store) (ttl : ℚ) (key : Text) :
    ∃ count deadline, incr st ttl key = (count + 1, st.write key (count + 1) deadline) ∧
      (st.live key st.clock = none ∧ count = 0 ∧ deadline = st.clock + ttl ∨
        st.live key st.clock = some (count, deadline)) := by
  unfold incr
  split
  · rename_i hdead
    exact ⟨0, st.clock + ttl, rfl, .inl ⟨hdead, rfl, rfl⟩⟩
  · rename_i count deadline hlive
    exact ⟨count, deadline, rfl, .inr hlive⟩

theorem setMarkers_clock (st : Store) (ttl : ℚ) (keys : List Text) :
    (setMarkers st ttl keys).clock = st.clock := by
  unfold setMarkers
  induction keys generalizing st with
  | nil => rfl
  | cons key keys ih => exact ih (st.write key 1 (st.clock + ttl))

theorem setMarkers_store (st : Store) (ttl : ℚ) (keys : List Text) (k : Text) :
    (setMarkers st ttl keys).store k =
      if k ∈ keys then some (1, st.clock + ttl) else st.store k := by
  unfold setMarkers
  induction keys generalizing st with
  | nil => rfl
  | cons key keys ih =>
      rw [List.foldl_cons, ih, store_write]
      by_cases hmem : k ∈ keys
      · rw [if_pos hmem, if_pos (List.mem_cons_of_mem _ hmem)]
        rfl
      · rw [if_neg hmem]
        by_cases heq : k = key
        · rw [if_pos heq, if_pos (heq ▸ List.mem_cons_self)]
        · rw [if_neg heq, if_neg fun hm => (List.mem_cons.mp hm).elim heq hmem]

variable {cfg : SecurityConfig} {sha256 : Text → Text}

theorem noteDedupHit_clock (st : Store) (key : AxisKey) (severity : EventSeverity)
    (createdAt : DateTime) (performed : Nat) :
    (noteDedupHit cfg sha256 st key severity createdAt performed).clock = st.clock := by
  unfold noteDedupHit
  dsimp only
  split
  · rfl
  · exact setMarkers_clock _ _ _

/-- Only the markers of the severity are written, and they end with the event's
    time in the window. -/
theorem noteDedupHit_store {axisKey : AxisKey} {severity : EventSeverity} {createdAt : DateTime}
    {performed : Nat} {v : Nat} {d : ℚ}
    (h : (noteDedupHit cfg sha256 st axisKey severity createdAt performed).store k =
      some (v, d)) :
    st.store k = some (v, d) ∨ d = createdAt.timestamp + cfg.windowS ∧
      ∃ covered ∈ severity.dedupCovers, k = markerKey sha256 axisKey cfg.windowS covered := by
  unfold noteDedupHit at h
  dsimp only at h
  split at h
  · exact .inl h
  · rw [setMarkers_store] at h
    split at h
    · rename_i hmem
      rcases List.mem_map.mp hmem with ⟨covered, hcovered, rfl⟩
      simp only [Option.some.injEq, Prod.mk.injEq] at h
      exact .inr ⟨by rw [← h.2]; ring, covered, List.mem_of_mem_take hcovered, rfl⟩
    · exact .inl h

/-- The buckets are left alone. -/
theorem noteDedupHit_bucket (axisKey axisKey' : AxisKey) (severity : EventSeverity)
    (createdAt : DateTime) (performed : Nat) (b : Int) :
    (noteDedupHit cfg sha256 st axisKey severity createdAt performed).store
      (bucketKey sha256 axisKey' cfg.windowS b) =
        st.store (bucketKey sha256 axisKey' cfg.windowS b) := by
  unfold noteDedupHit
  dsimp only
  split
  · rfl
  · rw [setMarkers_store, if_neg]
    intro hmem
    rcases List.mem_map.mp hmem with ⟨covered, _, hcovered⟩
    exact markerKey_ne_bucketKey covered b hcovered

end Writes

end Events

end JenticOne
