import JenticOne.State.Ledger

/-!
# Batches of Increments

`incr_and_read` increments a list of keys, one after the other, and then reads
others. An increment that is refused raises, and those before it stay: a batch is
applied in part. It is applied as a whole, or not at all, where no increment is
refused while one before it is still live, which the ledger of the backend before
the batch tells.

What a key reads is compared at any time from the end of the call on. Up to then
entries may expire and be dropped, which no reading after it tells apart.

## Main definitions

* `live`: What is stored under a key and has not expired.
* `refusedLate`: An increment has no room while one before it is live.
* `AllOrNothing`: What has to be true of a batch.

## Theorems

* `live_store`, `live_incr`: What a write and an increment change.
* `incr_ledger`: The ledger decides about an increment.
* `allOrNothing_of_refusedLate`: The law, for batches without a late refusal.
* `batch_in_part`: It does not hold of every batch.
-/

namespace JenticOne

namespace State

/-- What is stored under a key and has not expired at a time, with its deadline. -/
def live (b : Backend) (key : String) (t : ℚ) : Option (Bytes × ℚ) :=
  ((b.kv.get? key).filter fun e => t < e.expiresAt).map fun e => (e.value, e.expiresAt)

/-- The store has no room. -/
def StateError.isCapacity : StateError → Bool
  | .capacity _ _ _ _ => true
  | _ => false

/-- The text an increment writes over what its key holds, if that is a number. -/
def nextText (entry : Option Entry) : Option Bytes :=
  (entry.elim (some 0) fun e => parseInt e.value).bind fun count => formatInt (count + 1)

/-- The increments of a batch come to one that has no room, while one of those
    made before it is still live. It is told from the entries before the batch. -/
def refusedLate (cfg : MemoryConfig) (ttl : ℚ) :
    List String → List (String × ℚ × ℚ) → Ledger → Bool
  | _, [], _ => false
  | stored, (key, now, seen) :: rest, l =>
      let looked := l.look key seen
      match nextText (looked.kv.get? key) with
      | none => false
      | some text =>
          let size := Backend.entrySize key text
          let checked := looked.makeRoom cfg key size now
          if Room cfg (checked.kv.erase key) key size then
            refusedLate cfg ttl (key :: stored) rest
              (checked.put key text ((looked.kv.get? key).elim (now + ttl) Entry.expiresAt))
          else stored.any fun k => (l.kv.get? k).any fun e => seen < e.expiresAt

/-- The events of increments, one for each occurrence of a key: what it reads, and
    the number after that. -/
def Incremented : List (String × ℚ × ℚ) → List Int → List Event → Prop
  | [], counts, events => counts = [] ∧ events = []
  | (key, _, seen) :: rest, counts, events =>
      ∃ (value : Option Bytes) (count : Int) (text : Bytes) (deadline : ℚ) (counts' : List Int)
        (events' : List Event),
        counts = (count + 1) :: counts' ∧
        events = .read key seen value :: .incr key seen text deadline :: events' ∧
        value.elim (some 0) parseInt = some count ∧ formatInt (count + 1) = some text ∧
        Incremented rest counts' events'

/-- A batch that is refused changes no reading from then on, and one that returns
    has incremented each key once for each occurrence, and only read after that. -/
structure AllOrNothing (cfg : MemoryConfig) (w : World) (incrs : List (String × ℚ × ℚ))
    (reads : List (String × ℚ)) (ttl : ℚ) : Prop where
  refused : ∀ err, (w.incrAndRead cfg incrs reads ttl).1 = .error err → err.isCapacity = true →
    ∀ key t, (w.incrAndRead cfg incrs reads ttl).2.clock ≤ t →
      ((w.incrAndRead cfg incrs reads ttl).2.get cfg key t).1 = (w.get cfg key t).1
  done : ∀ counts values, (w.incrAndRead cfg incrs reads ttl).1 = .ok (counts, values) →
    ∃ events readings, (w.incrAndRead cfg incrs reads ttl).2.log = w.log ++ events ++ readings ∧
      Incremented incrs counts events ∧ ∀ e ∈ readings, ∃ key t value, e = .read key t value

/-! ## What is live -/

section Live

variable {cfg : MemoryConfig} {b b' : Backend} {key k : String} {now t : ℚ}

theorem live_eq_some_iff {x : Bytes × ℚ} :
    live b key t = some x ↔
      ∃ e, b.kv.get? key = some e ∧ t < e.expiresAt ∧ (e.value, e.expiresAt) = x := by
  unfold live
  rw [Option.map_eq_some_iff]
  constructor
  · rintro ⟨e, he, hx⟩
    rcases Option.filter_eq_some_iff.mp he with ⟨hget, hlt⟩
    exact ⟨e, hget, of_decide_eq_true hlt, hx⟩
  · rintro ⟨e, hget, hlt, hx⟩
    exact ⟨e, Option.filter_eq_some_iff.mpr ⟨hget, decide_eq_true hlt⟩, hx⟩

theorem live_of_get? {e : Entry} (h : b.kv.get? key = some e) :
    live b key t = if t < e.expiresAt then some (e.value, e.expiresAt) else none := by
  unfold live
  rw [h, Option.filter_some]
  by_cases hlt : t < e.expiresAt
  · rw [if_pos (decide_eq_true hlt), if_pos hlt]
    rfl
  · rw [if_neg (by rwa [decide_eq_true_eq]), if_neg hlt]
    rfl

/-- What has expired stays so. -/
theorem live_eq_none_of_le {t' : ℚ} (h : live b key t = none) (hle : t ≤ t') :
    live b key t' = none := by
  rw [Option.eq_none_iff_forall_ne_some] at h ⊢
  intro x hx
  rcases live_eq_some_iff.mp hx with ⟨e, hget, hlt, hex⟩
  exact h x (live_eq_some_iff.mpr ⟨e, hget, lt_of_le_of_lt hle hlt, hex⟩)

/-- Nothing that is dropped was live. -/
theorem live_drops {may : String → Prop} (h : Drops may now b b') (hle : now ≤ t) :
    live b' k t = live b k t := by
  rcases h.get k with hsame | ⟨_, hnone, e, he, hexp⟩
  · rw [live, live, hsame]
  · rw [live_of_get? he, if_neg (not_lt.mpr (hexp.trans hle)), live, hnone]
    rfl

/-- What is looked at is what is live. -/
theorem liveEntry_live (inv : Inv cfg noKey b) :
    (b.liveEntry cfg key now).1.map (fun e => (e.value, e.expiresAt)) = live b key now ∧
      Inv cfg noKey (b.liveEntry cfg key now).2 ∧
      Drops anyKey now b (b.liveEntry cfg key now).2 := by
  unfold Backend.liveEntry
  cases hget : b.kv.get? key with
  | none =>
      refine ⟨?_, inv, drops_refl _ _ _⟩
      rw [live, hget]
      rfl
  | some e =>
      dsimp only
      rw [live_of_get? hget]
      by_cases hexp : e.expiresAt ≤ now
      · rw [if_pos hexp, if_neg (not_lt.mpr hexp)]
        exact ⟨rfl, inv_delete inv hget (fun _ hc => hc.elim), drops_delete hget trivial hexp⟩
      · rw [if_neg hexp, if_pos (not_le.mp hexp)]
        exact ⟨rfl, inv, drops_refl _ _ _⟩

theorem get_eq_live (inv : Inv cfg noKey b) {w : World} (hw : w.backend = b) :
    (w.get cfg key t).1 = (live b key t).map Prod.fst := by
  rw [← (liveEntry_live inv).1, Option.map_map, ← hw]
  rfl

/-- A write stores its value till its deadline, unless it is refused; nothing else
    that is live is changed. -/
theorem live_store (inv : Inv cfg noKey b) (value : Bytes) (expiresAt : ℚ) (hle : now ≤ t) :
    Inv cfg noKey (b.store cfg key value expiresAt now).2 ∧
      ((b.store cfg key value expiresAt now).1 = .ok () ∧
          (∀ k, k ≠ key → live (b.store cfg key value expiresAt now).2 k t = live b k t) ∧
          live (b.store cfg key value expiresAt now).2 key t =
            (if t < expiresAt then some (value, expiresAt) else none) ∨
        (∃ err, (b.store cfg key value expiresAt now).1 = .error err) ∧
          ∀ k, live (b.store cfg key value expiresAt now).2 k t = live b k t) := by
  rcases store_spec inv key value expiresAt now with ⟨b₁, inv₁, hdrops, ⟨hok, hfits⟩ | ⟨err, herr⟩⟩
  · rw [hok]
    rcases get?_write cfg b₁ key value expiresAt with ⟨e, hvalue, hexp, _, hget⟩
    refine ⟨inv_write inv₁ hfits expiresAt, .inl ⟨rfl, fun k hne => ?_, ?_⟩⟩
    · rw [← live_drops hdrops hle, live, live, hget, if_neg (Ne.symm hne)]
    · rw [live_of_get? ((hget key).trans (if_pos rfl)), hvalue, hexp]
  · rw [herr]
    exact ⟨inv₁, .inr ⟨⟨err, rfl⟩, fun k => live_drops hdrops hle⟩⟩

end Live

/-! ## One increment -/

section Incr

variable {cfg : MemoryConfig} {w : World} {key : String} {ttl now seen t : ℚ}

/-- What an increment changes: nothing that is live, if it raises; else its key,
    which stays live if it was. The log gets the reading and the number after it. -/
theorem live_incr (inv : Inv cfg noKey w.backend) (hnow : now ≤ seen) (hseen : seen ≤ t) :
    Inv cfg noKey (w.incr cfg key ttl 1 now seen).2.backend ∧
      ((∃ err, (w.incr cfg key ttl 1 now seen).1 = .error err) ∧
          (∀ k, live (w.incr cfg key ttl 1 now seen).2.backend k t = live w.backend k t) ∨
        (∃ value count text deadline, (w.incr cfg key ttl 1 now seen).1 = .ok (count + 1) ∧
            (w.incr cfg key ttl 1 now seen).2.log = w.log ++
              [.read key seen value, .incr key seen text deadline] ∧
            value.elim (some 0) parseInt = some count ∧ formatInt (count + 1) = some text) ∧
          (∀ k, k ≠ key →
            live (w.incr cfg key ttl 1 now seen).2.backend k t = live w.backend k t) ∧
          (live w.backend key t ≠ none →
            live (w.incr cfg key ttl 1 now seen).2.backend key t ≠ none)) := by
  rcases @liveEntry_live cfg w.backend key seen inv with ⟨hlive, inv₁, hdrops⟩
  have hkept : ∀ k, live (w.backend.liveEntry cfg key seen).2 k t = live w.backend k t :=
    fun k => live_drops hdrops hseen
  unfold World.incr
  dsimp only
  generalize w.backend.liveEntry cfg key seen = looked at *
  rcases looked with ⟨entry, b⟩
  dsimp only at hlive inv₁ hkept ⊢
  cases hcount : entry.elim (some 0) fun e => parseInt e.value with
  | none => exact ⟨inv₁, .inl ⟨⟨_, rfl⟩, hkept⟩⟩
  | some count =>
      dsimp only
      cases htext : formatInt (count + 1) with
      | none => exact ⟨inv₁, .inl ⟨⟨_, rfl⟩, hkept⟩⟩
      | some text =>
          dsimp only
          rcases @live_store cfg b key now t inv₁ text (entry.elim (now + ttl) Entry.expiresAt)
            (hnow.trans hseen) with ⟨inv₂, ⟨hok, hother, hself⟩ | ⟨⟨err, herr⟩, hsame⟩⟩
          · generalize b.store cfg key text (entry.elim (now + ttl) Entry.expiresAt) now =
              stored at *
            rcases stored with ⟨result, b'⟩
            dsimp only at hok hother hself inv₂
            rw [hok]
            dsimp only
            refine ⟨inv₂, .inr ⟨⟨entry.map Entry.value, count, text, _, rfl, rfl, ?_, htext⟩,
              fun k hne => (hother k hne).trans (hkept k), fun hlived => ?_⟩⟩
            · rw [← hcount]
              cases entry <;> rfl
            · -- An entry that is live later on was live when it was looked at.
              rcases Option.ne_none_iff_exists'.mp hlived with ⟨x, hx⟩
              rcases live_eq_some_iff.mp hx with ⟨e, hget, hlt, hex⟩
              rw [live_of_get? hget, if_pos (lt_of_le_of_lt hseen hlt)] at hlive
              rcases Option.map_eq_some_iff.mp hlive with ⟨e', rfl, he'⟩
              have hdeadline : e'.expiresAt = e.expiresAt := (Prod.mk.inj he').2
              change live b' key t ≠ none
              rw [hself]
              change (if t < e'.expiresAt then _ else _) ≠ none
              rw [hdeadline, if_pos hlt]
              exact fun hc => absurd hc (by simp only [reduceCtorEq, not_false_eq_true])
          · generalize b.store cfg key text (entry.elim (now + ttl) Entry.expiresAt) now =
              stored at *
            rcases stored with ⟨result, b'⟩
            dsimp only at herr hsame inv₂
            rw [herr]
            exact ⟨inv₂, .inl ⟨⟨err, rfl⟩, fun k => (hsame k).trans (hkept k)⟩⟩

theorem liveEntry_get (b : Backend) (key : String) (now : ℚ) :
    (b.liveEntry cfg key now).2.kv.get? key = (b.liveEntry cfg key now).1 := by
  unfold Backend.liveEntry
  cases hget : b.kv.get? key with
  | none => exact hget
  | some e =>
      dsimp only
      by_cases hexp : e.expiresAt ≤ now
      · rw [if_pos hexp, delete_kv hget, Dict.get?_erase, if_pos rfl]
      · rw [if_neg hexp]
        exact hget

/-- An increment is made where the ledger has room for what it writes, and
    raises where it does not or what is there is no number. -/
theorem incr_ledger {l : Ledger} (inv : Inv cfg noKey w.backend) (h : Backed l w.backend) :
    (nextText ((l.look key seen).kv.get? key) = none →
      (w.incr cfg key ttl 1 now seen).1 = .error .invalidInteger) ∧
    ∀ text, nextText ((l.look key seen).kv.get? key) = some text →
      (Room cfg (((l.look key seen).makeRoom cfg key (Backend.entrySize key text) now).kv.erase key)
          key (Backend.entrySize key text) →
        (∃ count, (w.incr cfg key ttl 1 now seen).1 = .ok count) ∧
          Backed (((l.look key seen).makeRoom cfg key (Backend.entrySize key text) now).put key text
            (((l.look key seen).kv.get? key).elim (now + ttl) Entry.expiresAt))
            (w.incr cfg key ttl 1 now seen).2.backend) ∧
      (¬ Room cfg
          (((l.look key seen).makeRoom cfg key (Backend.entrySize key text) now).kv.erase key)
          key (Backend.entrySize key text) →
        ∃ err, (w.incr cfg key ttl 1 now seen).1 = .error err) := by
  have hlooked : Backed (l.look key seen) (w.backend.liveEntry cfg key seen).2 :=
    backed_liveEntry h seen
  have hinv := (@liveEntry_live cfg w.backend key seen inv).2.1
  rw [hlooked.get, liveEntry_get]
  unfold World.incr
  dsimp only
  generalize w.backend.liveEntry cfg key seen = looked at *
  rcases looked with ⟨entry, b⟩
  dsimp only at hlooked hinv ⊢
  unfold nextText
  cases hcount : entry.elim (some 0) fun e => parseInt e.value with
  | none =>
      refine ⟨fun _ => rfl, fun text htext => ?_⟩
      exact absurd htext (by simp only [Option.bind_none, reduceCtorEq, not_false_eq_true])
  | some count =>
      rw [Option.bind_some]
      dsimp only
      cases htext : formatInt (count + 1) with
      | none =>
          refine ⟨fun _ => rfl, fun text hc => ?_⟩
          exact absurd hc (by simp only [reduceCtorEq, not_false_eq_true])
      | some text =>
          refine ⟨fun hc => absurd hc (by simp only [reduceCtorEq, not_false_eq_true]),
            fun text' heq => ?_⟩
          rw [← Option.some.inj heq]
          dsimp only
          rcases store_ledger hinv hlooked key text (entry.elim (now + ttl) Entry.expiresAt) now
            with ⟨hadmits, hraises⟩
          generalize b.store cfg key text (entry.elim (now + ttl) Entry.expiresAt) now = stored at *
          rcases stored with ⟨result, b'⟩
          dsimp only at hadmits hraises
          refine ⟨fun hroom => ?_, fun hroom => ?_⟩
          · rcases hadmits hroom with ⟨rfl, hbacked⟩
            exact ⟨⟨_, rfl⟩, hbacked⟩
          · rcases hraises hroom with ⟨err, rfl⟩
            exact ⟨err, rfl⟩

end Incr

/-! ## The increments of a batch -/

section Batch

variable {cfg : MemoryConfig} {ttl : ℚ}

theorem inv_incrAll {incrs : List (String × ℚ × ℚ)} {w : World} (inv : Inv cfg noKey w.backend)
    (hreadings : (w.clock :: incrs.flatMap (fun x => [x.2.1, x.2.2])).Pairwise (· ≤ ·)) :
    Inv cfg noKey (w.incrAll cfg ttl incrs).2.backend := by
  induction incrs generalizing w with
  | nil => exact inv
  | cons x rest ih =>
      rcases x with ⟨key, now, seen⟩
      change (w.clock :: now :: seen :: rest.flatMap (fun x => [x.2.1, x.2.2])).Pairwise (· ≤ ·)
        at hreadings
      have hnow : now ≤ seen := List.rel_of_pairwise_cons hreadings.of_cons List.mem_cons_self
      have hone := (@live_incr cfg w key ttl now seen seen inv hnow (le_refl seen)).1
      have hclock := clock_incr cfg w key ttl 1 now seen
      unfold World.incrAll
      split
      · rename_i err w' herr
        rw [herr] at hone
        exact hone
      · rename_i count w' hok
        rw [hok] at hone hclock
        refine ih hone ?_
        rw [show w'.clock = seen from hclock]
        exact hreadings.of_cons.of_cons

/-- A batch that is refused, but not late, has changed nothing that is live. -/
theorem live_incrAll_refused {incrs : List (String × ℚ × ℚ)} {stored : List String} {w : World}
    {l : Ledger} {b₀ : Backend} {err : StateError} (inv : Inv cfg noKey w.backend)
    (hbacked : Backed l w.backend)
    (hreadings : (w.clock :: incrs.flatMap (fun x => [x.2.1, x.2.2])).Pairwise (· ≤ ·))
    (hbase : ∀ k t, w.clock ≤ t → (k ∉ stored → live w.backend k t = live b₀ k t) ∧
      (live b₀ k t ≠ none → live w.backend k t ≠ none))
    (herr : (w.incrAll cfg ttl incrs).1 = .error err) (hcap : err.isCapacity = true)
    (hlate : refusedLate cfg ttl stored incrs l = false) {k : String} {t : ℚ}
    (ht : (w.incrAll cfg ttl incrs).2.clock ≤ t) :
    live (w.incrAll cfg ttl incrs).2.backend k t = live b₀ k t := by
  -- What has been stored so far is all that differs from the start.
  induction incrs generalizing w stored l with
  | nil => exact absurd herr (by simp only [World.incrAll, reduceCtorEq, not_false_eq_true])
  | cons x rest ih =>
      rcases x with ⟨key, now, seen⟩
      change (w.clock :: now :: seen :: rest.flatMap (fun x => [x.2.1, x.2.2])).Pairwise (· ≤ ·)
        at hreadings
      have hclocknow : w.clock ≤ now := List.rel_of_pairwise_cons hreadings List.mem_cons_self
      have hnow : now ≤ seen := List.rel_of_pairwise_cons hreadings.of_cons List.mem_cons_self
      have hincr : ∀ t, seen ≤ t → _ := fun t ht => @live_incr cfg w key ttl now seen t inv hnow ht
      have hclock := clock_incr cfg w key ttl 1 now seen
      rcases @incr_ledger cfg w key ttl now seen l inv hbacked with ⟨hinvalid, hledger⟩
      unfold World.incrAll at herr ht ⊢
      unfold refusedLate at hlate
      dsimp only at hlate
      cases hone : w.incr cfg key ttl 1 now seen with
      | mk result w' =>
          rw [hone] at herr ht hincr hclock hinvalid hledger
          dsimp only at herr ht hincr hclock hinvalid hledger ⊢
          cases result with
          | error err' =>
              dsimp only at herr ht ⊢
              rw [hclock] at ht
              have hsame : ∀ t, seen ≤ t → ∀ k, live w'.backend k t = live w.backend k t := by
                intro t ht
                rcases (hincr t ht).2 with ⟨_, hsame⟩ | ⟨⟨_, _, _, _, hok, _⟩, _⟩
                · exact hsame
                · exact absurd hok (by simp only [reduceCtorEq, not_false_eq_true])
              have hstart := hbase k t (hclocknow.trans (hnow.trans ht))
              rw [hsame t ht]
              by_cases hk : k ∈ stored
              · -- A key that has been stored is not live any more, so it was not before.
                have hdead : live w.backend k seen = none := by
                  cases htext : nextText ((l.look key seen).kv.get? key) with
                  | none =>
                      rw [← Except.error.inj herr, Except.error.inj (hinvalid htext)] at hcap
                      exact absurd hcap Bool.false_ne_true
                  | some text =>
                      rw [htext] at hlate
                      dsimp only at hlate
                      split at hlate
                      · rename_i hroom
                        rcases ((hledger text htext).1 hroom).1 with ⟨count, hok⟩
                        exact absurd hok (by simp only [reduceCtorEq, not_false_eq_true])
                      · have hgone := List.any_eq_false.mp hlate k hk
                        rw [hbacked.get] at hgone
                        rw [Option.eq_none_iff_forall_ne_some]
                        intro x hx
                        rcases live_eq_some_iff.mp hx with ⟨e, hget, hlt, _⟩
                        rw [hget, Option.any_some, decide_eq_true_eq] at hgone
                        exact hgone hlt
                have hnone := live_eq_none_of_le hdead ht
                rw [hnone]
                by_contra hne
                exact hstart.2 (Ne.symm hne) hnone
              · exact hstart.1 hk
          | ok count =>
              dsimp only at herr ht ⊢
              have hrest : (w'.incrAll cfg ttl rest).1 = .error err := by
                cases hr : (w'.incrAll cfg ttl rest).1 with
                | error err' =>
                    rw [hr] at herr
                    exact herr
                | ok counts =>
                    rw [hr] at herr
                    exact absurd herr (by simp only [Except.map, reduceCtorEq, not_false_eq_true])
              have hadmitted : ∃ l', Backed l' w'.backend ∧
                  refusedLate cfg ttl (key :: stored) rest l' = false := by
                cases htext : nextText ((l.look key seen).kv.get? key) with
                | none =>
                    exact absurd (hinvalid htext) (by simp only [reduceCtorEq, not_false_eq_true])
                | some text =>
                    rw [htext] at hlate
                    dsimp only at hlate
                    split at hlate
                    · rename_i hroom
                      exact ⟨_, ((hledger text htext).1 hroom).2, hlate⟩
                    · rename_i hroom
                      rcases (hledger text htext).2 hroom with ⟨err', hbad⟩
                      exact absurd hbad (by simp only [reduceCtorEq, not_false_eq_true])
              rcases hadmitted with ⟨l', hbacked', hlate'⟩
              refine ih (hincr seen (le_refl _)).1 hbacked' ?_ ?_ hrest hlate' ht
              · rw [hclock]
                exact hreadings.of_cons.of_cons
              · intro k' t' ht'
                rw [hclock] at ht'
                have hstart := hbase k' t' (hclocknow.trans (hnow.trans ht'))
                rcases (hincr t' ht').2 with ⟨⟨_, hbad⟩, _⟩ | ⟨_, hother, hself⟩
                · exact absurd hbad (by simp only [reduceCtorEq, not_false_eq_true])
                · by_cases hk : k' = key
                  · rw [hk] at hstart ⊢
                    exact ⟨fun hnot => absurd List.mem_cons_self hnot,
                      fun hlived => hself (hstart.2 hlived)⟩
                  · rw [hother k' hk]
                    exact ⟨fun hnot => hstart.1 fun hmem => hnot (List.mem_cons_of_mem _ hmem),
                      hstart.2⟩

/-- A batch that is not refused has incremented once for each occurrence. -/
theorem incremented_incrAll {incrs : List (String × ℚ × ℚ)} {w : World} {counts : List Int}
    (inv : Inv cfg noKey w.backend)
    (hreadings : (w.clock :: incrs.flatMap (fun x => [x.2.1, x.2.2])).Pairwise (· ≤ ·))
    (hok : (w.incrAll cfg ttl incrs).1 = .ok counts) :
    ∃ events, (w.incrAll cfg ttl incrs).2.log = w.log ++ events ∧
      Incremented incrs counts events := by
  induction incrs generalizing w counts with
  | nil => exact ⟨[], (List.append_nil _).symm, (Except.ok.inj hok).symm, rfl⟩
  | cons x rest ih =>
      rcases x with ⟨key, now, seen⟩
      change (w.clock :: now :: seen :: rest.flatMap (fun x => [x.2.1, x.2.2])).Pairwise (· ≤ ·)
        at hreadings
      have hnow : now ≤ seen := List.rel_of_pairwise_cons hreadings.of_cons List.mem_cons_self
      have hincr := @live_incr cfg w key ttl now seen seen inv hnow (le_refl seen)
      have hclock := clock_incr cfg w key ttl 1 now seen
      unfold World.incrAll at hok ⊢
      cases hone : w.incr cfg key ttl 1 now seen with
      | mk result w' =>
          rw [hone] at hok hincr hclock
          dsimp only at hok hincr hclock ⊢
          cases result with
          | error err => exact absurd hok (by simp only [reduceCtorEq, not_false_eq_true])
          | ok count =>
              dsimp only at hok ⊢
              rcases hincr.2 with ⟨⟨_, hbad⟩, _⟩ | ⟨⟨value, n, text, deadline, hn, hlog, hv, ht⟩, _⟩
              · exact absurd hbad (by simp only [reduceCtorEq, not_false_eq_true])
              · cases hr : (w'.incrAll cfg ttl rest).1 with
                | error err =>
                    rw [hr] at hok
                    exact absurd hok (by simp only [Except.map, reduceCtorEq, not_false_eq_true])
                | ok counts' =>
                    rw [hr] at hok
                    have hreadings' :
                        (w'.clock :: rest.flatMap (fun x => [x.2.1, x.2.2])).Pairwise (· ≤ ·) := by
                      rw [hclock]
                      exact hreadings.of_cons.of_cons
                    rcases ih hincr.1 hreadings' hr with ⟨events, hlog', hevents⟩
                    refine ⟨.read key seen value :: .incr key seen text deadline :: events, ?_,
                      value, n, text, deadline, counts', events, ?_, rfl, hv, ht, hevents⟩
                    · rw [hlog', hlog, List.append_assoc]
                      rfl
                    · rw [← Except.ok.inj hok, Except.ok.inj hn]

theorem readAll_log (reads : List (String × ℚ)) (w : World) :
    ∃ readings, (w.readAll cfg reads).2.log = w.log ++ readings ∧
      ∀ e ∈ readings, ∃ key t value, e = .read key t value := by
  induction reads generalizing w with
  | nil => exact ⟨[], (List.append_nil _).symm, fun _ he => absurd he List.not_mem_nil⟩
  | cons x rest ih =>
      rcases ih (w.get cfg x.1 x.2).2 with ⟨readings, hlog, hread⟩
      refine ⟨.read x.1 x.2 (w.get cfg x.1 x.2).1 :: readings, ?_, fun e he => ?_⟩
      · change ((w.get cfg x.1 x.2).2.readAll cfg rest).2.log = _
        rw [hlog]
        change w.log ++ [_] ++ readings = _
        rw [List.append_assoc]
        rfl
      · rcases List.mem_cons.mp he with rfl | hmem
        · exact ⟨_, _, _, rfl⟩
        · exact hread e hmem

/-- The readings of a batch are those of its increments, first. -/
theorem incrs_readings {w : World} {incrs : List (String × ℚ × ℚ)} {reads : List (String × ℚ)}
    (h : (w.clock :: (Op.incrAndRead incrs reads ttl).readings).Pairwise (· ≤ ·)) :
    (w.clock :: incrs.flatMap (fun x => [x.2.1, x.2.2])).Pairwise (· ≤ ·) :=
  h.sublist (List.Sublist.cons_cons _ (List.sublist_append_left _ _))

/-- A batch without a late refusal is applied as a whole or not at all. -/
theorem allOrNothing_of_inv {w : World} {incrs : List (String × ℚ × ℚ)}
    {reads : List (String × ℚ)} (inv : Inv cfg noKey w.backend)
    (hreadings : (w.clock :: incrs.flatMap (fun x => [x.2.1, x.2.2])).Pairwise (· ≤ ·))
    (hlate : refusedLate cfg ttl [] incrs w.backend.ledger = false) :
    AllOrNothing cfg w incrs reads ttl := by
  have hinv := @inv_incrAll cfg ttl incrs w inv hreadings
  constructor
  · intro err herr hcap key t ht
    have hrefused : (w.incrAll cfg ttl incrs).1 = .error err → _ → _ := fun herr hle =>
      @live_incrAll_refused cfg ttl incrs [] w _ w.backend err inv (backed_ledger w.backend)
        hreadings (fun _ _ _ => ⟨fun _ => rfl, id⟩) herr hcap hlate key t hle
    unfold World.incrAndRead at herr ht ⊢
    generalize w.incrAll cfg ttl incrs = done at *
    rcases done with ⟨result, w'⟩
    cases result with
    | error err' =>
        rw [get_eq_live hinv rfl, get_eq_live inv rfl,
          hrefused (congrArg Except.error (Except.error.inj herr)) ht]
    | ok counts => exact absurd herr (by simp only [reduceCtorEq, not_false_eq_true])
  · intro counts values hok
    have hcounts := @incremented_incrAll cfg ttl incrs w counts inv hreadings
    unfold World.incrAndRead at hok ⊢
    generalize w.incrAll cfg ttl incrs = done at *
    rcases done with ⟨result, w'⟩
    cases result with
    | error err => exact absurd hok (by simp only [reduceCtorEq, not_false_eq_true])
    | ok counts' =>
        dsimp only at hok hcounts ⊢
        have heq : counts' = counts := (Prod.mk.inj (Except.ok.inj hok)).1
        rcases hcounts (congrArg Except.ok heq) with ⟨events, hlog, hevents⟩
        rcases @readAll_log cfg reads w' with ⟨readings, hread, honly⟩
        refine ⟨events, readings, ?_, hevents, honly⟩
        rw [hread, hlog]

end Batch

/-- In every run, a batch that meets no refusal after an increment that is still
    live is applied as a whole or not at all. -/
theorem allOrNothing_of_refusedLate {cfg : MemoryConfig} {w : World}
    (hreach : (memory cfg).Reachable w) (incrs : List (String × ℚ × ℚ))
    (reads : List (String × ℚ)) (ttl : ℚ)
    (hreadings : (w.clock :: (Op.incrAndRead incrs reads ttl).readings).Pairwise (· ≤ ·))
    (hlate : refusedLate cfg ttl [] incrs w.backend.ledger = false) :
    AllOrNothing cfg w incrs reads ttl := by
  rcases refines_of_reachable hreach with ⟨_, s, _, _, hagrees⟩
  exact allOrNothing_of_inv hagrees.inv (incrs_readings hreadings) hlate

/-! ## A batch in part -/

/-- One entry a namespace: the second increment of these has no room. -/
def partIncrs : List (String × ℚ × ℚ) := [("a:x", 0, 0), ("a:y", 0, 0)]

/-- The first increment of a batch stays when the second is refused. -/
theorem batch_in_part :
    ¬ ∀ w, (memory crossConfig).Reachable w → ∀ incrs reads ttl,
      (w.clock :: (Op.incrAndRead incrs reads ttl).readings).Pairwise (· ≤ ·) →
      AllOrNothing crossConfig w incrs reads ttl := by
  intro hclaim
  have hreach : (memory crossConfig).Reachable ⟨Backend.new crossConfig 0, 0, []⟩ :=
    Machine.ReachesWhen.start _ ⟨0, rfl⟩
  have hbatch := hclaim _ hreach partIncrs [] 10 (by decide +kernel)
  have hrun : (World.incrAndRead crossConfig ⟨Backend.new crossConfig 0, 0, []⟩ partIncrs [] 10).1 =
      .error (.capacity "a" 10 none false) := by decide +kernel
  have hsame := hbatch.refused _ hrun rfl "a:x" 0 (by decide +kernel)
  exact absurd hsame (by decide +kernel)

/-- What is stored before the batch. -/
def refusedAtOnceRun : List Op := [.set "a:x" [49] 10 0]

/-- A batch refused at its first increment changes nothing. -/
theorem allOrNothing_refusedAtOnce :
    ∃ w, (memory crossConfig).runActions ⟨Backend.new crossConfig 0, 0, []⟩ refusedAtOnceRun =
        some w ∧
      (w.incrAndRead crossConfig [("a:y", 1, 1), ("a:x", 1, 1)] [] 10).1 =
        .error (.capacity "a" 9 none false) ∧
      AllOrNothing crossConfig w [("a:y", 1, 1), ("a:x", 1, 1)] [] 10 := by
  have hrun : ((memory crossConfig).runActions ⟨Backend.new crossConfig 0, 0, []⟩
      refusedAtOnceRun).any (fun w =>
        decide ((w.incrAndRead crossConfig [("a:y", 1, 1), ("a:x", 1, 1)] [] 10).1 =
          .error (.capacity "a" 9 none false)) &&
        decide ((w.clock ::
          (Op.incrAndRead [("a:y", 1, 1), ("a:x", 1, 1)] [] 10).readings).Pairwise (· ≤ ·)) &&
        !refusedLate crossConfig 10 [] [("a:y", 1, 1), ("a:x", 1, 1)] w.backend.ledger) = true := by
    decide +kernel
  rcases (Option.any_eq_true _ _).mp hrun with ⟨w, hw, hall⟩
  rw [Bool.and_eq_true, Bool.and_eq_true, decide_eq_true_eq, decide_eq_true_eq,
    Bool.not_eq_true'] at hall
  have hreach : (memory crossConfig).Reachable w :=
    Machine.reachable_runActions (Machine.ReachesWhen.start _ ⟨0, rfl⟩) hw
  exact ⟨w, hw, hall.1.1, allOrNothing_of_refusedLate hreach _ _ _ hall.1.2 hall.2⟩

end State

end JenticOne
