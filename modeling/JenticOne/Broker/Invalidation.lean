import JenticOne.Broker.AuthCache
import JenticOne.Library.Lists

/-!
# What an Invalidation Leaves Behind

An eviction drops the entries that are there. A load that has read the database
before it and has not stored yet is not there, so what it read is stored after
the eviction and answers the lookups that come next, for as long as an entry
lasts; and a lookup that comes before the store joins the flight and gets the
same answer.

`loadOvertaken` is that eviction: one made while a load has begun its read under a
key that the eviction covers, or that shares the flight of one. In a run without
such an eviction, whatever is cached or in flight for a covered key was read after
the last eviction that covers it.

## Main definitions

* `Covers`: An eviction drops every entry a request can be answered from.
* `FreshAfterInvalidation`: A lookup that started after an eviction was answered
  from a read that began after it.
* `LoadOvertaken`: An eviction is made while a covered load has begun its read.
* `CacheInv`: What is cached or in flight is newer than the evictions that cover it.

## Theorems

* `inv_act`: A step that overtakes no load keeps the invariant.
* `fresh_after_invalidation`: The four caches answer from reads that began after
  the eviction, in every run in which no load is overtaken.
* `overtakenLoad_stale`: Each of the four caches answers from an older read when
  one is.
-/

namespace JenticOne

namespace Broker

namespace AuthCache

variable {R K F V I : Type} {C : Kind R K F V I} {w w' : World R K F V I} {n : Nat}

/-- The eviction drops every entry the request can be answered from. -/
def Covers (C : Kind R K F V I) (i : I) (r : R) : Prop :=
  ∀ q v, C.key q = C.key r → C.possible q v → C.evicts i (C.key r) v

/-- A lookup that started after an eviction that covers it was answered from a
    read that began after the eviction. -/
def FreshAfterInvalidation (C : Kind R K F V I) (w : World R K F V I) : Prop :=
  ∀ x ∈ w.lookups, ∀ value readAt, x.phase = .answered value readAt →
    ∀ p ∈ w.invalidations, Covers C p.2 x.request → p.1 < x.startedAt → p.1 < readAt

/-- Two requests share an entry or a flight. -/
def Shares (C : Kind R K F V I) (r q : R) : Prop :=
  C.key r = C.key q ∨ C.flightKey r = C.flightKey q

/-- The eviction is made while a load it covers has begun its read. -/
def LoadOvertaken (C : Kind R K F V I) (w : World R K F V I) (i : I) : Prop :=
  ∃ x ∈ w.lookups, ∃ coalesced started observed,
    x.phase = .loading coalesced started (some observed) ∧
    ∃ r, Shares C r x.request ∧ Covers C i r

/-- An action that overtakes no load. -/
def OvertakesNoLoad (C : Kind R K F V I) (w : World R K F V I) : Action R V I → Prop
  | .invalidate i => ¬ LoadOvertaken C w i
  | _ => True

/-! ## The invariant -/

/-- The tick comes after every eviction that covers the request. -/
def After (C : Kind R K F V I) (past : List (Nat × I)) (r : R) (t : Nat) : Prop :=
  ∀ p ∈ past, Covers C p.2 r → p.1 < t

/-- The tick comes after every eviction before the lookup that covers it. -/
def Fresh (C : Kind R K F V I) (past : List (Nat × I)) (x : Lookup R V) (t : Nat) : Prop :=
  ∀ p ∈ past, Covers C p.2 x.request → p.1 < x.startedAt → p.1 < t

/-- An answer that is newer than the evictions of every request it may reach. -/
structure Current (C : Kind R K F V I) (past : List (Nat × I)) (q : R) (v : V) (t : Nat) :
    Prop where
  possible : C.possible q v
  after : ∀ r, Shares C r q → After C past r t

/-- The lookup at `l` leads the flight under `f`. -/
def Leads (C : Kind R K F V I) (w : World R K F V I) (l : Nat) (f : F) : Prop :=
  ∃ y started observed, w.lookups[l]? = some y ∧ y.phase = .loading true started observed ∧
    C.flightKey y.request = f

/-- The phase carries nothing that was read. -/
def Phase.unread : Phase V → Bool
  | .loading _ _ (some _) | .answered .. => false
  | _ => true

/-- A flight whose leader is in this phase is over, with nothing stale in it for
    the waiter. -/
inductive Settles (C : Kind R K F V I) (past : List (Nat × I)) (x : Lookup R V) :
    Phase V → Prop
  | failed : Settles C past x .failed
  | cancelled : Settles C past x .cancelled
  | answered (v : V) (t : Nat) : Fresh C past x t → Settles C past x (.answered v t)

theorem fresh_of_after {x : Lookup R V} {t : Nat} (h : After C w.invalidations x.request t) :
    Fresh C w.invalidations x t :=
  fun p hp hcov _ => h p hp hcov

theorem leads_lt {l : Nat} {f : F} (h : Leads C w l f) : l < w.lookups.length := by
  rcases h with ⟨y, _, _, hy, -⟩
  exact (List.getElem?_eq_some_iff.mp hy).1

variable [DecidableEq K] [DecidableEq F]

/-- What is cached or in flight under a key was read after every eviction that
    covers it, up to tick `n`. -/
structure CacheInv (C : Kind R K F V I) (w : World R K F V I) (n : Nat) : Prop where
  started : ∀ (k : Nat) (x : Lookup R V), w.lookups[k]? = some x → x.startedAt < n
  before : ∀ p ∈ w.invalidations, p.1 < n
  db : ∀ r, C.possible r (w.db r)
  cached : ∀ k e, w.cache.get? k = some e → (∃ q, C.key q = k ∧ C.possible q e.value) ∧
    ∀ r, C.key r = k → After C w.invalidations r e.readAt
  loading : ∀ (k : Nat) (x : Lookup R V) coalesced started v t, w.lookups[k]? = some x →
    x.phase = .loading coalesced started (some (v, t)) → Current C w.invalidations x.request v t
  waiting : ∀ (k : Nat) (x : Lookup R V) l, w.lookups[k]? = some x → x.phase = .waiting l →
    Leads C w l (C.flightKey x.request) ∨
      ∃ y, w.lookups[l]? = some y ∧ Settles C w.invalidations x y.phase
  flights : ∀ f l, w.inFlight.get? f = some l → Leads C w l f
  answered : ∀ (k : Nat) (x : Lookup R V) v t, w.lookups[k]? = some x → x.phase = .answered v t → Fresh C w.invalidations x t

theorem inv_initial {db : R → V} (hdb : ∀ r, C.possible r (db r)) :
    CacheInv C (World.initial db) 0 where
  started k x h := absurd h (by simp [World.initial])
  before p h := absurd h List.not_mem_nil
  db := hdb
  cached k e h := absurd h (by simp [World.initial, Dict.get?_empty])
  loading k x _ _ _ _ h := absurd h (by simp [World.initial])
  waiting k x l h := absurd h (by simp [World.initial])
  flights f l h := absurd h (by simp [World.initial, Dict.get?_empty])
  answered k x _ _ h := absurd h (by simp [World.initial])

theorem inv_mono (inv : CacheInv C w n) {m : Nat} (h : n ≤ m) : CacheInv C w m :=
  ⟨fun k x hx => lt_of_lt_of_le (inv.started k x hx) h,
    fun p hp => lt_of_lt_of_le (inv.before p hp) h, inv.db, inv.cached, inv.loading, inv.waiting,
    inv.flights, inv.answered⟩

/-! ## One lookup moves on -/

/-- A lookup moves to a phase that is allowed, from one in which it had no outcome;
    the cache and the flights change beside it. -/
theorem inv_setPhase (inv : CacheInv C w n) {l : Nat} {x : Lookup R V}
    (hx : w.lookups[l]? = some x) (hopen : ∀ y, ¬ Settles C w.invalidations y x.phase) {ph : Phase V}
    {cache : Dict K (CacheEntry V)} {inFlight : Dict F Nat}
    (hcache : ∀ k e, cache.get? k = some e → (∃ q, C.key q = k ∧ C.possible q e.value) ∧
      ∀ r, C.key r = k → After C w.invalidations r e.readAt)
    (hload : ∀ c s v t, ph = .loading c s (some (v, t)) → Current C w.invalidations x.request v t)
    (hwait : ∀ m, ph = .waiting m → m ≠ l ∧ Leads C w m (C.flightKey x.request))
    (hans : ∀ v t, ph = .answered v t → Fresh C w.invalidations x t)
    (hlead : ∀ f, Leads C w l f → (∃ s o, ph = .loading true s o) ∨
      ∀ y, C.flightKey y.request = f → Settles C w.invalidations y ph)
    (hflights : ∀ f m, inFlight.get? f = some m → m ≠ l ∧ Leads C w m f ∨
      m = l ∧ C.flightKey x.request = f ∧ ∃ s o, ph = .loading true s o) :
    CacheInv C { w.setPhase l x ph with cache := cache, inFlight := inFlight } n := by
  have hlt : l < w.lookups.length := (List.getElem?_eq_some_iff.mp hx).1
  have hself : (w.lookups.set l { x with phase := ph })[l]? = some { x with phase := ph } :=
    List.getElem?_set_self hlt
  -- The other leaders are where they were.
  have hother : ∀ m f, m ≠ l → Leads C w m f →
      Leads C { w.setPhase l x ph with cache := cache, inFlight := inFlight } m f := by
    rintro m f hm ⟨y, s, o, hy, hphase, hf⟩
    exact ⟨y, s, o, (List.getElem?_set_ne (Ne.symm hm)).trans hy, hphase, hf⟩
  refine ⟨fun k y hy => ?_, inv.before, inv.db, hcache, fun k y c s v t hy hphase => ?_,
    fun k y m hy hphase => ?_, fun f m hm => ?_, fun k y v t hy hphase => ?_⟩
  · rcases Lists.getElem?_set_cases hy with ⟨hold, -⟩ | ⟨-, hnew⟩
    · exact inv.started k y hold
    · rw [hnew]
      exact inv.started l x hx
  · rcases Lists.getElem?_set_cases hy with ⟨hold, -⟩ | ⟨-, hnew⟩
    · exact inv.loading k y c s v t hold hphase
    · rw [hnew] at hphase ⊢
      exact hload c s v t hphase
  · rcases Lists.getElem?_set_cases hy with ⟨hold, -⟩ | ⟨-, hnew⟩
    · rcases inv.waiting k y m hold hphase with hleads | ⟨z, hz, hsettles⟩
      · by_cases hml : m = l
        · rw [hml] at hleads ⊢
          rcases hlead _ hleads with ⟨s, o, hph⟩ | hsettles
          · rcases hleads with ⟨z, -, -, hz, -, hf⟩
            rw [hx, Option.some.injEq] at hz
            rw [← hz] at hf
            exact .inl ⟨_, s, o, hself, hph, hf⟩
          · exact .inr ⟨_, hself, hsettles y rfl⟩
        · exact .inl (hother m _ hml hleads)
      · have hml : m ≠ l := by
          rintro rfl
          rw [hx, Option.some.injEq] at hz
          rw [← hz] at hsettles
          exact hopen y hsettles
        exact .inr ⟨z, (List.getElem?_set_ne (Ne.symm hml)).trans hz, hsettles⟩
    · rw [hnew] at hphase ⊢
      rcases hwait m hphase with ⟨hml, hleads⟩
      exact .inl (hother m _ hml hleads)
  · rcases hflights f m hm with ⟨hml, hleads⟩ | ⟨hml, hf, s, o, hph⟩
    · exact hother m f hml hleads
    · rw [hml]
      exact ⟨_, s, o, hself, hph, hf⟩
  · rcases Lists.getElem?_set_cases hy with ⟨hold, -⟩ | ⟨-, hnew⟩
    · exact inv.answered k y v t hold hphase
    · rw [hnew] at hphase ⊢
      exact hans v t hphase

/-- The same, to a phase that carries nothing that was read. -/
theorem inv_setPhase_unread (inv : CacheInv C w n) {l : Nat} {x : Lookup R V}
    (hx : w.lookups[l]? = some x) (hopen : ∀ y, ¬ Settles C w.invalidations y x.phase)
    {ph : Phase V} (hunread : ph.unread) {inFlight : Dict F Nat}
    (hwait : ∀ m, ph = .waiting m → m ≠ l ∧ Leads C w m (C.flightKey x.request))
    (hlead : ∀ f, Leads C w l f → (∃ s o, ph = .loading true s o) ∨
      ∀ y, C.flightKey y.request = f → Settles C w.invalidations y ph)
    (hflights : ∀ f m, inFlight.get? f = some m → m ≠ l ∧ Leads C w m f ∨
      m = l ∧ C.flightKey x.request = f ∧ ∃ s o, ph = .loading true s o) :
    CacheInv C { w.setPhase l x ph with inFlight := inFlight } n := by
  refine inv_setPhase inv hx hopen inv.cached ?_ hwait ?_ hlead hflights
  · rintro c s v t rfl
    exact absurd hunread Bool.false_ne_true
  · rintro v t rfl
    exact absurd hunread Bool.false_ne_true

omit [DecidableEq K] [DecidableEq F] in
theorem not_settles_loading {x y : Lookup R V} {c : Bool} {st : Time} {o : Option (V × Nat)}
    (h : x.phase = .loading c st o) : ¬ Settles C w.invalidations y x.phase := by
  rw [h]
  intro hs
  cases hs

omit [DecidableEq K] [DecidableEq F] in
theorem not_settles_waiting {x y : Lookup R V} {m : Nat} (h : x.phase = .waiting m) :
    ¬ Settles C w.invalidations y x.phase := by
  rw [h]
  intro hs
  cases hs

omit [DecidableEq K] [DecidableEq F] in
/-- A lookup that leads a flight is loading it. -/
theorem loading_of_leads {l : Nat} {x : Lookup R V} {f : F} (hx : w.lookups[l]? = some x)
    (h : Leads C w l f) : (∃ st o, x.phase = .loading true st o) ∧ C.flightKey x.request = f := by
  rcases h with ⟨y, st, o, hy, hphase, hf⟩
  rw [hx, Option.some.injEq] at hy
  rw [hy]
  exact ⟨⟨st, o, hphase⟩, hf⟩

/-- The flights that are left when the lookup at `l` gives up its own. -/
theorem flights_release (inv : CacheInv C w n) {l : Nat} {x : Lookup R V}
    (hx : w.lookups[l]? = some x) {f : F} {m : Nat}
    (h : (release C w.inFlight l x.request).get? f = some m) : m ≠ l ∧ Leads C w m f := by
  have hold : w.inFlight.get? f = some m ∧ m ≠ l := by
    unfold release at h
    split at h
    · rw [Dict.get?_erase] at h
      split at h
      · exact absurd h (by simp only [reduceCtorEq, not_false_eq_true])
      · rename_i hne
        refine ⟨h, ?_⟩
        rintro rfl
        exact hne (loading_of_leads hx (inv.flights f m h)).2
    · rename_i hother
      refine ⟨h, ?_⟩
      rintro rfl
      exact hother (by rw [(loading_of_leads hx (inv.flights f m h)).2]; exact h)
  exact ⟨hold.2, inv.flights f m hold.1⟩

/-- A load that ends with nothing to store. -/
theorem inv_stepDrop (inv : CacheInv C w n) {l : Nat} {x : Lookup R V}
    (hx : w.lookups[l]? = some x) {c : Bool} {st : Time} {o : Option (V × Nat)}
    (hphase : x.phase = .loading c st o) {ph : Phase V} (hph : ph = .failed ∨ ph = .cancelled) :
    CacheInv C (stepDrop C w l x ph) n := by
  refine inv_setPhase_unread inv hx (fun y => not_settles_loading hphase) ?_ ?_ ?_ ?_
  · rcases hph with h | h <;> (rw [h]; rfl)
  · rintro m rfl
    rcases hph with h | h <;> exact absurd h (by simp only [reduceCtorEq, not_false_eq_true])
  · intro f _
    right
    intro y _
    rcases hph with h | h
    · rw [h]
      exact .failed
    · rw [h]
      exact .cancelled
  · exact fun f m hm => .inl (flights_release inv hx hm)

/-- A statement of a read sees the database after every eviction so far, and what
    the read began with is after them already. -/
theorem inv_stepObserve (inv : CacheInv C w w.tick) {l : Nat} {x : Lookup R V}
    (hx : w.lookups[l]? = some x) (h : stepObserve w l x = some w') : CacheInv C w' w.tick := by
  unfold stepObserve at h
  split at h
  · rename_i c st o hphase
    rw [Option.some.injEq] at h
    rw [← h]
    refine inv_setPhase inv hx (fun y => not_settles_loading hphase) inv.cached ?_ ?_ ?_ ?_ ?_
    · intro c' s' v t hph
      rw [Phase.loading.injEq, Option.some.injEq, Prod.mk.injEq] at hph
      rcases hph with ⟨-, -, hv, ht⟩
      rw [← hv, ← ht]
      refine ⟨inv.db x.request, fun r hr p hp hcov => ?_⟩
      cases o with
      | none => exact inv.before p hp
      | some seen => exact (inv.loading l x c st seen.1 seen.2 hx hphase).after r hr p hp hcov
    · intro m hm
      exact absurd hm (by simp only [reduceCtorEq, not_false_eq_true])
    · intro v t hv
      exact absurd hv (by simp only [reduceCtorEq, not_false_eq_true])
    · intro f hf
      rcases loading_of_leads hx hf with ⟨⟨s', o', hlead⟩, -⟩
      rw [hphase, Phase.loading.injEq] at hlead
      rw [hlead.1]
      exact .inl ⟨_, _, rfl⟩
    · intro f m hm
      have hleads := inv.flights f m hm
      by_cases hml : m = l
      · rw [hml] at hleads
        rcases loading_of_leads hx hleads with ⟨⟨s', o', hlead⟩, hf⟩
        rw [hphase, Phase.loading.injEq] at hlead
        rw [hlead.1]
        exact .inr ⟨hml, hf, _, _, rfl⟩
      · exact .inl ⟨hml, hleads⟩
  · exact absurd h (by simp only [reduceCtorEq, not_false_eq_true])

omit [DecidableEq F] in
/-- What the bound keeps was there before. -/
theorem get?_bounded {maxEntries : Nat} {cache : Dict K (CacheEntry V)} {k : K}
    {e : CacheEntry V} (h : (bounded maxEntries cache).get? k = some e) :
    cache.get? k = some e := by
  rw [Dict.get?_eq_some_iff] at h ⊢
  exact List.mem_of_mem_drop h

/-- A load stores what it read, which is after every eviction of the requests that
    share its entry or its flight. -/
theorem inv_stepFinish (inv : CacheInv C w n) {l : Nat} {x : Lookup R V} {now : Time}
    (hx : w.lookups[l]? = some x) (h : stepFinish C w l x now = some w') :
    CacheInv C w' n := by
  unfold stepFinish at h
  split at h
  · rename_i c st v t hphase
    have hcurrent := inv.loading l x c st v t hx hphase
    rw [Option.some.injEq] at h
    rw [← h]
    refine inv_setPhase inv hx (fun y => not_settles_loading hphase) ?_ ?_ ?_ ?_ ?_ ?_
    · intro k e he
      have hset := get?_bounded he
      rw [Dict.get?_set] at hset
      split at hset
      · rename_i hk
        rw [Option.some.injEq] at hset
        rw [← hset, ← hk]
        exact ⟨⟨x.request, rfl, hcurrent.possible⟩, fun r hr => hcurrent.after r (.inl hr)⟩
      · exact inv.cached k e hset
    · intro c' s' v' t' hph
      exact absurd hph (by simp only [reduceCtorEq, not_false_eq_true])
    · intro m hm
      exact absurd hm (by simp only [reduceCtorEq, not_false_eq_true])
    · intro v' t' hph
      rw [Phase.answered.injEq] at hph
      rw [← hph.2]
      exact fresh_of_after (hcurrent.after x.request (.inl rfl))
    · intro f hf
      right
      intro y hy
      have hkey := (loading_of_leads hx hf).2
      exact .answered v t (fresh_of_after (hcurrent.after y.request (.inr (hy.trans hkey.symm))))
    · exact fun f m hm => .inl (flights_release inv hx hm)
  · exact absurd h (by simp only [reduceCtorEq, not_false_eq_true])

/-! ## A lookup begins -/

/-- A lookup is added, in a phase that is allowed. -/
theorem inv_append (inv : CacheInv C w n) {x : Lookup R V} (hstart : x.startedAt < n)
    {cache : Dict K (CacheEntry V)} {inFlight : Dict F Nat}
    (hcache : ∀ k e, cache.get? k = some e → (∃ q, C.key q = k ∧ C.possible q e.value) ∧
      ∀ r, C.key r = k → After C w.invalidations r e.readAt)
    (hload : ∀ c s o, x.phase ≠ .loading c s (some o))
    (hwait : ∀ m, x.phase = .waiting m → Leads C w m (C.flightKey x.request))
    (hans : ∀ v t, x.phase = .answered v t → Fresh C w.invalidations x t)
    (hflights : ∀ f m, inFlight.get? f = some m → Leads C w m f ∨
      m = w.lookups.length ∧ C.flightKey x.request = f ∧ ∃ s o, x.phase = .loading true s o) :
    CacheInv C { w with cache := cache, inFlight := inFlight, lookups := w.lookups ++ [x] }
      n := by
  have hplace : ∀ (m : Nat) (y : Lookup R V), w.lookups[m]? = some y →
      (w.lookups ++ [x])[m]? = some y := by
    intro m y hy
    rw [List.getElem?_append_left (List.getElem?_eq_some_iff.mp hy).1]
    exact hy
  have hself : (w.lookups ++ [x])[w.lookups.length]? = some x := by
    rw [List.getElem?_append_right (le_refl _), Nat.sub_self]
    rfl
  have hother : ∀ m f, Leads C w m f →
      Leads C { w with cache := cache, inFlight := inFlight, lookups := w.lookups ++ [x] } m f := by
    rintro m f ⟨y, s, o, hy, hphase, hf⟩
    exact ⟨y, s, o, hplace m y hy, hphase, hf⟩
  refine ⟨fun k y hy => ?_, inv.before, inv.db, hcache, fun k y c s v t hy hphase => ?_,
    fun k y m hy hphase => ?_, fun f m hm => ?_, fun k y v t hy hphase => ?_⟩
  · rcases Lists.getElem?_append_cases hy with ⟨hold, -⟩ | ⟨-, hnew⟩
    · exact inv.started k y hold
    · rw [hnew]
      exact hstart
  · rcases Lists.getElem?_append_cases hy with ⟨hold, -⟩ | ⟨-, hnew⟩
    · exact inv.loading k y c s v t hold hphase
    · rw [hnew] at hphase
      exact absurd hphase (hload c s (v, t))
  · rcases Lists.getElem?_append_cases hy with ⟨hold, -⟩ | ⟨-, hnew⟩
    · rcases inv.waiting k y m hold hphase with hleads | ⟨z, hz, hsettles⟩
      · exact .inl (hother m _ hleads)
      · exact .inr ⟨z, hplace m z hz, hsettles⟩
    · rw [hnew] at hphase ⊢
      exact .inl (hother m _ (hwait m hphase))
  · rcases hflights f m hm with hleads | ⟨hml, hf, s, o, hph⟩
    · exact hother m f hleads
    · rw [hml]
      exact ⟨x, s, o, hself, hph, hf⟩
  · rcases Lists.getElem?_append_cases hy with ⟨hold, -⟩ | ⟨-, hnew⟩
    · exact inv.answered k y v t hold hphase
    · rw [hnew] at hphase ⊢
      exact hans v t hphase

/-- The same, in a phase that carries nothing that was read. -/
theorem inv_append_unread (inv : CacheInv C w n) {x : Lookup R V} (hstart : x.startedAt < n)
    (hunread : x.phase.unread) {inFlight : Dict F Nat}
    (hwait : ∀ m, x.phase = .waiting m → Leads C w m (C.flightKey x.request))
    (hflights : ∀ f m, inFlight.get? f = some m → Leads C w m f ∨
      m = w.lookups.length ∧ C.flightKey x.request = f ∧ ∃ s o, x.phase = .loading true s o) :
    CacheInv C { w with inFlight := inFlight, lookups := w.lookups ++ [x] } n := by
  refine inv_append inv hstart inv.cached (fun c s o hph => ?_) hwait (fun v t hph => ?_) hflights
  · rw [hph] at hunread
    exact absurd hunread Bool.false_ne_true
  · rw [hph] at hunread
    exact absurd hunread Bool.false_ne_true

omit [DecidableEq K] in
/-- Where the single flight takes a caller: to the flight of its key, or to a load
    that has read nothing yet, which leads the key's flight where it is coalesced. -/
theorem singleFlightDo_cases (C : Kind R K F V I) (w : World R K F V I) (l : Nat) (r : R)
    (st : Time) :
    (∃ m, w.inFlight.get? (C.flightKey r) = some m ∧
      singleFlightDo C w l r st = (.waiting m, w.inFlight)) ∨
    singleFlightDo C w l r st = (.loading false st none, w.inFlight) ∨
    singleFlightDo C w l r st = (.loading true st none, w.inFlight.set (C.flightKey r) l) := by
  unfold singleFlightDo
  cases hget : w.inFlight.get? (C.flightKey r) with
  | some m => exact .inl ⟨m, rfl, rfl⟩
  | none =>
      dsimp only
      split
      · exact .inr (.inl rfl)
      · exact .inr (.inr rfl)

theorem inv_stepLookup (inv : CacheInv C w w.tick) (r : R) (now st : Time) :
    CacheInv C (stepLookup C w r now st) (w.tick + 1) := by
  have hmono := inv_mono inv (Nat.le_succ w.tick)
  unfold stepLookup
  cases hhit : hit C w r now with
  | some e =>
      -- The entry was read after every eviction of its key.
      unfold hit at hhit
      rw [Option.filter_eq_some_iff] at hhit
      have hcached := inv.cached _ e hhit.1
      refine inv_append hmono (Nat.lt_succ_self _) (fun k e' he' => ?_) ?_ ?_ ?_ ?_
      · rw [Dict.get?_set] at he'
        split at he'
        · rename_i hk
          rw [Option.some.injEq] at he'
          rw [← he', ← hk]
          exact hcached
        · exact inv.cached k e' he'
      · intro c s o hph
        exact absurd hph (by simp only [reduceCtorEq, not_false_eq_true])
      · intro m hph
        exact absurd hph (by simp only [reduceCtorEq, not_false_eq_true])
      · intro v t hph
        rw [Phase.answered.injEq] at hph
        rw [← hph.2]
        exact fresh_of_after (hcached.2 r rfl)
      · exact fun f m hm => .inl (inv.flights f m hm)
  | none =>
      dsimp only
      rcases singleFlightDo_cases C w w.lookups.length r st with ⟨m, hm, hdo⟩ | hdo | hdo
      · rw [hdo]
        refine inv_append_unread hmono (Nat.lt_succ_self _) rfl (fun m' hph => ?_)
          (fun f m' hm' => .inl (inv.flights f m' hm'))
        rw [Phase.waiting.injEq] at hph
        rw [← hph]
        exact inv.flights _ m hm
      · rw [hdo]
        refine inv_append_unread hmono (Nat.lt_succ_self _) rfl (fun m' hph => ?_)
          (fun f m' hm' => .inl (inv.flights f m' hm'))
        exact absurd hph (by simp only [reduceCtorEq, not_false_eq_true])
      · rw [hdo]
        refine inv_append_unread hmono (Nat.lt_succ_self _) rfl (fun m' hph => ?_)
          (fun f m' hm' => ?_)
        · exact absurd hph (by simp only [reduceCtorEq, not_false_eq_true])
        · rw [Dict.get?_set] at hm'
          split at hm'
          · rename_i hf
            rw [Option.some.injEq] at hm'
            exact .inr ⟨hm'.symm, hf, st, none, rfl⟩
          · exact .inl (inv.flights f m' hm')

/-- A waiter wakes up to its flight's outcome, or goes on to another flight. -/
theorem inv_stepWake (inv : CacheInv C w n) {l m : Nat} {x : Lookup R V} {st : Time}
    (hx : w.lookups[l]? = some x) (hphase : x.phase = .waiting m)
    (h : stepWake C w l x st m = some w') : CacheInv C w' n := by
  -- Nobody waits for a waiter.
  have hnolead : ∀ f, ¬ Leads C w l f := by
    intro f hf
    rcases (loading_of_leads hx hf).1 with ⟨s, o, hload⟩
    rw [hphase] at hload
    exact absurd hload (by simp only [reduceCtorEq, not_false_eq_true])
  have hflights : ∀ f k, w.inFlight.get? f = some k → k ≠ l ∧ Leads C w k f := by
    intro f k hk
    have hleads := inv.flights f k hk
    refine ⟨?_, hleads⟩
    rintro rfl
    exact hnolead f hleads
  have hopen : ∀ y, ¬ Settles C w.invalidations y x.phase := fun y => not_settles_waiting hphase
  have hoff : ∀ (ph : Phase V) f, Leads C w l f → (∃ s o, ph = .loading true s o) ∨
      ∀ y : Lookup R V, C.flightKey y.request = f → Settles C w.invalidations y ph :=
    fun _ f hf => absurd hf (hnolead f)
  unfold stepWake at h
  split at h
  · rename_i v t hleader
    rw [Option.some.injEq] at h
    rw [← h]
    rw [Option.map_eq_some_iff] at hleader
    rcases hleader with ⟨y, hy, hyphase⟩
    refine inv_setPhase inv hx hopen inv.cached ?_ ?_ ?_ (hoff _)
      (fun f k hk => .inl (hflights f k hk))
    · intro c s v' t' hph
      exact absurd hph (by simp only [reduceCtorEq, not_false_eq_true])
    · intro k hk
      exact absurd hk (by simp only [reduceCtorEq, not_false_eq_true])
    · intro v' t' hph
      rw [Phase.answered.injEq] at hph
      rw [← hph.2]
      rcases inv.waiting l x m hx hphase with hleads | ⟨z, hz, hsettles⟩
      · rcases (loading_of_leads hy hleads).1 with ⟨s, o, hload⟩
        rw [hyphase] at hload
        exact absurd hload (by simp only [reduceCtorEq, not_false_eq_true])
      · rw [hy, Option.some.injEq] at hz
        rw [← hz, hyphase] at hsettles
        cases hsettles with
        | answered v t hfresh => exact hfresh
  · rw [Option.some.injEq] at h
    rw [← h]
    refine inv_setPhase_unread inv hx hopen rfl (fun k hk => ?_) (hoff _)
      (fun f k hk => .inl (hflights f k hk))
    exact absurd hk (by simp only [reduceCtorEq, not_false_eq_true])
  · dsimp only at h
    rw [Option.some.injEq] at h
    rw [← h]
    rcases singleFlightDo_cases C w l x.request st with ⟨k, hk, hdo⟩ | hdo | hdo
    · rw [hdo]
      refine inv_setPhase_unread inv hx hopen rfl (fun k' hk' => ?_) (hoff _)
        (fun f k hk => .inl (hflights f k hk))
      rw [Phase.waiting.injEq] at hk'
      rw [← hk']
      exact hflights _ k hk
    · rw [hdo]
      refine inv_setPhase_unread inv hx hopen rfl (fun k' hk' => ?_) (hoff _)
        (fun f k hk => .inl (hflights f k hk))
      exact absurd hk' (by simp only [reduceCtorEq, not_false_eq_true])
    · rw [hdo]
      refine inv_setPhase_unread inv hx hopen rfl (fun k' hk' => ?_) (hoff _) (fun f k hk => ?_)
      · exact absurd hk' (by simp only [reduceCtorEq, not_false_eq_true])
      · rw [Dict.get?_set] at hk
        split at hk
        · rename_i hf
          rw [Option.some.injEq] at hk
          exact .inr ⟨hk.symm, hf, st, none, rfl⟩
        · exact .inl (hflights f k hk)
  · exact absurd h (by simp only [reduceCtorEq, not_false_eq_true])

/-- A waiter that is cancelled leaves its flight alone. -/
theorem inv_cancelWaiter (inv : CacheInv C w n) {l m : Nat} {x : Lookup R V}
    (hx : w.lookups[l]? = some x) (hphase : x.phase = .waiting m) :
    CacheInv C (w.setPhase l x .cancelled) n := by
  refine inv_setPhase_unread inv hx (fun y => not_settles_waiting hphase) rfl (fun k hk => ?_)
    (fun f _ => .inr fun y _ => .cancelled) (fun f k hk => ?_)
  · exact absurd hk (by simp only [reduceCtorEq, not_false_eq_true])
  · have hleads := inv.flights f k hk
    refine .inl ⟨?_, hleads⟩
    rintro rfl
    rcases (loading_of_leads hx hleads).1 with ⟨s, o, hload⟩
    rw [hphase] at hload
    exact absurd hload (by simp only [reduceCtorEq, not_false_eq_true])

/-! ## An eviction -/

/-- An eviction that overtakes no load drops what it covers from the cache, and
    finds nothing of it in flight. -/
theorem inv_invalidate (inv : CacheInv C w w.tick) {i : I} (hok : ¬ LoadOvertaken C w i) :
    CacheInv C { w with
      cache := w.cache.filter (fun k e => !C.evicts i k e.value)
      invalidations := (w.tick, i) :: w.invalidations } (w.tick + 1) := by
  have hfresh : ∀ (k : Nat) (x : Lookup R V) t, w.lookups[k]? = some x →
      Fresh C w.invalidations x t → Fresh C ((w.tick, i) :: w.invalidations) x t := by
    intro k x t hx hold p hp hcov hlt
    rcases List.mem_cons.mp hp with rfl | hmem
    · -- No lookup started after the eviction that is just made.
      have := inv.started k x hx
      omega
    · exact hold p hmem hcov hlt
  refine ⟨fun k x hx => Nat.lt_succ_of_lt (inv.started k x hx), fun p hp => ?_, inv.db,
    fun k e he => ?_, fun k x c s v t hx hphase => ?_, fun k x m hx hphase => ?_, inv.flights,
    fun k x v t hx hphase => hfresh k x t hx (inv.answered k x v t hx hphase)⟩
  · rcases List.mem_cons.mp hp with rfl | hmem
    · exact Nat.lt_succ_self _
    · exact Nat.lt_succ_of_lt (inv.before p hmem)
  · rw [Dict.get?_filter, Option.filter_eq_some_iff] at he
    rcases inv.cached k e he.1 with ⟨⟨q, hq, hpossible⟩, hafter⟩
    refine ⟨⟨q, hq, hpossible⟩, fun r hr p hp hcov => ?_⟩
    rcases List.mem_cons.mp hp with rfl | hmem
    · have hevicted := hcov q e.value (hq.trans hr.symm) hpossible
      rw [hr] at hevicted
      have hkept := he.2
      rw [hevicted] at hkept
      exact absurd hkept Bool.false_ne_true
    · exact hafter r hr p hmem hcov
  · have hcurrent := inv.loading k x c s v t hx hphase
    refine ⟨hcurrent.possible, fun r hr p hp hcov => ?_⟩
    rcases List.mem_cons.mp hp with rfl | hmem
    · exact absurd ⟨x, List.mem_of_getElem? hx, c, s, (v, t), hphase, r, hr, hcov⟩ hok
    · exact hcurrent.after r hr p hmem hcov
  · rcases inv.waiting k x m hx hphase with hleads | ⟨y, hy, hsettles⟩
    · exact .inl hleads
    · refine .inr ⟨y, hy, ?_⟩
      cases hyphase : y.phase with
      | failed => exact .failed
      | cancelled => exact .cancelled
      | answered v t =>
          rw [hyphase] at hsettles
          cases hsettles with
          | answered v t hold => exact .answered v t (hfresh k x t hx hold)
      | waiting l =>
          rw [hyphase] at hsettles
          cases hsettles
      | loading c s o =>
          rw [hyphase] at hsettles
          cases hsettles

variable [DecidableEq R]

omit [DecidableEq K] [DecidableEq F] in
theorem possible_changes {changes : List (R × V)} {db : R → V}
    (hdb : ∀ r, C.possible r (db r)) (h : changes.all (fun x => C.possible x.1 x.2)) (r : R) :
    C.possible r (changes.foldl (fun db x => Function.update db x.1 x.2) db r) := by
  induction changes generalizing db with
  | nil => exact hdb r
  | cons x rest ih =>
      rw [List.all_cons, Bool.and_eq_true] at h
      refine ih (fun q => ?_) h.2
      dsimp only
      by_cases hq : q = x.1
      · rw [hq, Function.update_self]
        exact h.1
      · rw [Function.update_of_ne hq]
        exact hdb q

/-- A step that overtakes no load keeps the invariant. -/
theorem inv_act (inv : CacheInv C w w.tick) {a : Action R V I} (hok : OvertakesNoLoad C w a)
    (h : act C w a = some w') : CacheInv C w' (w.tick + 1) := by
  have hmono : ∀ {w'}, CacheInv C w' w.tick → CacheInv C w' (w.tick + 1) :=
    fun hinv => inv_mono hinv (Nat.le_succ _)
  cases a with
  | change changes =>
      simp only [act, Option.ite_none_right_eq_some, Option.some.injEq] at h
      rw [← h.2]
      exact hmono ⟨inv.started, inv.before, possible_changes inv.db h.1, inv.cached, inv.loading,
        inv.waiting, inv.flights, inv.answered⟩
  | lookup r now st =>
      simp only [act, Option.some.injEq] at h
      rw [← h]
      exact inv_stepLookup inv r now st
  | observe l =>
      simp only [act] at h
      split at h
      · rename_i x hx
        exact hmono (inv_stepObserve inv hx h)
      · exact absurd h (by simp only [reduceCtorEq, not_false_eq_true])
  | finish l now =>
      simp only [act] at h
      split at h
      · rename_i x hx
        exact hmono (inv_stepFinish inv hx h)
      · exact absurd h (by simp only [reduceCtorEq, not_false_eq_true])
  | fail l =>
      simp only [act] at h
      split at h
      · rename_i x hx
        split at h
        · rename_i c s o hphase
          rw [Option.some.injEq] at h
          rw [← h]
          exact hmono (inv_stepDrop inv hx hphase (.inl rfl))
        · exact absurd h (by simp only [reduceCtorEq, not_false_eq_true])
      · exact absurd h (by simp only [reduceCtorEq, not_false_eq_true])
  | wake l st =>
      simp only [act] at h
      split at h
      · rename_i x hx
        split at h
        · rename_i m hphase
          exact hmono (inv_stepWake inv hx hphase h)
        · exact absurd h (by simp only [reduceCtorEq, not_false_eq_true])
      · exact absurd h (by simp only [reduceCtorEq, not_false_eq_true])
  | cancel l =>
      simp only [act] at h
      split at h
      · rename_i x hx
        split at h
        · rename_i c s o hphase
          rw [Option.some.injEq] at h
          rw [← h]
          exact hmono (inv_stepDrop inv hx hphase (.inr rfl))
        · rename_i m hphase
          rw [Option.some.injEq] at h
          rw [← h]
          exact hmono (inv_cancelWaiter inv hx hphase)
        · exact absurd h (by simp only [reduceCtorEq, not_false_eq_true])
      · exact absurd h (by simp only [reduceCtorEq, not_false_eq_true])
  | invalidate i =>
      simp only [act, Option.some.injEq] at h
      rw [← h]
      exact inv_invalidate inv hok

/-- Every state of a run in which no load is overtaken is fresh. -/
theorem fresh_of_reachesWhen (h : (authCache C).ReachesWhen (OvertakesNoLoad C) w) :
    FreshAfterInvalidation C w := by
  have hstart : ∀ s, (authCache C).start s → CacheInv C s s.tick := by
    rintro s ⟨db, hdb, rfl⟩
    exact inv_initial hdb
  have hstep : ∀ s a s', CacheInv C s s.tick → OvertakesNoLoad C s a →
      (authCache C).step s a = some s' → CacheInv C s' s'.tick := by
    intro s a s' inv hok hs
    simp only [authCache, step, Option.map_eq_some_iff] at hs
    rcases hs with ⟨s₁, hact, rfl⟩
    have hnext := inv_act inv hok hact
    exact ⟨hnext.started, hnext.before, hnext.db, hnext.cached, hnext.loading, hnext.waiting,
      hnext.flights, hnext.answered⟩
  have inv := Machine.reachesWhen_invariant hstart hstep h
  intro x hx v t hphase
  rcases List.mem_iff_getElem?.mp hx with ⟨k, hk⟩
  exact inv.answered k x v t hk hphase

/-- A run that ends with an answer from before an eviction that covers it. -/
theorem not_fresh_of_run [DecidableEq V] [DecidableEq I] (db : R → V)
    (acts : List (Action R V I)) (r : R) (v : V) (i : I) (started readAt made : Nat)
    (hdb : ∀ r, C.possible r (db r)) (hcov : Covers C i r) (hmade : made < started)
    (hold : readAt ≤ made)
    (hrun : ((authCache C).runActions (World.initial db) acts).any (fun w =>
      ⟨r, started, .answered v readAt⟩ ∈ w.lookups ∧ (made, i) ∈ w.invalidations)) :
    ¬ ∀ w, (authCache C).Reachable w → FreshAfterInvalidation C w := by
  intro hclaim
  rcases (Option.any_eq_true _ _).mp hrun with ⟨w, hw, hcheck⟩
  rw [decide_eq_true_eq] at hcheck
  have hreach : (authCache C).Reachable w :=
    Machine.reachable_runActions (Machine.ReachesWhen.start _ ⟨db, hdb, rfl⟩) hw
  have hlate := hclaim w hreach _ hcheck.1 v readAt rfl _ hcheck.2 hcov hmade
  exact absurd hold (Nat.not_le_of_lt hlate)

/-- A lookup reads, the database changes, the change is announced, the lookup
    stores what it read, and another lookup follows. -/
def overtakenLoad (r : R) (v : V) (i : I) : List (Action R V I) :=
  [.lookup r 0 0, .observe 0, .change [(r, v)], .invalidate i, .finish 0 1, .lookup r 2 2]

end AuthCache

open AuthCache

/-! ## The four caches -/

/-- In every run in which no eviction overtakes a load it covers, each of the four
    caches answers a lookup that starts after an eviction from a database read that
    began after it. -/
theorem fresh_after_invalidation (rules tokens statuses derivations : CacheConfig)
    (ρ δ : Type) (sha256 actorOf : String → String) :
    (∀ w, (authCache (agentRuleEvaluator rules ρ)).ReachesWhen
        (OvertakesNoLoad (agentRuleEvaluator rules ρ)) w →
      FreshAfterInvalidation (agentRuleEvaluator rules ρ) w) ∧
    (∀ w, (authCache (cachedTokenValidator tokens sha256 actorOf)).ReachesWhen
        (OvertakesNoLoad (cachedTokenValidator tokens sha256 actorOf)) w →
      FreshAfterInvalidation (cachedTokenValidator tokens sha256 actorOf) w) ∧
    (∀ w, (authCache (cachedActorStatus statuses)).ReachesWhen
        (OvertakesNoLoad (cachedActorStatus statuses)) w →
      FreshAfterInvalidation (cachedActorStatus statuses) w) ∧
    (∀ w, (authCache (cachingCredentialDeriver derivations δ)).ReachesWhen
        (OvertakesNoLoad (cachingCredentialDeriver derivations δ)) w →
      FreshAfterInvalidation (cachingCredentialDeriver derivations δ) w) :=
  ⟨fun _ h => fresh_of_reachesWhen h, fun _ h => fresh_of_reachesWhen h,
    fun _ h => fresh_of_reachesWhen h, fun _ h => fresh_of_reachesWhen h⟩

def exampleCacheConfig : CacheConfig := ⟨30, 100⟩

def exampleBinding : RuleRequest := ⟨"agnt_1", "cred_1", none⟩

/-- The token of an agent, and a digest. -/
def exampleToken : String := "at_1"

def exampleDigest (token : String) : String := "sha256:" ++ token

def exampleIdentity : Identity := ⟨"agnt_1", true, none⟩

def exampleActor : StatusRequest := ⟨"agnt_1", "agent"⟩

def exampleDerivation : DerivationRequest := ⟨"agnt_1", "acme", "api", "1"⟩

/-- Each of the four caches answers from a read that is older than the eviction. -/
theorem overtakenLoad_stale :
    (¬ ∀ w, (authCache (agentRuleEvaluator exampleCacheConfig String)).Reachable w →
      FreshAfterInvalidation (agentRuleEvaluator exampleCacheConfig String) w) ∧
    (¬ ∀ w, (authCache (cachedTokenValidator exampleCacheConfig exampleDigest
        (fun _ => "agnt_1"))).Reachable w →
      FreshAfterInvalidation (cachedTokenValidator exampleCacheConfig exampleDigest
        (fun _ => "agnt_1")) w) ∧
    (¬ ∀ w, (authCache (cachedActorStatus exampleCacheConfig)).Reachable w →
      FreshAfterInvalidation (cachedActorStatus exampleCacheConfig) w) ∧
    (¬ ∀ w, (authCache (cachingCredentialDeriver exampleCacheConfig String)).Reachable w →
      FreshAfterInvalidation (cachingCredentialDeriver exampleCacheConfig String) w) := by
  have hrules : (RuleInvalidation.binding "agnt_1" "cred_1").evicts (ruleKey exampleBinding) := by
    decide +kernel
  have hderivations :
      ("agnt_1" ++ nul).toList.isPrefixOf (derivationKey exampleDerivation).toList := by
    decide +kernel
  refine ⟨?_, ?_, ?_, ?_⟩
  · exact not_fresh_of_run (fun _ => ["allow"])
      (overtakenLoad exampleBinding [] (.binding "agnt_1" "cred_1")) exampleBinding ["allow"]
      (.binding "agnt_1" "cred_1") 5 1 3 (fun _ => rfl) (fun _ _ _ _ => hrules)
      (by omega) (by omega) (by decide +kernel)
  · exact not_fresh_of_run (fun _ => some exampleIdentity)
      (overtakenLoad exampleToken none (.actor "agnt_1")) exampleToken (some exampleIdentity)
      (.actor "agnt_1") 5 1 3 (fun _ => rfl) (fun _ _ _ h => h)
      (by omega) (by omega) (by decide +kernel)
  · exact not_fresh_of_run (fun _ => true)
      (overtakenLoad exampleActor false (.actor "agnt_1")) exampleActor true
      (.actor "agnt_1") 5 1 3 (fun _ => rfl) (fun _ _ _ _ => rfl)
      (by omega) (by omega) (by decide +kernel)
  · exact not_fresh_of_run (fun _ => "bound")
      (overtakenLoad exampleDerivation "unbound" (.agent "agnt_1")) exampleDerivation "bound"
      (.agent "agnt_1") 5 1 3 (fun _ => rfl) (fun _ _ _ _ => hderivations)
      (by omega) (by omega) (by decide +kernel)

/-- The load of the first lookup is over when the rules change, so the second
    lookup reads them anew. -/
def rereadRules : List (Action RuleRequest (List String) RuleInvalidation) :=
  [.lookup exampleBinding 0 0, .observe 0, .finish 0 1, .change [(exampleBinding, [])],
    .invalidate (.binding "agnt_1" "cred_1"), .lookup exampleBinding 2 2, .observe 1,
    .finish 1 3]

/-- No load is under way. -/
def noLoadUnderWay (w : World RuleRequest String String (List String) RuleInvalidation) :
    Action RuleRequest (List String) RuleInvalidation → Bool
  | .invalidate _ => w.lookups.all (fun x => match x.phase with | .loading .. => false | _ => true)
  | _ => true

theorem fresh_after_invalidation_rereadRules :
    ∃ w, (authCache (agentRuleEvaluator exampleCacheConfig String)).runWhen noLoadUnderWay
        (World.initial fun _ => ["allow"]) rereadRules = some w ∧
      ⟨exampleBinding, 5, .answered [] 6⟩ ∈ w.lookups ∧
      FreshAfterInvalidation (agentRuleEvaluator exampleCacheConfig String) w := by
  have hrun : ((authCache (agentRuleEvaluator exampleCacheConfig String)).runWhen noLoadUnderWay
      (World.initial fun _ => ["allow"]) rereadRules).any
        (fun w => ⟨exampleBinding, 5, .answered [] 6⟩ ∈ w.lookups) := by
    decide +kernel
  rcases (Option.any_eq_true _ _).mp hrun with ⟨w, hw, hanswer⟩
  rw [decide_eq_true_eq] at hanswer
  have hquiet : ∀ w a, noLoadUnderWay w a = true →
      OvertakesNoLoad (agentRuleEvaluator exampleCacheConfig String) w a := by
    intro w a h
    cases a with
    | invalidate i =>
        rintro ⟨x, hx, c, s, o, hphase, -⟩
        have hnot := List.all_eq_true.mp h x hx
        rw [hphase] at hnot
        exact absurd hnot Bool.false_ne_true
    | _ => trivial
  have hreach := Machine.reachesWhen_runWhen hquiet
    (Machine.ReachesWhen.start (m := authCache (agentRuleEvaluator exampleCacheConfig String)) _
      ⟨fun _ => ["allow"], fun _ => rfl, rfl⟩) hw
  exact ⟨w, hw, hanswer, (fresh_after_invalidation exampleCacheConfig exampleCacheConfig
    exampleCacheConfig exampleCacheConfig String String exampleDigest exampleDigest).1 w hreach⟩

end Broker

end JenticOne
