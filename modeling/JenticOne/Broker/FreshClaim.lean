import JenticOne.Broker.Suspended
import JenticOne.Library.Lists

/-!
# A Fresh Claim and Late Completions

A claim that `begin` has won lies under its slot until its deadline, and whoever
comes with the same request finds it. Only a record takes its place, and `complete`
writes one without a look at what is there: a completion that arrives late, of a
request whose own claim had expired, overwrites the claim of the request after it.

As long as no such record is written, every `begin` of the request is told that it
is in progress.

## Main definitions

* `InWindow`: Before the deadline, and before the request's own `complete`.
* `SparesClaim`: The action writes no record under the slot.
* `StillClaimed`: The claim is there, and whoever came after it waits.
* `FreshClaimHeld`: Whoever comes after a fresh `begin` is told that it is in progress.

## Theorems

* `verdict_claim`: What `begin` makes of its own claim.
* `stillClaimed_step`: Such an action leaves the claim.
* `fresh_claim_held`: In a run of such actions the claim is its request's until the
  deadline.
* `lateCompletion_conflicts`: With a late completion it is not.
-/

namespace JenticOne

namespace Broker

namespace Suspended

open State (Bytes)

variable {cfg : IdempotencyConfig} {w w' : World} {b : BeginCall} {deadline : ℚ} {n : Nat}

/-- Both calls are of one request. -/
def SameRequest (b b' : BeginCall) : Prop :=
  b'.caller = b.caller ∧ b'.key = b.key ∧ b'.fingerprint = b.fingerprint

/-- The action comes before the claim of the request expires, and is not the call of
    its `complete`. -/
def InWindow (b : BeginCall) (deadline : ℚ) : Action → Prop
  | .begin .. => True
  | .complete caller key fingerprint _ =>
      ¬ (caller = b.caller ∧ key = b.key ∧ fingerprint = b.fingerprint)
  | .resumeBegin _ now _ | .resumeComplete _ now _ => now < deadline

/-- The next operation of the call writes a record. -/
def CompletePhase.writesRecord : CompletePhase → Bool
  | .recording .. | .tombstoning => true
  | _ => false

/-- The action writes no record under the slot of the request. -/
def SparesClaim (b : BeginCall) (w : World) : Action → Prop
  | .resumeComplete i _ false => ∀ c, w.completes[i]? = some c → c.phase.writesRecord = true →
      ¬ (c.caller = b.caller ∧ c.key = b.key)
  | _ => True

/-- The call has been told nothing but that its request is in progress. -/
def Waits (cfg : IdempotencyConfig) (phase : BeginPhase) : Prop :=
  phase = .claiming ∨ phase = .reading ∨ phase = .returned ⟨.inProgress, none, retryAfter cfg⟩

/-- The claim is there, and the calls from the `n`-th on wait. -/
structure StillClaimed (cfg : IdempotencyConfig) (b : BeginCall) (deadline : ℚ) (n : Nat)
    (w : World) : Prop where
  claim : w.store.store (slot b.caller b.key) = some (claim b.fingerprint, deadline)
  waits : ∀ (j : Nat) (b' : BeginCall), n ≤ j → w.begins[j]? = some b' → SameRequest b b' →
    Waits cfg b'.phase

/-! ## Entries -/

theorem store_put_self (s : Store) (k : String) (value : Bytes) (ttl now : ℚ) :
    (put s k value ttl now).store k = some (value, now + ttl) :=
  Function.update_self _ _ _

theorem store_put_other (s : Store) {k k' : String} (h : k' ≠ k) (value : Bytes) (ttl now : ℚ) :
    (put s k value ttl now).store k' = s.store k' :=
  Function.update_of_ne h _ _

theorem live_of_claim (hclaim : w.store.store (slot b.caller b.key) =
    some (claim b.fingerprint, deadline)) {now : ℚ} (hnow : now < deadline) :
    w.store.live (slot b.caller b.key) now = some (claim b.fingerprint, deadline) := by
  rw [TtlStore.live_of_store hclaim, if_pos hnow]

/-- `begin` finds its request in progress where it finds its claim. -/
theorem verdict_claim (cfg : IdempotencyConfig) (fingerprint : String) :
    ∃ record, loads (claim fingerprint) = some record ∧
      verdict cfg fingerprint record = .returned ⟨.inProgress, none, retryAfter cfg⟩ := by
  refine ⟨pendingRecord fingerprint _, loads_dumps _, ?_⟩
  have hfp : ∀ pad, (pendingRecord fingerprint pad).get? "fp" = some (.str fingerprint) :=
    fun _ => rfl
  have hphase : ∀ pad, (pendingRecord fingerprint pad).get? "phase" = some (.str "pending") :=
    fun _ => rfl
  unfold verdict
  unfold pendingRecord at hfp hphase ⊢
  dsimp only
  rw [hfp, hphase]
  dsimp only
  rw [if_neg (not_not.mpr rfl)]
  split
  · next hdone =>
      rw [Option.some.injEq, Json.str.injEq] at hdone
      exact absurd hdone (by decide)
  · rfl

/-! ## Steps -/

theorem waits_resume (hclaim : w.store.store (slot b.caller b.key) =
      some (claim b.fingerprint, deadline)) {b' : BeginCall} (hsame : SameRequest b b')
    (hwaits : Waits cfg b'.phase) {now : ℚ} (hnow : now < deadline) {refused : Bool} {store : Store}
    {phase : BeginPhase} (h : resumeBegin cfg w.store b' now refused = some (store, phase)) :
    Waits cfg phase := by
  have hlive := live_of_claim hclaim hnow
  unfold resumeBegin at h
  rw [hsame.1, hsame.2.1, hsame.2.2] at h
  rcases hwaits with hphase | hphase | hphase
  · rw [hphase] at h
    dsimp only at h
    rw [hlive, Option.isSome_some, if_pos rfl, Option.some.injEq, Prod.mk.injEq] at h
    exact .inr (.inl h.2.symm)
  · rw [hphase] at h
    rcases verdict_claim cfg b.fingerprint with ⟨record, hloads, hverdict⟩
    unfold found at h
    dsimp only at h
    rw [hlive, Option.map_some] at h
    dsimp only at h
    rw [hloads] at h
    dsimp only at h
    rw [hverdict, Option.some.injEq, Prod.mk.injEq] at h
    exact .inr (.inr h.2.symm)
  · rw [hphase] at h
    exact absurd h (by simp only [reduceCtorEq, not_false_eq_true])

/-- A `begin` takes a slot only when nothing is there. -/
theorem claim_resumeBegin (hclaim : w.store.store (slot b.caller b.key) =
      some (claim b.fingerprint, deadline)) {b' : BeginCall} {now : ℚ} (hnow : now < deadline)
    {refused : Bool} {store : Store} {phase : BeginPhase}
    (h : resumeBegin cfg w.store b' now refused = some (store, phase)) :
    store.store (slot b.caller b.key) = some (claim b.fingerprint, deadline) := by
  have hlive := live_of_claim hclaim hnow
  unfold resumeBegin at h
  dsimp only at h
  split at h
  · split at h
    · rw [Option.some.injEq, Prod.mk.injEq] at h
      rw [← h.1]
      exact hclaim
    · next hdead =>
        split at h
        · rw [Option.some.injEq, Prod.mk.injEq] at h
          rw [← h.1]
          exact hclaim
        · rw [Option.some.injEq, Prod.mk.injEq] at h
          rw [← h.1, store_put_other]
          · exact hclaim
          · intro heq
            rw [← heq, hlive, Option.isSome_some] at hdead
            exact hdead rfl
  · rw [Option.some.injEq, Prod.mk.injEq] at h
    rw [← h.1]
    exact hclaim
  · rw [Option.some.injEq, Prod.mk.injEq] at h
    rw [← h.1]
    exact hclaim
  · exact absurd h (by simp only [reduceCtorEq, not_false_eq_true])
  · exact absurd h (by simp only [reduceCtorEq, not_false_eq_true])

/-- A `complete` writes under the slot its record and its tombstone only. -/
theorem claim_resumeComplete {s store : Store} {c : CompleteCall} {now : ℚ} {refused : Bool}
    {phase : CompletePhase} (h : resumeComplete cfg s c now refused = some (store, phase))
    {caller key : String} (hspares : refused = false → c.phase.writesRecord = true →
      ¬ (c.caller = caller ∧ c.key = key)) :
    store.store (slot caller key) = s.store (slot caller key) := by
  have hother : refused = false → c.phase.writesRecord = true →
      slot caller key ≠ slot c.caller c.key := by
    intro hf hw heq
    rcases slot_inj heq with ⟨hcaller, hkey⟩
    exact hspares hf hw ⟨hcaller.symm, hkey.symm⟩
  unfold resumeComplete at h
  dsimp only at h
  split at h
  · split at h
    · rw [Option.some.injEq, Prod.mk.injEq] at h
      rw [← h.1]
      rfl
    · rw [Option.some.injEq, Prod.mk.injEq] at h
      rw [← h.1, store_put_other _ (slot_ne_bodySlot _ _ _ _ _)]
  · next hphase =>
      split at h
      · rw [Option.some.injEq, Prod.mk.injEq] at h
        rw [← h.1]
        rfl
      · next hf =>
          rw [Option.some.injEq, Prod.mk.injEq] at h
          rw [hphase] at hother
          rw [← h.1, store_put_other _ (hother (Bool.eq_false_iff.mpr hf) rfl)]
  · split at h
    · rw [Option.some.injEq, Prod.mk.injEq] at h
      rw [← h.1]
      rfl
    · rw [Option.some.injEq, Prod.mk.injEq] at h
      rw [← h.1, store_put_other _ (slot_ne_bodySlot _ _ _ _ _)]
  · next hphase =>
      split at h
      · rw [Option.some.injEq, Prod.mk.injEq] at h
        rw [← h.1]
        rfl
      · next hf =>
          rw [Option.some.injEq, Prod.mk.injEq] at h
          rw [hphase] at hother
          rw [← h.1, store_put_other _ (hother (Bool.eq_false_iff.mpr hf) rfl)]
  · exact absurd h (by simp only [reduceCtorEq, not_false_eq_true])

/-- An action before the deadline that writes no record under the slot leaves the
    claim, and tells nobody anything else. -/
theorem stillClaimed_step (hkept : StillClaimed cfg b deadline n w) {a : Action}
    (hwindow : InWindow b deadline a) (hspares : SparesClaim b w a) (h : step cfg w a = some w') :
    StillClaimed cfg b deadline n w' := by
  cases a with
  | begin caller key fingerprint =>
      simp only [step, Option.some.injEq] at h
      rw [← h]
      refine ⟨hkept.claim, fun j b' hj hb' hsame => ?_⟩
      rcases Lists.getElem?_append_cases hb' with ⟨hb', -⟩ | ⟨-, rfl⟩
      · exact hkept.waits j b' hj hb' hsame
      · exact .inl rfl
  | complete caller key fingerprint response =>
      simp only [step, Option.some.injEq] at h
      rw [← h]
      exact ⟨hkept.claim, hkept.waits⟩
  | resumeBegin i now refused =>
      simp only [step, Option.ite_none_right_eq_some] at h
      rcases h with ⟨-, h⟩
      rcases Option.bind_eq_some_iff.mp h with ⟨b₀, hb₀, h⟩
      rcases Option.map_eq_some_iff.mp h with ⟨⟨store, phase⟩, hresume, h⟩
      rw [← h]
      refine ⟨claim_resumeBegin hkept.claim hwindow hresume, fun j b' hj hb' hsame => ?_⟩
      rcases Lists.getElem?_set_cases hb' with ⟨hb', -⟩ | ⟨rfl, rfl⟩
      · exact hkept.waits j b' hj hb' hsame
      · have hsame₀ : SameRequest b b₀ := hsame
        exact waits_resume hkept.claim hsame₀ (hkept.waits j b₀ hj hb₀ hsame₀) hwindow hresume
  | resumeComplete i now refused =>
      simp only [step, Option.ite_none_right_eq_some] at h
      rcases h with ⟨-, h⟩
      rcases Option.bind_eq_some_iff.mp h with ⟨c, hc, h⟩
      rcases Option.map_eq_some_iff.mp h with ⟨⟨store, phase⟩, hresume, h⟩
      rw [← h]
      refine ⟨(claim_resumeComplete hresume fun hf hw => ?_).trans hkept.claim, hkept.waits⟩
      rw [hf] at hspares
      exact hspares c hc hw

/-- A claim that is won lies under its slot. -/
theorem claim_of_fresh {i : Nat} {now : ℚ} {refused : Bool} (hb : w.begins[i]? = some b)
    (hclaiming : b.phase = .claiming) (h : step cfg w (.resumeBegin i now refused) = some w')
    {b₁ : BeginCall} (hb₁ : w'.begins[i]? = some b₁)
    (hfresh : b₁.phase.told = some .fresh) :
    w'.store.store (slot b.caller b.key) = some (claim b.fingerprint, now + cfg.pendingTtlS) := by
  simp only [step, Option.ite_none_right_eq_some] at h
  rcases h with ⟨-, h⟩
  rw [hb, Option.bind_some] at h
  rcases Option.map_eq_some_iff.mp h with ⟨⟨store, phase⟩, hresume, h⟩
  rw [← h] at hb₁ ⊢
  rw [List.getElem?_set_self (List.getElem?_eq_some_iff.mp hb).1, Option.some.injEq] at hb₁
  rw [← hb₁] at hfresh
  unfold resumeBegin at hresume
  rw [hclaiming] at hresume
  dsimp only at hresume hfresh
  split at hresume
  · rw [Option.some.injEq, Prod.mk.injEq] at hresume
    rw [← hresume.2] at hfresh
    exact absurd hfresh (by simp only [BeginPhase.told, BeginPhase.outcome?, Option.map_none, reduceCtorEq,
        not_false_eq_true])
  · split at hresume
    · rw [Option.some.injEq, Prod.mk.injEq] at hresume
      rw [← hresume.2] at hfresh
      exact absurd hfresh (by simp only [BeginPhase.told, BeginPhase.outcome?, Option.map_none, reduceCtorEq,
        not_false_eq_true])
    · rw [Option.some.injEq, Prod.mk.injEq] at hresume
      rw [← hresume.1]
      exact store_put_self _ _ _ _ _

/-- The runs that go on from a world. -/
def goingOn (cfg : IdempotencyConfig) (w : World) : Machine World Action where
  start w' := w' = w
  step := step cfg

/-- A `begin` that was told `fresh` at `now` has its claim until that expires or the
    request's `complete` is called: whoever comes with the same request is told that
    it is in progress. The steps of the run meet `ok`. -/
def FreshClaimHeld (cfg : IdempotencyConfig) (ok : BeginCall → World → Action → Prop) : Prop :=
  ∀ w₀ w₁ w₂ i now refused b b₁ j b', (service cfg).Reachable w₀ →
    w₀.begins[i]? = some b → b.phase = .claiming →
    step cfg w₀ (.resumeBegin i now refused) = some w₁ → w₁.begins[i]? = some b₁ →
    b₁.phase.told = some .fresh →
    (goingOn cfg w₁).ReachesWhen
      (fun w a => InWindow b (now + cfg.pendingTtlS) a ∧ ok b w a) w₂ →
    w₁.begins.length ≤ j → w₂.begins[j]? = some b' → SameRequest b b' →
    b'.phase ≠ .raised ∧ ∀ state, b'.phase.told = some state → state = .inProgress

/-- While no record is written under its slot, a fresh claim is its request's. -/
theorem fresh_claim_held (cfg : IdempotencyConfig) : FreshClaimHeld cfg SparesClaim := by
  intro w₀ w₁ w₂ i now refused b b₁ j b' _ hb hclaiming hstep hb₁ hfresh hrun hj hb' hsame
  have hkept : StillClaimed cfg b (now + cfg.pendingTtlS) w₁.begins.length w₂ := by
    refine Machine.reachesWhen_invariant
      (P := StillClaimed cfg b (now + cfg.pendingTtlS) w₁.begins.length) ?_ ?_ hrun
    · intro w hw
      rw [show w = w₁ from hw]
      refine ⟨claim_of_fresh hb hclaiming hstep hb₁ hfresh, fun k b'' hk hb'' _ => ?_⟩
      exact absurd (List.getElem?_eq_some_iff.mp hb'').1 (by omega)
    · intro w a w' hkept hok h
      exact stillClaimed_step hkept hok.1 hok.2 h
  rcases hkept.waits j b' hj hb' hsame with hphase | hphase | hphase
  · rw [hphase]
    exact ⟨by simp only [ne_eq, reduceCtorEq, not_false_eq_true],
      fun state h => absurd h (by simp only [BeginPhase.told, BeginPhase.outcome?, Option.map_none, reduceCtorEq,
        not_false_eq_true])⟩
  · rw [hphase]
    exact ⟨by simp only [ne_eq, reduceCtorEq, not_false_eq_true],
      fun state h => absurd h (by simp only [BeginPhase.told, BeginPhase.outcome?, Option.map_none, reduceCtorEq,
        not_false_eq_true])⟩
  · rw [hphase]
    refine ⟨by simp only [ne_eq, reduceCtorEq, not_false_eq_true], fun state h => ?_⟩
    rw [BeginPhase.told, BeginPhase.outcome?, Option.map_some, Option.some.injEq] at h
    exact h.symm

/-! ## A late completion -/

/-- The first request outlives its claim, and the second one is about to claim. -/
def outlived : List Action :=
  [.begin "usr_1" "key-1" "fp1", .resumeBegin 0 0 false, .begin "usr_1" "key-1" "fp2"]

/-- The first request completes, and the second one is retried. -/
def lateCompletion : List Action :=
  [.complete "usr_1" "key-1" "fp1" ⟨201, [], []⟩, .resumeComplete 0 32 false,
    .begin "usr_1" "key-1" "fp2", .resumeBegin 2 33 false, .resumeBegin 2 34 false]

theorem inWindow_lateCompletion : ∀ a ∈ lateCompletion,
    InWindow ⟨"usr_1", "key-1", "fp2", .claiming⟩ (31 + 30) a := by
  intro a ha
  simp only [lateCompletion, List.mem_cons, List.not_mem_nil, or_false] at ha
  rcases ha with rfl | rfl | rfl | rfl | rfl
  · exact fun h => absurd h.2.2 (by decide)
  · norm_num [InWindow]
  · exact trivial
  · norm_num [InWindow]
  · norm_num [InWindow]

theorem reachesWhen_of_runActions {P : Action → Prop} {w₁ : World} {acts : List Action}
    (hacts : ∀ a ∈ acts, P a) (h : (goingOn cfg w₁).runActions w acts = some w')
    (hw : (goingOn cfg w₁).ReachesWhen (fun _ a => P a) w) :
    (goingOn cfg w₁).ReachesWhen (fun _ a => P a) w' := by
  refine Machine.runActions_invariant (P := (goingOn cfg w₁).ReachesWhen fun _ a => P a)
    (fun a ha s s' hs hstep => ?_) hw h
  exact Machine.ReachesWhen.step s a s' hs (hacts a ha) hstep

/-- The retry is told of a conflict, though the claim would last until 61 and the
    request's own `complete` has not been called. -/
theorem lateCompletion_conflicts :
    ¬ FreshClaimHeld ⟨30, 86400, 1000⟩ (fun _ _ _ => True) := by
  intro hheld
  have hrun : ((service ⟨30, 86400, 1000⟩).runActions World.initial outlived).any (fun w₀ =>
      (w₀.begins[1]?).any (fun b => decide (b.caller = "usr_1" ∧ b.key = "key-1" ∧
        b.fingerprint = "fp2" ∧ b.phase.isClaiming = true)) &&
      (step ⟨30, 86400, 1000⟩ w₀ (.resumeBegin 1 31 false)).any (fun w₁ =>
        w₁.begins.length = 2 &&
        ((w₁.begins[1]?).any (fun b => b.phase.told = some .fresh) &&
        ((goingOn ⟨30, 86400, 1000⟩ w₁).runActions w₁ lateCompletion).any (fun w₂ =>
          (w₂.begins[2]?).any (fun b => decide (b.caller = "usr_1" ∧ b.key = "key-1" ∧
            b.fingerprint = "fp2" ∧ b.phase.told = some .conflict)))))) := by
    decide +kernel
  rcases (Option.any_eq_true _ _).mp hrun with ⟨w₀, hw₀, hrun⟩
  rw [Bool.and_eq_true] at hrun
  rcases (Option.any_eq_true _ _).mp hrun.1 with ⟨b, hb, hclaiming⟩
  rcases (Option.any_eq_true _ _).mp hrun.2 with ⟨w₁, hw₁, hrun⟩
  rw [Bool.and_eq_true, Bool.and_eq_true, decide_eq_true_eq] at hrun
  rcases (Option.any_eq_true _ _).mp hrun.2.1 with ⟨b₁, hb₁, hfresh⟩
  rcases (Option.any_eq_true _ _).mp hrun.2.2 with ⟨w₂, hw₂, hrun₂⟩
  rcases (Option.any_eq_true _ _).mp hrun₂ with ⟨b', hb', hconflict⟩
  rw [decide_eq_true_eq] at hclaiming hfresh hconflict
  rcases hclaiming with ⟨hcaller, hkey, hfp, hclaiming⟩
  have hphase : b.phase = .claiming := by
    unfold BeginPhase.isClaiming at hclaiming
    split at hclaiming
    · next h => exact h
    · exact absurd hclaiming (by decide)
  have hbeq : b = ⟨"usr_1", "key-1", "fp2", .claiming⟩ := by
    cases b
    simp only at hcaller hkey hfp hphase
    rw [hcaller, hkey, hfp, hphase]
  have hrest := reachesWhen_of_runActions
    (P := fun a => InWindow b (31 + (30 : ℚ)) a ∧ True)
    (fun a ha => ⟨by rw [hbeq]; exact inWindow_lateCompletion a ha, trivial⟩) hw₂
    (Machine.ReachesWhen.start _ rfl)
  have hwaits := hheld w₀ w₁ w₂ 1 31 false b b₁ 2 b'
    (Machine.reachable_runActions (Machine.ReachesWhen.start _ rfl) hw₀) hb hphase hw₁ hb₁ hfresh
    hrest (by omega) hb'
    ⟨hconflict.1.trans hcaller.symm, hconflict.2.1.trans hkey.symm,
      hconflict.2.2.1.trans hfp.symm⟩
  exact absurd (hwaits.2 _ hconflict.2.2.2) (by decide)

end Suspended

end Broker

end JenticOne
