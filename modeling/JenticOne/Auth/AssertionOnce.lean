import JenticOne.Auth.Assertions

/-!
# An Assertion Is Exchanged Once

The record of an exchanged assertion is there until the database's clock has
passed its expiry by the grace, and an exchange that has found the assertion
valid began before that. While the record is there such an exchange does not
take it over, since it compares it with its own beginning.

What the code leaves open is the time between finding the assertion valid and
claiming it. An exchange of another issuer that begins after the record has
expired deletes it, and if it commits in that time the claim finds no record.
`Undisturbed` is the step that does not do this to an assertion that has been
exchanged.

The invariant says of every assertion that has been exchanged that its record is
there and lives long enough, or that it is too late to find it valid and no
exchange has found it so and not yet claimed it.

## Main definitions

* `Undisturbed`: A commit that deletes no record that is still to be claimed.
* `Inv`: The invariant.
* `Once`: No assertion passes the replay check twice.

## Theorems

* `inv_advance`, `inv_drop`, `inv_commit`: What the statements keep.
* `inv_step`: An undisturbed step keeps the invariant.
* `exchanged_once`: In undisturbed runs every assertion is exchanged once.
-/

namespace JenticOne

namespace Auth

namespace Assertions

variable {c : Config} {s s' : State} {tx : Nat} {x : Exchange}

/-- The transaction is open. -/
def Open (s : State) (tx : Nat) (x : Exchange) : Prop := s.exchanges.get? tx = some x

theorem open_unique {x' : Exchange} (h : Open s tx x) (h' : Open s tx x') : x = x' :=
  Option.some.inj (h.symm.trans h')

theorem open_advance {p : Phase} {tx' : Nat} {x' : Exchange} :
    Open (s.advance tx x p) tx' x' ↔
      tx' = tx ∧ x' = { x with phase := p } ∨ tx' ≠ tx ∧ Open s tx' x' := by
  rw [Open, State.advance, Dict.get?_set]
  by_cases h : tx = tx'
  · rw [if_pos h, Option.some.injEq]
    exact ⟨fun he => .inl ⟨h.symm, he.symm⟩,
      fun he => he.elim (fun he => he.2.symm) fun he => absurd h.symm he.1⟩
  · rw [if_neg h]
    exact ⟨fun he => .inr ⟨Ne.symm h, he⟩,
      fun he => he.elim (fun he => absurd he.1.symm h) fun he => he.2⟩

theorem open_erase {tx' : Nat} {x' : Exchange} {now : Int} {records : Dict Key Int}
    {passed : List Assertion} :
    Open ⟨now, records, s.exchanges.erase tx, passed⟩ tx' x' ↔ tx' ≠ tx ∧ Open s tx' x' := by
  rw [Open, Dict.get?_erase]
  by_cases h : tx = tx'
  · rw [if_pos h]
    exact ⟨fun he => absurd he (by simp only [reduceCtorEq, not_false_eq_true]),
      fun he => absurd h.symm he.1⟩
  · rw [if_neg h]
    exact ⟨fun he => ⟨Ne.symm h, he⟩, fun he => he.2⟩

theorem not_holds_of_heldByOther {k : Key} (h : s.heldByOther c tx k = false) {tx' : Nat}
    {x' : Exchange} (hx : Open s tx' x') (hne : tx' ≠ tx) : x'.holds c k = false := by
  have hitem := List.any_eq_false.mp h (tx', x') ((Dict.get?_eq_some_iff _ _ _).mp hx)
  rw [decide_eq_true hne, Bool.true_and, Bool.not_eq_true] at hitem
  exact hitem

theorem not_locks_of_agentLocked {issuer : Text} (h : s.agentLocked issuer = false)
    (hx : Open s tx x) (hissuer : x.assertion.issuer = issuer) : x.phase.locks = false := by
  have hitem := List.any_eq_false.mp h (tx, x) ((Dict.get?_eq_some_iff _ _ _).mp hx)
  rw [decide_eq_true hissuer, Bool.and_true, Bool.not_eq_true] at hitem
  exact hitem

theorem locks_of_records {p : Phase} (h : p.records = true) : p.locks = true := by
  cases p with
  | began => exact absurd h Bool.false_ne_true
  | locked => rfl
  | validated => rfl
  | claimed => rfl
  | pruned keys => rfl

theorem holds_key (h : x.phase.records = true) : x.holds c (x.assertion.key c) = true := by
  rw [Exchange.holds, h, decide_eq_true rfl]
  rfl

theorem records_of_holds {k : Key} (h : x.holds c k = true) : x.phase.records = true := by
  rw [Exchange.holds, Bool.and_eq_true] at h
  exact h.1

/-- A commit deletes no record of an exchanged assertion that another exchange
    has found valid and has not yet claimed. -/
def Undisturbed (c : Config) (s : State) : Action → Prop
  | .commit tx => ∀ x, Open s tx x → ∀ tx' x', Open s tx' x' → x'.phase = .validated →
      x'.assertion ∈ s.passed → x'.assertion.key c ∉ x.phase.deleted
  | _ => True

/-- No assertion passes the replay check twice: not in committed exchanges, nor
    in a committed one and one that has made its claim, nor in two of these. -/
structure Once (s : State) : Prop where
  committed : s.passed.Nodup
  claimed : ∀ tx x, Open s tx x → x.phase.records = true → x.assertion ∉ s.passed
  claims : ∀ tx x tx' x', Open s tx x → Open s tx' x' → x.phase.records = true →
    x'.phase.records = true → x.assertion = x'.assertion → tx = tx'

/-! ## The invariant -/

section Invariant

variable (c)

structure Inv (s : State) : Prop where
  started : ∀ tx x, Open s tx x → x.start ≤ s.now
  /-- What has been found valid began before its record would expire. -/
  fresh : ∀ tx x, Open s tx x → x.phase = .validated ∨ x.phase.records = true →
    x.start < x.assertion.expiresAt
  /-- One transaction has the agent's row. -/
  exclusive : ∀ tx x tx' x', Open s tx x → Open s tx' x' → x.phase.locks = true →
    x'.phase.locks = true → x.assertion.issuer = x'.assertion.issuer → tx = tx'
  /-- What is deleted has expired. -/
  doomed : ∀ tx x, Open s tx x → ∀ k ∈ x.phase.deleted,
    ∃ e, s.records.get? k = some e ∧ e ≤ x.start
  /-- What is taken over has expired. -/
  replaced : ∀ tx x, Open s tx x → x.phase.records = true →
    ∀ e, s.records.get? (x.assertion.key c) = some e → e ≤ x.start
  apart : ∀ tx x tx' x', Open s tx x → Open s tx' x' → tx ≠ tx' →
    ∀ k, x.holds c k = true → x'.holds c k = false
  own : ∀ tx x, Open s tx x → x.assertion.key c ∉ x.phase.deleted
  /-- The record lives long enough, or it is too late and nobody is about to
      claim. -/
  kept : ∀ a ∈ s.passed,
    (∃ e, s.records.get? (a.key c) = some e ∧ a.expiresAt ≤ e) ∨
      (a.expiresAt ≤ s.now ∧ ∀ tx x, Open s tx x → x.assertion = a → x.phase ≠ .validated)
  unpassed : ∀ tx x, Open s tx x → x.phase.records = true → x.assertion ∉ s.passed
  once : s.passed.Nodup

end Invariant

/-- Opening no transaction keeps the invariant. -/
theorem inv_drop (h : Inv c s) (tx : Nat) : Inv c (s.drop tx) := by
  have hopen : ∀ {tx' x'}, Open (s.drop tx) tx' x' → Open s tx' x' :=
    fun hx => (open_erase.mp hx).2
  refine ⟨fun t y hy => h.started t y (hopen hy), fun t y hy => h.fresh t y (hopen hy),
    fun t y t' y' hy hy' => h.exclusive t y t' y' (hopen hy) (hopen hy'),
    fun t y hy => h.doomed t y (hopen hy), fun t y hy => h.replaced t y (hopen hy),
    fun t y t' y' hy hy' => h.apart t y t' y' (hopen hy) (hopen hy'),
    fun t y hy => h.own t y (hopen hy), fun a ha => ?_,
    fun t y hy => h.unpassed t y (hopen hy), h.once⟩
  rcases h.kept a ha with hkept | ⟨hlate, hnone⟩
  · exact .inl hkept
  · exact .inr ⟨hlate, fun t y hy => hnone t y (hopen hy)⟩

theorem inv_tick (h : Inv c s) (d : Nat) : Inv c { s with now := s.now + d } := by
  refine ⟨fun t y hy => ?_, h.fresh, h.exclusive, h.doomed, h.replaced, h.apart, h.own,
    fun a ha => ?_, h.unpassed, h.once⟩
  · have hle := h.started t y hy
    change y.start ≤ s.now + d
    omega
  · rcases h.kept a ha with hkept | ⟨hlate, hnone⟩
    · exact .inl hkept
    · refine .inr ⟨?_, hnone⟩
      change a.expiresAt ≤ s.now + d
      omega

/-- A transaction that goes on to a phase keeps the invariant, if what the
    invariant says of it holds in that phase. -/
theorem inv_advance {p : Phase} (h : Inv c s) (hx : Open s tx x)
    (hfresh : p = .validated ∨ p.records = true → x.start < x.assertion.expiresAt)
    (hlock : p.locks = true → ∀ tx' x', Open s tx' x' → x'.phase.locks = true →
      x'.assertion.issuer = x.assertion.issuer → tx' = tx)
    (hdoomed : ∀ k ∈ p.deleted, ∃ e, s.records.get? k = some e ∧ e ≤ x.start)
    (hreplaced : p.records = true →
      ∀ e, s.records.get? (x.assertion.key c) = some e → e ≤ x.start)
    (hapart : ∀ tx' x', Open s tx' x' → tx' ≠ tx →
      ∀ k, ({ x with phase := p } : Exchange).holds c k = true → x'.holds c k = false)
    (hown : x.assertion.key c ∉ p.deleted)
    (hvalid : p = .validated → s.now < x.assertion.expiresAt)
    (hunpassed : p.records = true → x.assertion ∉ s.passed) : Inv c (s.advance tx x p) := by
  refine ⟨fun t y hy => ?_, fun t y hy => ?_, fun t y t' y' hy hy' hl hl' hi => ?_,
    fun t y hy => ?_, fun t y hy => ?_, fun t y t' y' hy hy' hne k hk => ?_,
    fun t y hy => ?_, fun a ha => ?_, fun t y hy => ?_, h.once⟩
  · rcases open_advance.mp hy with ⟨-, rfl⟩ | ⟨-, hy⟩
    · exact h.started tx x hx
    · exact h.started t y hy
  · rcases open_advance.mp hy with ⟨-, rfl⟩ | ⟨-, hy⟩
    · exact hfresh
    · exact h.fresh t y hy
  · rcases open_advance.mp hy with ⟨rfl, rfl⟩ | ⟨-, hold⟩
    · rcases open_advance.mp hy' with ⟨rfl, -⟩ | ⟨-, hold'⟩
      · rfl
      · exact (hlock hl t' y' hold' hl' hi.symm).symm
    · rcases open_advance.mp hy' with ⟨rfl, rfl⟩ | ⟨-, hold'⟩
      · exact hlock hl' t y hold hl hi
      · exact h.exclusive t y t' y' hold hold' hl hl' hi
  · rcases open_advance.mp hy with ⟨-, rfl⟩ | ⟨-, hy⟩
    · exact hdoomed
    · exact h.doomed t y hy
  · rcases open_advance.mp hy with ⟨-, rfl⟩ | ⟨-, hy⟩
    · exact hreplaced
    · exact h.replaced t y hy
  · rcases open_advance.mp hy with ⟨rfl, rfl⟩ | ⟨hnt, hold⟩
    · rcases open_advance.mp hy' with ⟨he, -⟩ | ⟨hnt', hold'⟩
      · exact absurd he.symm hne
      · exact hapart t' y' hold' hnt' k hk
    · rcases open_advance.mp hy' with ⟨rfl, rfl⟩ | ⟨-, hold'⟩
      · cases hnew : ({ x with phase := p } : Exchange).holds c k with
        | false => rfl
        | true =>
            rw [hapart t y hold hnt k hnew] at hk
            exact absurd hk Bool.false_ne_true
      · exact h.apart t y t' y' hold hold' hne k hk
  · rcases open_advance.mp hy with ⟨-, rfl⟩ | ⟨-, hy⟩
    · exact hown
    · exact h.own t y hy
  · rcases h.kept a ha with hkept | ⟨hlate, hnone⟩
    · exact .inl hkept
    · refine .inr ⟨hlate, fun t y hy hya hyv => ?_⟩
      rcases open_advance.mp hy with ⟨-, rfl⟩ | ⟨-, hy⟩
      · have hlt := hvalid hyv
        rw [← hya] at hlate
        exact absurd hlate (Int.not_le.mpr hlt)
      · exact hnone t y hy hya hyv
  · rcases open_advance.mp hy with ⟨-, rfl⟩ | ⟨-, hy⟩
    · exact hunpassed
    · exact h.unpassed t y hy

/-- An exchange that has found its assertion valid and may claim it is the first
    of the assertion. -/
theorem not_passed_of_claimable (h : Inv c s) (hx : Open s tx x) (hphase : x.phase = .validated)
    (hc : Claimable c s x = true) : x.assertion ∉ s.passed := by
  intro hpassed
  have hfresh := h.fresh tx x hx (.inl hphase)
  rcases h.kept x.assertion hpassed with ⟨e, he, hle⟩ | ⟨-, hnone⟩
  · rw [Claimable, he, Option.all_some, decide_eq_true_eq] at hc
    omega
  · exact hnone tx x hx rfl hphase

/-- What a prune deletes is not the transaction's own record. -/
theorem prunable_spec (h : Inv c s) (hx : Open s tx x) (hr : x.phase.records = true) {k : Key}
    (hk : s.prunable c tx x k = true) :
    x.assertion.key c ≠ k ∧ (∃ e, s.records.get? k = some e ∧ e ≤ x.start) ∧
      s.heldByOther c tx k = false := by
  rw [State.prunable, Bool.and_eq_true, Bool.not_eq_true', State.visible] at hk
  by_cases hown : x.assertion.key c = k
  · rw [if_pos hown, Option.any_some, decide_eq_true_eq] at hk
    exact absurd hk.1 (Int.not_le.mpr (h.fresh tx x hx (.inr hr)))
  · rw [if_neg hown, Option.any_eq_true] at hk
    obtain ⟨⟨e, he, hle⟩, hheld⟩ := hk
    exact ⟨hown, ⟨e, he, of_decide_eq_true hle⟩, hheld⟩

theorem get?_foldl_erase (keys : List Key) (d : Dict Key Int) (k : Key) :
    (keys.foldl Dict.erase d).get? k = if k ∈ keys then none else d.get? k := by
  induction keys generalizing d with
  | nil => rw [List.foldl_nil, if_neg List.not_mem_nil]
  | cons k' keys ih =>
      rw [List.foldl_cons, ih, Dict.get?_erase]
      by_cases hmem : k ∈ keys
      · rw [if_pos hmem, if_pos (List.mem_cons_of_mem _ hmem)]
      · rw [if_neg hmem]
        by_cases hk : k' = k
        · rw [if_pos hk, if_pos (hk ▸ List.mem_cons_self)]
        · rw [if_neg hk, if_neg]
          exact fun h => (List.mem_cons.mp h).elim (fun he => hk he.symm) hmem

/-! ## Steps -/

theorem inv_begin (h : Inv c s) {a : Assertion} (hnew : s.exchanges.get? tx = none) :
    Inv c { s with exchanges := s.exchanges.set tx ⟨a, s.now, .began⟩ } := by
  have hopen : ∀ {t y}, Open { s with exchanges := s.exchanges.set tx ⟨a, s.now, .began⟩ } t y →
      t = tx ∧ y = ⟨a, s.now, .began⟩ ∨ t ≠ tx ∧ Open s t y := by
    intro t y hy
    rw [Open, Dict.get?_set] at hy
    by_cases ht : tx = t
    · rw [if_pos ht] at hy
      exact .inl ⟨ht.symm, (Option.some.inj hy).symm⟩
    · rw [if_neg ht] at hy
      exact .inr ⟨Ne.symm ht, hy⟩
  refine ⟨fun t y hy => ?_, fun t y hy hp => ?_, fun t y t' y' hy hy' hl hl' hi => ?_,
    fun t y hy k hk => ?_, fun t y hy hr => ?_, fun t y t' y' hy hy' hne k hk => ?_,
    fun t y hy hk => ?_, fun b hb => ?_, fun t y hy hr => ?_, h.once⟩
  · rcases hopen hy with ⟨-, rfl⟩ | ⟨-, hold⟩
    · exact Int.le_refl _
    · exact h.started t y hold
  · rcases hopen hy with ⟨-, rfl⟩ | ⟨-, hold⟩
    · rcases hp with hp | hp
      · exact absurd hp (by simp only [reduceCtorEq, not_false_eq_true])
      · exact absurd hp Bool.false_ne_true
    · exact h.fresh t y hold hp
  · rcases hopen hy with ⟨-, rfl⟩ | ⟨-, hold⟩
    · exact absurd hl Bool.false_ne_true
    · rcases hopen hy' with ⟨-, rfl⟩ | ⟨-, hold'⟩
      · exact absurd hl' Bool.false_ne_true
      · exact h.exclusive t y t' y' hold hold' hl hl' hi
  · rcases hopen hy with ⟨-, rfl⟩ | ⟨-, hold⟩
    · exact absurd hk List.not_mem_nil
    · exact h.doomed t y hold k hk
  · rcases hopen hy with ⟨-, rfl⟩ | ⟨-, hold⟩
    · exact absurd hr Bool.false_ne_true
    · exact h.replaced t y hold hr
  · rcases hopen hy with ⟨-, rfl⟩ | ⟨-, hold⟩
    · exact absurd (records_of_holds hk) Bool.false_ne_true
    · rcases hopen hy' with ⟨-, rfl⟩ | ⟨-, hold'⟩
      · rfl
      · exact h.apart t y t' y' hold hold' hne k hk
  · rcases hopen hy with ⟨-, rfl⟩ | ⟨-, hold⟩
    · exact absurd hk List.not_mem_nil
    · exact h.own t y hold hk
  · rcases h.kept b hb with hkept | ⟨hlate, hnone⟩
    · exact .inl hkept
    · refine .inr ⟨hlate, fun t y hy hyb hyv => ?_⟩
      rcases hopen hy with ⟨-, rfl⟩ | ⟨-, hold⟩
      · exact absurd hyv (by simp only [reduceCtorEq, not_false_eq_true])
      · exact hnone t y hold hyb hyv
  · rcases hopen hy with ⟨-, rfl⟩ | ⟨-, hold⟩
    · exact absurd hr Bool.false_ne_true
    · exact h.unpassed t y hold hr

theorem inv_lock (h : Inv c s) (hx : Open s tx x) (hphase : x.phase = .began)
    (hfree : s.agentLocked x.assertion.issuer = false) : Inv c (s.advance tx x .locked) := by
  refine inv_advance h hx ?_ ?_ ?_ ?_ ?_ ?_ ?_ ?_
  · rintro (hp | hp)
    · exact absurd hp (by simp only [reduceCtorEq, not_false_eq_true])
    · exact absurd hp Bool.false_ne_true
  · intro _ t y hy hl hi
    rw [not_locks_of_agentLocked hfree hy hi] at hl
    exact absurd hl Bool.false_ne_true
  · exact fun k hk => absurd hk List.not_mem_nil
  · exact fun hr => absurd hr Bool.false_ne_true
  · exact fun t y _ _ k hk => absurd (records_of_holds hk) Bool.false_ne_true
  · exact List.not_mem_nil
  · exact fun hp => absurd hp (by simp only [reduceCtorEq, not_false_eq_true])
  · exact fun hr => absurd hr Bool.false_ne_true

theorem inv_validate (h : Inv c s) (hx : Open s tx x) (hphase : x.phase = .locked)
    (hvalid : s.now < x.assertion.expiresAt) : Inv c (s.advance tx x .validated) := by
  have hlocks : x.phase.locks = true := by
    rw [hphase]
    rfl
  refine inv_advance h hx (fun _ => ?_) ?_ ?_ ?_ ?_ ?_ (fun _ => hvalid) ?_
  · exact Int.lt_of_le_of_lt (h.started tx x hx) hvalid
  · exact fun _ t y hy hl hi => h.exclusive t y tx x hy hx hl hlocks hi
  · exact fun k hk => absurd hk List.not_mem_nil
  · exact fun hr => absurd hr Bool.false_ne_true
  · exact fun t y _ _ k hk => absurd (records_of_holds hk) Bool.false_ne_true
  · exact List.not_mem_nil
  · exact fun hr => absurd hr Bool.false_ne_true

theorem inv_claim (h : Inv c s) (hx : Open s tx x) (hphase : x.phase = .validated)
    (hheld : s.heldByOther c tx (x.assertion.key c) = false) (hc : Claimable c s x = true) :
    Inv c (s.advance tx x .claimed) := by
  have hlocks : x.phase.locks = true := by
    rw [hphase]
    rfl
  refine inv_advance h hx (fun _ => h.fresh tx x hx (.inl hphase)) ?_ ?_ ?_ ?_ ?_ ?_ ?_
  · exact fun _ t y hy hl hi => h.exclusive t y tx x hy hx hl hlocks hi
  · exact fun k hk => absurd hk List.not_mem_nil
  · intro _ e he
    rw [Claimable, he, Option.all_some, decide_eq_true_eq] at hc
    exact hc
  · intro t y hy hne k hk
    have hkey : x.assertion.key c = k := by
      rw [Exchange.holds, Bool.and_eq_true, Bool.or_eq_true] at hk
      rcases hk.2 with hk | hk
      · exact of_decide_eq_true hk
      · exact absurd (of_decide_eq_true hk) List.not_mem_nil
    rw [← hkey]
    exact not_holds_of_heldByOther hheld hy hne
  · exact List.not_mem_nil
  · exact fun hp => absurd hp (by simp only [reduceCtorEq, not_false_eq_true])
  · exact fun _ => not_passed_of_claimable h hx hphase hc

theorem inv_prune (h : Inv c s) (hx : Open s tx x) (hphase : x.phase = .claimed)
    {keys : List Key} (hkeys : ∀ k ∈ keys, s.prunable c tx x k = true) :
    Inv c (s.advance tx x (.pruned keys)) := by
  have hrecords : x.phase.records = true := by
    rw [hphase]
    rfl
  refine inv_advance h hx (fun _ => h.fresh tx x hx (.inr hrecords)) ?_ ?_ ?_ ?_ ?_ ?_ ?_
  · exact fun _ t y hy hl hi => h.exclusive t y tx x hy hx hl (locks_of_records hrecords) hi
  · exact fun k hk => (prunable_spec h hx hrecords (hkeys k hk)).2.1
  · exact fun _ => h.replaced tx x hx hrecords
  · intro t y hy hne k hk
    rw [Exchange.holds, Bool.and_eq_true, Bool.or_eq_true] at hk
    rcases hk.2 with hk | hk
    · rw [← of_decide_eq_true hk]
      exact h.apart tx x t y hx hy (Ne.symm hne) _ (holds_key hrecords)
    · exact not_holds_of_heldByOther
        (prunable_spec h hx hrecords (hkeys k (of_decide_eq_true hk))).2.2 hy hne
  · exact fun hk => (prunable_spec h hx hrecords (hkeys _ hk)).1 rfl
  · exact fun hp => absurd hp (by simp only [reduceCtorEq, not_false_eq_true])
  · exact fun _ => h.unpassed tx x hx hrecords

/-- A commit that is undisturbed keeps the invariant: of an exchanged assertion
    it leaves the record, or deletes or replaces it when it is too late. -/
theorem inv_commit (h : Inv c s) {keys : List Key} (hx : Open s tx x)
    (hphase : x.phase = .pruned keys) (hok : Undisturbed c s (.commit tx)) :
    Inv c
      { now := s.now
        records := keys.foldl Dict.erase
          (s.records.set (x.assertion.key c) x.assertion.expiresAt)
        exchanges := s.exchanges.erase tx
        passed := x.assertion :: s.passed } := by
  have hrecords : x.phase.records = true := by
    rw [hphase]
    rfl
  have hdeleted : x.phase.deleted = keys := by
    rw [hphase]
    rfl
  have hget : ∀ k, (keys.foldl Dict.erase
      (s.records.set (x.assertion.key c) x.assertion.expiresAt)).get? k =
        if k ∈ keys then none
        else if x.assertion.key c = k then some x.assertion.expiresAt else s.records.get? k := by
    intro k
    rw [get?_foldl_erase, Dict.get?_set]
  -- what another transaction holds is not touched
  have hframe : ∀ {t y k}, t ≠ tx → Open s t y → y.holds c k = true →
      (keys.foldl Dict.erase (s.records.set (x.assertion.key c) x.assertion.expiresAt)).get? k =
        s.records.get? k := by
    intro t y k hne hy hk
    have hnot : x.holds c k = false := h.apart t y tx x hy hx hne k hk
    rw [Exchange.holds, hrecords, Bool.true_and, Bool.or_eq_false_iff, hdeleted] at hnot
    rw [hget, if_neg (of_decide_eq_false hnot.2), if_neg (of_decide_eq_false hnot.1)]
  refine ⟨fun t y hy => h.started t y (open_erase.mp hy).2,
    fun t y hy => h.fresh t y (open_erase.mp hy).2,
    fun t y t' y' hy hy' => h.exclusive t y t' y' (open_erase.mp hy).2 (open_erase.mp hy').2,
    fun t y hy k hk => ?_, fun t y hy hr e he => ?_,
    fun t y t' y' hy hy' => h.apart t y t' y' (open_erase.mp hy).2 (open_erase.mp hy').2,
    fun t y hy => h.own t y (open_erase.mp hy).2, fun a ha => ?_, fun t y hy hr hmem => ?_, ?_⟩
  · obtain ⟨hne, hold⟩ := open_erase.mp hy
    have hholds : y.holds c k = true := by
      have hyr : y.phase.records = true := by
        cases hp : y.phase with
        | pruned ks => rfl
        | began => rw [hp] at hk; exact absurd hk List.not_mem_nil
        | locked => rw [hp] at hk; exact absurd hk List.not_mem_nil
        | validated => rw [hp] at hk; exact absurd hk List.not_mem_nil
        | claimed => rw [hp] at hk; exact absurd hk List.not_mem_nil
      rw [Exchange.holds, hyr, decide_eq_true hk, Bool.or_true]
      rfl
    obtain ⟨e, he, hle⟩ := h.doomed t y hold k hk
    exact ⟨e, (hframe hne hold hholds).trans he, hle⟩
  · obtain ⟨hne, hold⟩ := open_erase.mp hy
    exact h.replaced t y hold hr e ((hframe hne hold (holds_key hr)).symm.trans he)
  · rcases List.mem_cons.mp ha with rfl | ha
    · refine .inl ⟨x.assertion.expiresAt, ?_, Int.le_refl _⟩
      rw [hget, if_neg (hdeleted ▸ h.own tx x hx), if_pos rfl]
    · rcases h.kept a ha with ⟨e, he, hle⟩ | ⟨hlate, hnone⟩
      · by_cases hgone : a.key c ∈ keys
        · -- its record has expired, and none is about to claim
          obtain ⟨e', he', hle'⟩ := h.doomed tx x hx (a.key c) (hdeleted.symm ▸ hgone)
          rw [he, Option.some.injEq] at he'
          have hstart := h.started tx x hx
          refine .inr ⟨by change a.expiresAt ≤ s.now; omega, fun t y hy hya hyv => ?_⟩
          have hy' := (open_erase.mp hy).2
          rw [← hya] at ha hgone
          exact hok x hx t y hy' hyv ha (hdeleted.symm ▸ hgone)
        · by_cases hkey : x.assertion.key c = a.key c
          · -- its record is taken over, and the agent's row is locked meanwhile
            have hle' := h.replaced tx x hx hrecords e (hkey ▸ he)
            have hstart := h.started tx x hx
            refine .inr ⟨by change a.expiresAt ≤ s.now; omega, fun t y hy hya hyv => ?_⟩
            obtain ⟨hne, hold⟩ := open_erase.mp hy
            have hissuer : y.assertion.issuer = x.assertion.issuer := by
              rw [hya]
              exact (congrArg Prod.fst hkey).symm
            refine hne (h.exclusive t y tx x hold hx ?_ (locks_of_records hrecords) hissuer)
            rw [hyv]
            rfl
          · refine .inl ⟨e, ?_, hle⟩
            rw [hget, if_neg hgone, if_neg hkey]
            exact he
      · exact .inr ⟨hlate, fun t y hy => hnone t y (open_erase.mp hy).2⟩
  · obtain ⟨hne, hold⟩ := open_erase.mp hy
    rcases List.mem_cons.mp hmem with heq | hmem
    · exact hne (h.exclusive t y tx x hold hx (locks_of_records hr) (locks_of_records hrecords)
        (congrArg Assertion.issuer heq))
    · exact h.unpassed t y hold hr hmem
  · exact List.nodup_cons.mpr ⟨h.unpassed tx x hx hrecords, h.once⟩

theorem inv_start (h : (machine c).start s) : Inv c s := by
  obtain ⟨now, rfl⟩ := h
  have hclosed : ∀ {t y}, ¬ Open ⟨now, Dict.empty, Dict.empty, []⟩ t y := by
    intro t y hy
    rw [Open, Dict.get?_empty] at hy
    exact absurd hy (by simp only [reduceCtorEq, not_false_eq_true])
  exact ⟨fun t y hy => absurd hy hclosed, fun t y hy => absurd hy hclosed,
    fun t y _ _ hy => absurd hy hclosed, fun t y hy => absurd hy hclosed,
    fun t y hy => absurd hy hclosed, fun t y _ _ hy => absurd hy hclosed,
    fun t y hy => absurd hy hclosed, fun a ha => absurd ha List.not_mem_nil,
    fun t y hy => absurd hy hclosed, List.nodup_nil⟩

/-- An undisturbed step keeps the invariant. -/
theorem inv_step {a : Action} (h : Inv c s) (hok : Undisturbed c s a)
    (hstep : step c s a = some s') : Inv c s' := by
  cases a with
  | tick d =>
      rw [← Option.some.inj hstep]
      exact inv_tick h d
  | «begin» tx a =>
      obtain ⟨hnew, rfl⟩ := step_begin hstep
      exact inv_begin h hnew
  | lockAgent tx =>
      obtain ⟨x, hx, hphase, hfree, rfl⟩ := step_lock hstep
      exact inv_lock h hx hphase hfree
  | validate tx clock =>
      obtain ⟨x, hx, hphase, hvalid, rfl⟩ := step_validate hstep
      exact inv_validate h hx hphase hvalid
  | claimJti tx =>
      obtain ⟨x, hx, hphase, hheld, ⟨hc, rfl⟩ | rfl⟩ := step_claim hstep
      · exact inv_claim h hx hphase hheld hc
      · exact inv_drop h tx
  | deleteExpired tx keys =>
      obtain ⟨x, hx, hphase, hkeys, rfl⟩ := step_prune hstep
      exact inv_prune h hx hphase hkeys
  | commit tx =>
      obtain ⟨x, keys, hx, hphase, rfl⟩ := step_commit hstep
      exact inv_commit h hx hphase hok
  | rollback tx =>
      rw [← Option.some.inj hstep]
      exact inv_drop h tx

theorem once_of_inv (h : Inv c s) : Once s where
  committed := h.once
  claimed := h.unpassed
  claims tx x tx' x' hx hx' hr hr' heq :=
    h.exclusive tx x tx' x' hx hx' (locks_of_records hr) (locks_of_records hr')
      (congrArg Assertion.issuer heq)

/-- In a run that deletes no record from under an exchange that is about to
    claim it, no assertion passes the replay check twice. -/
theorem exchanged_once (c : Config) (s : State)
    (h : (machine c).ReachesWhen (Undisturbed c) s) : Once s :=
  once_of_inv (Machine.reachesWhen_invariant (fun _ => inv_start)
    (fun _ _ _ hinv hok hstep => inv_step hinv hok hstep) h)

/-! ## Runs -/

/-- Records store the identifiers themselves. -/
def plainConfig : Config := ⟨id, 1000000⟩

def firstAssertion : Assertion := ⟨['p'], ['j'], 100⟩

/-- An assertion of another issuer, for later. -/
def laterAssertion : Assertion := ⟨['q'], ['j'], 200 + jtiClockSkewGrace⟩

/-- An exchange from its beginning to the check of its times. -/
def validating (tx : Nat) (a : Assertion) (clock : Int) : List Action :=
  [.begin tx a, .lockAgent tx, .validate tx clock]

/-- The claim and what follows it. -/
def claiming (tx : Nat) (keys : List Key) : List Action :=
  [.claimJti tx, .deleteExpired tx keys, .commit tx]

/-- The run of one exchange, and of a second one that is refused. -/
def twoExchanges : List Action :=
  validating 0 firstAssertion 0 ++ claiming 0 [] ++ validating 1 firstAssertion 0 ++ [.claimJti 1]

/-- A commit has deleted nothing. -/
def deletesNothing (s : State) : Action → Bool
  | .commit tx => (s.exchanges.get? tx).all fun x => x.phase.deleted = []
  | _ => true

theorem undisturbed_of_deletesNothing (s : State) (a : Action) (h : deletesNothing s a = true) :
    Undisturbed c s a := by
  cases a with
  | commit tx =>
      intro x hx tx' x' _ _ _ hmem
      rw [deletesNothing, show s.exchanges.get? tx = some x from hx, Option.all_some,
        decide_eq_true_eq] at h
      rw [h] at hmem
      exact absurd hmem List.not_mem_nil
  | _ => exact trivial

/-- The second exchange is refused in such a run. -/
theorem exchanged_once_two : ∃ s, s.passed = [firstAssertion] ∧
    (machine plainConfig).ReachesWhen (Undisturbed plainConfig) s ∧ Once s := by
  have hpassed : ((machine plainConfig).runWhen deletesNothing
      ⟨0, Dict.empty, Dict.empty, []⟩ twoExchanges).map State.passed = some [firstAssertion] := by
    decide +kernel
  obtain ⟨s, hs, hlist⟩ := Option.map_eq_some_iff.mp hpassed
  have hreach : (machine plainConfig).ReachesWhen (Undisturbed plainConfig) s :=
    Machine.reachesWhen_runWhen undisturbed_of_deletesNothing
      (Machine.ReachesWhen.start _ ⟨0, rfl⟩) hs
  exact ⟨s, hlist, hreach, exchanged_once plainConfig s hreach⟩

/-- A replay that waits between its two checks until the record is deleted. -/
def stalledReplay : List Action :=
  validating 0 firstAssertion 0 ++ claiming 0 [] ++ validating 1 firstAssertion 0 ++
    [.tick (100 + 120 * 1000000)] ++ validating 2 laterAssertion (100 + jtiClockSkewGrace) ++
    claiming 2 [firstAssertion.key plainConfig] ++ claiming 1 []

/-- The assertion has been exchanged twice at the end of this run. -/
theorem not_once : ¬ ∀ (c : Config) (s : State), (machine c).Reachable s → Once s := by
  intro h
  have hpassed : ((machine plainConfig).runActions ⟨0, Dict.empty, Dict.empty, []⟩
      stalledReplay).map State.passed =
        some [firstAssertion, laterAssertion, firstAssertion] := by decide +kernel
  obtain ⟨s, hs, hlist⟩ := Option.map_eq_some_iff.mp hpassed
  have hreach : (machine plainConfig).Reachable s :=
    Machine.reachable_runActions (Machine.ReachesWhen.start _ ⟨0, rfl⟩) hs
  have honce := (h plainConfig s hreach).committed
  rw [hlist] at honce
  exact absurd honce (by decide)

end Assertions

end Auth

end JenticOne
