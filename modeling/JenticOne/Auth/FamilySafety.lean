import JenticOne.Auth.TokenRuns

/-!
# Families of Refresh Tokens

What runs of the token service keep of a family. At most one of its refresh tokens
can be rotated, and none is rotated twice: a rotation has the row it replaces locked
from the check to the commit.

A revocation does not have the row of a rotation that is under way, since it began
before that row was committed, so the family lives on. In the runs in which no
rotation commits while its family is being revoked, a family that was revoked stays
revoked.

## Main definitions

* `OneLive`: A family has at most one live row.
* `Inv`, `SweepInv`: What every run keeps, and what the runs without the fault keep.
* `NoSweepUnderWay`: The condition.

## Theorems

* `inv_of_reachable`: Every reachable state satisfies the invariant.
* `family_safe`: The guarantees of a family.
* `revokedFamily_lives_on`: The run that a revocation misses a row in.
-/

namespace JenticOne

namespace Auth

open ReadCommitted

/-- At most one row of a family can be rotated. -/
def OneLive (rows : RefreshRows) : Prop :=
  ∀ k k' r r', rows.committed.get? k = some r → rows.committed.get? k' = some r' →
    r.tokenFamilyId = r'.tokenFamilyId → Live r → Live r' → k = k'

/-- No row is rotated that an older rotation replaced. -/
def RotatedOnce (log : List Event) : Prop :=
  log.Pairwise fun event older => ∀ id f f', event = .rotated id f → older ≠ .rotated id f'

/-- No row of a family is rotated after the family was revoked. -/
def RevokedForGood (log : List Event) : Prop :=
  log.Pairwise fun event older => ∀ id f, event = .rotated id f → older ≠ .swept f

/-- What every run keeps. -/
structure Inv (w : World) : Prop where
  phases : ∀ (tx : Nat) s, w.sessions[tx]? = some s → PhaseInv w.refreshTokens tx s.phase
  unopened : ∀ tx : Nat, w.sessions.length ≤ tx → NoWrites w.refreshTokens tx
  known : ∀ k r, w.refreshTokens.committed.get? k = some r → r.tokenFamilyId ∈ w.families
  issuingKnown : ∀ (tx : Nat) s f, w.sessions[tx]? = some s → s.phase.issuing = some f →
    f ∈ w.families
  issuingApart : ∀ (tx t : Nat) s u f, w.sessions[tx]? = some s → w.sessions[t]? = some u →
    s.phase.issuing = some f → u.phase.issuing = some f → tx = t
  issuingFresh : ∀ (tx : Nat) s f, w.sessions[tx]? = some s → s.phase.issuing = some f →
    ¬ HasRow w.refreshTokens f
  sweepRow : ∀ (tx : Nat) s f, w.sessions[tx]? = some s → s.phase.sweepFamily = some f →
    HasRow w.refreshTokens f
  oneLive : OneLive w.refreshTokens
  consumed : ∀ id f, .rotated id f ∈ w.log →
    ∃ r, w.refreshTokens.committed.get? id = some r ∧ r.consumedAt.isSome
  sweptRow : ∀ f, .swept f ∈ w.log → HasRow w.refreshTokens f
  once : RotatedOnce w.log

/-- What the runs keep in which no rotation commits while its family is revoked. -/
structure SweepInv (w : World) : Prop where
  covers : ∀ (tx : Nat) s, w.sessions[tx]? = some s → Covers w.refreshTokens tx s.phase
  revoked : ∀ f, .swept f ∈ w.log → ∀ k r, w.refreshTokens.committed.get? k = some r →
    r.tokenFamilyId = f → r.revokedAt.isSome
  order : RevokedForGood w.log

/-- No rotation commits while its family is being revoked: from the beginning of the
update of its rows to the end of that transaction. -/
def NoSweepUnderWay (w : World) (a : Action) : Prop :=
  ∀ tx call id family access refresh scopes, a = .commit tx →
    w.sessions[tx]? = some ⟨call, .ready (.rotated id family access refresh scopes)⟩ →
    ∀ s ∈ w.sessions, ∀ remaining, s.phase.sweepUnderWay ≠ some (family, remaining)

/-! ## Quiet steps -/

section Sessions

variable {sessions : List Session} {tx t : Nat} {s s' u : Session}

theorem get_set_sessions (hu : (sessions.set tx s')[t]? = some u) :
    t = tx ∧ u = s' ∨ t ≠ tx ∧ sessions[t]? = some u := by
  rw [List.getElem?_set] at hu
  split at hu
  · next ht =>
      split at hu
      · rw [Option.some.injEq] at hu
        exact .inl ⟨ht.symm, hu.symm⟩
      · exact absurd hu (by simp only [reduceCtorEq, not_false_eq_true])
  · next ht => exact .inr ⟨fun he => ht he.symm, hu⟩

theorem get_append_session (hu : (sessions ++ [s'])[t]? = some u) :
    sessions[t]? = some u ∨ t = sessions.length ∧ u = s' := by
  rw [List.getElem?_append] at hu
  split at hu
  · exact .inl hu
  · right
    rw [List.getElem?_singleton] at hu
    split at hu
    · rw [Option.some.injEq] at hu
      exact ⟨by omega, hu.symm⟩
    · exact absurd hu (by simp only [reduceCtorEq, not_false_eq_true])

theorem lt_length_of_get (h : sessions[t]? = some u) : t < sessions.length :=
  (List.getElem?_eq_some_iff.mp h).1

end Sessions

section Quiet

variable {w w' : World} {tx : Nat} {call : Call} {phase phase' : Phase}

theorem hasRow_congr (h : w'.refreshTokens.committed = w.refreshTokens.committed) (f : String) :
    HasRow w'.refreshTokens f ↔ HasRow w.refreshTokens f := by
  rw [HasRow, HasRow, h]

theorem inv_quiet (hinv : Inv w) (hs : w.sessions[tx]? = some ⟨call, phase⟩)
    (h : Quiet w w' tx call phase phase') : Inv w' := by
  have hsessions : ∀ (t : Nat) u, w'.sessions[t]? = some u →
      t = tx ∧ u = ⟨call, phase'⟩ ∨ t ≠ tx ∧ w.sessions[t]? = some u := by
    intro t u hu
    rw [h.sessions] at hu
    exact get_set_sessions hu
  -- A family that is issued is one that was, or one nobody knew.
  have hissuing : ∀ (t : Nat) u f, w'.sessions[t]? = some u → u.phase.issuing = some f →
      (∃ v, w.sessions[t]? = some v ∧ v.phase.issuing = some f) ∨
        t = tx ∧ f ∉ w.families ∧ f ∈ w'.families := by
    intro t u f hu hf
    rcases hsessions t u hu with ⟨ht, hu⟩ | ⟨-, hu⟩
    · rw [hu] at hf
      rcases h.issuing f hf with hf | hf
      · exact .inl ⟨_, ht ▸ hs, hf⟩
      · exact .inr ⟨ht, hf⟩
    · exact .inl ⟨u, hu, hf⟩
  refine ⟨?_, ?_, ?_, ?_, ?_, ?_, ?_, ?_, ?_, ?_, ?_⟩
  · intro t u hu
    rcases hsessions t u hu with ⟨ht, hu⟩ | ⟨ht, hu⟩
    · rw [ht, hu]
      exact h.inv
    · exact phaseInv_frame h.frame ht (hinv.phases t u hu)
  · intro t ht
    rw [h.sessions, List.length_set] at ht
    have hlt := lt_length_of_get hs
    exact noWrites_frame h.frame (by omega) (hinv.unopened t ht)
  · intro k r hk
    rw [h.committed] at hk
    exact h.families _ (hinv.known k r hk)
  · intro t u f hu hf
    rcases hissuing t u f hu hf with ⟨v, hv, hf⟩ | ⟨-, -, hf⟩
    · exact h.families f (hinv.issuingKnown t v f hv hf)
    · exact hf
  · intro t₁ t₂ u₁ u₂ f hu₁ hu₂ hf₁ hf₂
    rcases hissuing t₁ u₁ f hu₁ hf₁ with ⟨v₁, hv₁, hg₁⟩ | ⟨ht₁, hnew₁, -⟩
    · rcases hissuing t₂ u₂ f hu₂ hf₂ with ⟨v₂, hv₂, hg₂⟩ | ⟨-, hnew₂, -⟩
      · exact hinv.issuingApart t₁ t₂ v₁ v₂ f hv₁ hv₂ hg₁ hg₂
      · exact absurd (hinv.issuingKnown t₁ v₁ f hv₁ hg₁) hnew₂
    · rcases hissuing t₂ u₂ f hu₂ hf₂ with ⟨v₂, hv₂, hg₂⟩ | ⟨ht₂, -, -⟩
      · exact absurd (hinv.issuingKnown t₂ v₂ f hv₂ hg₂) hnew₁
      · rw [ht₁, ht₂]
  · intro t u f hu hf
    rw [hasRow_congr h.committed]
    rcases hissuing t u f hu hf with ⟨v, hv, hg⟩ | ⟨-, hnew, -⟩
    · exact hinv.issuingFresh t v f hv hg
    · rintro ⟨k, r, hk, hr⟩
      exact hnew (hr ▸ hinv.known k r hk)
  · intro t u f hu hf
    rw [hasRow_congr h.committed]
    rcases hsessions t u hu with ⟨ht, hu⟩ | ⟨-, hu⟩
    · rw [hu] at hf
      rcases h.sweeps f hf with hf | hf
      · exact hinv.sweepRow tx _ f hs hf
      · exact hf
    · exact hinv.sweepRow t u f hu hf
  · rw [OneLive, h.committed]
    exact hinv.oneLive
  · rw [h.log, h.committed]
    exact hinv.consumed
  · intro f hf
    rw [hasRow_congr h.committed]
    exact hinv.sweptRow f (h.log ▸ hf)
  · rw [h.log]
    exact hinv.once

theorem sweepInv_quiet (hsweep : SweepInv w) (hs : w.sessions[tx]? = some ⟨call, phase⟩)
    (h : Quiet w w' tx call phase phase') : SweepInv w' := by
  refine ⟨?_, ?_, ?_⟩
  · intro t u hu
    rw [h.sessions] at hu
    rcases get_set_sessions hu with ⟨ht, hu⟩ | ⟨ht, hu⟩
    · rw [ht, hu]
      exact h.covers (hsweep.covers tx _ hs)
    · rw [Covers, h.committed, h.frame.writes t ht]
      exact hsweep.covers t u hu
  · rw [h.log, h.committed]
    exact hsweep.revoked
  · rw [h.log]
    exact hsweep.order

end Quiet

/-! ## Commits -/

/-- What becomes of a row: it stays in its family, and what it has lost is lost. -/
def Succeeds (r r' : RefreshToken) : Prop :=
  r'.tokenFamilyId = r.tokenFamilyId ∧ (r.consumedAt.isSome → r'.consumedAt.isSome) ∧
    (r.revokedAt.isSome → r'.revokedAt.isSome)

theorem succeeds_refl (r : RefreshToken) : Succeeds r r := ⟨rfl, id, id⟩

theorem revoked_of_succeeds {r r' : RefreshToken} (h : Succeeds r r') (hr : r'.revokedAt = none) :
    r.revokedAt = none := by
  by_contra hne
  have hsome := h.2.2 (Option.isSome_iff_ne_none.mpr hne)
  rw [hr] at hsome
  exact Bool.false_ne_true hsome

theorem live_of_succeeds {r r' : RefreshToken} (h : Succeeds r r') (hr : Live r') : Live r := by
  refine ⟨revoked_of_succeeds h hr.1, ?_⟩
  by_contra hne
  have hsome := h.2.1 (Option.isSome_iff_ne_none.mpr hne)
  rw [hr.2] at hsome
  exact Bool.false_ne_true hsome

/-- The family of the row that a transaction adds. -/
def Outcome.adds : Outcome → Option String
  | .issued family _ _ | .rotated _ family _ _ _ => some family
  | _ => none

/-- What a commit does to the rows. -/
structure CommitStep (rows : RefreshRows) (tx : Nat) (outcome : Outcome) : Prop where
  keeps : ∀ k r, rows.committed.get? k = some r →
    ∃ r', rows.visible tx k = some r' ∧ Succeeds r r'
  adds : ∃ newId, ∀ k r', rows.visible tx k = some r' →
    (∃ r, rows.committed.get? k = some r ∧ Succeeds r r') ∨
      k = newId ∧ rows.committed.get? k = none ∧ outcome.adds = some r'.tokenFamilyId

section Commit

variable {rows : RefreshRows} {tx t : Nat} {outcome : Outcome}

/-- A commit of rows that are there already. -/
theorem commitStep_of_writes (h : ∀ k r', (rows.writes tx).get? k = some r' →
    ∃ r, rows.committed.get? k = some r ∧ Succeeds r r') : CommitStep rows tx outcome := by
  refine ⟨fun k r hk => ?_, ⟨"", fun k r' hk => .inl ?_⟩⟩
  · rw [Rows.visible]
    cases hw : (rows.writes tx).get? k with
    | none => exact ⟨r, hk, succeeds_refl r⟩
    | some r' =>
        rcases h k r' hw with ⟨r₀, hr₀, hsucceeds⟩
        rw [hk, Option.some.injEq] at hr₀
        exact ⟨r', rfl, hr₀ ▸ hsucceeds⟩
  · rw [Rows.visible, Option.or_eq_some_iff] at hk
    rcases hk with hk | ⟨-, hk⟩
    · exact h k r' hk
    · exact ⟨r', hk, succeeds_refl r'⟩

theorem commitStep (h : PhaseInv rows tx (.ready outcome)) : CommitStep rows tx outcome := by
  have hnoWrites : NoWrites rows tx → CommitStep rows tx outcome := by
    intro hnone
    refine commitStep_of_writes fun k r' hk => ?_
    rw [noWrites_get? hnone] at hk
    exact absurd hk (by simp only [reduceCtorEq, not_false_eq_true])
  cases outcome with
  | nothing => exact hnoWrites h
  | accessRevoked id => exact hnoWrites h
  | swept family detail =>
      refine commitStep_of_writes fun k r' hk => ?_
      rcases h k r' hk with ⟨hrevoked, hfamily, r₀, hr₀, hfamily₀, hconsumed⟩
      exact ⟨r₀, hr₀, hfamily.trans hfamily₀.symm, fun hc => hconsumed ▸ hc, fun _ => hrevoked⟩
  | issued family access refresh =>
      rcases h with ⟨newId, ⟨-, hnew⟩, hwritten⟩
      refine ⟨fun k r hk => ⟨r, ?_, succeeds_refl r⟩, ⟨newId, fun k r' hk => ?_⟩⟩
      · rw [Rows.visible, Option.or_eq_some_iff]
        refine .inr ⟨?_, hk⟩
        rw [Option.eq_none_iff_forall_ne_some]
        intro r' hr'
        rw [(hwritten k r' hr').1, hnew] at hk
        exact absurd hk (by simp only [reduceCtorEq, not_false_eq_true])
      · rw [Rows.visible, Option.or_eq_some_iff] at hk
        rcases hk with hk | ⟨-, hk⟩
        · have hrow := hwritten k r' hk
          exact .inr ⟨hrow.1, hrow.1 ▸ hnew, by rw [hrow.2]; rfl⟩
        · exact .inl ⟨r', hk, succeeds_refl r'⟩
  | rotated id family access refresh scopes =>
      rcases h with ⟨⟨rt, ⟨-, hrow⟩, hlive, hfamily⟩, -, newId, ⟨-, hnew⟩, hwritten⟩
      -- A written row that is there already is the one replaced.
      have hold : ∀ k r r', rows.committed.get? k = some r → (rows.writes tx).get? k = some r' →
          Succeeds r r' := by
        intro k r r' hk hk'
        rcases (hwritten k r' hk').2 with ⟨hid, hconsumed⟩ | hid
        · rw [hid, hrow, Option.some.injEq] at hk
          refine ⟨(hwritten k r' hk').1.trans (hk ▸ hfamily.symm), fun _ => hconsumed, ?_⟩
          intro hrevoked
          rw [← hk, hlive.1] at hrevoked
          exact absurd hrevoked Bool.false_ne_true
        · rw [hid, hnew] at hk
          exact absurd hk (by simp only [reduceCtorEq, not_false_eq_true])
      refine ⟨fun k r hk => ?_, ⟨newId, fun k r' hk => ?_⟩⟩
      · rw [Rows.visible]
        cases hw : (rows.writes tx).get? k with
        | none => exact ⟨r, hk, succeeds_refl r⟩
        | some r' => exact ⟨r', rfl, hold k r r' hk hw⟩
      · rw [Rows.visible, Option.or_eq_some_iff] at hk
        rcases hk with hk | ⟨-, hk⟩
        · rcases (hwritten k r' hk).2 with ⟨hid, -⟩ | hid
          · exact .inl ⟨rt, hid ▸ hrow, hold k rt r' (hid ▸ hrow) hk⟩
          · exact .inr ⟨hid, hid ▸ hnew, by rw [(hwritten k r' hk).1]; rfl⟩
        · exact .inl ⟨r', hk, succeeds_refl r'⟩

/-- The row that a rotation replaces is consumed by its commit. -/
theorem parent_consumed {id : Id} {family access refresh : String} {scopes : List String}
    (h : PhaseInv rows tx (.ready (.rotated id family access refresh scopes))) :
    ∃ r, rows.visible tx id = some r ∧ r.consumedAt.isSome := by
  rcases h with ⟨⟨rt, ⟨-, hrow⟩, -, -⟩, ⟨r, hr⟩, newId, ⟨-, hnew⟩, hwritten⟩
  refine ⟨r, by rw [Rows.visible, hr]; rfl, ?_⟩
  rcases (hwritten id r hr).2 with ⟨-, hconsumed⟩ | hid
  · exact hconsumed
  · rw [hid, hnew] at hrow
    exact absurd hrow (by simp only [reduceCtorEq, not_false_eq_true])

variable {w : World} {call : Call}

theorem hasRow_commit (h : CommitStep w.refreshTokens tx outcome) {f : String}
    (hf : HasRow w.refreshTokens f) : HasRow (w.refreshTokens.commit tx) f := by
  rcases hf with ⟨k, r, hk, hr⟩
  rcases h.keeps k r hk with ⟨r', hr', hsucceeds⟩
  exact ⟨k, r', (Rows.committed_commit k).trans hr', hsucceeds.1.trans hr⟩

/-- A family with a row after a commit had one before, or is the one added to. -/
theorem hasRow_of_commit (h : CommitStep w.refreshTokens tx outcome) {f : String}
    (hf : HasRow (w.refreshTokens.commit tx) f) :
    HasRow w.refreshTokens f ∨ outcome.adds = some f := by
  rcases hf with ⟨k, r', hk, hr'⟩
  rw [Rows.committed_commit] at hk
  rcases h.adds with ⟨newId, hadds⟩
  rcases hadds k r' hk with ⟨r, hr, hsucceeds⟩ | ⟨-, -, hfamily⟩
  · exact .inl ⟨k, r, hr, hsucceeds.1.symm.trans hr'⟩
  · exact .inr (hr' ▸ hfamily)

/-- What a family had before a row is added to it: the row that is replaced, or
nothing where it is issued. -/
theorem adds_cases (hinv : Inv w) (hs : w.sessions[tx]? = some ⟨call, .ready outcome⟩)
    {f : String} (h : outcome.adds = some f) :
    (∃ id, .rotated id f ∈ outcome.events ∧ ParentHeld w.refreshTokens tx id f ∧
        ∃ r, w.refreshTokens.visible tx id = some r ∧ r.consumedAt.isSome) ∨
      (Phase.ready outcome).issuing = some f ∧ ¬ HasRow w.refreshTokens f := by
  have hphase := hinv.phases tx _ hs
  cases outcome with
  | issued family access refresh =>
      rw [Outcome.adds, Option.some.injEq] at h
      rw [← h]
      exact .inr ⟨rfl, hinv.issuingFresh tx _ family hs rfl⟩
  | rotated id family access refresh scopes =>
      rw [Outcome.adds, Option.some.injEq] at h
      rw [← h]
      exact .inl ⟨id, List.mem_singleton.mpr rfl, hphase.1, parent_consumed hphase⟩
  | swept | accessRevoked | nothing =>
      exact absurd h (by simp only [Outcome.adds, reduceCtorEq, not_false_eq_true])

/-- A commit leaves a family with one live row at most. -/
theorem oneLive_commit (hinv : Inv w) (hs : w.sessions[tx]? = some ⟨call, .ready outcome⟩) :
    OneLive (w.refreshTokens.commit tx) := by
  have hstep := commitStep (hinv.phases tx _ hs)
  rcases hstep.adds with ⟨newId, hadds⟩
  -- A live row beside an added one would be the row replaced, or in a family issued.
  have hbeside : ∀ k r r₀ f, w.refreshTokens.visible tx k = some r →
      w.refreshTokens.committed.get? k = some r₀ → Succeeds r₀ r → Live r →
      r.tokenFamilyId = f → outcome.adds ≠ some f := by
    intro k r r₀ f hk hk₀ hsucceeds hlive hfamily hadd
    rcases adds_cases hinv hs hadd with ⟨id, -, ⟨rt, ⟨-, hrow⟩, hrtLive, hrtFamily⟩, r', hr', hc⟩ |
      ⟨-, hnone⟩
    · have hsame := hinv.oneLive k id r₀ rt hk₀ hrow
        (hsucceeds.1.symm.trans (hfamily.trans hrtFamily.symm))
        (live_of_succeeds hsucceeds hlive) hrtLive
      rw [hsame, hr', Option.some.injEq] at hk
      rw [hk, hlive.2] at hc
      exact Bool.false_ne_true hc
    · exact hnone ⟨k, r₀, hk₀, hsucceeds.1.symm.trans hfamily⟩
  intro k k' r r' hk hk' hfamily hlive hlive'
  rw [Rows.committed_commit] at hk hk'
  rcases hadds k r hk with ⟨r₀, hr₀, hsucceeds⟩ | ⟨hnew, -, hadd⟩
  · rcases hadds k' r' hk' with ⟨r₀', hr₀', hsucceeds'⟩ | ⟨-, -, hadd'⟩
    · exact hinv.oneLive k k' r₀ r₀' hr₀ hr₀'
        (hsucceeds.1.symm.trans (hfamily.trans hsucceeds'.1)) (live_of_succeeds hsucceeds hlive)
        (live_of_succeeds hsucceeds' hlive')
    · exact absurd hadd' (hbeside k r r₀ _ hk hr₀ hsucceeds hlive hfamily)
  · rcases hadds k' r' hk' with ⟨r₀', hr₀', hsucceeds'⟩ | ⟨hnew', -, -⟩
    · exact absurd hadd (hbeside k' r' r₀' _ hk' hr₀' hsucceeds' hlive' hfamily.symm)
    · rw [hnew, hnew']

theorem mem_commit_log {e : Event} (h : e ∈ (commit w tx call outcome).log) :
    e ∈ outcome.events ∨ e ∈ w.log :=
  List.mem_append.mp h

/-- The row that a rotation replaces is live until it commits. -/
theorem parent_of_event (hinv : Inv w) (hs : w.sessions[tx]? = some ⟨call, .ready outcome⟩)
    {id : Id} {f : String} (h : .rotated id f ∈ outcome.events) :
    ParentHeld w.refreshTokens tx id f ∧
      ∃ r, w.refreshTokens.visible tx id = some r ∧ r.consumedAt.isSome := by
  have hphase := hinv.phases tx _ hs
  cases outcome with
  | rotated id' family access refresh scopes =>
      rw [Outcome.events, List.mem_singleton, Event.rotated.injEq] at h
      rw [h.1, h.2]
      exact ⟨hphase.1, parent_consumed hphase⟩
  | swept =>
      rw [Outcome.events, List.mem_singleton] at h
      exact absurd h (by simp only [reduceCtorEq, not_false_eq_true])
  | issued | accessRevoked | nothing => exact absurd h List.not_mem_nil

theorem pairwise_events_append {R : Event → Event → Prop} {log : List Event}
    (h : log.Pairwise R) (hnew : ∀ e ∈ outcome.events, ∀ older ∈ log, R e older) :
    (outcome.events ++ log).Pairwise R := by
  rw [List.pairwise_append]
  refine ⟨?_, h, hnew⟩
  cases outcome with
  | rotated | swept => exact List.pairwise_singleton R _
  | issued | accessRevoked | nothing => exact List.Pairwise.nil

theorem inv_commit (hinv : Inv w) (hs : w.sessions[tx]? = some ⟨call, .ready outcome⟩) :
    Inv (commit w tx call outcome) := by
  have hstep := commitStep (hinv.phases tx _ hs)
  have hframe := Rows.frame_commit w.refreshTokens tx
  have hother : ∀ (t : Nat) u, (commit w tx call outcome).sessions[t]? = some u →
      t = tx ∧ u = ⟨call, .ended⟩ ∨ t ≠ tx ∧ w.sessions[t]? = some u := fun t u hu =>
    get_set_sessions hu
  have hended : ∀ f, (Phase.ended).issuing = some f → False := fun f hf =>
    absurd hf (by simp only [Phase.issuing, reduceCtorEq, not_false_eq_true])
  refine ⟨?_, ?_, ?_, ?_, ?_, ?_, ?_, oneLive_commit hinv hs, ?_, ?_, ?_⟩
  · intro t u hu
    rcases hother t u hu with ⟨ht, hu⟩ | ⟨ht, hu⟩
    · rw [ht, hu]
      exact Rows.writes_commit w.refreshTokens tx
    · exact phaseInv_frame hframe ht (hinv.phases t u hu)
  · intro t ht
    change (w.sessions.set tx _).length ≤ t at ht
    rw [List.length_set] at ht
    have hlt := lt_length_of_get hs
    exact noWrites_frame hframe (by omega) (hinv.unopened t ht)
  · intro k r' hk
    change (w.refreshTokens.commit tx).committed.get? k = some r' at hk
    rw [Rows.committed_commit] at hk
    rcases hstep.adds with ⟨newId, hadds⟩
    rcases hadds k r' hk with ⟨r, hr, hsucceeds⟩ | ⟨-, -, hadd⟩
    · rw [hsucceeds.1]
      exact hinv.known k r hr
    · rcases adds_cases hinv hs hadd with ⟨id, -, ⟨rt, ⟨-, hrow⟩, -, hfamily⟩, -⟩ | ⟨hissuing, -⟩
      · exact hfamily ▸ hinv.known id rt hrow
      · exact hinv.issuingKnown tx _ _ hs hissuing
  · intro t u f hu hf
    rcases hother t u hu with ⟨-, hu⟩ | ⟨-, hu⟩
    · rw [hu] at hf
      exact (hended f hf).elim
    · exact hinv.issuingKnown t u f hu hf
  · intro t₁ t₂ u₁ u₂ f hu₁ hu₂ hf₁ hf₂
    rcases hother t₁ u₁ hu₁ with ⟨-, hu₁⟩ | ⟨-, hu₁⟩
    · rw [hu₁] at hf₁
      exact (hended f hf₁).elim
    · rcases hother t₂ u₂ hu₂ with ⟨-, hu₂⟩ | ⟨-, hu₂⟩
      · rw [hu₂] at hf₂
        exact (hended f hf₂).elim
      · exact hinv.issuingApart t₁ t₂ u₁ u₂ f hu₁ hu₂ hf₁ hf₂
  · intro t u f hu hf hrow
    rcases hother t u hu with ⟨-, hu⟩ | ⟨ht, hu⟩
    · rw [hu] at hf
      exact hended f hf
    · rcases hasRow_of_commit hstep hrow with hrow | hadd
      · exact hinv.issuingFresh t u f hu hf hrow
      · rcases adds_cases hinv hs hadd with ⟨id, -, ⟨rt, ⟨-, hr⟩, -, hfamily⟩, -⟩ | ⟨hissuing, -⟩
        · exact hinv.issuingFresh t u f hu hf ⟨id, rt, hr, hfamily⟩
        · exact ht (hinv.issuingApart t tx u _ f hu hs hf hissuing)
  · intro t u f hu hf
    rcases hother t u hu with ⟨-, hu⟩ | ⟨-, hu⟩
    · rw [hu] at hf
      exact absurd hf (by simp only [Phase.sweepFamily, Phase.sweepUnderWay, Option.map_none,
        reduceCtorEq, not_false_eq_true])
    · exact hasRow_commit hstep (hinv.sweepRow t u f hu hf)
  · intro id f he
    change ∃ r, (w.refreshTokens.commit tx).committed.get? id = some r ∧ _
    rw [Rows.committed_commit]
    rcases mem_commit_log he with he | he
    · exact (parent_of_event hinv hs he).2
    · rcases hinv.consumed id f he with ⟨r, hr, hconsumed⟩
      rcases hstep.keeps id r hr with ⟨r', hr', hsucceeds⟩
      exact ⟨r', hr', hsucceeds.2.1 hconsumed⟩
  · intro f he
    rcases mem_commit_log he with he | he
    · refine hasRow_commit hstep (hinv.sweepRow tx _ f hs ?_)
      cases outcome with
      | swept family detail =>
          rw [Outcome.events, List.mem_singleton, Event.swept.injEq] at he
          rw [he]
          rfl
      | rotated =>
          rw [Outcome.events, List.mem_singleton] at he
          exact absurd he (by simp only [reduceCtorEq, not_false_eq_true])
      | issued | accessRevoked | nothing => exact absurd he List.not_mem_nil
    · exact hasRow_commit hstep (hinv.sweptRow f he)
  · refine pairwise_events_append hinv.once fun e he older holder id f f' hr hr' => ?_
    rw [hr] at he
    rw [hr'] at holder
    -- The row replaced is live, and a row that was replaced is consumed.
    rcases (parent_of_event hinv hs he).1 with ⟨rt, ⟨-, hrow⟩, hlive, -⟩
    rcases hinv.consumed id f' holder with ⟨r, hrr, hconsumed⟩
    rw [hrow, Option.some.injEq] at hrr
    rw [← hrr, hlive.2] at hconsumed
    exact Bool.false_ne_true hconsumed

theorem sweepFamily_of_underWay {phase : Phase} {f : String} {remaining : List Id}
    (h : phase.sweepUnderWay = some (f, remaining)) : phase.sweepFamily = some f := by
  cases phase with
  | sweep => exact absurd h (by simp only [Phase.sweepUnderWay, reduceCtorEq, not_false_eq_true])
  | _ =>
      rw [Phase.sweepFamily, h]
      · rfl
      · exact fun _ _ he => absurd he (by simp only [reduceCtorEq, not_false_eq_true])

/-- A family that was swept gets no new row: the row that is replaced would be live,
and a family that is issued has no row yet. -/
theorem not_adds_of_swept (hinv : Inv w) (hsweep : SweepInv w)
    (hs : w.sessions[tx]? = some ⟨call, .ready outcome⟩) {f : String} (hf : .swept f ∈ w.log) :
    outcome.adds ≠ some f := by
  intro hadd
  rcases adds_cases hinv hs hadd with ⟨id, -, ⟨rt, ⟨-, hrow⟩, hlive, hfamily⟩, -⟩ | ⟨-, hnone⟩
  · have hrevoked := hsweep.revoked f hf id rt hrow hfamily
    rw [hlive.1] at hrevoked
    exact Bool.false_ne_true hrevoked
  · exact hnone (hinv.sweptRow f hf)

/-- A family whose rows are being revoked gets no new row from a permitted commit. -/
theorem not_adds_of_underWay (hinv : Inv w)
    (hs : w.sessions[tx]? = some ⟨call, .ready outcome⟩) (hok : NoSweepUnderWay w (.commit tx))
    {u : Session} {f : String} {remaining : List Id} (ht : w.sessions[t]? = some u)
    (hphase : u.phase.sweepUnderWay = some (f, remaining)) : outcome.adds ≠ some f := by
  intro hadd
  cases outcome with
  | rotated id family access refresh scopes =>
      rw [Outcome.adds, Option.some.injEq] at hadd
      refine hok tx call id family access refresh scopes rfl hs u (List.mem_of_getElem? ht)
        remaining ?_
      rw [hphase, hadd]
  | issued family access refresh =>
      rw [Outcome.adds, Option.some.injEq] at hadd
      rw [← hadd] at hphase
      exact hinv.issuingFresh tx _ family hs rfl
        (hinv.sweepRow t u family ht (sweepFamily_of_underWay hphase))
  | swept | accessRevoked | nothing =>
      exact absurd hadd (by simp only [Outcome.adds, reduceCtorEq, not_false_eq_true])

/-- The rows that a revocation has at its commit are all of the family. -/
theorem revoked_of_swept (hinv : Inv w) (hsweep : SweepInv w) {f : String}
    {detail : Option String} (hs : w.sessions[tx]? = some ⟨call, .ready (.swept f detail)⟩)
    {k : Id} {r : RefreshToken} (hk : w.refreshTokens.visible tx k = some r)
    (hfamily : r.tokenFamilyId = f) : r.revokedAt.isSome := by
  rw [Rows.visible, Option.or_eq_some_iff] at hk
  rcases hk with hk | ⟨hnone, hk⟩
  · exact (hinv.phases tx _ hs k r hk).1
  · rw [Option.isSome_iff_ne_none]
    intro hlive
    rcases hsweep.covers tx _ hs f [] rfl k r hk hfamily hlive with hrest | ⟨r', hr'⟩
    · exact List.not_mem_nil hrest
    · rw [hnone] at hr'
      exact absurd hr' (by simp only [reduceCtorEq, not_false_eq_true])

theorem sweepInv_commit (hinv : Inv w) (hsweep : SweepInv w)
    (hs : w.sessions[tx]? = some ⟨call, .ready outcome⟩) (hok : NoSweepUnderWay w (.commit tx)) :
    SweepInv (commit w tx call outcome) := by
  have hstep := commitStep (hinv.phases tx _ hs)
  rcases hstep.adds with ⟨newId, hadds⟩
  refine ⟨?_, ?_, ?_⟩
  · intro t u hu
    rcases get_set_sessions hu with ⟨-, hu⟩ | ⟨ht, hu⟩
    · rw [hu]
      exact covers_of_none rfl
    · intro f remaining hphase k r' hk hfamily hlive
      change (w.refreshTokens.commit tx).committed.get? k = some r' at hk
      rw [Rows.committed_commit] at hk
      rcases hadds k r' hk with ⟨r, hr, hsucceeds⟩ | ⟨-, -, hadd⟩
      · rcases hsweep.covers t u hu f remaining hphase k r hr (hsucceeds.1.symm.trans hfamily)
          (revoked_of_succeeds hsucceeds hlive) with hrest | hwritten
        · exact .inl hrest
        · refine .inr ?_
          change ∃ r', ((w.refreshTokens.commit tx).writes t).get? k = some r'
          rw [(Rows.frame_commit w.refreshTokens tx).writes t ht]
          exact hwritten
      · rw [hfamily] at hadd
        exact absurd hadd (not_adds_of_underWay hinv hs hok hu hphase)
  · intro f he k r' hk hfamily
    change (w.refreshTokens.commit tx).committed.get? k = some r' at hk
    rw [Rows.committed_commit] at hk
    rcases mem_commit_log he with he | he
    · cases outcome with
      | swept family detail =>
          rw [Outcome.events, List.mem_singleton, Event.swept.injEq] at he
          rw [he] at hfamily
          exact revoked_of_swept hinv hsweep hs hk hfamily
      | rotated =>
          rw [Outcome.events, List.mem_singleton] at he
          exact absurd he (by simp only [reduceCtorEq, not_false_eq_true])
      | issued | accessRevoked | nothing => exact absurd he List.not_mem_nil
    · rcases hadds k r' hk with ⟨r, hr, hsucceeds⟩ | ⟨-, -, hadd⟩
      · exact hsucceeds.2.2 (hsweep.revoked f he k r hr (hsucceeds.1.symm.trans hfamily))
      · rw [hfamily] at hadd
        exact absurd hadd (not_adds_of_swept hinv hsweep hs he)
  · refine pairwise_events_append hsweep.order fun e he older holder id f hr hr' => ?_
    rw [hr] at he
    rw [hr'] at holder
    -- The row that is replaced is live, and in a family that was swept none is.
    rcases (parent_of_event hinv hs he).1 with ⟨rt, ⟨-, hrow⟩, hlive, hfamily⟩
    have hrevoked := hsweep.revoked f holder id rt hrow hfamily
    rw [hlive.1] at hrevoked
    exact Bool.false_ne_true hrevoked

end Commit

/-! ## Runs -/

section Runs

variable {cfg : TokenConfig} {w w' : World} {a : Action}

/-- A call that is received has done nothing yet. -/
theorem inv_receive (hinv : Inv w) (call : Call) :
    Inv { w with sessions := w.sessions ++ [⟨call, .called⟩] } := by
  have hnone : ∀ f, (Phase.called).issuing = some f → False := fun f hf =>
    absurd hf (by simp only [Phase.issuing, reduceCtorEq, not_false_eq_true])
  refine ⟨?_, ?_, hinv.known, ?_, ?_, ?_, ?_, hinv.oneLive, hinv.consumed, hinv.sweptRow,
    hinv.once⟩
  · intro t u hu
    rcases get_append_session hu with hu | ⟨ht, hu⟩
    · exact hinv.phases t u hu
    · rw [hu]
      exact hinv.unopened t (by omega)
  · intro t ht
    rw [List.length_append] at ht
    exact hinv.unopened t (by omega)
  · intro t u f hu hf
    rcases get_append_session hu with hu | ⟨-, hu⟩
    · exact hinv.issuingKnown t u f hu hf
    · rw [hu] at hf
      exact (hnone f hf).elim
  · intro t₁ t₂ u₁ u₂ f hu₁ hu₂ hf₁ hf₂
    rcases get_append_session hu₁ with hu₁ | ⟨-, hu₁⟩
    · rcases get_append_session hu₂ with hu₂ | ⟨-, hu₂⟩
      · exact hinv.issuingApart t₁ t₂ u₁ u₂ f hu₁ hu₂ hf₁ hf₂
      · rw [hu₂] at hf₂
        exact (hnone f hf₂).elim
    · rw [hu₁] at hf₁
      exact (hnone f hf₁).elim
  · intro t u f hu hf
    rcases get_append_session hu with hu | ⟨-, hu⟩
    · exact hinv.issuingFresh t u f hu hf
    · rw [hu] at hf
      exact (hnone f hf).elim
  · intro t u f hu hf
    rcases get_append_session hu with hu | ⟨-, hu⟩
    · exact hinv.sweepRow t u f hu hf
    · rw [hu] at hf
      exact absurd hf (by simp only [Phase.sweepFamily, Phase.sweepUnderWay, Option.map_none,
        reduceCtorEq, not_false_eq_true])

theorem sweepInv_receive (hsweep : SweepInv w) (call : Call) :
    SweepInv { w with sessions := w.sessions ++ [⟨call, .called⟩] } := by
  refine ⟨?_, hsweep.revoked, hsweep.order⟩
  intro t u hu
  rcases get_append_session hu with hu | ⟨-, hu⟩
  · exact hsweep.covers t u hu
  · rw [hu]
    exact covers_of_none rfl

/-- A step receives a call, is quiet, or commits. -/
theorem step_cases (hinv : Inv w) (h : step cfg w a = some w') :
    (∃ call, w' = { w with sessions := w.sessions ++ [⟨call, .called⟩] }) ∨
      ∃ tx call phase, w.sessions[tx]? = some ⟨call, phase⟩ ∧
        ((∃ phase', Quiet w w' tx call phase phase') ∨
          ∃ outcome, phase = .ready outcome ∧ w' = commit w tx call outcome ∧ a = .commit tx) := by
  rcases hreceive : a.tx with _ | tx
  · cases a with
    | receive call =>
        rw [step, Option.some.injEq] at h
        exact .inl ⟨call, h.symm⟩
    | _ => exact absurd hreceive (by simp only [Action.tx, reduceCtorEq, not_false_eq_true])
  · have hbind : (w.sessions[tx]?).bind (fun session =>
        sessionStep cfg w tx session.call session.phase a) = some w' := by
      rw [← h]
      unfold step
      rw [hreceive]
      cases a with
      | receive => exact absurd hreceive (by simp only [Action.tx, reduceCtorEq, not_false_eq_true])
      | _ => rfl
    rw [Option.bind_eq_some_iff] at hbind
    rcases hbind with ⟨⟨call, phase⟩, hs, hsession⟩
    refine .inr ⟨tx, call, phase, hs, ?_⟩
    rcases quiet_sessionStep (hinv.phases tx _ hs) hsession with hquiet | ⟨outcome, hp, hw, t, ha⟩
    · exact .inl hquiet
    · refine .inr ⟨outcome, hp, hw, ?_⟩
      rw [ha, Action.tx, Option.some.injEq] at hreceive
      rw [ha, hreceive]

theorem inv_step (hinv : Inv w) (h : step cfg w a = some w') : Inv w' := by
  rcases step_cases hinv h with ⟨call, hw⟩ | ⟨tx, call, phase, hs, ⟨phase', hquiet⟩ |
    ⟨outcome, hp, hw, -⟩⟩
  · rw [hw]
    exact inv_receive hinv call
  · exact inv_quiet hinv hs hquiet
  · rw [hw]
    exact inv_commit hinv (hp ▸ hs)

theorem sweepInv_step (hinv : Inv w) (hsweep : SweepInv w) (hok : NoSweepUnderWay w a)
    (h : step cfg w a = some w') : SweepInv w' := by
  rcases step_cases hinv h with ⟨call, hw⟩ | ⟨tx, call, phase, hs, ⟨phase', hquiet⟩ |
    ⟨outcome, hp, hw, ha⟩⟩
  · rw [hw]
    exact sweepInv_receive hsweep call
  · exact sweepInv_quiet hsweep hs hquiet
  · rw [hw]
    rw [ha] at hok
    exact sweepInv_commit hinv hsweep (hp ▸ hs) hok

theorem get?_initial (k : Id) : World.initial.refreshTokens.committed.get? k = none :=
  Dict.get?_empty k

theorem inv_initial : Inv World.initial := by
  have hno : ∀ (t : Nat) (u : Session), World.initial.sessions[t]? = some u → False :=
    fun t u hu => absurd hu (by simp only [World.initial, List.getElem?_nil, reduceCtorEq,
      not_false_eq_true])
  have hrow : ∀ k r, World.initial.refreshTokens.committed.get? k = some r → False := by
    intro k r hk
    rw [get?_initial] at hk
    exact absurd hk (by simp only [reduceCtorEq, not_false_eq_true])
  exact ⟨fun t u hu => (hno t u hu).elim, fun _ _ => rfl, fun k r hk => (hrow k r hk).elim,
    fun t u _ hu => (hno t u hu).elim, fun t _ u _ _ hu => (hno t u hu).elim,
    fun t u _ hu => (hno t u hu).elim, fun t u _ hu => (hno t u hu).elim,
    fun k _ r _ hk => (hrow k r hk).elim, fun _ _ he => absurd he List.not_mem_nil,
    fun _ he => absurd he List.not_mem_nil, List.Pairwise.nil⟩

theorem sweepInv_initial : SweepInv World.initial :=
  ⟨fun t u hu => absurd hu (by simp only [World.initial, List.getElem?_nil, reduceCtorEq,
    not_false_eq_true]), fun _ he => absurd he List.not_mem_nil, List.Pairwise.nil⟩

/-- Every reachable state satisfies the invariant. -/
theorem inv_of_reachable (h : (tokenService cfg).Reachable w) : Inv w := by
  refine Machine.reachable_invariant (fun w hw => ?_)
    (fun w a w' hinv (hs : step cfg w a = some w') => inv_step hinv hs) h
  rw [show w = World.initial from hw]
  exact inv_initial

theorem sweepInv_of_reachesWhen (h : (tokenService cfg).ReachesWhen NoSweepUnderWay w) :
    Inv w ∧ SweepInv w := by
  refine Machine.reachesWhen_invariant (P := fun w => Inv w ∧ SweepInv w) (fun w hw => ?_)
    (fun w a w' hinv hok (hs : step cfg w a = some w') =>
      ⟨inv_step hinv.1 hs, sweepInv_step hinv.1 hinv.2 hok hs⟩) h
  rw [show w = World.initial from hw]
  exact ⟨inv_initial, sweepInv_initial⟩

/-- In every run a family has at most one row that can be rotated, and no row is
rotated twice. In the runs in which no rotation commits while its family is being
revoked, a family that was revoked is never rotated again. -/
theorem family_safe (h : (tokenService cfg).Reachable w) :
    (OneLive w.refreshTokens ∧ RotatedOnce w.log) ∧
      ((tokenService cfg).ReachesWhen NoSweepUnderWay w → RevokedForGood w.log) :=
  ⟨⟨(inv_of_reachable h).oneLive, (inv_of_reachable h).once⟩,
    fun hok => (sweepInv_of_reachesWhen hok).2.order⟩

end Runs

/-! ## Two runs -/

def exampleTokens : TokenConfig :=
  { accessTtl := 900, refreshTtl := 1209600, hashToken := id }

/-- An actor in good standing, at a time before anything expires. -/
def inGoodStanding : Surroundings :=
  { checkedAt := 10, client := none, grant := none, actorActive := true, permissions := [],
    mintedAt := 10 }

/-- A pair is issued, and the rotation of its refresh token is up to its commit. -/
def rotationUnderWay : List Action :=
  [.receive (.issuePair "agent" "agent" [] none none), .issue 0 "family" 0,
    .insertAccess 0 "access_1" "at_1", .insertRefresh 0 "refresh_1" "rt_1", .commit 0,
    .receive (.refresh "rt_1" none), .beginStatement 1, .takeRow 1 "refresh_1" 10,
    .decide 1 inGoodStanding, .insertAccess 1 "access_2" "at_2",
    .insertRefresh 1 "refresh_2" "rt_2", .consume 1 11]

/-- The family is revoked by its first token, from the update of the refresh tokens on. -/
def revocation : List Action :=
  [.takeRow 2 "refresh_1" 12, .endStatement 2, .beginStatement 2, .takeRow 2 "access_1" 12,
    .takeRow 2 "access_2" 12, .endStatement 2, .commit 2]

/-- The rotation commits while the update waits for the row it replaces, and the
token it minted is rotated after the family was revoked. -/
def missedRow : List Action :=
  rotationUnderWay ++
    [.receive (.revoke "rt_1" (some "agent")), .beginStatement 2, .beginStatement 2, .commit 1] ++
    revocation ++
    [.receive (.refresh "rt_2" none), .beginStatement 3, .takeRow 3 "refresh_2" 13,
      .decide 3 inGoodStanding, .insertAccess 3 "access_3" "at_3",
      .insertRefresh 3 "refresh_3" "rt_3", .consume 3 14, .commit 3]

/-- A family that was revoked lives on. -/
theorem revokedFamily_lives_on :
    ¬ ∀ w, (tokenService exampleTokens).Reachable w →
      OneLive w.refreshTokens ∧ RotatedOnce w.log ∧ RevokedForGood w.log := by
  intro hclaim
  have hrun : ((tokenService exampleTokens).runActions World.initial missedRow).any (fun w =>
      w.log = [.rotated "refresh_2" "family", .swept "family",
        .rotated "refresh_1" "family"]) := by
    decide +kernel
  rcases (Option.any_eq_true _ _).mp hrun with ⟨w, hw, hlog⟩
  rw [decide_eq_true_eq] at hlog
  have hreach : (tokenService exampleTokens).Reachable w :=
    Machine.reachable_runActions (Machine.ReachesWhen.start _ rfl) hw
  have horder := (hclaim w hreach).2.2
  rw [hlog, RevokedForGood, List.pairwise_cons] at horder
  exact horder.1 (.swept "family") List.mem_cons_self "refresh_2" "family" rfl rfl

/-- The rotation commits before the revocation begins. -/
def revokedAfter : List Action :=
  rotationUnderWay ++ [.commit 1, .receive (.revoke "rt_2" none), .beginStatement 2,
    .beginStatement 2, .takeRow 2 "refresh_2" 12] ++ revocation

/-- No call is revoking a family while a rotation commits. -/
def noSweep (w : World) : Action → Bool
  | .commit tx => w.sessions.all fun s => s.phase.sweepUnderWay.isNone ||
      (w.sessions[tx]?).any fun u => u.phase.sweepUnderWay.isSome
  | _ => true

theorem noSweepUnderWay_of_noSweep {w : World} {a : Action} (h : noSweep w a = true) :
    NoSweepUnderWay w a := by
  intro tx call id family access refresh scopes ha htx s hs remaining hunder
  rw [ha, noSweep, List.all_eq_true] at h
  have hboth := h s hs
  rw [hunder, htx] at hboth
  exact Bool.false_ne_true hboth

/-- A run that meets the condition, in which the family stays revoked. -/
theorem family_safe_revokedAfter :
    ∃ w, (tokenService exampleTokens).runWhen noSweep World.initial revokedAfter = some w ∧
      w.log = [.swept "family", .rotated "refresh_1" "family"] ∧
      (OneLive w.refreshTokens ∧ RotatedOnce w.log) ∧ RevokedForGood w.log := by
  have hrun : ((tokenService exampleTokens).runWhen noSweep World.initial revokedAfter).any
      (fun w => w.log = [.swept "family", .rotated "refresh_1" "family"]) := by
    decide +kernel
  rcases (Option.any_eq_true _ _).mp hrun with ⟨w, hw, hlog⟩
  rw [decide_eq_true_eq] at hlog
  have hreach : (tokenService exampleTokens).ReachesWhen NoSweepUnderWay w :=
    Machine.reachesWhen_runWhen (fun _ _ h => noSweepUnderWay_of_noSweep h)
      (Machine.ReachesWhen.start _ rfl) hw
  have hsafe := family_safe (Machine.reachable_of_reachesWhen hreach)
  exact ⟨w, hw, hlog, hsafe.1, hsafe.2 hreach⟩

end Auth

end JenticOne
