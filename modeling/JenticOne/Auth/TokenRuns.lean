import JenticOne.Auth.TokenService

/-!
# What a Call Holds

The invariant of the calls under way: which rows a call has locked and written in
each of its phases. A call that goes on from a row it has found holds that row's
lock, so the row is as it was found until the call ends, and what it writes is a
successor of that row, a new row, or rows of the family it revokes.

A step of a call is quiet or it commits. A quiet step changes no committed row;
what it leaves to the other calls is the frame of its statement.

## Main definitions

* `PhaseInv`: What a call holds in a phase.
* `Phase.issuing`, `Phase.sweepUnderWay`: The family a call brings into being, or
  revokes.
* `Covers`: A revocation has every row of its family.
* `Quiet`: What a step that does not commit does.

## Theorems

* `phaseInv_frame`: Steps of other calls keep what a call holds.
* `quiet_sessionStep`: Every other step of a call is quiet.
-/

namespace JenticOne

namespace Auth

open ReadCommitted

abbrev RefreshRows := Rows Id RefreshToken Nat

/-- A refresh token that can still be rotated. -/
def Live (rt : RefreshToken) : Prop := rt.revokedAt = none ∧ rt.consumedAt = none

/-- The family has a committed row. -/
def HasRow (rows : RefreshRows) (family : String) : Prop :=
  ∃ k r, rows.committed.get? k = some r ∧ r.tokenFamilyId = family

/-- The call has the row locked, as it is committed. -/
def Holding (rows : RefreshRows) (tx : Nat) (id : Id) (rt : RefreshToken) : Prop :=
  rows.lock id = some tx ∧ rows.committed.get? id = some rt

/-- The call has written no row. -/
def NoWrites (rows : RefreshRows) (tx : Nat) : Prop := rows.writes tx = Dict.empty

/-- What the call has written are rows of the family, revoked. -/
def SweepWrites (rows : RefreshRows) (tx : Nat) (family : String) : Prop :=
  ∀ k r, (rows.writes tx).get? k = some r → r.revokedAt.isSome ∧ r.tokenFamilyId = family ∧
    ∃ r₀, rows.committed.get? k = some r₀ ∧ r₀.tokenFamilyId = family ∧
      r.consumedAt = r₀.consumedAt

/-- The call has the key of a new row locked. -/
def Inserting (rows : RefreshRows) (tx : Nat) (id : Id) : Prop :=
  rows.lock id = some tx ∧ rows.committed.get? id = none

/-- The row that a pair replaces is locked, and live. -/
def ParentHeld (rows : RefreshRows) (tx : Nat) (id : Id) (family : String) : Prop :=
  ∃ rt, Holding rows tx id rt ∧ Live rt ∧ rt.tokenFamilyId = family

/-- What a call has locked and written in a phase. -/
def PhaseInv (rows : RefreshRows) (tx : Nat) : Phase → Prop
  | .locating _ found => NoWrites rows tx ∧ ∀ x ∈ found, Holding rows tx x.1 x.2
  | .sweeping family _ _ | .sweepAccess family _ | .sweepingAccess family _ _
  | .ready (.swept family _) => SweepWrites rows tx family
  | .minting mint | .minted mint _ =>
      NoWrites rows tx ∧ ∀ id scopes, mint.parent = some (id, scopes) →
        ParentHeld rows tx id mint.family
  | .consuming mint _ _ id newId _ =>
      ParentHeld rows tx id mint.family ∧ Inserting rows tx newId ∧
        ∀ k r, (rows.writes tx).get? k = some r → k = newId ∧ r.tokenFamilyId = mint.family
  | .ready (.rotated id family _ _ _) =>
      ParentHeld rows tx id family ∧
        (∃ r, (rows.writes tx).get? id = some r) ∧
        ∃ newId, Inserting rows tx newId ∧
          ∀ k r, (rows.writes tx).get? k = some r → r.tokenFamilyId = family ∧
            (k = id ∧ r.consumedAt.isSome ∨ k = newId)
  | .ready (.issued family _ _) =>
      ∃ newId, Inserting rows tx newId ∧
        ∀ k r, (rows.writes tx).get? k = some r → k = newId ∧ r.tokenFamilyId = family
  | _ => NoWrites rows tx

/-- The family a call brings into being. -/
def Phase.issuing : Phase → Option String
  | .minting mint | .minted mint _ => if mint.parent.isNone then some mint.family else none
  | .ready (.issued family _ _) => some family
  | _ => none

/-- The family whose rows a call is revoking, with the rows it has yet to take. -/
def Phase.sweepUnderWay : Phase → Option (String × List Id)
  | .sweeping family _ remaining => some (family, remaining)
  | .sweepAccess family _ | .sweepingAccess family _ _ | .ready (.swept family _) =>
      some (family, [])
  | _ => none

/-- The family a call revokes or is about to revoke. -/
def Phase.sweepFamily : Phase → Option String
  | .sweep family _ => some family
  | phase => phase.sweepUnderWay.map Prod.fst

/-- Every row of the family that is not revoked is yet to be taken, or written. -/
def Covers (rows : RefreshRows) (tx : Nat) (phase : Phase) : Prop :=
  ∀ family remaining, phase.sweepUnderWay = some (family, remaining) →
    ∀ k r, rows.committed.get? k = some r → r.tokenFamilyId = family → r.revokedAt = none →
      k ∈ remaining ∨ ∃ r', (rows.writes tx).get? k = some r'

/-! ## Other calls -/

section Frame

variable {rows rows' : RefreshRows} {tx t : Nat}

theorem holding_frame (h : Rows.Frame rows rows' tx) (ht : t ≠ tx) {id : Id} {rt : RefreshToken}
    (hheld : Holding rows t id rt) : Holding rows' t id rt :=
  ⟨h.lock t id ht hheld.1, (h.kept t id ht hheld.1).trans hheld.2⟩

theorem inserting_frame (h : Rows.Frame rows rows' tx) (ht : t ≠ tx) {id : Id}
    (hnew : Inserting rows t id) : Inserting rows' t id :=
  ⟨h.lock t id ht hnew.1, (h.kept t id ht hnew.1).trans hnew.2⟩

theorem parentHeld_frame (h : Rows.Frame rows rows' tx) (ht : t ≠ tx) {id : Id} {family : String}
    (hheld : ParentHeld rows t id family) : ParentHeld rows' t id family := by
  rcases hheld with ⟨rt, hheld, hlive⟩
  exact ⟨rt, holding_frame h ht hheld, hlive⟩

theorem noWrites_frame (h : Rows.Frame rows rows' tx) (ht : t ≠ tx) (hnone : NoWrites rows t) :
    NoWrites rows' t :=
  (h.writes t ht).trans hnone

theorem sweepWrites_frame (h : Rows.Frame rows rows' tx) (ht : t ≠ tx) {family : String}
    (hsweep : SweepWrites rows t family) : SweepWrites rows' t family := by
  intro k r hk
  rw [h.writes t ht] at hk
  rcases hsweep k r hk with ⟨hrevoked, hfamily, r₀, hr₀, hfamily₀, hconsumed⟩
  -- The row is written, so it is locked, and stays as it is committed.
  have hkept := h.kept t k ht (rows.owned t k r hk)
  exact ⟨hrevoked, hfamily, r₀, hkept.trans hr₀, hfamily₀, hconsumed⟩

/-- Steps of other calls keep what a call holds. -/
theorem phaseInv_frame (h : Rows.Frame rows rows' tx) (ht : t ≠ tx) {phase : Phase}
    (hinv : PhaseInv rows t phase) : PhaseInv rows' t phase := by
  have hwrites := h.writes t ht
  cases phase with
  | called => exact noWrites_frame h ht hinv
  | locating remaining found =>
      exact ⟨noWrites_frame h ht hinv.1, fun x hx => holding_frame h ht (hinv.2 x hx)⟩
  | sweep family detail => exact noWrites_frame h ht hinv
  | sweeping family detail remaining => exact sweepWrites_frame h ht hinv
  | sweepAccess family detail => exact sweepWrites_frame h ht hinv
  | sweepingAccess family detail remaining => exact sweepWrites_frame h ht hinv
  | revokingAccess id => exact noWrites_frame h ht hinv
  | minting mint =>
      exact ⟨noWrites_frame h ht hinv.1,
        fun id scopes hp => parentHeld_frame h ht (hinv.2 id scopes hp)⟩
  | minted mint access =>
      exact ⟨noWrites_frame h ht hinv.1,
        fun id scopes hp => parentHeld_frame h ht (hinv.2 id scopes hp)⟩
  | consuming mint access refresh id newId scopes =>
      refine ⟨parentHeld_frame h ht hinv.1, inserting_frame h ht hinv.2.1,
        fun k r hk => hinv.2.2 k r ?_⟩
      rw [← hwrites]
      exact hk
  | ready outcome =>
      cases outcome with
      | issued family access refresh =>
          rcases hinv with ⟨newId, hnew, hinv⟩
          exact ⟨newId, inserting_frame h ht hnew, fun k r hk => hinv k r (hwrites ▸ hk)⟩
      | rotated id family access refresh scopes =>
          rcases hinv with ⟨hparent, ⟨r, hr⟩, newId, hnew, hinv⟩
          exact ⟨parentHeld_frame h ht hparent, ⟨r, hwrites.symm ▸ hr⟩, newId,
            inserting_frame h ht hnew, fun k r hk => hinv k r (hwrites ▸ hk)⟩
      | swept family detail => exact sweepWrites_frame h ht hinv
      | accessRevoked id => exact noWrites_frame h ht hinv
      | nothing => exact noWrites_frame h ht hinv
  | raising detail => exact noWrites_frame h ht hinv
  | ended => exact noWrites_frame h ht hinv

end Frame

/-! ## A call's own steps -/

/-- What a step that does not commit does: it changes no committed row. -/
structure Quiet (w w' : World) (tx : Nat) (call : Call) (phase phase' : Phase) : Prop where
  sessions : w'.sessions = w.sessions.set tx ⟨call, phase'⟩
  frame : Rows.Frame w.refreshTokens w'.refreshTokens tx
  committed : w'.refreshTokens.committed = w.refreshTokens.committed
  log : w'.log = w.log
  families : ∀ f ∈ w.families, f ∈ w'.families
  inv : PhaseInv w'.refreshTokens tx phase'
  issuing : ∀ f, phase'.issuing = some f →
    phase.issuing = some f ∨ f ∉ w.families ∧ f ∈ w'.families
  sweeps : ∀ f, phase'.sweepFamily = some f →
    phase.sweepFamily = some f ∨ HasRow w.refreshTokens f
  covers : Covers w.refreshTokens tx phase → Covers w'.refreshTokens tx phase'

theorem noWrites_get? {rows : RefreshRows} {tx : Nat} (h : NoWrites rows tx) (k : Id) :
    (rows.writes tx).get? k = none := by
  rw [h, Dict.get?_empty]

theorem sweepWrites_of_noWrites {rows : RefreshRows} {tx : Nat} (h : NoWrites rows tx)
    (family : String) : SweepWrites rows tx family := by
  intro k r hk
  rw [noWrites_get? h] at hk
  exact absurd hk (by simp only [reduceCtorEq, not_false_eq_true])

/-- A phase in which nothing is revoked covers everything. -/
theorem covers_of_none {rows : RefreshRows} {tx : Nat} {phase : Phase}
    (h : phase.sweepUnderWay = none) : Covers rows tx phase := by
  intro family remaining hphase
  rw [h] at hphase
  exact absurd hphase (by simp only [reduceCtorEq, not_false_eq_true])

section Steps

variable {cfg : TokenConfig} {w : World} {tx : Nat} {call : Call} {phase : Phase}

/-- A step that leaves the rows alone. -/
theorem quiet_setPhase {phase' : Phase} (hinv : PhaseInv w.refreshTokens tx phase')
    (hissuing : ∀ f, phase'.issuing = some f → phase.issuing = some f)
    (hsweeps : ∀ f, phase'.sweepFamily = some f →
      phase.sweepFamily = some f ∨ HasRow w.refreshTokens f)
    (hcovers : Covers w.refreshTokens tx phase → Covers w.refreshTokens tx phase') :
    Quiet w (w.setPhase tx call phase') tx call phase phase' :=
  ⟨rfl, Rows.frame_refl _ _, rfl, rfl, fun _ hf => hf, hinv, fun f hf => .inl (hissuing f hf),
    hsweeps, hcovers⟩

/-- A step to a phase in which the call neither issues nor revokes a family. -/
theorem quiet_plain {phase' : Phase} (hinv : PhaseInv w.refreshTokens tx phase')
    (hissuing : phase'.issuing = none) (hunder : phase'.sweepUnderWay = none)
    (hsweeps : phase'.sweepFamily = none) :
    Quiet w (w.setPhase tx call phase') tx call phase phase' := by
  refine quiet_setPhase hinv (fun f hf => ?_) (fun f hf => ?_) fun _ => covers_of_none hunder
  · rw [hissuing] at hf
    exact absurd hf (by simp only [reduceCtorEq, not_false_eq_true])
  · rw [hsweeps] at hf
    exact absurd hf (by simp only [reduceCtorEq, not_false_eq_true])

/-- A step to the point where a family with a committed row is revoked next. -/
theorem quiet_sweep {family : String} {detail : Option String}
    (hnone : NoWrites w.refreshTokens tx) (hrow : HasRow w.refreshTokens family) :
    Quiet w (w.setPhase tx call (.sweep family detail)) tx call phase (.sweep family detail) := by
  refine quiet_setPhase hnone (fun f hf => ?_) (fun f hf => ?_) fun _ => covers_of_none rfl
  · exact absurd hf (by simp only [Phase.issuing, reduceCtorEq, not_false_eq_true])
  · rw [Phase.sweepFamily, Option.some.injEq] at hf
    exact .inr (hf ▸ hrow)

/-- A row that a statement of a call without writes sees is committed. -/
theorem committed_of_matching {rows : RefreshRows} (h : NoWrites rows tx)
    {p : RefreshToken → Bool} {k : Id} (hk : k ∈ rows.matching tx p) :
    ∃ r, rows.committed.get? k = some r ∧ p r = true := by
  rcases Rows.mem_matching.mp hk with ⟨r, hr, hp⟩
  rw [Rows.visible_of_empty h] at hr
  exact ⟨r, hr, hp⟩

theorem hasRow_of_selectRefresh (h : NoWrites w.refreshTokens tx) {hash : String}
    {rt : RefreshToken} (hrt : selectRefresh w tx hash = some rt) :
    HasRow w.refreshTokens rt.tokenFamilyId := by
  rw [selectRefresh, Option.bind_eq_some_iff] at hrt
  rcases hrt with ⟨k, -, hk⟩
  rw [Rows.visible_of_empty h] at hk
  exact ⟨k, rt, hk, rfl⟩

/-- `revoke` ends at once, goes on with an access token, or revokes the family of a
committed row. -/
theorem revokePhase_cases (cfg : TokenConfig) (h : NoWrites w.refreshTokens tx) (token : String)
    (actorId : Option String) :
    revokePhase cfg w tx token actorId = .ready .nothing ∨
      (∃ id, revokePhase cfg w tx token actorId = .revokingAccess id) ∨
      ∃ f, revokePhase cfg w tx token actorId = .sweep f none ∧ HasRow w.refreshTokens f := by
  rw [revokePhase]
  split
  · cases selectAccess w tx (cfg.hashToken token) with
    | none => exact .inl rfl
    | some x =>
        dsimp only
        split
        · exact .inr (.inl ⟨x.1, rfl⟩)
        · exact .inl rfl
  · split
    · cases hrt : selectRefresh w tx (cfg.hashToken token) with
      | none => exact .inl rfl
      | some rt =>
          dsimp only
          split
          · exact .inr (.inr ⟨rt.tokenFamilyId, rfl, hasRow_of_selectRefresh h hrt⟩)
          · exact .inl rfl
    · exact .inl rfl

theorem quiet_beginStatement (hinv : PhaseInv w.refreshTokens tx phase) {phase' : Phase}
    (h : beginPhase cfg w tx call phase = some phase') :
    Quiet w (w.setPhase tx call phase') tx call phase phase' := by
  cases phase with
  | called =>
      cases call with
      | issuePair => exact absurd h (by simp only [beginPhase, reduceCtorEq, not_false_eq_true])
      | refresh token clientId =>
          simp only [beginPhase, Option.some.injEq] at h
          rw [← h]
          exact quiet_plain ⟨hinv, fun x hx => absurd hx List.not_mem_nil⟩ rfl rfl rfl
      | revoke token actorId =>
          simp only [beginPhase, Option.some.injEq] at h
          rw [← h]
          rcases revokePhase_cases cfg hinv token actorId with hp | ⟨id, hp⟩ | ⟨f, hp, hf⟩
          · rw [hp]
            exact quiet_plain hinv rfl rfl rfl
          · rw [hp]
            exact quiet_plain hinv rfl rfl rfl
          · rw [hp]
            exact quiet_sweep hinv hf
  | sweep family detail =>
      simp only [beginPhase, Option.some.injEq] at h
      rw [← h]
      refine quiet_setPhase (sweepWrites_of_noWrites hinv family) ?_ ?_ fun _ => ?_
      · exact fun f hf => absurd hf (by simp only [Phase.issuing, reduceCtorEq, not_false_eq_true])
      · exact fun f hf => .inl hf
      · -- The statement begins with every row of the family that is not revoked.
        intro f remaining hphase k r hk hfamily hnone
        rw [Phase.sweepUnderWay, Option.some.injEq, Prod.mk.injEq] at hphase
        rw [← hphase.2]
        refine .inl (Rows.mem_matching.mpr ⟨r, ?_, ?_⟩)
        · rw [Rows.visible_of_empty hinv]
          exact hk
        · rw [inFamily, Bool.and_eq_true, decide_eq_true_eq, Option.isNone_iff_eq_none]
          exact ⟨hfamily.trans hphase.1.symm, hnone⟩
  | sweepAccess family detail =>
      simp only [beginPhase, Option.some.injEq] at h
      rw [← h]
      refine quiet_setPhase hinv ?_ (fun f hf => .inl hf) fun hc => hc
      exact fun f hf => absurd hf (by simp only [Phase.issuing, reduceCtorEq, not_false_eq_true])
  | locating | sweeping | sweepingAccess | revokingAccess | minting | minted | consuming | ready
  | raising | ended =>
      exact absurd h (by simp only [beginPhase, reduceCtorEq, not_false_eq_true])

/-- A row that `SELECT .. FOR UPDATE` takes is held from then on. -/
theorem quiet_locateRow {id : Id} {remaining : List Id} {found : List (Id × RefreshToken)}
    (hinv : PhaseInv w.refreshTokens tx (.locating remaining found)) {w' : World}
    (h : locateRow cfg w tx call id remaining found = some w') :
    ∃ phase', Quiet w w' tx call (.locating remaining found) phase' := by
  unfold locateRow at h
  split at h
  · next hfree =>
      cases call with
      | issuePair => exact absurd h (by simp only [reduceCtorEq, not_false_eq_true])
      | revoke => exact absurd h (by simp only [reduceCtorEq, not_false_eq_true])
      | refresh token clientId =>
          simp only [Option.some.injEq] at h
          rw [← h]
          refine ⟨_, rfl, Rows.frame_take hfree, rfl, rfl, fun _ hf => hf, ⟨hinv.1, ?_⟩, ?_, ?_,
            fun _ => covers_of_none rfl⟩
          · intro x hx
            rcases List.mem_append.mp hx with hx | hx
            · -- A row found before is still held.
              rcases hinv.2 x hx with ⟨hlock, hrow⟩
              refine ⟨?_, hrow⟩
              rw [World.setPhase, World.withRefresh]
              dsimp only
              rw [Rows.lock_take]
              split
              · rfl
              · exact hlock
            · rw [Option.mem_toList, Option.map_eq_some_iff] at hx
              rcases hx with ⟨rt, hrt, hx⟩
              rw [Option.filter_eq_some_iff, Rows.visible_of_empty hinv.1] at hrt
              rw [← hx]
              refine ⟨?_, hrt.1⟩
              rw [World.setPhase, World.withRefresh]
              dsimp only
              rw [Rows.lock_take, if_pos rfl]
          · exact fun f hf => absurd hf (by simp only [Phase.issuing, reduceCtorEq,
              not_false_eq_true])
          · exact fun f hf => absurd hf (by simp only [Phase.sweepFamily, Phase.sweepUnderWay,
              Option.map_none, reduceCtorEq, not_false_eq_true])
  · exact absurd h (by simp only [reduceCtorEq, not_false_eq_true])

/-- A row that a revocation takes is revoked, unless it has been by then. -/
theorem quiet_sweepRow {family : String} {detail : Option String} {remaining : List Id} {id : Id}
    {now : Time} (hinv : PhaseInv w.refreshTokens tx (.sweeping family detail remaining))
    {rows : RefreshRows}
    (h : w.refreshTokens.updateRow tx (inFamily family) (revokeRefresh now) id = some rows) :
    Quiet w ((w.withRefresh rows).setPhase tx call (.sweeping family detail (remaining.erase id)))
      tx call (.sweeping family detail remaining)
      (.sweeping family detail (remaining.erase id)) := by
  rcases Rows.updateRow_eq_some h with ⟨hcommitted, -, hframe, hcase⟩
  refine ⟨rfl, hframe, hcommitted, rfl, fun _ hf => hf, ?_, ?_, fun f hf => .inl hf, ?_⟩
  · -- What is written is a row of the family, revoked.
    intro k r hk
    change (rows.writes tx).get? k = some r at hk
    change _ ∧ _ ∧ ∃ r₀, rows.committed.get? k = some r₀ ∧ _
    rw [hcommitted]
    rcases hcase with ⟨r₁, hvisible, hp, hwrites⟩ | ⟨-, hwrites⟩
    · rw [hwrites, Dict.get?_set] at hk
      by_cases hid : id = k
      · rw [if_pos hid, Option.some.injEq] at hk
        rw [inFamily, Bool.and_eq_true, decide_eq_true_eq] at hp
        rw [← hk]
        refine ⟨rfl, hp.1, ?_⟩
        rw [Rows.visible, Option.or_eq_some_iff] at hvisible
        rcases hvisible with hown | ⟨-, hrow⟩
        · rcases hinv id r₁ hown with ⟨-, -, r₀, hr₀, hfamily₀, hconsumed⟩
          exact ⟨r₀, hid ▸ hr₀, hfamily₀, hconsumed⟩
        · exact ⟨r₁, hid ▸ hrow, hp.1, rfl⟩
      · rw [if_neg hid] at hk
        exact hinv k r hk
    · rw [hwrites] at hk
      exact hinv k r hk
  · exact fun f hf => absurd hf (by simp only [Phase.issuing, reduceCtorEq, not_false_eq_true])
  · intro hcovers f rest hphase k r hk hfamily hnone
    rw [Phase.sweepUnderWay, Option.some.injEq, Prod.mk.injEq] at hphase
    change rows.committed.get? k = some r at hk
    change _ ∨ ∃ r', (rows.writes tx).get? k = some r'
    rw [hcommitted] at hk
    rw [← hphase.2]
    rw [← hphase.1] at hfamily
    -- A row already written stays written.
    have hkeep : (∃ r', (w.refreshTokens.writes tx).get? k = some r') →
        ∃ r', (rows.writes tx).get? k = some r' := by
      rintro ⟨r', hr'⟩
      rcases hcase with ⟨r₁, -, -, hwrites⟩ | ⟨-, hwrites⟩
      · rw [hwrites, Dict.get?_set]
        split
        · exact ⟨_, rfl⟩
        · exact ⟨r', hr'⟩
      · rw [hwrites]
        exact ⟨r', hr'⟩
    rcases hcovers family remaining rfl k r hk hfamily hnone with hrest | hown
    · by_cases hid : k = id
      · right
        rw [← hid] at hcase
        by_cases hown : ∃ r', (w.refreshTokens.writes tx).get? k = some r'
        · exact hkeep hown
        · -- The row taken is not revoked, so it is written now.
          have hvisible : w.refreshTokens.visible tx k = some r := by
            rw [Rows.visible, Option.or_eq_some_iff]
            refine .inr ⟨?_, hk⟩
            rw [Option.eq_none_iff_forall_ne_some]
            exact fun r' hr' => hown ⟨r', hr'⟩
          rcases hcase with ⟨r₁, -, -, hwrites⟩ | ⟨hfalse, -⟩
          · rw [hwrites, Dict.get?_set, if_pos rfl]
            exact ⟨_, rfl⟩
          · have hp := hfalse r hvisible
            rw [inFamily, Bool.and_eq_false_iff, decide_eq_false_iff_not, hnone] at hp
            rcases hp with hp | hp
            · exact absurd hfamily hp
            · exact absurd hp (by decide)
      · exact .inl ((List.mem_erase_of_ne hid).mpr hrest)
    · exact .inr (hkeep hown)

theorem quiet_takeRow (hinv : PhaseInv w.refreshTokens tx phase) {id : Id} {now : Time}
    {w' : World} (h : takeRow cfg w tx call id now phase = some w') :
    ∃ phase', Quiet w w' tx call phase phase' := by
  cases phase with
  | locating remaining found =>
      simp only [takeRow] at h
      split at h
      · exact quiet_locateRow hinv h
      · exact absurd h (by simp only [reduceCtorEq, not_false_eq_true])
  | sweeping family detail remaining =>
      simp only [takeRow] at h
      split at h
      · rw [Option.map_eq_some_iff] at h
        rcases h with ⟨rows, hrows, hw⟩
        rw [← hw]
        exact ⟨_, quiet_sweepRow hinv hrows⟩
      · exact absurd h (by simp only [reduceCtorEq, not_false_eq_true])
  | sweepingAccess family detail remaining =>
      simp only [takeRow] at h
      split at h
      · rw [Option.map_eq_some_iff] at h
        rcases h with ⟨rows, -, hw⟩
        rw [← hw]
        refine ⟨.sweepingAccess family detail (remaining.erase id), rfl, Rows.frame_refl _ _, rfl,
          rfl, fun _ hf => hf, hinv, ?_, fun f hf => .inl hf, fun hc => hc⟩
        exact fun f hf => absurd hf (by simp only [Phase.issuing, reduceCtorEq,
          not_false_eq_true])
      · exact absurd h (by simp only [reduceCtorEq, not_false_eq_true])
  | revokingAccess target =>
      simp only [takeRow] at h
      split at h
      · rw [Option.map_eq_some_iff] at h
        rcases h with ⟨rows, -, hw⟩
        rw [← hw]
        refine ⟨.ready (.accessRevoked id), rfl, Rows.frame_refl _ _, rfl, rfl, fun _ hf => hf,
          hinv, ?_, ?_, fun _ => covers_of_none rfl⟩
        · exact fun f hf => absurd hf (by simp only [Phase.issuing, reduceCtorEq,
            not_false_eq_true])
        · exact fun f hf => absurd hf (by simp only [Phase.sweepFamily, Phase.sweepUnderWay,
            Option.map_none, reduceCtorEq, not_false_eq_true])
      · exact absurd h (by simp only [reduceCtorEq, not_false_eq_true])
  | called | sweep | sweepAccess | minting | minted | consuming | ready | raising | ended =>
      exact absurd h (by simp only [takeRow, reduceCtorEq, not_false_eq_true])

theorem quiet_endStatement (hinv : PhaseInv w.refreshTokens tx phase) {phase' : Phase}
    (h : endPhase phase = some phase') :
    Quiet w (w.setPhase tx call phase') tx call phase phase' := by
  cases phase with
  | sweeping family detail remaining =>
      cases remaining with
      | nil =>
          simp only [endPhase, Option.some.injEq] at h
          rw [← h]
          refine quiet_setPhase hinv ?_ (fun f hf => .inl hf) fun hc => hc
          exact fun f hf => absurd hf (by simp only [Phase.issuing, reduceCtorEq,
            not_false_eq_true])
      | cons => exact absurd h (by simp only [endPhase, reduceCtorEq, not_false_eq_true])
  | sweepingAccess family detail remaining =>
      cases remaining with
      | nil =>
          simp only [endPhase, Option.some.injEq] at h
          rw [← h]
          refine quiet_setPhase hinv ?_ (fun f hf => .inl hf) fun hc => hc
          exact fun f hf => absurd hf (by simp only [Phase.issuing, reduceCtorEq,
            not_false_eq_true])
      | cons => exact absurd h (by simp only [endPhase, reduceCtorEq, not_false_eq_true])
  | called | locating | sweep | sweepAccess | revokingAccess | minting | minted | consuming
  | ready | raising | ended =>
      exact absurd h (by simp only [endPhase, reduceCtorEq, not_false_eq_true])

/-- A rotation goes on from a live row only. -/
theorem live_of_rotate {rt : RefreshToken} {clientId : Option String} {around : Surroundings}
    {scopes : List String} (h : decideRefresh (some rt) clientId around = .rotate scopes) :
    Live rt := by
  have hrotation : ∀ ceiling, decideRotation rt ceiling around = .rotate scopes →
      rt.consumedAt = none := by
    intro ceiling hr
    rw [decideRotation] at hr
    dsimp only at hr
    split at hr
    · exact absurd hr (by simp only [reduceCtorEq, not_false_eq_true])
    · next hc =>
        rw [Bool.not_eq_true, Option.isSome_eq_false_iff, Option.isNone_iff_eq_none] at hc
        exact hc
  rw [decideRefresh] at h
  split at h
  · exact absurd h (by simp only [reduceCtorEq, not_false_eq_true])
  · next hrevoked =>
      rw [Bool.not_eq_true, Option.isSome_eq_false_iff, Option.isNone_iff_eq_none] at hrevoked
      refine ⟨hrevoked, ?_⟩
      split at h
      · exact absurd h (by simp only [reduceCtorEq, not_false_eq_true])
      · split at h
        · exact hrotation _ h
        · exact absurd h (by simp only [reduceCtorEq, not_false_eq_true])
        · split at h
          · split at h
            · exact absurd h (by simp only [reduceCtorEq, not_false_eq_true])
            · split at h
              · exact absurd h (by simp only [reduceCtorEq, not_false_eq_true])
              · exact hrotation _ h
          · exact absurd h (by simp only [reduceCtorEq, not_false_eq_true])

theorem quiet_decide {found : List (Id × RefreshToken)}
    (hinv : PhaseInv w.refreshTokens tx (.locating [] found)) (clientId : Option String)
    (around : Surroundings) :
    Quiet w (w.setPhase tx call (decidePhase clientId around found)) tx call (.locating [] found)
      (decidePhase clientId around found) := by
  match found with
  | [] => exact quiet_plain hinv.1 rfl rfl rfl
  | [(id, rt)] =>
      have hheld := hinv.2 (id, rt) List.mem_cons_self
      rw [decidePhase]
      cases hd : decideRefresh (some rt) clientId around with
      | raise detail => exact quiet_plain hinv.1 rfl rfl rfl
      | sweep detail => exact quiet_sweep hinv.1 ⟨id, rt, hheld.2, rfl⟩
      | rotate scopes =>
          refine quiet_plain ⟨hinv.1, fun id' scopes' hparent => ?_⟩ rfl rfl rfl
          rw [mintFor, Option.some.injEq, Prod.mk.injEq] at hparent
          rw [← hparent.1]
          exact ⟨rt, hheld, live_of_rotate hd, rfl⟩
  | _ :: _ :: _ => exact quiet_plain hinv.1 rfl rfl rfl

/-- A pair is issued in a family of its own. -/
theorem quiet_issue (hinv : NoWrites w.refreshTokens tx) {mint : Mint} (hparent : mint.parent = none)
    (hfresh : mint.family ∉ w.families) :
    Quiet w { w.setPhase tx call (.minting mint) with families := mint.family :: w.families } tx
      call .called (.minting mint) := by
  refine ⟨rfl, Rows.frame_refl _ _, rfl, rfl, fun _ hf => List.mem_cons_of_mem _ hf, ⟨hinv, ?_⟩,
    ?_, ?_, fun _ => covers_of_none rfl⟩
  · intro id scopes hp
    rw [hparent] at hp
    exact absurd hp (by simp only [reduceCtorEq, not_false_eq_true])
  · intro f hf
    rw [Phase.issuing, hparent, if_pos (by rfl), Option.some.injEq] at hf
    rw [← hf]
    exact .inr ⟨hfresh, List.mem_cons_self⟩
  · exact fun f hf => absurd hf (by simp only [Phase.sweepFamily, Phase.sweepUnderWay,
      Option.map_none, reduceCtorEq, not_false_eq_true])

theorem quiet_insertAccess {mint : Mint} (hinv : PhaseInv w.refreshTokens tx (.minting mint))
    (rows : Rows Id AccessToken Nat) (plain : String) :
    Quiet w ((w.withAccess rows).setPhase tx call (.minted mint plain)) tx call (.minting mint)
      (.minted mint plain) := by
  refine ⟨rfl, Rows.frame_refl _ _, rfl, rfl, fun _ hf => hf, hinv, fun f hf => .inl hf, ?_,
    fun _ => covers_of_none rfl⟩
  exact fun f hf => absurd hf (by simp only [Phase.sweepFamily, Phase.sweepUnderWay,
    Option.map_none, reduceCtorEq, not_false_eq_true])

/-- The only row a call has written is the one it has just inserted. -/
theorem get?_insert_of_noWrites {rows rows' : RefreshRows} (h : NoWrites rows tx) {id : Id}
    {rt : RefreshToken} (hwrites : rows'.writes tx = (rows.writes tx).set id rt) {k : Id}
    {r : RefreshToken} (hk : (rows'.writes tx).get? k = some r) : k = id ∧ r = rt := by
  rw [hwrites, Dict.get?_set] at hk
  split at hk
  · next hid =>
      rw [Option.some.injEq] at hk
      exact ⟨hid.symm, hk.symm⟩
  · rw [noWrites_get? h] at hk
    exact absurd hk (by simp only [reduceCtorEq, not_false_eq_true])

theorem quiet_insertRefresh {mint : Mint} {access plain : String} {newId : Id}
    (hinv : PhaseInv w.refreshTokens tx (.minted mint access)) {rows : RefreshRows}
    (h : w.refreshTokens.insert tx newId (mint.refreshToken cfg plain) = some rows) :
    ∃ phase', Quiet w ((w.withRefresh rows).setPhase tx call (match mint.parent with
      | some (id, scopes) => .consuming mint access plain id newId scopes
      | none => .ready (.issued mint.family access plain))) tx call (.minted mint access) phase' := by
  rcases Rows.insert_eq_some h with ⟨-, hnone, hcommitted, hwrites, hlock, hframe⟩
  have hnew : Inserting rows tx newId :=
    ⟨by rw [hlock, if_pos rfl], by rw [hcommitted]; exact hnone⟩
  have hwritten : ∀ k r, (rows.writes tx).get? k = some r →
      k = newId ∧ r.tokenFamilyId = mint.family := by
    intro k r hk
    have hrow := get?_insert_of_noWrites hinv.1 hwrites hk
    exact ⟨hrow.1, by rw [hrow.2]; rfl⟩
  cases hparent : mint.parent with
  | none =>
      refine ⟨.ready (.issued mint.family access plain), rfl, hframe, hcommitted, rfl,
        fun _ hf => hf, ⟨newId, hnew, hwritten⟩, fun f hf => .inl ?_, ?_, fun _ => covers_of_none rfl⟩
      · rw [Phase.issuing, hparent]
        exact hf
      · exact fun f hf => absurd hf (by simp only [Phase.sweepFamily, Phase.sweepUnderWay,
          Option.map_none, reduceCtorEq, not_false_eq_true])
  | some p =>
      rcases p with ⟨id, scopes⟩
      rcases hinv.2 id scopes hparent with ⟨rt, ⟨hheld, hrow⟩, hlive, hfamily⟩
      refine ⟨.consuming mint access plain id newId scopes, rfl, hframe, hcommitted, rfl,
        fun _ hf => hf, ⟨⟨rt, ⟨?_, ?_⟩, hlive, hfamily⟩, hnew, hwritten⟩, ?_, ?_,
        fun _ => covers_of_none rfl⟩
      · change rows.lock id = some tx
        rw [hlock]
        split
        · rfl
        · exact hheld
      · change rows.committed.get? id = some rt
        rw [hcommitted]
        exact hrow
      · exact fun f hf => absurd hf (by simp only [Phase.issuing, reduceCtorEq,
          not_false_eq_true])
      · exact fun f hf => absurd hf (by simp only [Phase.sweepFamily, Phase.sweepUnderWay,
          Option.map_none, reduceCtorEq, not_false_eq_true])

theorem quiet_consume {mint : Mint} {access refresh : String} {id newId : Id}
    {scopes : List String} {now : Time}
    (hinv : PhaseInv w.refreshTokens tx (.consuming mint access refresh id newId scopes))
    {rows : RefreshRows}
    (h : w.refreshTokens.updateRow tx (fun _ => true) (consumeRefresh now newId) id = some rows) :
    Quiet w ((w.withRefresh rows).setPhase tx call
        (.ready (.rotated id mint.family access refresh scopes))) tx call
      (.consuming mint access refresh id newId scopes)
      (.ready (.rotated id mint.family access refresh scopes)) := by
  rcases Rows.updateRow_eq_some h with ⟨hcommitted, hlock, hframe, hcase⟩
  rcases hinv with ⟨⟨rt, ⟨hheld, hrow⟩, hlive, hfamily⟩, ⟨hlockNew, hnone⟩, hwritten⟩
  -- The replaced row is there, so the update finds it.
  have hvisible : ∃ r, w.refreshTokens.visible tx id = some r ∧ r.tokenFamilyId = mint.family := by
    cases hown : (w.refreshTokens.writes tx).get? id with
    | none => exact ⟨rt, by rw [Rows.visible, hown]; exact hrow, hfamily⟩
    | some r => exact ⟨r, by rw [Rows.visible, hown]; rfl, (hwritten id r hown).2⟩
  rcases hvisible with ⟨r, hr, hrfamily⟩
  rcases hcase with ⟨r', hr', -, hwrites⟩ | ⟨hfalse, -⟩
  · rw [hr, Option.some.injEq] at hr'
    refine ⟨rfl, hframe, hcommitted, rfl, fun _ hf => hf, ⟨⟨rt, ⟨?_, ?_⟩, hlive, hfamily⟩, ?_,
      newId, ⟨?_, ?_⟩, ?_⟩, ?_, ?_, fun _ => covers_of_none rfl⟩
    · change rows.lock id = some tx
      rw [hlock, if_pos rfl]
    · change rows.committed.get? id = some rt
      rw [hcommitted]
      exact hrow
    · refine ⟨consumeRefresh now newId r', ?_⟩
      change (rows.writes tx).get? id = _
      rw [hwrites, Dict.get?_set, if_pos rfl]
    · change rows.lock newId = some tx
      rw [hlock]
      split
      · rfl
      · exact hlockNew
    · change rows.committed.get? newId = none
      rw [hcommitted]
      exact hnone
    · intro k row hk
      change (rows.writes tx).get? k = some row at hk
      rw [hwrites, Dict.get?_set] at hk
      split at hk
      · next hid =>
          rw [Option.some.injEq] at hk
          rw [← hk, ← hr']
          exact ⟨hrfamily, .inl ⟨hid.symm, rfl⟩⟩
      · have hrow' := hwritten k row hk
        exact ⟨hrow'.2, .inr hrow'.1⟩
    · exact fun f hf => absurd hf (by simp only [Phase.issuing, reduceCtorEq, not_false_eq_true])
    · exact fun f hf => absurd hf (by simp only [Phase.sweepFamily, Phase.sweepUnderWay,
        Option.map_none, reduceCtorEq, not_false_eq_true])
  · exact absurd (hfalse r hr) (by decide)

theorem quiet_rollback :
    Quiet w (rollback w tx call) tx call phase .ended := by
  refine ⟨rfl, Rows.frame_rollback _ _, rfl, rfl, fun _ hf => hf, Rows.writes_rollback _ _, ?_, ?_,
    fun _ => covers_of_none rfl⟩
  · exact fun f hf => absurd hf (by simp only [Phase.issuing, reduceCtorEq, not_false_eq_true])
  · exact fun f hf => absurd hf (by simp only [Phase.sweepFamily, Phase.sweepUnderWay,
      Option.map_none, reduceCtorEq, not_false_eq_true])

/-- A step of a call that does not commit is quiet. -/
theorem quiet_sessionStep (hinv : PhaseInv w.refreshTokens tx phase) {a : Action} {w' : World}
    (h : sessionStep cfg w tx call phase a = some w') :
    (∃ phase', Quiet w w' tx call phase phase') ∨
      ∃ outcome, phase = .ready outcome ∧ w' = commit w tx call outcome ∧ ∃ t, a = .commit t := by
  cases a with
  | receive => exact absurd h (by simp only [sessionStep, reduceCtorEq, not_false_eq_true])
  | issue t family now =>
      left
      cases call with
      | refresh => exact absurd h (by simp only [sessionStep, reduceCtorEq, not_false_eq_true])
      | revoke => exact absurd h (by simp only [sessionStep, reduceCtorEq, not_false_eq_true])
      | issuePair actorId actorType scopes clientId grantId =>
          cases phase with
          | called =>
              simp only [sessionStep] at h
              split at h
              · exact absurd h (by simp only [reduceCtorEq, not_false_eq_true])
              · next hfresh =>
                  rw [Option.some.injEq] at h
                  rw [← h]
                  exact ⟨_, quiet_issue hinv rfl hfresh⟩
          | _ => exact absurd h (by simp only [sessionStep, reduceCtorEq, not_false_eq_true])
  | beginStatement t =>
      simp only [sessionStep, Option.map_eq_some_iff] at h
      rcases h with ⟨phase', hphase, hw⟩
      rw [← hw]
      exact .inl ⟨phase', quiet_beginStatement hinv hphase⟩
  | takeRow t id now => exact .inl (quiet_takeRow hinv h)
  | endStatement t =>
      simp only [sessionStep, Option.map_eq_some_iff] at h
      rcases h with ⟨phase', hphase, hw⟩
      rw [← hw]
      exact .inl ⟨phase', quiet_endStatement hinv hphase⟩
  | decide t around =>
      left
      simp only [sessionStep] at h
      split at h
      · rw [Option.some.injEq] at h
        rw [← h]
        exact ⟨_, quiet_decide hinv _ around⟩
      · exact absurd h (by simp only [reduceCtorEq, not_false_eq_true])
  | insertAccess t id plain =>
      left
      cases phase with
      | minting mint =>
          simp only [sessionStep, Option.map_eq_some_iff] at h
          rcases h with ⟨rows, -, hw⟩
          rw [← hw]
          exact ⟨_, quiet_insertAccess hinv rows plain⟩
      | _ => exact absurd h (by simp only [sessionStep, reduceCtorEq, not_false_eq_true])
  | insertRefresh t newId plain =>
      left
      cases phase with
      | minted mint access =>
          simp only [sessionStep, Option.map_eq_some_iff] at h
          rcases h with ⟨rows, hrows, hw⟩
          rw [← hw]
          exact quiet_insertRefresh hinv hrows
      | _ => exact absurd h (by simp only [sessionStep, reduceCtorEq, not_false_eq_true])
  | consume t now =>
      left
      cases phase with
      | consuming mint access refresh id newId scopes =>
          simp only [sessionStep, Option.map_eq_some_iff] at h
          rcases h with ⟨rows, hrows, hw⟩
          rw [← hw]
          exact ⟨_, quiet_consume hinv hrows⟩
      | _ => exact absurd h (by simp only [sessionStep, reduceCtorEq, not_false_eq_true])
  | commit t =>
      right
      cases phase with
      | ready outcome =>
          simp only [sessionStep, Option.some.injEq] at h
          exact ⟨outcome, rfl, h.symm, t, rfl⟩
      | _ => exact absurd h (by simp only [sessionStep, reduceCtorEq, not_false_eq_true])
  | rollback t =>
      left
      simp only [sessionStep] at h
      split at h
      · exact absurd h (by simp only [reduceCtorEq, not_false_eq_true])
      · rw [Option.some.injEq] at h
        rw [← h]
        exact ⟨.ended, quiet_rollback⟩

end Steps

end Auth

end JenticOne
