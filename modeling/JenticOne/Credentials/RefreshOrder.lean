import JenticOne.Credentials.Refresh

/-!
# Refresh Tokens Are Used in Order

Under the lock the row does not change but by the commit of the call that has
it, so that what the call sends is the row's refresh token, and what it stores
is the answer. A token that the vendor has answered for is replaced in the row
by the commit that follows, and no other place holds it: each grant that a
reconnect has been issued has a refresh token of its own.

Three things are otherwise. The vendor may have refreshed with a token and the
answer may not have arrived; the row keeps that token, and it is sent again. A
provider that mints from the account's reference is called without a row. And a
reconnect is issued its grant before it takes the lock, so that the vendor may
have issued a token later than the row's.

## Main definitions

* `Inv`: The invariant.
* `InOrder`: What is sent and given back in a step.

## Theorems

* `inv_step`: A step keeps the invariant.
* `inOrder_of_reachable`: Every step of every run is in order.
* `not_strict`: The exceptions occur.
-/

namespace JenticOne

namespace Credentials

namespace Refresh

variable {s s' : State}

/-- The call needs no row: its provider mints from the account's reference. -/
def Resolved.byRef (resolved : Resolved) : Prop :=
  resolved.providerAccountRef = true ∧ resolved.mintsFromAccountRef = true

/-- The row has a grant, with this refresh token. -/
def Grants (row : Option TokenRow) (r : Nat) : Prop :=
  ∃ t c, row = some t ∧ t.encryptedRefreshToken = some c ∧ c.plain = r

structure Inv (s : State) : Prop where
  answered_old : ∀ r ∈ s.answered, r < s.nextRefresh
  row_old : ∀ r, Grants s.row r → r < s.nextRefresh
  /-- The row's token has been answered for only until the answer is stored. -/
  row_fresh : ∀ r, Grants s.row r → r ∈ s.answered →
    ∃ call res, s.holder = some call ∧ call.phase = .answered res ∧ res.refreshToken ≠ none
  exchanged_fresh : ∀ g ∈ s.exchanged, ∀ r, g.refreshToken = some r →
    r < s.nextRefresh ∧ r ∉ s.answered ∧ ¬ Grants s.row r
  distinct : (s.exchanged.filterMap RefreshResult.refreshToken).Nodup
  pending : ∀ call res r, s.holder = some call → call.phase = .answered res →
    res.refreshToken = some r →
    r < s.nextRefresh ∧ r ∉ s.answered ∧ ∀ g ∈ s.exchanged, g.refreshToken ≠ some r
  refreshing : ∀ call, s.holder = some call → call.phase = .refreshing →
    (∃ row, s.row = some row ∧ row.revoked = false ∧
        call.resolved.encryptedRefreshToken = row.encryptedRefreshToken) ∨
      s.row = none ∧ call.resolved.encryptedRefreshToken = none ∧ call.resolved.byRef
  sent : ∀ call token, s.holder = some call → call.phase = .sent token →
    token = none ∧ call.resolved.byRef ∨ ∃ r, token = some r ∧ Grants s.row r
  stored : ∀ call res, s.holder = some call → call.phase = .answered res →
    s.row ≠ none ∨ call.resolved.byRef

/-! ## What is written -/

theorem grants_update {row : Option TokenRow} {res : RefreshResult} {nonce r : Nat}
    (h : Grants (row.map (updateTokens · res nonce)) r) :
    res.refreshToken = some r ∨ res.refreshToken = none ∧ Grants row r := by
  obtain ⟨t, c, ht, hc, hr⟩ := h
  obtain ⟨t₀, hrow, rfl⟩ := Option.map_eq_some_iff.mp ht
  cases hres : res.refreshToken with
  | some r' =>
      rw [updateTokens, hres, Option.map_some, Option.some_or, Option.some.injEq] at hc
      rw [← hr, ← hc]
      exact .inl rfl
  | none =>
      rw [updateTokens, hres, Option.map_none, Option.none_or] at hc
      exact .inr ⟨rfl, t₀, c, hrow, hc, hr⟩

theorem grants_store {row : Option TokenRow} {res : RefreshResult} {nonce r : Nat}
    (h : Grants (some ((row.map (updateTokens · res nonce)).getD (createTokens res nonce))) r) :
    res.refreshToken = some r ∨ res.refreshToken = none ∧ Grants row r := by
  cases row with
  | some t => exact grants_update h
  | none =>
      obtain ⟨t, c, ht, hc, hr⟩ := h
      rw [Option.map_none, Option.getD_none, Option.some.injEq] at ht
      rw [← ht, createTokens] at hc
      obtain ⟨r', hr', rfl⟩ := Option.map_eq_some_iff.mp hc
      rw [← hr]
      exact .inl hr'

theorem grants_revoke {row : Option TokenRow} {drop : Bool} {r : Nat}
    (h : Grants (if drop then none else row.map fun row => { row with revoked := true }) r) :
    Grants row r := by
  obtain ⟨t, c, ht, hc, hr⟩ := h
  cases drop with
  | true => exact absurd ht (by simp only [if_true, reduceCtorEq, not_false_eq_true])
  | false =>
      rw [if_neg Bool.false_ne_true] at ht
      obtain ⟨t₀, hrow, rfl⟩ := Option.map_eq_some_iff.mp ht
      exact ⟨t₀, c, hrow, hc, hr⟩

/-! ## Steps -/

/-- A step that ends the call with the lock, or the call's next phase before it
    has an answer, keeps the invariant if what it says of that phase holds. -/
theorem inv_holder (h : Inv s) {holder : Option Call}
    (hold : ∀ call res, s.holder = some call → call.phase = .answered res →
      res.refreshToken = none ∨ ∀ r, Grants s.row r → r ∉ s.answered)
    (hnew : ∀ call res, holder = some call → call.phase ≠ .answered res)
    (hrefreshing : ∀ call, holder = some call → call.phase = .refreshing →
      (∃ row, s.row = some row ∧ row.revoked = false ∧
          call.resolved.encryptedRefreshToken = row.encryptedRefreshToken) ∨
        s.row = none ∧ call.resolved.encryptedRefreshToken = none ∧ call.resolved.byRef)
    (hsent : ∀ call token, holder = some call → call.phase = .sent token →
      token = none ∧ call.resolved.byRef ∨ ∃ r, token = some r ∧ Grants s.row r) :
    Inv { s with holder := holder } where
  answered_old := h.answered_old
  row_old := h.row_old
  row_fresh r hr hmem := by
    obtain ⟨call, res, hcall, hphase, hres⟩ := h.row_fresh r hr hmem
    rcases hold call res hcall hphase with hnone | hfresh
    · exact absurd hnone hres
    · exact absurd hmem (hfresh r hr)
  exchanged_fresh := h.exchanged_fresh
  distinct := h.distinct
  pending call res r hcall hphase := absurd hphase (hnew call res hcall)
  refreshing := hrefreshing
  sent := hsent
  stored call res hcall hphase := absurd hphase (hnew call res hcall)

theorem inv_release (h : Inv s) (hold : ∀ call res, s.holder = some call →
    call.phase ≠ .answered res) : Inv s.release :=
  inv_holder h (fun call res hcall hphase => absurd hphase (hold call res hcall))
    (fun _ _ hcall => absurd hcall (by simp only [reduceCtorEq, not_false_eq_true]))
    (fun _ hcall => absurd hcall (by simp only [reduceCtorEq, not_false_eq_true]))
    (fun _ _ hcall => absurd hcall (by simp only [reduceCtorEq, not_false_eq_true]))

/-- What the vendor issues to anyone is new. -/
theorem inv_issued (h : Inv s) (refresh : Bool) : Inv (s.issued refresh) := by
  have hle : s.nextRefresh ≤ (s.issued refresh).nextRefresh := by
    cases refresh with
    | false => exact Nat.le_refl _
    | true => exact Nat.le_succ _
  exact
    { answered_old := fun r hr => Nat.lt_of_lt_of_le (h.answered_old r hr) hle
      row_old := fun r hr => Nat.lt_of_lt_of_le (h.row_old r hr) hle
      row_fresh := h.row_fresh
      exchanged_fresh := fun g hg r hr =>
        ⟨Nat.lt_of_lt_of_le (h.exchanged_fresh g hg r hr).1 hle, (h.exchanged_fresh g hg r hr).2⟩
      distinct := h.distinct
      pending := fun call res r hcall hphase hr =>
        ⟨Nat.lt_of_lt_of_le (h.pending call res r hcall hphase hr).1 hle,
          (h.pending call res r hcall hphase hr).2⟩
      refreshing := h.refreshing
      sent := h.sent
      stored := h.stored }

theorem inv_spent (h : Inv s) (spent : List Nat) : Inv { s with spent := spent } :=
  ⟨h.answered_old, h.row_old, h.row_fresh, h.exchanged_fresh, h.distinct, h.pending, h.refreshing,
    h.sent, h.stored⟩

/-- The vendor's answer: the row's token is answered for, and what is to be
    stored is new. -/
theorem inv_answer (h : Inv s) {call : Call} {token : Option Nat} (hcall : s.holder = some call)
    (hphase : call.phase = .sent token) (expiresAt : Option Int) :
    Inv { s.issued token.isSome with
      holder := some { call with phase := .answered (s.issue token.isSome expiresAt) }
      spent := token.toList ++ s.spent
      answered := token.toList ++ s.answered } := by
  have hissued := inv_issued h token.isSome
  have hgrants : ∀ r, token = some r → Grants s.row r := by
    intro r hr
    rcases h.sent call token hcall hphase with ⟨hnone, -⟩ | ⟨r', hr', hg⟩
    · exact absurd (hr.symm.trans hnone) (by simp only [reduceCtorEq, not_false_eq_true])
    · rw [Option.some.inj (hr.symm.trans hr')]
      exact hg
  have hnotold : ∀ r, Grants s.row r → r ∉ s.answered := by
    intro r hr hmem
    obtain ⟨call', res, hcall', hphase', -⟩ := h.row_fresh r hr hmem
    rw [← Option.some.inj (hcall.symm.trans hcall'), hphase] at hphase'
    exact absurd hphase' (by simp only [reduceCtorEq, not_false_eq_true])
  have hmem : ∀ r, r ∈ token.toList ++ s.answered → token = some r ∨ r ∈ s.answered := by
    intro r hr
    rcases List.mem_append.mp hr with hr | hr
    · exact .inl (Option.mem_toList.mp hr)
    · exact .inr hr
  refine
    { answered_old := fun r hr => ?_
      row_old := hissued.row_old
      row_fresh := fun r hr hra => ?_
      exchanged_fresh := fun g hg r hr => ?_
      distinct := h.distinct
      pending := fun call' res r hcall' hphase' hr => ?_
      refreshing := fun call' hcall' hphase' => ?_
      sent := fun call' t hcall' hphase' => ?_
      stored := fun call' res hcall' hphase' => ?_ }
  · rcases hmem r hr with hr | hr
    · exact hissued.row_old r (hgrants r hr)
    · exact hissued.answered_old r hr
  · rcases hmem r hra with hra | hra
    · refine ⟨_, _, rfl, rfl, ?_⟩
      rw [State.issue, hra]
      exact Option.some_ne_none _
    · exact absurd hra (hnotold r hr)
  · obtain ⟨hlt, hnot, hrow⟩ := hissued.exchanged_fresh g hg r hr
    refine ⟨hlt, fun hra => ?_, hrow⟩
    rcases hmem r hra with hra | hra
    · exact hrow (hgrants r hra)
    · exact hnot hra
  · rw [← Option.some.inj hcall'] at hphase'
    rw [← Phase.answered.inj hphase', State.issue] at hr
    obtain ⟨hsome, hr⟩ := Option.ite_none_right_eq_some.mp hr
    have hnext : s.nextRefresh = r := Option.some.inj hr
    refine ⟨?_, fun hra => ?_, fun g hg hgr => ?_⟩
    · change r < (if token.isSome = true then s.nextRefresh + 1 else s.nextRefresh)
      rw [if_pos hsome, hnext]
      exact Nat.lt_succ_self r
    · rcases hmem r hra with hra | hra
      · have hlt := h.row_old r (hgrants r hra)
        omega
      · have hlt := h.answered_old r hra
        omega
    · have hlt := (h.exchanged_fresh g hg r hgr).1
      omega
  · rw [← Option.some.inj hcall'] at hphase'
    exact absurd hphase' (by simp only [reduceCtorEq, not_false_eq_true])
  · rw [← Option.some.inj hcall'] at hphase'
    exact absurd hphase' (by simp only [reduceCtorEq, not_false_eq_true])
  · rw [← Option.some.inj hcall']
    rcases h.sent call token hcall hphase with ⟨-, hbyRef⟩ | ⟨r, -, hg⟩
    · exact .inr hbyRef
    · obtain ⟨t, c, ht, -⟩ := hg
      refine .inl ?_
      change s.row ≠ none
      rw [ht]
      exact Option.some_ne_none _

/-- The commit: the answer's token takes the place of the one answered for. -/
theorem inv_commit (h : Inv s) {call : Call} {res : RefreshResult} (hcall : s.holder = some call)
    (hphase : call.phase = .answered res) (nonce : Nat) :
    Inv { s with row := s.row.map (updateTokens · res nonce), holder := none } where
  answered_old := h.answered_old
  row_old r hr := by
    rcases grants_update hr with hres | ⟨-, hr⟩
    · exact (h.pending call res r hcall hphase hres).1
    · exact h.row_old r hr
  row_fresh r hr hmem := by
    rcases grants_update hr with hres | ⟨hnone, hr⟩
    · exact absurd hmem (h.pending call res r hcall hphase hres).2.1
    · obtain ⟨call', res', hcall', hphase', hne⟩ := h.row_fresh r hr hmem
      rw [← Option.some.inj (hcall.symm.trans hcall'), hphase] at hphase'
      rw [← Phase.answered.inj hphase'] at hne
      exact absurd hnone hne
  exchanged_fresh g hg r hr := by
    obtain ⟨hlt, hnot, hrow⟩ := h.exchanged_fresh g hg r hr
    refine ⟨hlt, hnot, fun hnew => ?_⟩
    rcases grants_update hnew with hres | ⟨-, hold⟩
    · exact (h.pending call res r hcall hphase hres).2.2 g hg hr
    · exact hrow hold
  distinct := h.distinct
  pending _ _ _ hnone := absurd hnone (by simp only [reduceCtorEq, not_false_eq_true])
  refreshing _ hnone := absurd hnone (by simp only [reduceCtorEq, not_false_eq_true])
  sent _ _ hnone := absurd hnone (by simp only [reduceCtorEq, not_false_eq_true])
  stored _ _ hnone := absurd hnone (by simp only [reduceCtorEq, not_false_eq_true])

/-- A reconnect is issued a grant of its own. -/
theorem inv_exchange (h : Inv s) (refresh : Bool) (expiresAt : Option Int) :
    Inv { s.issued refresh with exchanged := s.exchanged ++ [s.issue refresh expiresAt] } := by
  have hissued := inv_issued h refresh
  have hnew : ∀ r, (s.issue refresh expiresAt).refreshToken = some r →
      s.nextRefresh = r ∧ r < (s.issued refresh).nextRefresh := by
    intro r hr
    obtain ⟨hsome, hr⟩ := Option.ite_none_right_eq_some.mp hr
    refine ⟨Option.some.inj hr, ?_⟩
    change r < (if refresh = true then s.nextRefresh + 1 else s.nextRefresh)
    rw [if_pos hsome, Option.some.inj hr]
    exact Nat.lt_succ_self r
  refine
    { answered_old := hissued.answered_old
      row_old := hissued.row_old
      row_fresh := h.row_fresh
      exchanged_fresh := fun g hg r hr => ?_
      distinct := ?_
      pending := fun call res r hcall hphase hr => ?_
      refreshing := h.refreshing
      sent := h.sent
      stored := h.stored }
  · rcases List.mem_append.mp hg with hg | hg
    · exact hissued.exchanged_fresh g hg r hr
    · rw [List.mem_singleton.mp hg] at hr
      obtain ⟨hnext, hlt⟩ := hnew r hr
      refine ⟨hlt, fun hra => ?_, fun hrow => ?_⟩
      · have := h.answered_old r hra
        omega
      · have := h.row_old r hrow
        omega
  · change ((s.exchanged ++ [s.issue refresh expiresAt]).filterMap
      RefreshResult.refreshToken).Nodup
    rw [List.filterMap_append, List.nodup_append]
    refine ⟨h.distinct, ?_, fun r hr r' hr' heq => ?_⟩
    · cases hg : (s.issue refresh expiresAt).refreshToken with
      | none =>
          rw [List.filterMap_cons_none hg]
          exact List.nodup_nil
      | some r =>
          rw [List.filterMap_cons_some hg]
          exact List.nodup_singleton r
    · obtain ⟨g, hg, hgr⟩ := List.mem_filterMap.mp hr
      obtain ⟨g', hg', hgr'⟩ := List.mem_filterMap.mp hr'
      rw [List.mem_singleton.mp hg'] at hgr'
      have hlt := (h.exchanged_fresh g hg r hgr).1
      have hnext := (hnew r' hgr').1
      omega
  · obtain ⟨hlt, hnot, hother⟩ := hissued.pending call res r hcall hphase hr
    refine ⟨hlt, hnot, fun g hg hgr => ?_⟩
    rcases List.mem_append.mp hg with hg | hg
    · exact hother g hg hgr
    · rw [List.mem_singleton.mp hg] at hgr
      have hnext := (hnew r hgr).1
      have hold := (h.pending call res r hcall hphase hr).1
      omega

/-- A reconnect discards its grant. -/
theorem inv_discard (h : Inv s) (i : Nat) :
    Inv { s with exchanged := s.exchanged.eraseIdx i } where
  answered_old := h.answered_old
  row_old := h.row_old
  row_fresh := h.row_fresh
  exchanged_fresh g hg := h.exchanged_fresh g (List.mem_of_mem_eraseIdx hg)
  distinct := h.distinct.sublist ((List.eraseIdx_sublist _ _).filterMap _)
  pending call res r hcall hphase hr := by
    obtain ⟨hlt, hnot, hother⟩ := h.pending call res r hcall hphase hr
    exact ⟨hlt, hnot, fun g hg => hother g (List.mem_of_mem_eraseIdx hg)⟩
  refreshing := h.refreshing
  sent := h.sent
  stored := h.stored

/-- A reconnect stores its grant, whose refresh token no other one has. -/
theorem inv_store (h : Inv s) {i nonce : Nat} {grant : RefreshResult}
    (hgrant : s.exchanged[i]? = some grant) (hfree : s.holder = none) :
    Inv { s with
      row := some ((s.row.map (updateTokens · grant nonce)).getD (createTokens grant nonce))
      exchanged := s.exchanged.eraseIdx i } := by
  have hmem : grant ∈ s.exchanged := List.mem_of_getElem? hgrant
  have hdiscard := inv_discard h i
  have hother : ∀ g ∈ s.exchanged.eraseIdx i, ∀ r, g.refreshToken = some r →
      grant.refreshToken ≠ some r := by
    intro g hg r hr hgr
    obtain ⟨hi, rfl⟩ := List.getElem?_eq_some_iff.mp hgrant
    have hperm := (List.getElem_cons_eraseIdx_perm hi).filterMap RefreshResult.refreshToken
    have hnodup := hperm.nodup_iff.mpr h.distinct
    rw [List.filterMap_cons_some hgr, List.nodup_cons] at hnodup
    exact hnodup.1 (List.mem_filterMap.mpr ⟨g, hg, hr⟩)
  refine
    { answered_old := h.answered_old
      row_old := fun r hr => ?_
      row_fresh := fun r hr hra => ?_
      exchanged_fresh := fun g hg r hr => ?_
      distinct := hdiscard.distinct
      pending := hdiscard.pending
      refreshing := fun call hcall => absurd (hfree.symm.trans hcall) (by
        simp only [reduceCtorEq, not_false_eq_true])
      sent := fun call t hcall => absurd (hfree.symm.trans hcall) (by
        simp only [reduceCtorEq, not_false_eq_true])
      stored := fun call res hcall => absurd (hfree.symm.trans hcall) (by
        simp only [reduceCtorEq, not_false_eq_true]) }
  · rcases grants_store hr with hres | ⟨-, hr⟩
    · exact (h.exchanged_fresh grant hmem r hres).1
    · exact h.row_old r hr
  · rcases grants_store hr with hres | ⟨-, hr⟩
    · exact absurd hra (h.exchanged_fresh grant hmem r hres).2.1
    · exact h.row_fresh r hr hra
  · obtain ⟨hlt, hnot, hrow⟩ := hdiscard.exchanged_fresh g hg r hr
    refine ⟨hlt, hnot, fun hnew => ?_⟩
    rcases grants_store hnew with hres | ⟨-, hold⟩
    · exact hother g hg r hr hres
    · exact hrow hold

theorem inv_revoke (h : Inv s) (hfree : s.holder = none) (drop : Bool) :
    Inv { s with
      row := if drop then none else s.row.map fun row => { row with revoked := true } } where
  answered_old := h.answered_old
  row_old r hr := h.row_old r (grants_revoke hr)
  row_fresh r hr := h.row_fresh r (grants_revoke hr)
  exchanged_fresh g hg r hr := by
    obtain ⟨hlt, hnot, hrow⟩ := h.exchanged_fresh g hg r hr
    exact ⟨hlt, hnot, fun hnew => hrow (grants_revoke hnew)⟩
  distinct := h.distinct
  pending := h.pending
  refreshing call hcall := absurd (hfree.symm.trans hcall) (by
    simp only [reduceCtorEq, not_false_eq_true])
  sent call t hcall := absurd (hfree.symm.trans hcall) (by
    simp only [reduceCtorEq, not_false_eq_true])
  stored call res hcall := absurd (hfree.symm.trans hcall) (by
    simp only [reduceCtorEq, not_false_eq_true])

theorem inv_step {a : Action} (h : Inv s) (hstep : step s a = some s') : Inv s' := by
  cases a with
  | useOwn resolved skew now =>
      obtain ⟨-, hs⟩ := Option.ite_none_right_eq_some.mp hstep
      rw [← Option.some.inj hs]
      exact h
  | lock resolved skew now =>
      obtain ⟨hfree, rfl⟩ := step_lock hstep
      refine inv_holder h (fun call res hcall => ?_) (fun call res hcall hphase => ?_)
        (fun call hcall hphase => ?_) (fun call t hcall hphase => ?_)
      · exact absurd (hfree.symm.trans hcall) (by simp only [reduceCtorEq, not_false_eq_true])
      · rw [← Option.some.inj hcall] at hphase
        exact absurd hphase (by simp only [reduceCtorEq, not_false_eq_true])
      · rw [← Option.some.inj hcall] at hphase
        exact absurd hphase (by simp only [reduceCtorEq, not_false_eq_true])
      · rw [← Option.some.inj hcall] at hphase
        exact absurd hphase (by simp only [reduceCtorEq, not_false_eq_true])
  | reread now =>
      obtain ⟨call, hcall, hphase, rfl⟩ := step_reread hstep
      refine inv_holder h (fun call' res hcall' hphase' => ?_) (fun call' res hnew hphase' => ?_)
        (fun call' hnew _ => ?_) (fun call' t hnew hphase' => ?_)
      · rw [← Option.some.inj (hcall.symm.trans hcall'), hphase] at hphase'
        exact absurd hphase' (by simp only [reduceCtorEq, not_false_eq_true])
      · rw [(reread_spec hnew).1] at hphase'
        exact absurd hphase' (by simp only [reduceCtorEq, not_false_eq_true])
      · rcases (reread_spec hnew).2 with hrow | ⟨hrow, hnone, href, hmints⟩
        · exact .inl hrow
        · exact .inr ⟨hrow, hnone, href, hmints⟩
      · rw [(reread_spec hnew).1] at hphase'
        exact absurd hphase' (by simp only [reduceCtorEq, not_false_eq_true])
  | send =>
      obtain ⟨call, hcall, hphase, rfl⟩ := step_send hstep
      refine inv_holder h (fun call' res hcall' hphase' => ?_) (fun call' res hnew hphase' => ?_)
        (fun call' hnew hphase' => ?_) (fun call' t hnew hphase' => ?_)
      · rw [← Option.some.inj (hcall.symm.trans hcall'), hphase] at hphase'
        exact absurd hphase' (by simp only [reduceCtorEq, not_false_eq_true])
      · obtain ⟨t, -, rfl⟩ := Option.map_eq_some_iff.mp hnew
        exact absurd hphase' (by simp only [reduceCtorEq, not_false_eq_true])
      · obtain ⟨t, -, rfl⟩ := Option.map_eq_some_iff.mp hnew
        exact absurd hphase' (by simp only [reduceCtorEq, not_false_eq_true])
      · obtain ⟨t', ht', rfl⟩ := Option.map_eq_some_iff.mp hnew
        rw [← Phase.sent.inj hphase']
        rcases request_eq_some ht' with ⟨hnone, hmints, href⟩ | ⟨c, hc, hsome⟩
        · exact .inl ⟨hnone, href, hmints⟩
        · rcases h.refreshing call hcall hphase with ⟨row, hrow, -, hsame⟩ | ⟨-, hnone, -⟩
          · exact .inr ⟨c.plain, hsome, row, c, hrow, hsame.symm.trans hc, rfl⟩
          · exact absurd (hnone.symm.trans hc) (by simp only [reduceCtorEq, not_false_eq_true])
  | answer expiresAt =>
      obtain ⟨call, token, hcall, hphase, rfl⟩ := step_answer hstep
      exact inv_answer h hcall hphase expiresAt
  | refuse =>
      obtain ⟨call, token, hcall, hphase, rfl⟩ := step_refuse hstep
      refine inv_release h fun call' res hcall' hphase' => ?_
      rw [← Option.some.inj (hcall.symm.trans hcall'), hphase] at hphase'
      exact absurd hphase' (by simp only [reduceCtorEq, not_false_eq_true])
  | loseAnswer =>
      obtain ⟨call, token, hcall, hphase, rfl⟩ := step_loseAnswer hstep
      refine inv_spent (inv_release (inv_issued h token.isSome) fun call' res hcall' hphase' => ?_) _
      have hcall'' : s.holder = some call' := hcall'
      rw [← Option.some.inj (hcall.symm.trans hcall''), hphase] at hphase'
      exact absurd hphase' (by simp only [reduceCtorEq, not_false_eq_true])
  | commit nonce =>
      obtain ⟨call, res, hcall, hphase, rfl⟩ := step_commit hstep
      exact inv_commit h hcall hphase nonce
  | exchangeCode refresh expiresAt =>
      rw [← Option.some.inj hstep]
      exact inv_exchange h refresh expiresAt
  | storeGrant i nonce =>
      obtain ⟨grant, hgrant, hfree, rfl⟩ := step_store hstep
      exact inv_store h hgrant hfree
  | discardGrant i =>
      rw [← Option.some.inj hstep]
      exact inv_discard h i
  | revoke drop =>
      obtain ⟨hfree, rfl⟩ := step_revoke hstep
      exact inv_revoke h hfree drop

theorem inv_start (h : machine.start s) : Inv s := by
  obtain ⟨hholder, hexchanged, -, hanswered, hrow⟩ := h
  have hclosed : ∀ {call}, s.holder ≠ some call := by
    intro call hcall
    exact absurd (hholder.symm.trans hcall) (by simp only [reduceCtorEq, not_false_eq_true])
  refine
    { answered_old := fun r hr => ?_
      row_old := fun r hr => ?_
      row_fresh := fun r _ hr => ?_
      exchanged_fresh := fun g hg => ?_
      distinct := ?_
      pending := fun _ _ _ hcall => absurd hcall hclosed
      refreshing := fun _ hcall => absurd hcall hclosed
      sent := fun _ _ hcall => absurd hcall hclosed
      stored := fun _ _ hcall => absurd hcall hclosed }
  · rw [hanswered] at hr
    exact absurd hr List.not_mem_nil
  · obtain ⟨t, c, ht, hc, rfl⟩ := hr
    exact (hrow t ht).2 c hc
  · rw [hanswered] at hr
    exact absurd hr List.not_mem_nil
  · rw [hexchanged] at hg
    exact absurd hg List.not_mem_nil
  · rw [hexchanged]
    exact List.nodup_nil

/-! ## Order -/

/-- A step returns a call's own token, which was fresh as it read it. -/
def ReturnsOwn (a : Action) (t : Nat) : Prop :=
  ∃ resolved skew now c, a = .useOwn resolved skew now ∧
    resolved.encryptedAccessToken = some c ∧ c.plain = t ∧
    isFresh resolved.tokenExpiresAt skew now = true

/-- The call with the lock has no row, and needs none. -/
def WithoutRow (s : State) : Prop :=
  s.row = none ∧ ∃ call, s.holder = some call ∧ call.resolved.byRef

/-- What is sent and given back in a step. -/
structure InOrder (s : State) (a : Action) (s' : State) : Prop where
  /-- No refresh token is sent after a refresh with it has been answered. -/
  once : ∀ r, sentToken s a = some r → r ∉ s.answered
  /-- What is sent is the refresh token of the row, which is not revoked. -/
  current : ∀ r, sentToken s a = some r → ∃ row c, s.row = some row ∧ row.revoked = false ∧
    row.encryptedRefreshToken = some c ∧ c.plain = r
  /-- The vendor is called for such a row, or for an account's reference. -/
  granted : requests s a ≠ none →
    (∃ row, s.row = some row ∧ row.revoked = false) ∨ WithoutRow s
  /-- What is given back is the row's access token as the lock is given back. -/
  latest : ∀ t, returned s a = some t → ReturnsOwn a t ∨
    (∃ row, s'.row = some row ∧ row.encryptedAccessToken.plain = t) ∨ WithoutRow s

theorem requests_eq_some {a : Action} {t : Option Nat} (h : requests s a = some t) :
    ∃ call, s.holder = some call ∧ call.phase = .refreshing ∧ request call.resolved = some t := by
  cases a with
  | send =>
      obtain ⟨call, hcall, h⟩ := Option.bind_eq_some_iff.mp h
      obtain ⟨hphase, h⟩ := Option.ite_none_right_eq_some.mp h
      exact ⟨call, hcall, hphase, h⟩
  | _ => exact absurd h (by simp only [requests, reduceCtorEq, not_false_eq_true])

/-- The refresh token that is sent is the row's. -/
theorem sentToken_current {a : Action} {r : Nat} (h : Inv s) (hsent : sentToken s a = some r) :
    ∃ row c, s.row = some row ∧ row.revoked = false ∧ row.encryptedRefreshToken = some c ∧
      c.plain = r := by
  obtain ⟨call, hcall, hphase, hreq⟩ := requests_eq_some (Option.join_eq_some_iff.mp hsent)
  rcases request_eq_some hreq with ⟨hnone, -, -⟩ | ⟨c, hc, hsome⟩
  · exact absurd hnone (by simp only [reduceCtorEq, not_false_eq_true])
  · rcases h.refreshing call hcall hphase with ⟨row, hrow, hlive, hsame⟩ | ⟨-, hnone, -⟩
    · exact ⟨row, c, hrow, hlive, hsame.symm.trans hc, (Option.some.inj hsome).symm⟩
    · exact absurd (hnone.symm.trans hc) (by simp only [reduceCtorEq, not_false_eq_true])

/-- The row's token has not been answered for while a call is still to send it. -/
theorem sentToken_unanswered {a : Action} {r : Nat} (h : Inv s) (hsent : sentToken s a = some r) :
    r ∉ s.answered := by
  intro hmem
  obtain ⟨call, hcall, hphase, -⟩ := requests_eq_some (Option.join_eq_some_iff.mp hsent)
  obtain ⟨row, c, hrow, -, hc, hr⟩ := sentToken_current h hsent
  obtain ⟨call', res, hcall', hphase', -⟩ := h.row_fresh r ⟨row, c, hrow, hc, hr⟩ hmem
  rw [← Option.some.inj (hcall.symm.trans hcall'), hphase] at hphase'
  exact absurd hphase' (by simp only [reduceCtorEq, not_false_eq_true])

theorem requests_granted {a : Action} (h : Inv s) (hreq : requests s a ≠ none) :
    (∃ row, s.row = some row ∧ row.revoked = false) ∨ WithoutRow s := by
  obtain ⟨t, ht⟩ := Option.ne_none_iff_exists'.mp hreq
  obtain ⟨call, hcall, hphase, -⟩ := requests_eq_some ht
  rcases h.refreshing call hcall hphase with ⟨row, hrow, hlive, -⟩ | ⟨hrow, -, hbyRef⟩
  · exact .inl ⟨row, hrow, hlive⟩
  · exact .inr ⟨hrow, call, hcall, hbyRef⟩

theorem returned_latest {a : Action} {t : Nat} (h : Inv s) (hstep : step s a = some s')
    (ht : returned s a = some t) : ReturnsOwn a t ∨
      (∃ row, s'.row = some row ∧ row.encryptedAccessToken.plain = t) ∨ WithoutRow s := by
  cases a with
  | useOwn resolved skew now =>
      obtain ⟨hvalid, -⟩ := Option.ite_none_right_eq_some.mp hstep
      rw [isValid, Bool.and_eq_true] at hvalid
      obtain ⟨c, hc, hplain⟩ := Option.map_eq_some_iff.mp ht
      exact .inl ⟨resolved, skew, now, c, rfl, hc, hplain, hvalid.2⟩
  | reread now =>
      obtain ⟨call, hcall, hphase, rfl⟩ := step_reread hstep
      obtain ⟨call', hcall', ht⟩ := Option.bind_eq_some_iff.mp ht
      obtain ⟨row, hrow, ht⟩ := Option.bind_eq_some_iff.mp ht
      obtain ⟨-, ht⟩ := Option.ite_none_right_eq_some.mp ht
      exact .inr (.inl ⟨row, hrow, Option.some.inj ht⟩)
  | commit nonce =>
      obtain ⟨call, res, hcall, hphase, rfl⟩ := step_commit hstep
      obtain ⟨call', hcall', ht⟩ := Option.bind_eq_some_iff.mp ht
      rw [← Option.some.inj (hcall.symm.trans hcall'), hphase] at ht
      have haccess : res.accessToken = t := Option.some.inj ht
      cases hrow : s.row with
      | some row => exact .inr (.inl ⟨updateTokens row res nonce, rfl, haccess⟩)
      | none =>
          rcases h.stored call res hcall hphase with hsome | hbyRef
          · exact absurd hrow hsome
          · exact .inr (.inr ⟨hrow, call, hcall, hbyRef⟩)
  | _ => exact absurd ht (by simp only [returned, reduceCtorEq, not_false_eq_true])

/-- Every step of every run is in order. -/
theorem inOrder_of_reachable (s : State) (a : Action) (s' : State) (h : machine.Reachable s)
    (hstep : step s a = some s') : InOrder s a s' := by
  have hinv : Inv s := Machine.reachable_invariant (fun _ => inv_start)
    (fun _ _ _ hinv hstep => inv_step hinv hstep) h
  exact ⟨fun _ hsent => sentToken_unanswered hinv hsent, fun _ hsent => sentToken_current hinv hsent,
    requests_granted hinv, fun _ ht => returned_latest hinv hstep ht⟩

/-! ## Runs -/

/-- A row whose token expires at a time. -/
def startState (row : Option TokenRow) : State := ⟨row, none, [], [], [], 1, 1⟩

def oneRow (expiresAt : Option Int) : TokenRow := ⟨⟨0, 0⟩, some ⟨1, 0⟩, expiresAt, false⟩

/-- A call that has read a token that is about to expire. -/
def staleCall : Resolved := ⟨some ⟨0, 0⟩, some ⟨1, 0⟩, some 0, false, false⟩

/-- A call of a provider that mints from the account's reference. -/
def accountCall : Resolved := ⟨none, none, none, true, true⟩

theorem start_oneRow (expiresAt : Option Int) :
    machine.start (startState (some (oneRow expiresAt))) := by
  refine ⟨rfl, rfl, rfl, rfl, fun row hrow => ?_⟩
  rw [← Option.some.inj hrow]
  exact ⟨rfl, fun c hc => Option.some.inj hc ▸ Nat.zero_lt_one⟩

/-- A refresh, in which the row's token is sent. -/
theorem inOrder_send : ∃ s s', machine.Reachable s ∧ step s .send = some s' ∧
    sentToken s .send = some 0 ∧ InOrder s .send s' := by
  have hrun : machine.runActions (startState (some (oneRow (some 0))))
      [.lock staleCall 60 5, .reread 5] =
        some ⟨some (oneRow (some 0)), some ⟨staleCall, 60, .refreshing⟩, [], [], [], 1, 1⟩ := rfl
  have hreach := Machine.reachable_runActions
    (Machine.ReachesWhen.start _ (start_oneRow (some 0))) hrun
  exact ⟨_, _, hreach, rfl, rfl, inOrder_of_reachable _ .send _ hreach rfl⟩

/-- A token is sent again whose refresh was not answered; an account's reference
    is sent without a row; and the row's token is given back while a reconnect
    has been issued a later one. -/
theorem not_strict :
    (¬ ∀ s a s', machine.Reachable s → step s a = some s' →
      ∀ r, sentToken s a = some r → r ∉ s.spent) ∧
    (¬ ∀ s a s', machine.Reachable s → step s a = some s' →
      requests s a ≠ none → ∃ row, s.row = some row ∧ row.revoked = false) ∧
    ¬ ∀ s a s', machine.Reachable s → step s a = some s' →
      ∀ t, returned s a = some t → ReturnsOwn a t ∨ t + 1 = s'.nextAccess := by
  refine ⟨fun h => ?_, fun h => ?_, fun h => ?_⟩
  · have hrun : machine.runActions (startState (some (oneRow (some 0))))
        [.lock staleCall 60 5, .reread 5, .send, .loseAnswer, .lock staleCall 60 5, .reread 5] =
          some ⟨some (oneRow (some 0)), some ⟨staleCall, 60, .refreshing⟩, [], [0], [], 2, 2⟩ := rfl
    have hreach := Machine.reachable_runActions
      (Machine.ReachesWhen.start _ (start_oneRow (some 0))) hrun
    exact h _ .send _ hreach rfl 0 rfl (List.mem_singleton.mpr rfl)
  · have hrun : machine.runActions (startState none) [.lock accountCall 60 5, .reread 5] =
        some ⟨none, some ⟨accountCall, 60, .refreshing⟩, [], [], [], 1, 1⟩ := rfl
    have hstart : machine.start (startState none) := ⟨rfl, rfl, rfl, rfl, fun row hrow =>
      absurd hrow (by simp only [startState, reduceCtorEq, not_false_eq_true])⟩
    have hreach := Machine.reachable_runActions (Machine.ReachesWhen.start _ hstart) hrun
    obtain ⟨row, hrow, -⟩ := h _ .send _ hreach rfl (Option.some_ne_none _)
    exact absurd hrow (by simp only [reduceCtorEq, not_false_eq_true])
  · have hrun : machine.runActions (startState (some (oneRow none)))
        [.exchangeCode true none, .lock staleCall 60 5] =
          some ⟨some (oneRow none), some ⟨staleCall, 60, .locked⟩, [⟨1, some 1, none⟩], [], [],
            2, 2⟩ := rfl
    have hreach := Machine.reachable_runActions
      (Machine.ReachesWhen.start _ (start_oneRow none)) hrun
    rcases h _ (.reread 5) _ hreach rfl 0 rfl with ⟨_, _, _, _, hown, -⟩ | hlast
    · exact absurd hown (by simp only [reduceCtorEq, not_false_eq_true])
    · exact absurd hlast (by decide)

end Refresh

end Credentials

end JenticOne
