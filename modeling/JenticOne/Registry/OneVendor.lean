import JenticOne.Registry.HostOwnership

/-!
# One Vendor per Live Host

Two revisions that index the same host take the same lock, so the one that goes
live second has waited for the first and sees it. Whether it finds it there
depends on the spelling: the search is for the host without a dot at its end and
with one, while any number of dots is dropped from what is locked and from what
a host is.

What a transaction knows between its search and its commit is that no live
revision of another vendor has a host with one of its locks. The others cannot
change that, for they would need one of these locks.

## Main definitions

* `SameHost`, `OneVendor`: The property.
* `WellSpelt`: What goes live is spelt as the index stores hosts.
* `TxOk`, `Inv`: The invariant.

## Theorems

* `clear_of_search`: A search that finds nothing.
* `inv_commit`: A commit.
* `oneVendor_of_wellSpelt`: The property, in runs that go live with hosts spelt
  so.
* `not_oneVendor`: A host with two dots at its end is served by two vendors.
-/

namespace JenticOne

namespace Registry

namespace HostOwnership

/-- The host that a row indexes, up to its spelling. -/
def IndexRow.key (lib : Stdlib) (row : IndexRow) : Option Text :=
  row.concreteHost.map (hostKey lib row.scheme)

/-- Two rows index one concrete host. -/
def SameHost (lib : Stdlib) (row row' : IndexRow) : Prop :=
  ∃ key, row.key lib = some key ∧ row'.key lib = some key

/-- No two APIs of different vendors serve revisions that index one host. -/
def OneVendor (lib : Stdlib) (s : State) : Prop :=
  ∀ api api' r r', s.live api = some r → s.live api' = some r' → api.vendor ≠ api'.vendor →
    ∀ row ∈ r.rows, ∀ row' ∈ r'.rows, ¬ SameHost lib row row'

/-- The concrete hosts of the rows are spelt as the index stores hosts. -/
def SpeltRows (lib : Stdlib) (rows : List IndexRow) : Prop :=
  ∀ row ∈ rows, ∀ host, row.concreteHost = some host → Spelt lib row.scheme host

/-- A revision goes live only with hosts that are spelt so. -/
def WellSpelt (lib : Stdlib) (s : State) : Action → Prop
  | .statement tx => ∀ t c, s.txs tx = some t → t.phase = .finished c →
      t.op.goesLive = true → SpeltRows lib c.rows
  | _ => True

/-! ## The invariant -/

variable {w : World} {s : State} {tx : Nat} {t : Tx}

/-- The rows share no host that would be locked. -/
def Apart (lib : Stdlib) (rows rows' : List IndexRow) : Prop :=
  ∀ host ∈ canonicalHosts lib rows, host ∉ canonicalHosts lib rows'

/-- An import's revision is its own, another's is committed. -/
structure Loaded (s : State) (op : Op) (c : Candidate) : Prop where
  own : op.creates = true → s.revisions c.id = none ∧ c.id < s.nextId
  other : op.creates = false → s.revisions c.id = some ⟨op.api, c.rows⟩

/-- The transaction has the locks of its hosts but for those still to come. -/
def Holds (w : World) (s : State) (tx : Nat) (c : Candidate) (todo : List Text) : Prop :=
  ∀ host ∈ canonicalHosts w.lib c.rows, host ∉ todo → s.hostLocks (lockKey w host) = some tx

/-- No live revision of another vendor is in the way. -/
def Clear (w : World) (s : State) (op : Op) (c : Candidate) : Prop :=
  ∀ api r, s.live api = some r → api.vendor ≠ op.api.vendor → Apart w.lib c.rows r.rows

/-- What a transaction has and knows. -/
def TxOk (w : World) (s : State) (tx : Nat) (t : Tx) : Prop :=
  match t.phase with
  | .begun => True
  | .loaded c => Loaded s t.op c
  | .locking c todo => t.op.goesLive = true ∧ Loaded s t.op c ∧ Holds w s tx c todo
  | .cleared c => t.op.goesLive = true ∧ Loaded s t.op c ∧ Holds w s tx c [] ∧ Clear w s t.op c
  | .finished c =>
      Loaded s t.op c ∧ (t.op.goesLive = true → Holds w s tx c [] ∧ Clear w s t.op c)

/-- What a transaction has written to `apis`. -/
def Tx.written (t : Tx) : Option (ApiId × Nat) :=
  match t.phase with
  | .finished c => if t.op.goesLive then some (t.op.api, c.id) else none
  | _ => none

structure Inv (w : World) (s : State) : Prop where
  /-- An API serves a revision of its own. -/
  known : ∀ api id, s.apis.committed.get? api = some id →
    ∃ rows, s.revisions id = some ⟨api, rows⟩
  spelt : ∀ api r, s.live api = some r → SpeltRows w.lib r.rows
  apart : ∀ api api' r r', s.live api = some r → s.live api' = some r' →
    api.vendor ≠ api'.vendor → Apart w.lib r.rows r'.rows
  fresh : ∀ id, s.nextId ≤ id → s.revisions id = none
  txs : ∀ tx t, s.txs tx = some t → TxOk w s tx t
  distinct : ∀ tx tx' t t' c c', tx ≠ tx' → s.txs tx = some t → s.txs tx' = some t' →
    t.op.creates = true → t'.op.creates = true → t.phase.candidate? = some c →
    t'.phase.candidate? = some c' → c.id ≠ c'.id
  writes : ∀ tx api id, (s.apis.writes tx).get? api = some id ↔
    (s.txs tx).bind Tx.written = some (api, id)

/-! ## Hosts -/

theorem mem_canonicalHosts {lib : Stdlib} {rows : List IndexRow} {canonical : Text} :
    canonical ∈ canonicalHosts lib rows ↔
      ∃ row ∈ rows, ∃ host, row.concreteHost = some host ∧ canonicalHost lib host = canonical := by
  unfold canonicalHosts concreteHosts
  rw [List.mem_insertionSort, List.mem_dedup, List.mem_map]
  constructor
  · rintro ⟨host, hmem, hcanonical⟩
    rw [List.mem_dedup, List.mem_filterMap] at hmem
    rcases hmem with ⟨row, hrow, hhost⟩
    exact ⟨row, hrow, host, hhost, hcanonical⟩
  · rintro ⟨row, hrow, host, hhost, hcanonical⟩
    refine ⟨host, ?_, hcanonical⟩
    rw [List.mem_dedup, List.mem_filterMap]
    exact ⟨row, hrow, hhost⟩

theorem Apart.symm {lib : Stdlib} {rows rows' : List IndexRow} (h : Apart lib rows rows') :
    Apart lib rows' rows :=
  fun host hmem hmem' => h host hmem' hmem

/-- Where hosts are spelt as they are stored, the same host has the same lock. -/
theorem not_sameHost_of_apart {lib : Stdlib} {rows rows' : List IndexRow}
    (hrows : SpeltRows lib rows) (hrows' : SpeltRows lib rows') (h : Apart lib rows rows')
    {row row' : IndexRow} (hrow : row ∈ rows) (hrow' : row' ∈ rows') : ¬ SameHost lib row row' := by
  rintro ⟨key, hkey, hkey'⟩
  rcases Option.map_eq_some_iff.mp hkey with ⟨host, hhost, hcanonical⟩
  rcases Option.map_eq_some_iff.mp hkey' with ⟨host', hhost', hcanonical'⟩
  rw [hostKey_of_spelt (hrows row hrow host hhost)] at hcanonical
  rw [hostKey_of_spelt (hrows' row' hrow' host' hhost')] at hcanonical'
  exact h key (mem_canonicalHosts.mpr ⟨row, hrow, host, hhost, hcanonical⟩)
    (mem_canonicalHosts.mpr ⟨row', hrow', host', hhost', hcanonical'⟩)

theorem oneVendor_of_inv (h : Inv w s) : OneVendor w.lib s :=
  fun api api' r r' hr hr' hvendor _ hrow _ hrow' =>
    not_sameHost_of_apart (h.spelt api r hr) (h.spelt api' r' hr')
      (h.apart api api' r r' hr hr' hvendor) hrow hrow'

theorem live_eq_some (h : Inv w s) {api : ApiId} {r : Revision} (hr : s.live api = some r) :
    ∃ id, s.apis.committed.get? api = some id ∧ s.revisions id = some r ∧ r.api = api := by
  rcases Option.bind_eq_some_iff.mp hr with ⟨id, hid, hrev⟩
  rcases h.known api id hid with ⟨rows, hrows⟩
  refine ⟨id, hid, hrev, ?_⟩
  rw [hrev] at hrows
  rw [Option.some.inj hrows]

/-- A search that finds nothing leaves no live revision of another vendor in the
    way: what such a revision has stored is among what is searched for. -/
theorem clear_of_search (h : Inv w s) {op : Op} {c : Candidate} (hloaded : Loaded s op c)
    (hnone : findLiveHostsOfOtherVendors w s c op.api.vendor = []) : Clear w s op c := by
  intro api r hr hvendor canonical hmem hmem'
  rcases live_eq_some h hr with ⟨id, hid, hrev, hapi⟩
  rcases mem_canonicalHosts.mp hmem' with ⟨row, hrow, host, hhost, hcanonical⟩
  -- The revision is another one.
  have hother : id ≠ c.id := by
    rintro rfl
    cases hcreates : op.creates with
    | true =>
        rw [(hloaded.own hcreates).1] at hrev
        exact absurd hrev (by simp only [reduceCtorEq, not_false_eq_true])
    | false =>
        rw [hloaded.other hcreates, Option.some.injEq] at hrev
        rw [← hrev] at hapi
        exact hvendor (congrArg ApiId.vendor hapi.symm)
  have hvariant : host ∈ (canonicalHosts w.lib c.rows).flatMap (hostVariants w.lib) := by
    refine List.mem_flatMap.mpr ⟨canonical, hmem, ?_⟩
    rw [← hcanonical]
    exact mem_hostVariants (h.spelt api r hr row hrow host hhost)
  have hfound : (⟨host, api⟩ : LiveHostOwner) ∈
      findLiveHostsOfOtherVendors w s c op.api.vendor := by
    unfold findLiveHostsOfOtherVendors
    refine List.mem_flatMap.mpr ⟨(api, id), (Dict.get?_eq_some_iff _ _ _).mp hid, ?_⟩
    dsimp only
    rw [if_pos ⟨hvendor, hother⟩, hrev]
    refine List.mem_map.mpr ⟨host, List.mem_filter.mpr ⟨?_, decide_eq_true hvariant⟩, rfl⟩
    exact List.mem_filterMap.mpr ⟨row, hrow, (Option.filter_eq_some_iff.mp hhost).1⟩
  rw [hnone] at hfound
  exact List.not_mem_nil hfound

/-! ## Steps that commit nothing -/

section Steps

variable {s' : State} {op : Op}

theorem loaded_of_txOk {c : Candidate} (h : TxOk w s tx t) (hc : t.phase.candidate? = some c) :
    Loaded s t.op c := by
  unfold TxOk at h
  cases hphase : t.phase with
  | begun =>
      rw [hphase] at hc
      exact absurd hc (by simp only [Phase.candidate?, reduceCtorEq, not_false_eq_true])
  | loaded c' =>
      rw [hphase] at h hc
      exact Option.some.inj hc ▸ h
  | locking c' todo =>
      rw [hphase] at h hc
      exact Option.some.inj hc ▸ h.2.1
  | cleared c' =>
      rw [hphase] at h hc
      exact Option.some.inj hc ▸ h.2.1
  | finished c' =>
      rw [hphase] at h hc
      exact Option.some.inj hc ▸ h.1

/-- What another transaction has and knows, after a step that leaves it its locks
    and its revision and puts nothing in its way. -/
theorem txOk_of_step (h : TxOk w s tx t)
    (hloaded : ∀ c, Loaded s t.op c → t.phase.candidate? = some c → Loaded s' t.op c)
    (hlocks : ∀ key, s.hostLocks key = some tx → s'.hostLocks key = some tx)
    (hclear : ∀ c, Holds w s tx c [] → Clear w s t.op c → Clear w s' t.op c) :
    TxOk w s' tx t := by
  have hholds : ∀ {c todo}, Holds w s tx c todo → Holds w s' tx c todo :=
    fun hc host hmem hnot => hlocks _ (hc host hmem hnot)
  unfold TxOk at h ⊢
  cases hphase : t.phase with
  | begun => trivial
  | loaded c =>
      rw [hphase] at h
      exact hloaded c h (by rw [hphase]; rfl)
  | locking c todo =>
      rw [hphase] at h
      exact ⟨h.1, hloaded c h.2.1 (by rw [hphase]; rfl), hholds h.2.2⟩
  | cleared c =>
      rw [hphase] at h
      exact ⟨h.1, hloaded c h.2.1 (by rw [hphase]; rfl), hholds h.2.2.1,
        hclear c h.2.2.1 h.2.2.2⟩
  | finished c =>
      rw [hphase] at h
      exact ⟨hloaded c h.1 (by rw [hphase]; rfl), fun hlive =>
        ⟨hholds (h.2 hlive).1, hclear c (h.2 hlive).1 (h.2 hlive).2⟩⟩

/-- A step of one transaction that commits nothing. -/
theorem inv_of_same {x : Option Tx} (h : Inv w s) (hrevisions : s'.revisions = s.revisions)
    (hcommitted : s'.apis.committed = s.apis.committed) (hnext : s.nextId ≤ s'.nextId)
    (htxs : s'.txs = Function.update s.txs tx x)
    (hlocks : ∀ tx' key, tx' ≠ tx → s.hostLocks key = some tx' → s'.hostLocks key = some tx')
    (hwrites : ∀ tx', tx' ≠ tx → s'.apis.writes tx' = s.apis.writes tx')
    (hwritten : ∀ api id, (s'.apis.writes tx).get? api = some id ↔
      x.bind Tx.written = some (api, id))
    (hown : ∀ t c, x = some t → t.op.creates = true → t.phase.candidate? = some c →
      (∃ t₀, s.txs tx = some t₀ ∧ t₀.op = t.op ∧ t₀.phase.candidate? = some c) ∨
        c.id = s.nextId)
    (hok : ∀ t, x = some t → TxOk w s' tx t) : Inv w s' := by
  have hlive : s'.live = s.live := by
    unfold State.live
    rw [hrevisions, hcommitted]
  have hget : ∀ {tx' t'}, s'.txs tx' = some t' → tx' = tx ∧ x = some t' ∨
      tx' ≠ tx ∧ s.txs tx' = some t' := by
    intro tx' t' ht'
    rw [htxs, Function.update_apply] at ht'
    split at ht'
    · next he => exact .inl ⟨he, ht'⟩
    · next hne => exact .inr ⟨hne, ht'⟩
  -- What is new about a revision of its own is not another's.
  have hnew : ∀ {t t' c c'} tx', tx' ≠ tx → x = some t → s.txs tx' = some t' →
      t.op.creates = true → t'.op.creates = true → t.phase.candidate? = some c →
      t'.phase.candidate? = some c' → c.id ≠ c'.id := by
    intro t t' c c' tx' hne ht ht' hcreates hcreates' hc hc'
    rcases hown t c ht hcreates hc with ⟨t₀, ht₀, hop, hc₀⟩ | hid
    · exact h.distinct tx tx' t₀ t' c c' (Ne.symm hne) ht₀ ht' (hop ▸ hcreates) hcreates' hc₀ hc'
    · have hlt := ((loaded_of_txOk (h.txs tx' t' ht') hc').own hcreates').2
      omega
  constructor
  · intro api id hid
    rw [hcommitted] at hid
    rw [hrevisions]
    exact h.known api id hid
  · rw [hlive]
    exact h.spelt
  · rw [hlive]
    exact h.apart
  · intro id hid
    rw [hrevisions]
    exact h.fresh id (hnext.trans hid)
  · intro tx' t' ht'
    rcases hget ht' with ⟨rfl, hx⟩ | ⟨hne, ht'⟩
    · exact hok t' hx
    · refine txOk_of_step (h.txs tx' t' ht') (fun c hc _ => ⟨?_, ?_⟩) (hlocks tx' · hne) ?_
      · intro hcreates
        rw [hrevisions]
        exact ⟨(hc.own hcreates).1, (hc.own hcreates).2.trans_le hnext⟩
      · rw [hrevisions]
        exact hc.other
      · intro c _ hclear
        unfold Clear
        rw [hlive]
        exact hclear
  · intro tx₁ tx₂ t₁ t₂ c₁ c₂ hne ht₁ ht₂ hcreates₁ hcreates₂ hc₁ hc₂
    rcases hget ht₁ with ⟨rfl, hx⟩ | ⟨hne₁, ht₁⟩
    · rcases hget ht₂ with ⟨rfl, _⟩ | ⟨hne₂, ht₂⟩
      · exact absurd rfl hne
      · exact hnew tx₂ hne₂ hx ht₂ hcreates₁ hcreates₂ hc₁ hc₂
    · rcases hget ht₂ with ⟨rfl, hx⟩ | ⟨_, ht₂⟩
      · exact (hnew tx₁ hne₁ hx ht₁ hcreates₂ hcreates₁ hc₂ hc₁).symm
      · exact h.distinct tx₁ tx₂ t₁ t₂ c₁ c₂ hne ht₁ ht₂ hcreates₁ hcreates₂ hc₁ hc₂
  · intro tx' api id
    rw [htxs, Function.update_apply]
    split
    · next he =>
        rw [he]
        exact hwritten api id
    · next hne =>
        rw [hwrites tx' hne]
        exact h.writes tx' api id

/-- A transaction that is rolled back. -/
theorem inv_abort (h : Inv w s) : Inv w (s.abort tx) := by
  refine inv_of_same (x := none) h rfl rfl (le_refl _) rfl ?_ ?_ ?_ ?_ ?_
  · intro tx' key hne hkey
    change (if s.hostLocks key = some tx then none else s.hostLocks key) = some tx'
    rw [hkey, if_neg fun he => hne (Option.some.inj he)]
  · exact fun tx' hne => Function.update_of_ne hne _ _
  · intro api id
    change ((s.apis.rollback tx).writes tx).get? api = some id ↔ _
    rw [ReadCommitted.Rows.writes_rollback, Dict.get?_empty, Option.bind_none]
    exact ⟨fun hc => absurd hc (by simp only [reduceCtorEq, not_false_eq_true]),
      fun hc => absurd hc (by simp only [reduceCtorEq, not_false_eq_true])⟩
  · exact fun t c hx => absurd hx (by simp only [reduceCtorEq, not_false_eq_true])
  · exact fun t hx => absurd hx (by simp only [reduceCtorEq, not_false_eq_true])

/-- A transaction that goes on without writing to `apis` or taking a lock. -/
theorem inv_put {phase : Phase} (h : Inv w s) (ht : s.txs tx = some t)
    (hwritten : Tx.written ⟨t.op, phase⟩ = t.written)
    (hcandidate : ∀ c, phase.candidate? = some c → t.phase.candidate? = some c)
    (hok : TxOk w s tx ⟨t.op, phase⟩) : Inv w (s.put tx ⟨t.op, phase⟩) := by
  refine inv_of_same (x := some ⟨t.op, phase⟩) h rfl rfl (le_refl _) rfl (fun _ _ _ hkey => hkey)
    (fun _ _ => rfl) ?_ ?_ ?_
  · intro api id
    have hbefore := h.writes tx api id
    rw [ht, Option.bind_some] at hbefore
    rw [Option.bind_some, hwritten]
    exact hbefore
  · intro t' c hx _ hc
    rw [← Option.some.inj hx] at hc
    exact .inl ⟨t, ht, by rw [← Option.some.inj hx], hcandidate c hc⟩
  · intro t' hx
    rw [← Option.some.inj hx]
    exact txOk_of_step hok (fun c hc _ => ⟨hc.own, hc.other⟩) (fun _ hkey => hkey)
      fun c _ hclear => hclear

/-! ## Statements -/

theorem inv_loadRevision (h : Inv w s) (ht : s.txs tx = some ⟨op, .begun⟩)
    (hcreates : op.creates = false) (id : Nat) : Inv w (s.loadRevision tx op id) := by
  unfold State.loadRevision
  cases hrev : (s.revisions id).filter fun r => r.api = op.api with
  | none => exact inv_abort h
  | some r =>
      rw [Option.filter_eq_some_iff, decide_eq_true_eq] at hrev
      -- The transaction had no revision before.
      refine inv_of_same (x := some ⟨op, .loaded ⟨id, r.rows⟩⟩) h rfl rfl (le_refl _) rfl
        (fun _ _ _ hkey => hkey) (fun _ _ => rfl) ?_ ?_ ?_
      · intro api id
        have hbefore := h.writes tx api id
        rw [ht] at hbefore
        exact hbefore
      · intro t' c hx hown
        rw [← Option.some.inj hx, hcreates] at hown
        exact absurd hown Bool.false_ne_true
      · intro t' hx
        rw [← Option.some.inj hx]
        constructor
        · intro hown
          rw [hcreates] at hown
          exact absurd hown Bool.false_ne_true
        · intro _
          change s.revisions id = some ⟨op.api, r.rows⟩
          rw [← hrev.2]
          exact hrev.1

theorem inv_load (h : Inv w s) (ht : s.txs tx = some ⟨op, .begun⟩)
    (hstep : load s tx op = some s') : Inv w s' := by
  cases op with
  | importSpec api rows goesLive =>
      unfold load at hstep
      dsimp only at hstep
      split at hstep
      · next hfree =>
          rw [← Option.some.inj hstep]
          refine inv_of_same (x := some ⟨.importSpec api rows goesLive, .loaded ⟨s.nextId, rows⟩⟩) h
            rfl rfl (Nat.le_succ _) rfl (fun _ _ _ hkey => hkey) (fun _ _ => rfl) ?_ ?_ ?_
          · intro api id
            have hbefore := h.writes tx api id
            rw [ht] at hbefore
            exact hbefore
          · intro t' c hx _ hc
            rw [← Option.some.inj hx] at hc
            rw [← Option.some.inj hc]
            exact .inr rfl
          · intro t' hx
            rw [← Option.some.inj hx]
            constructor
            · exact fun _ => ⟨h.fresh _ (le_refl _), Nat.lt_succ_self _⟩
            · exact fun hcreates => absurd hcreates (by
                simp only [Op.creates, Bool.true_eq_false, not_false_eq_true])
      · exact absurd hstep (by simp only [reduceCtorEq, not_false_eq_true])
  | promote api revision =>
      rw [← Option.some.inj hstep]
      exact inv_loadRevision h ht rfl revision
  | rollback api confirmed superseded =>
      unfold load at hstep
      dsimp only at hstep
      split at hstep
      · rw [← Option.some.inj hstep]
        exact inv_loadRevision h ht rfl superseded
      · rw [← Option.some.inj hstep]
        exact inv_abort h

theorem inv_lockHost {c : Candidate} {host : Text} {todo : List Text} (h : Inv w s)
    (ht : s.txs tx = some ⟨op, .locking c (host :: todo)⟩)
    (hstep : lockHost w s tx op c host todo = some s') : Inv w s' := by
  unfold lockHost at hstep
  dsimp only at hstep
  split at hstep
  · next hfree =>
      rw [← Option.some.inj hstep]
      have hok : TxOk w s tx ⟨op, .locking c (host :: todo)⟩ := h.txs tx _ ht
      have hkept : ∀ tx' key, s.hostLocks key = some tx' →
          Function.update s.hostLocks (lockKey w host) (some tx) key = some tx' ∨
            key = lockKey w host ∧ tx' = tx := by
        intro tx' key hkey
        by_cases he : key = lockKey w host
        · rw [he] at hkey
          rcases hfree with hnone | hself
          · rw [hnone] at hkey
            exact absurd hkey (by simp only [reduceCtorEq, not_false_eq_true])
          · rw [hself] at hkey
            exact .inr ⟨he, (Option.some.inj hkey).symm⟩
        · rw [Function.update_of_ne he]
          exact .inl hkey
      refine inv_of_same (x := some ⟨op, .locking c todo⟩) h rfl rfl (le_refl _) rfl ?_
        (fun _ _ => rfl) ?_ ?_ ?_
      · intro tx' key hne hkey
        rcases hkept tx' key hkey with hkey' | ⟨_, he⟩
        · exact hkey'
        · exact absurd he hne
      · intro api id
        have hbefore := h.writes tx api id
        rw [ht] at hbefore
        exact hbefore
      · intro t' c' hx _ hc'
        rw [← Option.some.inj hx] at hc'
        exact .inl ⟨_, ht, by rw [← Option.some.inj hx], hc'⟩
      · intro t' hx
        rw [← Option.some.inj hx]
        refine ⟨hok.1, ⟨hok.2.1.own, hok.2.1.other⟩, fun host' hmem hnot => ?_⟩
        change Function.update s.hostLocks (lockKey w host) (some tx) (lockKey w host') = some tx
        by_cases he : host' = host
        · rw [he, Function.update_self]
        · have hheld := hok.2.2 host' hmem fun hc => (List.mem_cons.mp hc).elim he hnot
          rcases hkept tx _ hheld with hkey' | ⟨hkey', _⟩
          · exact hkey'
          · rw [hkey', Function.update_self]
  · exact absurd hstep (by simp only [reduceCtorEq, not_false_eq_true])

theorem inv_setCurrentRevision {c : Candidate} (h : Inv w s)
    (ht : s.txs tx = some ⟨op, .cleared c⟩)
    (hstep : setCurrentRevision s tx op c = some s') : Inv w s' := by
  unfold setCurrentRevision at hstep
  split at hstep
  · next hfree =>
      split at hstep
      · rw [← Option.some.inj hstep]
        have hok : TxOk w s tx ⟨op, .cleared c⟩ := h.txs tx _ ht
        rcases hok with ⟨hlive, hloaded, hheld, hclear⟩
        refine inv_of_same (x := some ⟨op, .finished c⟩) h rfl rfl (le_refl _) rfl
          (fun _ _ _ hkey => hkey)
          (fun _ hne => ReadCommitted.Rows.writes_write_other hfree _ hne) ?_ ?_ ?_
        · intro api id
          have hbefore := h.writes tx api id
          rw [ht] at hbefore
          change ((ReadCommitted.Rows.write hfree c.id).writes tx).get? api = some id ↔
            (if op.goesLive = true then some (op.api, c.id) else none) = some (api, id)
          rw [ReadCommitted.Rows.writes_write, Dict.get?_set, if_pos hlive, Option.some.injEq,
            Prod.mk.injEq]
          split
          · next hapi =>
              rw [Option.some.injEq]
              exact (and_iff_right hapi).symm
          · next hapi =>
              rw [hbefore]
              exact ⟨fun hc => absurd hc (by
                simp only [Option.bind_some, Tx.written, reduceCtorEq, not_false_eq_true]),
                fun hc => absurd hc.1 hapi⟩
        · intro t' c' hx _ hc'
          rw [← Option.some.inj hx] at hc'
          exact .inl ⟨_, ht, by rw [← Option.some.inj hx], hc'⟩
        · intro t' hx
          rw [← Option.some.inj hx]
          exact ⟨⟨hloaded.own, hloaded.other⟩, fun _ => ⟨hheld, hclear⟩⟩
      · rw [← Option.some.inj hstep]
        exact inv_abort h
  · exact absurd hstep (by simp only [reduceCtorEq, not_false_eq_true])

/-! ## Commits -/

section Commit

variable {c : Candidate} (hloaded : Loaded s op c)

include hloaded

/-- The transaction's revision is committed. -/
theorem revisions_commit : (s.commit tx op c).revisions c.id = some ⟨op.api, c.rows⟩ := by
  change (if op.creates = true then Function.update s.revisions c.id (some ⟨op.api, c.rows⟩)
    else s.revisions) c.id = _
  split
  · exact Function.update_self _ _ _
  · next hcreates => exact hloaded.other (Bool.eq_false_iff.mpr hcreates)

theorem revisions_commit_of_ne {id : Nat} (hne : op.creates = true → id ≠ c.id) :
    (s.commit tx op c).revisions id = s.revisions id := by
  change (if op.creates = true then Function.update s.revisions c.id (some ⟨op.api, c.rows⟩)
    else s.revisions) id = _
  split
  · next hcreates => exact Function.update_of_ne (hne hcreates) _ _
  · rfl

/-- A committed revision stays. -/
theorem revisions_commit_of_some {id : Nat} {r : Revision} (hr : s.revisions id = some r) :
    (s.commit tx op c).revisions id = some r := by
  rw [revisions_commit_of_ne hloaded, hr]
  rintro hcreates rfl
  rw [(hloaded.own hcreates).1] at hr
  exact absurd hr (by simp only [reduceCtorEq, not_false_eq_true])

end Commit

/-- The row of an API after a commit. -/
theorem committed_commit {c : Candidate} (h : Inv w s) (ht : s.txs tx = some ⟨op, .finished c⟩)
    {api : ApiId} {id : Nat} (hid : (s.commit tx op c).apis.committed.get? api = some id) :
    op.goesLive = true ∧ api = op.api ∧ id = c.id ∨ s.apis.committed.get? api = some id := by
  change (s.apis.commit tx).committed.get? api = some id at hid
  rw [ReadCommitted.Rows.committed_commit, ReadCommitted.Rows.visible, Option.or_eq_some_iff]
    at hid
  rcases hid with hid | ⟨_, hid⟩
  · rw [h.writes tx api id, ht] at hid
    change (if op.goesLive = true then some (op.api, c.id) else none) = some (api, id) at hid
    split at hid
    · next hlive =>
        rw [Option.some.injEq, Prod.mk.injEq] at hid
        exact .inl ⟨hlive, hid.1.symm, hid.2.symm⟩
    · exact absurd hid (by simp only [reduceCtorEq, not_false_eq_true])
  · exact .inr hid

/-- What is live after a commit: the transaction's revision where it has made it
    the current one, and what was live before. -/
theorem live_commit {c : Candidate} (h : Inv w s) (ht : s.txs tx = some ⟨op, .finished c⟩)
    {api : ApiId} {r : Revision} (hr : (s.commit tx op c).live api = some r) :
    op.goesLive = true ∧ api = op.api ∧ r = ⟨op.api, c.rows⟩ ∨ s.live api = some r := by
  have hloaded : Loaded s op c := loaded_of_txOk (h.txs tx _ ht) rfl
  rcases Option.bind_eq_some_iff.mp hr with ⟨id, hid, hrev⟩
  rcases committed_commit h ht hid with ⟨hlive, hapi, rfl⟩ | hbefore
  · rw [revisions_commit hloaded] at hrev
    exact .inl ⟨hlive, hapi, (Option.some.inj hrev).symm⟩
  · rcases h.known api id hbefore with ⟨rows, hrows⟩
    rw [revisions_commit_of_some hloaded hrows] at hrev
    exact .inr (Option.bind_eq_some_iff.mpr ⟨id, hbefore, hrows.trans hrev⟩)

/-- A commit keeps the invariant where what goes live is spelt as it is stored. -/
theorem inv_commit {c : Candidate} (h : Inv w s) (ht : s.txs tx = some ⟨op, .finished c⟩)
    (hspelt : op.goesLive = true → SpeltRows w.lib c.rows) : Inv w (s.commit tx op c) := by
  have hok : TxOk w s tx ⟨op, .finished c⟩ := h.txs tx _ ht
  rcases hok with ⟨hloaded, hguard⟩
  have hget : ∀ {tx' t'}, (s.commit tx op c).txs tx' = some t' → tx' ≠ tx ∧ s.txs tx' = some t' := by
    intro tx' t' ht'
    change Function.update s.txs tx none tx' = some t' at ht'
    rw [Function.update_apply] at ht'
    split at ht'
    · exact absurd ht' (by simp only [reduceCtorEq, not_false_eq_true])
    · next hne => exact ⟨hne, ht'⟩
  have hlocks : ∀ {tx' key}, tx' ≠ tx → s.hostLocks key = some tx' →
      (s.commit tx op c).hostLocks key = some tx' := by
    intro tx' key hne hkey
    change (if s.hostLocks key = some tx then none else s.hostLocks key) = some tx'
    rw [hkey, if_neg fun he => hne (Option.some.inj he)]
  constructor
  · intro api id hid
    rcases committed_commit h ht hid with ⟨_, rfl, rfl⟩ | hbefore
    · exact ⟨c.rows, revisions_commit hloaded⟩
    · rcases h.known api id hbefore with ⟨rows, hrows⟩
      exact ⟨rows, revisions_commit_of_some hloaded hrows⟩
  · intro api r hr
    rcases live_commit h ht hr with ⟨hlive, _, rfl⟩ | hbefore
    · exact hspelt hlive
    · exact h.spelt api r hbefore
  · intro api api' r r' hr hr' hvendor
    rcases live_commit h ht hr with ⟨hlive, rfl, rfl⟩ | hbefore
    · rcases live_commit h ht hr' with ⟨_, rfl, _⟩ | hbefore'
      · exact absurd rfl hvendor
      · exact (hguard hlive).2 api' r' hbefore' (Ne.symm hvendor)
    · rcases live_commit h ht hr' with ⟨hlive, rfl, rfl⟩ | hbefore'
      · exact ((hguard hlive).2 api r hbefore hvendor).symm
      · exact h.apart api api' r r' hbefore hbefore' hvendor
  · intro id hid
    have hid : s.nextId ≤ id := hid
    rw [revisions_commit_of_ne hloaded]
    · exact h.fresh id hid
    · intro hcreates
      have hlt := (hloaded.own hcreates).2
      omega
  · intro tx' t' ht'
    rcases hget ht' with ⟨hne, ht'⟩
    refine txOk_of_step (h.txs tx' t' ht') (fun c' hloaded' hc' => ⟨?_, ?_⟩)
      (fun key hkey => hlocks hne hkey) ?_
    · intro hcreates'
      refine ⟨?_, (hloaded'.own hcreates').2⟩
      rw [revisions_commit_of_ne hloaded]
      · exact (hloaded'.own hcreates').1
      · exact fun hcreates => h.distinct tx' tx t' _ c' c hne ht' ht hcreates' hcreates hc' rfl
    · exact fun hcreates' => revisions_commit_of_some hloaded (hloaded'.other hcreates')
    · -- What goes live has the locks of its hosts, so it has none of this one's.
      intro c' hheld' hclear' api r hr hvendor host hmem hmem'
      rcases live_commit h ht hr with ⟨hlive, rfl, rfl⟩ | hbefore
      · have hself := (hguard hlive).1 host hmem' List.not_mem_nil
        rw [hheld' host hmem List.not_mem_nil] at hself
        exact hne (Option.some.inj hself)
      · exact hclear' api r hbefore hvendor host hmem hmem'
  · intro tx₁ tx₂ t₁ t₂ c₁ c₂ hne ht₁ ht₂
    exact h.distinct tx₁ tx₂ t₁ t₂ c₁ c₂ hne (hget ht₁).2 (hget ht₂).2
  · intro tx' api id
    change ((s.apis.commit tx).writes tx').get? api = some id ↔
      (Function.update s.txs tx none tx').bind Tx.written = some (api, id)
    by_cases he : tx' = tx
    · rw [he, ReadCommitted.Rows.writes_commit, Function.update_self, Dict.get?_empty,
        Option.bind_none]
      exact ⟨fun hc => absurd hc (by simp only [reduceCtorEq, not_false_eq_true]),
        fun hc => absurd hc (by simp only [reduceCtorEq, not_false_eq_true])⟩
    · rw [Function.update_of_ne he,
        (ReadCommitted.Rows.frame_commit s.apis tx).writes tx' he]
      exact h.writes tx' api id

/-! ## Runs -/

/-- The next statement of a transaction keeps the invariant. -/
theorem inv_statement (h : Inv w s) (ht : s.txs tx = some t)
    (hspelt : ∀ c, t.phase = .finished c → t.op.goesLive = true → SpeltRows w.lib c.rows)
    (hstep : statement w s tx t = some s') : Inv w s' := by
  have hok := h.txs tx t ht
  rcases t with ⟨op, phase⟩
  cases phase with
  | begun => exact inv_load h ht hstep
  | loaded c =>
      have hloaded : Loaded s op c := hok
      change (if op.goesLive = true then _ else _) = some s' at hstep
      split at hstep
      · next hlive =>
          rw [← Option.some.inj hstep]
          exact inv_put h ht rfl (fun _ hc => hc)
            ⟨hlive, hloaded, fun _ hmem hnot => absurd hmem hnot⟩
      · next hlive =>
          rw [← Option.some.inj hstep]
          exact inv_put h ht (if_neg hlive) (fun _ hc => hc) ⟨hloaded, fun hc => absurd hc hlive⟩
  | locking c todo =>
      rcases hok with ⟨hlive, hloaded, hheld⟩
      cases todo with
      | cons host todo => exact inv_lockHost h ht hstep
      | nil =>
          change (if findLiveHostsOfOtherVendors w s c op.api.vendor = [] then _ else _) =
            some s' at hstep
          split at hstep
          · next hnone =>
              rw [← Option.some.inj hstep]
              exact inv_put h ht rfl (fun _ hc => hc)
                ⟨hlive, hloaded, hheld, clear_of_search h hloaded hnone⟩
          · rw [← Option.some.inj hstep]
            exact inv_abort h
  | cleared c => exact inv_setCurrentRevision h ht hstep
  | finished c =>
      rw [← Option.some.inj hstep]
      exact inv_commit h ht (hspelt c rfl)

theorem inv_step {a : Action} (h : Inv w s) (hok : WellSpelt w.lib s a)
    (hstep : step w s a = some s') : Inv w s' := by
  cases a with
  | begin_ tx op =>
      unfold step at hstep
      dsimp only at hstep
      split at hstep
      · next hnone =>
          rw [Option.isNone_iff_eq_none] at hnone
          rw [← Option.some.inj hstep]
          refine inv_of_same (x := some ⟨op, .begun⟩) h rfl rfl (le_refl _) rfl
            (fun _ _ _ hkey => hkey) (fun _ _ => rfl) ?_ ?_ ?_
          · intro api id
            have hbefore := h.writes tx api id
            rw [hnone] at hbefore
            exact hbefore
          · intro t c hx _ hc
            rw [← Option.some.inj hx] at hc
            exact absurd hc (by simp only [Phase.candidate?, reduceCtorEq, not_false_eq_true])
          · intro t hx
            rw [← Option.some.inj hx]
            trivial
      · exact absurd hstep (by simp only [reduceCtorEq, not_false_eq_true])
  | statement tx =>
      rcases Option.bind_eq_some_iff.mp hstep with ⟨t, ht, hstep⟩
      exact inv_statement h ht (fun c hphase hlive => hok t c ht hphase hlive) hstep
  | rollback tx =>
      rcases Option.map_eq_some_iff.mp hstep with ⟨t, _, hs'⟩
      rw [← hs']
      exact inv_abort h

end Steps

theorem inv_empty : Inv w .empty := by
  have hlive : ∀ {api r}, State.empty.live api = some r → False := by
    intro api r hr
    exact absurd hr (by
      simp only [State.live, State.empty, ReadCommitted.Rows.empty, Dict.get?_empty,
        Option.bind_none, reduceCtorEq, not_false_eq_true])
  have htxs : ∀ {tx t}, State.empty.txs tx = some t → False :=
    fun ht => absurd ht (by simp only [State.empty, reduceCtorEq, not_false_eq_true])
  constructor
  · exact fun api id hid => absurd hid (by
      simp only [State.empty, ReadCommitted.Rows.empty, Dict.get?_empty, reduceCtorEq,
        not_false_eq_true])
  · exact fun api r hr => (hlive hr).elim
  · exact fun api api' r r' hr => (hlive hr).elim
  · exact fun id _ => rfl
  · exact fun tx t ht => (htxs ht).elim
  · exact fun tx tx' t t' c c' _ ht => (htxs ht).elim
  · intro tx api id
    exact ⟨fun hc => absurd hc (by
        simp only [State.empty, ReadCommitted.Rows.empty, Dict.get?_empty, reduceCtorEq,
          not_false_eq_true]),
      fun hc => absurd hc (by
        simp only [State.empty, Option.bind_none, reduceCtorEq, not_false_eq_true])⟩

/-- **One vendor per live host, for hosts as they are stored.** In every run that
    goes live only with hosts in lower case, without the default port and with at
    most one dot at their end, no two APIs of different vendors serve one host. -/
theorem oneVendor_of_wellSpelt (h : (machine w).ReachesWhen (WellSpelt w.lib) s) :
    OneVendor w.lib s := by
  refine oneVendor_of_inv (w := w) (Machine.reachesWhen_invariant (P := Inv w) ?_ ?_ h)
  · intro s hs
    rw [hs]
    exact inv_empty
  · exact fun s a s' hinv hok hstep => inv_step hinv hok hstep

/-- The texts of ASCII, and a hash under which some hosts share a lock. -/
def asciiWorld : World := ⟨Stdlib.ascii, fun host => host.length⟩

/-- An import that goes live with an API at one host. -/
def importRun (tx : Nat) (vendor host : Text) : List Action :=
  .begin_ tx (.importSpec ⟨vendor, "pets".toList, "1".toList⟩ [⟨"https".toList, some host⟩] true) ::
    List.replicate 6 (.statement tx)

/-- A commit of nothing but hosts spelt as they are stored. -/
def commitsSpelt (lib : Stdlib) (s : State) : Action → Bool
  | .statement tx => (s.txs tx).all fun t => match t.phase with
      | .finished c => c.rows.all fun row => row.concreteHost.all fun host =>
          decide (lib.lower host = host) &&
            ((splitPort lib host).2.all fun p => !defaultPort lib row.scheme p) &&
            !(['.', '.'].isSuffixOf (splitPort lib host).1)
      | _ => true
  | _ => true

theorem wellSpelt_of_commitsSpelt {lib : Stdlib} {s : State} {a : Action}
    (h : commitsSpelt lib s a = true) : WellSpelt lib s a := by
  cases a with
  | begin_ tx op => trivial
  | rollback tx => trivial
  | statement tx =>
      intro t c ht hphase _ row hrow host hhost
      rw [commitsSpelt, ht, Option.all_some, hphase] at h
      dsimp only at h
      have hspelt := List.all_eq_true.mp h row hrow
      rw [hhost, Option.all_some, Bool.and_eq_true, Bool.and_eq_true, decide_eq_true_eq,
        Bool.not_eq_true'] at hspelt
      refine ⟨hspelt.1.1, fun p hp => ?_, fun hdots => ?_⟩
      · have hport := hspelt.1.2
        rw [hp, Option.all_some, Bool.not_eq_true'] at hport
        exact hport
      · rw [List.isSuffixOf_iff_suffix.mpr hdots] at hspelt
        exact absurd hspelt.2 (by simp only [Bool.true_eq_false, not_false_eq_true])

/-- Two vendors on two hosts. -/
theorem oneVendor_of_wellSpelt_twoHosts :
    ∃ s, (machine asciiWorld).runWhen (commitsSpelt asciiWorld.lib) .empty
        (importRun 0 "acme".toList "api.acme.io".toList ++
          importRun 1 "rival".toList "api.rival.io.".toList) = some s ∧
      s.apis.committed.get? ⟨"rival".toList, "pets".toList, "1".toList⟩ = some 1 ∧
      OneVendor asciiWorld.lib s := by
  have hstart : (machine asciiWorld).ReachesWhen (WellSpelt asciiWorld.lib) .empty :=
    .start _ rfl
  refine ⟨_, rfl, by decide, ?_⟩
  have hrun : (machine asciiWorld).runWhen (commitsSpelt asciiWorld.lib) .empty
      (importRun 0 "acme".toList "api.acme.io".toList ++
        importRun 1 "rival".toList "api.rival.io.".toList) = some _ := rfl
  exact oneVendor_of_wellSpelt
    (Machine.reachesWhen_runWhen (fun _ _ h => wellSpelt_of_commitsSpelt h) hstart hrun)

/-- A host with two dots at its end is served by two vendors. -/
theorem not_oneVendor : ¬ ∀ s, (machine asciiWorld).Reachable s → OneVendor asciiWorld.lib s := by
  intro hall
  have hstart : (machine asciiWorld).Reachable .empty := .start _ rfl
  have hrun : (machine asciiWorld).runActions .empty
      (importRun 0 "acme".toList "api.pets.io..".toList ++
        importRun 1 "rival".toList "api.pets.io..".toList) = some _ := rfl
  have hvendors := hall _ (Machine.reachable_runActions hstart hrun)
  refine hvendors ⟨"acme".toList, "pets".toList, "1".toList⟩
    ⟨"rival".toList, "pets".toList, "1".toList⟩ _ _ rfl rfl (by decide) _ List.mem_cons_self _
    List.mem_cons_self ⟨"api.pets.io".toList, rfl, rfl⟩

end HostOwnership

end Registry

end JenticOne
