import JenticOne.State.Runs

/-!
# No Live Entry Is Lost

What the refinement says of a log, in the words of a client. A key that was
written is read as written until its deadline or its next write, and not from
the deadline on; an attempt to take it fails exactly as long.

So two attempts that both succeed are apart by what the first asked for, unless
the key was overwritten in between by a plain `set`. That operation gives a key
the deadline it is told, an earlier one too, and `shortenedRun` uses it to take
one key twice within the first claim's time.

## Main definitions

* `ReadsLastWrite`: The law of reads.
* `ClaimsApart`: The law of claims, for what may lie between two of them.

## Theorems

* `noLiveEntry_lost`: Both laws, for every log of a run.
-/

namespace JenticOne

namespace State

/-- Between a write of a key and its next write, a read of the key returns the
    value written, before the deadline, and nothing from then on; an attempt to
    take the key returns `false` exactly before the deadline. -/
def ReadsLastWrite (log : List Event) : Prop :=
  ∀ pre mid post (write e : Event) key value deadline,
    log = pre ++ write :: (mid ++ e :: post) → write.writes key = some (value, deadline) →
    (∀ x ∈ mid, x.writes key = none) →
    (∀ t observed, e = .read key t observed →
      observed = if t < deadline then some value else none) ∧
    (∀ t, e = .claimLost key t → t < deadline) ∧
    (∀ t, e = .claimRefused key t → deadline ≤ t) ∧
    (∀ t now v ttl, e = .claimWon key t now v ttl → deadline ≤ t)

/-- Two successful claims of a key with only permitted events in between: the
    second looks at the key no earlier than the first one's time is over. -/
def ClaimsApart (permitted : String → Event → Prop) (log : List Event) : Prop :=
  ∀ pre mid post key t now value ttl t' now' value' ttl',
    log = pre ++ .claimWon key t now value ttl ::
      (mid ++ .claimWon key t' now' value' ttl' :: post) →
    (∀ x ∈ mid, permitted key x) → now + ttl ≤ t'

/-- In every run, reads see the last write until its deadline, and successful
    claims of one key with no plain overwrite of it in between are apart by the
    first one's time. -/
theorem noLiveEntry_lost {cfg : MemoryConfig} {w : World} (h : (memory cfg).Reachable w) :
    ReadsLastWrite w.log ∧ ClaimsApart (fun key x => ¬ x.isSetOf key) w.log := by
  rcases refines_of_reachable h with ⟨s₀, s, _, hrun, _⟩
  constructor
  · intro pre mid post write e key value deadline hlog hwrite hmid
    rw [hlog] at hrun
    rcases TtlStore.read_after_write hrun hwrite hmid with ⟨hread, hlost, hrefused, hwon, _⟩
    exact ⟨hread, hlost, hrefused, hwon⟩
  · intro pre mid post key t now value ttl t' now' value' ttl' hlog hmid
    rw [hlog] at hrun
    exact TtlStore.claims_are_apart hrun hmid

/-- Small budgets: two entries and 2000 bytes a namespace, half of both for one
    owner, 3000 bytes in total. -/
def exampleConfig : MemoryConfig where
  budget := fun _ => ⟨2, 2000, some (1 / 2), by decide, by decide, by
    intro share hshare
    rw [Option.mem_some_iff] at hshare
    rw [← hshare]
    norm_num⟩
  maxTotalBytes := 3000
  sweepIntervalS := 30
  maxTotalBytes_pos := by decide

/-- A claim for ten seconds, cut short by a `set` for one. -/
def shortenedRun : List Op :=
  [.setIfAbsent "lock:a" [1] 10 0 0, .set "lock:a" [2] 1 1, .setIfAbsent "lock:a" [3] 10 3 3]

theorem shortened_claims_overlap :
    ¬ ∀ w, (memory exampleConfig).Reachable w →
      ReadsLastWrite w.log ∧ ClaimsApart (fun _ _ => True) w.log := by
  intro hclaim
  have hrun : ((memory exampleConfig).runActions ⟨Backend.new exampleConfig 0, 0, []⟩
      shortenedRun).any (fun w => w.log = [.claimWon "lock:a" 0 0 [1] 10, .set "lock:a" [2] 2,
        .claimWon "lock:a" 3 3 [3] 10]) := by
    decide +kernel
  rcases (Option.any_eq_true _ _).mp hrun with ⟨w, hw, hlog⟩
  rw [decide_eq_true_eq] at hlog
  have hreach : (memory exampleConfig).Reachable w :=
    Machine.reachable_runActions (Machine.ReachesWhen.start _ ⟨0, rfl⟩) hw
  have hapart := (hclaim w hreach).2 [] [.set "lock:a" [2] 2] [] "lock:a" 0 0 [1] 10 3 3 [3] 10
    hlog (fun _ _ => trivial)
  norm_num at hapart

/-- A claim, an increment of another key that is swept in between, and the same
    claim again once its time is over. -/
def sweptRun : List Op :=
  [.setIfAbsent "lock:a" [1] 10 0 0, .incrWithTtl "n:b" 5 1 1 1, .get "lock:a" 9,
    .tokenBucket "bucket" 1 5 1 31, .setIfAbsent "lock:a" [3] 10 31 31]

theorem noLiveEntry_lost_swept :
    ∃ w, (memory exampleConfig).runActions ⟨Backend.new exampleConfig 0, 0, []⟩ sweptRun = some w ∧
      w.log.length = 5 ∧ ReadsLastWrite w.log ∧
      ClaimsApart (fun key x => ¬ x.isSetOf key) w.log := by
  have hrun : ((memory exampleConfig).runActions ⟨Backend.new exampleConfig 0, 0, []⟩
      sweptRun).any (fun w => w.log.length = 5) := by
    decide +kernel
  rcases (Option.any_eq_true _ _).mp hrun with ⟨w, hw, hlog⟩
  rw [decide_eq_true_eq] at hlog
  exact ⟨w, hw, hlog, noLiveEntry_lost
    (Machine.reachable_runActions (Machine.ReachesWhen.start _ ⟨0, rfl⟩) hw)⟩

end State

end JenticOne
