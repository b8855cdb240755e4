import Mathlib

/-!
# Token Buckets

A bucket that holds up to `burst` tokens and gains `rate` of them a second. A
request for some tokens is granted if the bucket holds them, which takes them
out; otherwise it takes none. A bucket that has not been used is full, so a full
one may be forgotten: `take_of_full` says that no later request can tell.

The law of token buckets is `spent_le`: over an interval the requests granted
take at most `burst` and what the rate adds in that time. The potential behind
it is what the bucket holds. A granted request takes from it what it adds to
the sum, and between requests it grows by the rate at most.

Requests may be for any number of tokens. One for a negative number is granted
and leaves the bucket over its capacity until it is next looked at, which is why
the bound inside an interval speaks of what the bucket holds and not of `burst`.

## Main definitions

* `TokenBucket`: How many tokens there were at a time.
* `TokenBucket.level`: How many there are now.
* `TokenBucket.take`: A request.
* `TokenBucket.serve`: A list of requests, each with its answer.
* `TokenBucket.spent`: What the granted ones take in an interval.

## Theorems

* `take_of_full`: Forgetting a full bucket.
* `spent_le`: The law.
-/

/-- How many tokens a bucket held when it was last looked at. -/
structure TokenBucket (𝕜 : Type*) where
  tokens : 𝕜
  updatedAt : 𝕜

namespace TokenBucket

/-- A request for tokens at a time. -/
structure Request (𝕜 : Type*) where
  cost : 𝕜
  time : 𝕜

variable {𝕜 : Type*} [Field 𝕜] [LinearOrder 𝕜]

/-- What a bucket holds at a time; one that was never used is full. -/
def level (rate burst : 𝕜) (now : 𝕜) : Option (TokenBucket 𝕜) → 𝕜
  | none => burst
  | some b => min burst (b.tokens + max 0 (now - b.updatedAt) * rate)

/-- Whether a request is granted, and the bucket it leaves. -/
def take (rate burst : 𝕜) (b : Option (TokenBucket 𝕜)) (r : Request 𝕜) :
    Bool × TokenBucket 𝕜 :=
  let held := level rate burst r.time b
  (decide (r.cost ≤ held), ⟨if r.cost ≤ held then held - r.cost else held, r.time⟩)

/-- Requests one after another, each with whether it was granted. -/
def serve (rate burst : 𝕜) : Option (TokenBucket 𝕜) → List (Request 𝕜) → List (Request 𝕜 × Bool)
  | _, [] => []
  | b, r :: rest =>
      (r, (take rate burst b r).1) :: serve rate burst (some (take rate burst b r).2) rest

/-- What the requests granted between two times take. -/
def spent (lo hi : 𝕜) (answers : List (Request 𝕜 × Bool)) : 𝕜 :=
  ((answers.filter (fun x => x.2 ∧ lo ≤ x.1.time ∧ x.1.time ≤ hi)).map (fun x => x.1.cost)).sum

variable {rate burst : 𝕜}

/-- A bucket that is full cannot be told from a new one. -/
theorem take_of_full {b : TokenBucket 𝕜} {r : Request 𝕜}
    (h : level rate burst r.time (some b) = burst) :
    take rate burst (some b) r = take rate burst none r := by
  unfold take
  rw [h]
  rfl

theorem spent_cons_of_outside {lo hi : 𝕜} {x : Request 𝕜 × Bool}
    (answers : List (Request 𝕜 × Bool))
    (h : ¬ (x.2 = true ∧ lo ≤ x.1.time ∧ x.1.time ≤ hi)) :
    spent lo hi (x :: answers) = spent lo hi answers := by
  unfold spent
  rw [List.filter_cons_of_neg (by rw [decide_eq_true_eq]; exact h)]

theorem spent_cons_of_inside {lo hi : 𝕜} {x : Request 𝕜 × Bool}
    (answers : List (Request 𝕜 × Bool))
    (h : x.2 = true ∧ lo ≤ x.1.time ∧ x.1.time ≤ hi) :
    spent lo hi (x :: answers) = x.1.cost + spent lo hi answers := by
  unfold spent
  rw [List.filter_cons_of_pos (by rw [decide_eq_true_eq]; exact h), List.map_cons,
    List.sum_cons]

/-- Requests past the end of an interval take nothing in it. -/
theorem spent_of_after {lo hi : 𝕜} {rs : List (Request 𝕜)} (b : Option (TokenBucket 𝕜))
    (h : ∀ r ∈ rs, hi < r.time) : spent lo hi (serve rate burst b rs) = 0 := by
  induction rs generalizing b with
  | nil => rfl
  | cons r rest ih =>
      have hafter := h r List.mem_cons_self
      unfold serve
      rw [spent_cons_of_outside _ (fun hc => absurd hc.2.2 (not_le.mpr hafter))]
      exact ih _ (fun r' hr' => h r' (List.mem_cons_of_mem r hr'))

variable [IsStrictOrderedRing 𝕜]

theorem level_le (rate burst now : 𝕜) (b : Option (TokenBucket 𝕜)) : level rate burst now b ≤ burst := by
  cases b with
  | none => exact le_refl burst
  | some b => exact min_le_left _ _

/-- Between two times a bucket gains what the rate adds, at most. -/
theorem level_le_of_some (rate burst : 𝕜) {b : TokenBucket 𝕜} {now : 𝕜} (h : b.updatedAt ≤ now) :
    level rate burst now (some b) ≤ b.tokens + rate * (now - b.updatedAt) := by
  refine le_trans (min_le_right _ _) (le_of_eq ?_)
  rw [max_eq_right (sub_nonneg.mpr h), mul_comm]

theorem level_nonneg (hrate : 0 ≤ rate) (hburst : 0 ≤ burst) {b : Option (TokenBucket 𝕜)}
    (hb : ∀ x ∈ b, 0 ≤ x.tokens) (now : 𝕜) : 0 ≤ level rate burst now b := by
  cases b with
  | none => exact hburst
  | some b =>
      refine le_min hburst (add_nonneg (hb b rfl) (mul_nonneg ?_ hrate))
      exact le_max_left 0 _

/-- A request leaves no less than nothing. -/
theorem take_nonneg (hrate : 0 ≤ rate) (hburst : 0 ≤ burst) {b : Option (TokenBucket 𝕜)}
    (hb : ∀ x ∈ b, 0 ≤ x.tokens) (r : Request 𝕜) : 0 ≤ (take rate burst b r).2.tokens := by
  unfold take
  dsimp only
  split
  · rename_i h
    exact sub_nonneg.mpr h
  · exact level_nonneg hrate hburst hb r.time

/-- Inside an interval: what is spent from now on is what the bucket holds and
    what the rate adds until the end. -/
theorem spent_le_of_inside (hrate : 0 ≤ rate) (hburst : 0 ≤ burst) {lo hi : 𝕜}
    {rs : List (Request 𝕜)} {b : TokenBucket 𝕜} (hb : 0 ≤ b.tokens) (hlo : lo ≤ b.updatedAt)
    (hhi : b.updatedAt ≤ hi)
    (hsorted : (b.updatedAt :: rs.map Request.time).Pairwise (· ≤ ·)) :
    spent lo hi (serve rate burst (some b) rs) ≤ b.tokens + rate * (hi - b.updatedAt) := by
  induction rs generalizing b with
  | nil => exact add_nonneg hb (mul_nonneg hrate (sub_nonneg.mpr hhi))
  | cons r rest ih =>
      rw [List.map_cons] at hsorted
      have hnow : b.updatedAt ≤ r.time := List.rel_of_pairwise_cons hsorted List.mem_cons_self
      have hgain := level_le_of_some rate burst hnow
      have hleft := take_nonneg hrate hburst (b := some b)
        (fun x hx => by rw [Option.mem_some_iff] at hx; rw [← hx]; exact hb) r
      have hcost : ∀ m : 𝕜, m + rate * (hi - r.time) = m + rate * (hi - b.updatedAt) -
          rate * (r.time - b.updatedAt) := fun m => by ring
      by_cases hend : r.time ≤ hi
      · have hin : lo ≤ r.time := le_trans hlo hnow
        have hrest := ih (b := (take rate burst (some b) r).2) hleft hin hend hsorted.of_cons
        have htime : (take rate burst (some b) r).2.updatedAt = r.time := rfl
        rw [htime, hcost] at hrest
        unfold serve
        by_cases hgranted : r.cost ≤ level rate burst r.time (some b)
        · -- What a granted request takes is gone from the bucket.
          rw [spent_cons_of_inside _ ⟨decide_eq_true hgranted, hin, hend⟩]
          have htokens : (take rate burst (some b) r).2.tokens =
              level rate burst r.time (some b) - r.cost := if_pos hgranted
          rw [htokens] at hrest
          dsimp only
          linarith
        · rw [spent_cons_of_outside _ (fun hc => hgranted (of_decide_eq_true hc.1))]
          have htokens : (take rate burst (some b) r).2.tokens =
              level rate burst r.time (some b) := if_neg hgranted
          rw [htokens] at hrest
          linarith
      · have hafter : ∀ r' ∈ r :: rest, hi < r'.time := by
          intro r' hr'
          rcases List.mem_cons.mp hr' with rfl | hr'
          · exact not_le.mp hend
          · exact lt_of_lt_of_le (not_le.mp hend)
              (List.rel_of_pairwise_cons hsorted.of_cons (List.mem_map_of_mem hr'))
        rw [spent_of_after _ hafter]
        exact add_nonneg hb (mul_nonneg hrate (sub_nonneg.mpr hhi))

/-- Over an interval the requests granted take what a full bucket holds and what
    the rate adds, at most. -/
theorem spent_le (hrate : 0 ≤ rate) (hburst : 0 ≤ burst) {lo hi : 𝕜} (hle : lo ≤ hi)
    {rs : List (Request 𝕜)} {b : Option (TokenBucket 𝕜)} (hb : ∀ x ∈ b, 0 ≤ x.tokens)
    (hsorted : (rs.map Request.time).Pairwise (· ≤ ·)) :
    spent lo hi (serve rate burst b rs) ≤ burst + rate * (hi - lo) := by
  have hroom : 0 ≤ rate * (hi - lo) := mul_nonneg hrate (sub_nonneg.mpr hle)
  induction rs generalizing b with
  | nil => exact add_nonneg hburst hroom
  | cons r rest ih =>
      rw [List.map_cons] at hsorted
      have hleft := take_nonneg hrate hburst hb r
      by_cases hin : lo ≤ r.time ∧ r.time ≤ hi
      · -- The first request of the interval finds no more than a full bucket.
        have hinside := spent_le_of_inside hrate hburst hleft hin.1 hin.2 hsorted
        have hfull := level_le rate burst r.time b
        have htime : (take rate burst b r).2.updatedAt = r.time := rfl
        have hlater : rate * (hi - r.time) ≤ rate * (hi - lo) :=
          mul_le_mul_of_nonneg_left (sub_le_sub_left hin.1 hi) hrate
        rw [htime] at hinside
        unfold serve
        by_cases hgranted : r.cost ≤ level rate burst r.time b
        · rw [spent_cons_of_inside _ ⟨decide_eq_true hgranted, hin.1, hin.2⟩]
          have htokens : (take rate burst b r).2.tokens = level rate burst r.time b - r.cost :=
            if_pos hgranted
          rw [htokens] at hinside
          dsimp only
          linarith
        · rw [spent_cons_of_outside _ (fun hc => hgranted (of_decide_eq_true hc.1))]
          have htokens : (take rate burst b r).2.tokens = level rate burst r.time b :=
            if_neg hgranted
          rw [htokens] at hinside
          linarith
      · unfold serve
        rw [spent_cons_of_outside _ (fun hc => hin hc.2)]
        refine ih (fun x hx => ?_) hsorted.of_cons
        rw [Option.mem_some_iff] at hx
        rw [← hx]
        exact hleft

end TokenBucket
