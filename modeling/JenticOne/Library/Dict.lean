import Mathlib

/-!
# Dictionaries

A finite map as a list of items with distinct keys, with reading, storing,
deleting and altering a key, and sums over the items.

Storing a key that is present moves it to the end of the list. Nothing here
speaks of that order: what a dictionary holds is what `get?` reads, and
`get?_set`, `get?_erase` and `get?_alter` say what an operation does to it.
Sums are the other way to look at a dictionary, for accounts that are kept up
to date beside it; `sumBy_erase` and `sumBy_set` say what one operation does to
a sum.

## Main definitions

* `Dict`: Items with distinct keys.
* `Dict.get?`, `Dict.set`, `Dict.erase`, `Dict.alter`, `Dict.filter`: The
  operations.
* `Dict.sumBy`: The sum of a weight over the items.

## Theorems

* `get?_set`, `get?_erase`, `get?_alter`: Reading after an operation.
* `sumBy_erase`, `sumBy_set`: Sums after an operation.
* `length_set_le`: Storing a key that is there adds no item.
* `length_le_sumBy`: A sum counts the keys that add to it.
* `sumBy_filter`, `sumBy_eq_of_get?`, `sumBy_eq_zero_iff`, `sumBy_le`,
  `sumBy_congr`: Comparing sums.
-/

/-- Items under distinct keys. -/
structure Dict (κ ν : Type*) where
  items : List (κ × ν)
  nodup : (items.map Prod.fst).Nodup
deriving DecidableEq, Repr

namespace Dict

variable {κ ν : Type*}

def empty : Dict κ ν := ⟨[], List.nodup_nil⟩

/-- The sum of a weight over the items. -/
def sumBy (d : Dict κ ν) (f : κ → ν → Nat) : Nat :=
  (d.items.map (fun x => f x.1 x.2)).sum

variable [DecidableEq κ]

/-- The value stored under a key. -/
def get? (d : Dict κ ν) (k : κ) : Option ν :=
  (d.items.find? (fun x => x.1 = k)).map Prod.snd

/-- Delete a key, if it is there. -/
def erase (d : Dict κ ν) (k : κ) : Dict κ ν where
  items := d.items.filter (fun x => x.1 ≠ k)
  nodup := d.nodup.sublist (List.filter_sublist.map Prod.fst)

/-- Store a value under a key. -/
def set (d : Dict κ ν) (k : κ) (v : ν) : Dict κ ν where
  items := (d.erase k).items ++ [(k, v)]
  nodup := by
    rw [List.map_append, List.nodup_append]
    refine ⟨(d.erase k).nodup, List.nodup_singleton _, fun a ha b hb => ?_⟩
    rcases List.mem_map.mp ha with ⟨x, hx, rfl⟩
    rw [List.map_singleton, List.mem_singleton] at hb
    rw [hb]
    exact of_decide_eq_true (List.mem_filter.mp hx).2

/-- Replace what a key holds by a function of it, where `none` is no value. -/
def alter (d : Dict κ ν) (k : κ) (f : Option ν → Option ν) : Dict κ ν :=
  match f (d.get? k) with
  | none => d.erase k
  | some v => d.set k v

omit [DecidableEq κ] in
/-- Keep the items that meet a condition. -/
def filter (d : Dict κ ν) (p : κ → ν → Bool) : Dict κ ν where
  items := d.items.filter (fun x => p x.1 x.2)
  nodup := d.nodup.sublist (List.filter_sublist.map Prod.fst)

theorem get?_eq_some_iff (d : Dict κ ν) (k : κ) (v : ν) :
    d.get? k = some v ↔ (k, v) ∈ d.items := by
  unfold get?
  rw [Option.map_eq_some_iff]
  constructor
  · rintro ⟨⟨k', v'⟩, hfind, rfl⟩
    have hk := List.find?_some hfind
    simp only [decide_eq_true_eq] at hk
    rw [← hk]
    exact List.mem_of_find?_eq_some hfind
  · intro hmem
    cases hfind : d.items.find? (fun x => x.1 = k) with
    | none =>
        rw [List.find?_eq_none] at hfind
        exact absurd (decide_eq_true rfl) (hfind (k, v) hmem)
    | some x =>
        have hk := List.find?_some hfind
        simp only [decide_eq_true_eq] at hk
        have hx := List.inj_on_of_nodup_map d.nodup (List.mem_of_find?_eq_some hfind) hmem hk
        exact ⟨x, rfl, by rw [hx]⟩

theorem get?_eq_none_iff (d : Dict κ ν) (k : κ) : d.get? k = none ↔ ∀ v, (k, v) ∉ d.items := by
  rw [Option.eq_none_iff_forall_ne_some]
  exact forall_congr' fun v => not_congr (get?_eq_some_iff d k v)

theorem mem_erase {d : Dict κ ν} {k : κ} {x : κ × ν} :
    x ∈ (d.erase k).items ↔ x ∈ d.items ∧ x.1 ≠ k := by
  unfold erase
  rw [List.mem_filter, decide_eq_true_eq]

theorem get?_erase (d : Dict κ ν) (k k' : κ) :
    (d.erase k).get? k' = if k = k' then none else d.get? k' := by
  by_cases hk : k = k'
  · rw [if_pos hk, get?_eq_none_iff]
    intro v hmem
    exact (mem_erase.mp hmem).2 hk.symm
  · rw [if_neg hk]
    apply Option.ext
    intro v
    rw [get?_eq_some_iff, get?_eq_some_iff, mem_erase]
    exact ⟨fun h => h.1, fun h => ⟨h, fun hc => hk hc.symm⟩⟩

theorem get?_set (d : Dict κ ν) (k k' : κ) (v : ν) :
    (d.set k v).get? k' = if k = k' then some v else d.get? k' := by
  by_cases hk : k = k'
  · rw [if_pos hk, get?_eq_some_iff, ← hk]
    exact List.mem_append_right _ (List.mem_singleton.mpr rfl)
  · rw [if_neg hk]
    apply Option.ext
    intro u
    rw [get?_eq_some_iff, get?_eq_some_iff]
    unfold set
    rw [List.mem_append, mem_erase, List.mem_singleton, Prod.mk.injEq]
    constructor
    · rintro (h | h)
      · exact h.1
      · exact absurd h.1.symm hk
    · exact fun h => Or.inl ⟨h, fun hc => hk hc.symm⟩

theorem get?_alter (d : Dict κ ν) (k k' : κ) (f : Option ν → Option ν) :
    (d.alter k f).get? k' = if k = k' then f (d.get? k) else d.get? k' := by
  unfold alter
  split
  · rename_i h
    rw [get?_erase, h]
  · rename_i v h
    rw [get?_set, h]

theorem get?_empty (k : κ) : (empty : Dict κ ν).get? k = none := rfl

/-- Storing a key that is there adds no item. -/
theorem length_set_le {d : Dict κ ν} {k : κ} {v : ν} (h : d.get? k = some v) (v' : ν) :
    (d.set k v').items.length ≤ d.items.length := by
  have hlt : (d.erase k).items.length < d.items.length := by
    refine List.length_filter_lt_length_iff_exists.mpr ⟨(k, v), (get?_eq_some_iff d k v).mp h, ?_⟩
    simp only [ne_eq, not_true_eq_false, decide_false, Bool.false_eq_true, not_false_eq_true]
  change ((d.erase k).items ++ [(k, v')]).length ≤ _
  rw [List.length_append, List.length_singleton]
  omega

theorem get?_filter (d : Dict κ ν) (p : κ → ν → Bool) (k : κ) :
    (d.filter p).get? k = (d.get? k).filter (p k) := by
  apply Option.ext
  intro v
  rw [get?_eq_some_iff, Option.filter_eq_some_iff, get?_eq_some_iff]
  exact List.mem_filter

/-! ## Sums -/

/-- The weight a key adds to a sum. -/
def weight (d : Dict κ ν) (f : κ → ν → Nat) (k : κ) : Nat :=
  ((d.get? k).map (f k)).getD 0

omit [DecidableEq κ] in
theorem sum_filter_add {f : κ → ν → Nat} (p : κ × ν → Bool) (l : List (κ × ν)) :
    ((l.filter p).map (fun x => f x.1 x.2)).sum +
      ((l.filter (fun x => !p x)).map (fun x => f x.1 x.2)).sum =
    (l.map (fun x => f x.1 x.2)).sum := by
  induction l with
  | nil => rfl
  | cons x rest ih =>
      cases hp : p x with
      | true =>
          rw [List.filter_cons_of_pos hp, List.filter_cons_of_neg (by rw [hp]; decide),
            List.map_cons, List.sum_cons, List.map_cons, List.sum_cons, ← ih, Nat.add_assoc]
      | false =>
          rw [List.filter_cons_of_neg (by rw [hp]; decide), List.filter_cons_of_pos
            (by rw [hp]; decide), List.map_cons, List.sum_cons, List.map_cons, List.sum_cons, ← ih]
          omega

/-- Erasing a key takes its weight out of a sum. -/
theorem sumBy_erase (d : Dict κ ν) (f : κ → ν → Nat) (k : κ) :
    (d.erase k).sumBy f + d.weight f k = d.sumBy f := by
  unfold sumBy erase
  rw [← sum_filter_add (fun x => decide (x.1 ≠ k)) d.items]
  refine congrArg _ ?_
  unfold weight
  -- What is filtered out is the one item under the key, if there is one.
  cases hget : d.get? k with
  | none =>
      have hnil : d.items.filter (fun x => !decide (x.1 ≠ k)) = [] := by
        rw [List.filter_eq_nil_iff]
        intro x hx hc
        simp only [ne_eq, decide_not, Bool.not_not, decide_eq_true_eq] at hc
        exact (get?_eq_none_iff d k).mp hget x.2 (by rw [← hc]; exact hx)
      rw [hnil]
      rfl
  | some v =>
      have hone : d.items.filter (fun x => !decide (x.1 ≠ k)) = [(k, v)] := by
        have hmem := (get?_eq_some_iff d k v).mp hget
        have hnodup : (d.items.filter (fun x => !decide (x.1 ≠ k))).Nodup :=
          (List.Nodup.of_map Prod.fst d.nodup).filter _
        refine List.perm_singleton.mp ((List.perm_ext_iff_of_nodup hnodup
          (List.nodup_singleton _)).mpr fun x => ?_)
        rw [List.mem_filter, List.mem_singleton]
        simp only [ne_eq, decide_not, Bool.not_not, decide_eq_true_eq]
        constructor
        · rintro ⟨hx, hk⟩
          exact List.inj_on_of_nodup_map d.nodup hx hmem hk
        · rintro rfl
          exact ⟨hmem, rfl⟩
      rw [hone]
      simp only [List.map_cons, List.map_nil, List.sum_cons, List.sum_nil, Nat.add_zero,
        Option.map_some, Option.getD_some]

/-- Storing a value replaces the weight of its key. -/
theorem sumBy_set (d : Dict κ ν) (f : κ → ν → Nat) (k : κ) (v : ν) :
    (d.set k v).sumBy f + d.weight f k = d.sumBy f + f k v := by
  have herase := sumBy_erase d f k
  have hset : (d.set k v).sumBy f = (d.erase k).sumBy f + f k v := by
    unfold sumBy set
    rw [List.map_append, List.sum_append, List.map_singleton, List.sum_singleton]
  omega

/-- A sum depends on what is stored only. -/
theorem sumBy_eq_of_get? {d d' : Dict κ ν} (h : ∀ k, d'.get? k = d.get? k) (f : κ → ν → Nat) :
    d'.sumBy f = d.sumBy f := by
  have hperm : d'.items.Perm d.items := by
    refine (List.perm_ext_iff_of_nodup (List.Nodup.of_map Prod.fst d'.nodup)
      (List.Nodup.of_map Prod.fst d.nodup)).mpr fun x => ?_
    rw [← get?_eq_some_iff d' x.1 x.2, ← get?_eq_some_iff d x.1 x.2, h]
  exact (hperm.map _).sum_eq

omit [DecidableEq κ] in
theorem sumBy_filter (d : Dict κ ν) (p : κ → ν → Bool) (f : κ → ν → Nat) :
    (d.filter p).sumBy f = d.sumBy (fun k v => if p k v then f k v else 0) := by
  unfold sumBy filter
  dsimp only
  induction d.items with
  | nil => rfl
  | cons x rest ih =>
      rw [List.filter_cons, List.map_cons, List.sum_cons, ← ih]
      cases hp : p x.1 x.2 with
      | true => rw [if_pos rfl, if_pos rfl, List.map_cons, List.sum_cons]
      | false => rw [if_neg (by decide), if_neg (by decide), Nat.zero_add]

omit [DecidableEq κ] in
theorem sumBy_le {d : Dict κ ν} {f g : κ → ν → Nat} (h : ∀ k v, (k, v) ∈ d.items → f k v ≤ g k v) :
    d.sumBy f ≤ d.sumBy g :=
  List.sum_le_sum (fun x hx => h x.1 x.2 hx)

omit [DecidableEq κ] in
theorem sumBy_congr {d : Dict κ ν} {f g : κ → ν → Nat}
    (h : ∀ k v, (k, v) ∈ d.items → f k v = g k v) : d.sumBy f = d.sumBy g :=
  congrArg List.sum (List.map_congr_left (fun x hx => h x.1 x.2 hx))

theorem weight_of_get? {d : Dict κ ν} {k : κ} {v : ν} (h : d.get? k = some v) (f : κ → ν → Nat) :
    d.weight f k = f k v := by
  unfold weight
  rw [h]
  rfl

theorem weight_of_get?_eq_none {d : Dict κ ν} {k : κ} (h : d.get? k = none) (f : κ → ν → Nat) :
    d.weight f k = 0 := by
  unfold weight
  rw [h]
  rfl

theorem sumBy_eq_zero_iff {d : Dict κ ν} {f : κ → ν → Nat} :
    d.sumBy f = 0 ↔ ∀ k v, d.get? k = some v → f k v = 0 := by
  unfold sumBy
  rw [List.sum_eq_zero_iff, List.forall_mem_map]
  constructor
  · exact fun h k v hget => h (k, v) ((get?_eq_some_iff d k v).mp hget)
  · exact fun h x hx => h x.1 x.2 ((get?_eq_some_iff d x.1 x.2).mpr hx)

theorem weight_le_sumBy (d : Dict κ ν) (f : κ → ν → Nat) (k : κ) : d.weight f k ≤ d.sumBy f := by
  have h := sumBy_erase d f k
  omega

/-- A sum is at least the number of keys that add to it. -/
theorem length_le_sumBy {f : κ → ν → Nat} {ks : List κ} (hnodup : ks.Nodup) {d : Dict κ ν}
    (h : ∀ k ∈ ks, ∃ v, d.get? k = some v ∧ 1 ≤ f k v) : ks.length ≤ d.sumBy f := by
  induction ks generalizing d with
  | nil => exact Nat.zero_le _
  | cons k rest ih =>
      rw [List.nodup_cons] at hnodup
      rcases h k List.mem_cons_self with ⟨v, hv, hone⟩
      have hrest : rest.length ≤ (d.erase k).sumBy f := by
        refine ih hnodup.2 (fun k' hk' => ?_)
        rw [get?_erase, if_neg (fun hc => hnodup.1 (by rw [hc]; exact hk'))]
        exact h k' (List.mem_cons_of_mem k hk')
      have hsum := sumBy_erase d f k
      rw [weight_of_get? hv] at hsum
      rw [List.length_cons]
      omega

end Dict
