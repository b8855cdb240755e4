import JenticOne.Library.Dict

/-!
# Grouping by a Key

A dictionary of lists that is filled item by item: an item goes to the end of the
list of its key. What is under a key are its items in the order they came.

## Main definitions

* `Dict.push`: Add a value to the list of a key.
* `Dict.group`: The lists of the keys of some items.
* `Dict.keys`: The keys.

## Theorems

* `getD_group`: The list of a key.
* `mem_keys_group`: The keys are those of the items.
-/

namespace Dict

variable {κ ν : Type*} [DecidableEq κ]

/-- Add a value to the list of a key, which is empty at first. -/
def push (d : Dict κ (List ν)) (k : κ) (v : ν) : Dict κ (List ν) :=
  d.set k ((d.get? k).getD [] ++ [v])

/-- The values of every key, in the order of the items. -/
def group (items : List (κ × ν)) : Dict κ (List ν) :=
  items.foldl (fun d x => d.push x.1 x.2) empty

omit [DecidableEq κ] in
def keys (d : Dict κ ν) : List κ := d.items.map Prod.fst

theorem mem_keys {d : Dict κ ν} {k : κ} : k ∈ d.keys ↔ ∃ v, d.get? k = some v := by
  unfold keys
  rw [List.mem_map]
  constructor
  · rintro ⟨⟨k', v⟩, hmem, rfl⟩
    exact ⟨v, (get?_eq_some_iff d k' v).mpr hmem⟩
  · rintro ⟨v, hv⟩
    exact ⟨(k, v), (get?_eq_some_iff d k v).mp hv, rfl⟩

theorem get?_push (d : Dict κ (List ν)) (k k' : κ) (v : ν) :
    (d.push k v).get? k' = if k = k' then some ((d.get? k').getD [] ++ [v]) else d.get? k' := by
  unfold push
  rw [get?_set]
  by_cases hk : k = k'
  · rw [if_pos hk, if_pos hk, hk]
  · rw [if_neg hk, if_neg hk]

/-- Items added to a dictionary go behind what it had under their keys. -/
theorem get?_foldl_push (items : List (κ × ν)) (d : Dict κ (List ν)) (k : κ) :
    (items.foldl (fun d x => d.push x.1 x.2) d).get? k =
      if ∃ x ∈ items, x.1 = k then
        some ((d.get? k).getD [] ++ (items.filter (fun x => x.1 = k)).map Prod.snd)
      else d.get? k := by
  induction items generalizing d with
  | nil => rw [List.foldl_nil, if_neg (by simp only [List.not_mem_nil, false_and, exists_false,
      not_false_eq_true])]
  | cons x items ih =>
      rw [List.foldl_cons, ih, get?_push]
      by_cases hx : x.1 = k
      · have hsome : ∃ y ∈ x :: items, y.1 = k := ⟨x, List.mem_cons_self, hx⟩
        have hfilter : (x :: items).filter (fun y => y.1 = k) =
            x :: items.filter (fun y => y.1 = k) := List.filter_cons_of_pos (decide_eq_true hx)
        rw [if_pos hx, if_pos hsome, hfilter, List.map_cons]
        by_cases hmore : ∃ y ∈ items, y.1 = k
        · rw [if_pos hmore, Option.getD_some, List.append_assoc, List.singleton_append]
        · have hnone : items.filter (fun y => y.1 = k) = [] := by
            rw [List.filter_eq_nil_iff]
            exact fun y hy hc => hmore ⟨y, hy, of_decide_eq_true hc⟩
          rw [if_neg hmore, hnone, List.map_nil]
      · rw [if_neg hx, List.filter_cons_of_neg (by simp only [hx, decide_false,
          Bool.false_eq_true, not_false_eq_true])]
        have hiff : (∃ y ∈ x :: items, y.1 = k) ↔ ∃ y ∈ items, y.1 = k := by
          rw [List.exists_mem_cons_iff, or_iff_right hx]
        simp only [hiff]

/-- The list of a key. -/
theorem getD_group (items : List (κ × ν)) (k : κ) :
    ((group items).get? k).getD [] = (items.filter (fun x => x.1 = k)).map Prod.snd := by
  unfold group
  rw [get?_foldl_push, get?_empty]
  by_cases hk : ∃ x ∈ items, x.1 = k
  · rw [if_pos hk, Option.getD_some, Option.getD_none, List.nil_append]
  · have hnone : items.filter (fun x => x.1 = k) = [] := by
      rw [List.filter_eq_nil_iff]
      exact fun x hx hc => hk ⟨x, hx, of_decide_eq_true hc⟩
    rw [if_neg hk, hnone]
    rfl

theorem mem_keys_group {items : List (κ × ν)} {k : κ} :
    k ∈ (group items).keys ↔ ∃ x ∈ items, x.1 = k := by
  rw [mem_keys]
  unfold group
  rw [get?_foldl_push, get?_empty]
  by_cases hk : ∃ x ∈ items, x.1 = k
  · rw [if_pos hk]
    exact ⟨fun _ => hk, fun _ => ⟨_, rfl⟩⟩
  · rw [if_neg hk]
    exact ⟨fun ⟨v, hv⟩ => absurd hv (by simp only [reduceCtorEq, not_false_eq_true]),
      fun h => absurd h hk⟩

end Dict
