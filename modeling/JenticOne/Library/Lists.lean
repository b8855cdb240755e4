import Mathlib

/-!
# Lists

What a fallible function on each member of a list returns, and the products of
lists.

## Theorems

* `mapM_eq_some_iff`, `mapM_eq_none_iff`: An optional value for each member.
* `bind_eq_ok_iff`, `bind_eq_error_iff`: A value or an error after another.
* `mapM_eq_ok_iff`, `mapM_eq_error`: A value or an error for each member.
* `mem_product`: A member of each list.
* `getElem?_set_cases`, `getElem?_append_cases`: A place of a list one member of
  which was replaced, or that got one more.
* `findIdx?_eq_iff`: Two searches that find the same place.
-/

namespace Lists

variable {α β ε : Type}

section Option

variable {f : α → Option β}

theorem mapM_eq_some_iff {l : List α} {l' : List β} :
    l.mapM f = some l' ↔ List.Forall₂ (fun a b => f a = some b) l l' := by
  induction l generalizing l' with
  | nil =>
      rw [List.mapM_nil, List.forall₂_nil_left_iff]
      exact ⟨fun h => (Option.some.inj h).symm, fun h => by rw [h]; rfl⟩
  | cons a l ih =>
      rw [List.mapM_cons]
      constructor
      · intro h
        obtain ⟨b, hb, h⟩ := Option.bind_eq_some_iff.mp h
        obtain ⟨bs, hbs, h⟩ := Option.bind_eq_some_iff.mp h
        rw [← Option.some.inj h]
        exact List.Forall₂.cons hb (ih.mp hbs)
      · intro h
        obtain ⟨b, bs, hb, hbs, rfl⟩ := List.forall₂_cons_left_iff.mp h
        rw [hb, ih.mpr hbs]
        rfl

/-- Each value is the one of a member. -/
theorem exists_of_mapM_eq_some {l : List α} {l' : List β} (h : l.mapM f = some l') {b : β}
    (hb : b ∈ l') : ∃ a ∈ l, f a = some b := by
  have hall := mapM_eq_some_iff.mp h
  clear h
  induction hall with
  | nil => exact absurd hb List.not_mem_nil
  | @cons a b' l l' hab _ ih =>
      rcases List.mem_cons.mp hb with rfl | hb
      · exact ⟨a, List.mem_cons_self, hab⟩
      · obtain ⟨a', ha', h⟩ := ih hb
        exact ⟨a', List.mem_cons_of_mem _ ha', h⟩

/-- Values that are there for related members are there for all of them. -/
theorem mapM_of_forall₂ {γ : Type} {R : α → γ → Prop} {S : β → γ → Prop} {l : List α}
    {l' : List γ} (h : List.Forall₂ R l l')
    (hf : ∀ a ∈ l, ∀ c, R a c → ∃ b, f a = some b ∧ S b c) :
    ∃ bs, l.mapM f = some bs ∧ List.Forall₂ S bs l' := by
  induction h with
  | nil => exact ⟨[], rfl, List.Forall₂.nil⟩
  | @cons a c l l' hac _ ih =>
      obtain ⟨b, hb, hs⟩ := hf a List.mem_cons_self c hac
      obtain ⟨bs, hbs, hall⟩ := ih (fun a' ha' => hf a' (List.mem_cons_of_mem _ ha'))
      refine ⟨b :: bs, ?_, List.Forall₂.cons hs hall⟩
      rw [List.mapM_cons, hb, hbs]
      rfl

theorem exists_of_forall₂ {γ : Type} {R : α → γ → Prop} {l : List α} {l' : List γ}
    (h : List.Forall₂ R l l') {a : α} (ha : a ∈ l) : ∃ b ∈ l', R a b := by
  induction h with
  | nil => exact absurd ha List.not_mem_nil
  | cons hr _ ih =>
      rcases List.mem_cons.mp ha with rfl | ha
      · exact ⟨_, List.mem_cons_self, hr⟩
      · obtain ⟨b, hb, hab⟩ := ih ha
        exact ⟨b, List.mem_cons_of_mem _ hb, hab⟩

theorem mapM_eq_none_iff {l : List α} : l.mapM f = none ↔ ∃ a ∈ l, f a = none := by
  induction l with
  | nil =>
      rw [List.mapM_nil]
      refine ⟨fun h => absurd h (by simp only [Option.pure_def, reduceCtorEq,
        not_false_eq_true]), fun ⟨a, ha, _⟩ => absurd ha List.not_mem_nil⟩
  | cons a l ih =>
      rw [List.mapM_cons]
      cases ha : f a with
      | none => exact ⟨fun _ => ⟨a, List.mem_cons_self, ha⟩, fun _ => rfl⟩
      | some b =>
          cases hl : l.mapM f with
          | none =>
              obtain ⟨a', ha', hnone⟩ := ih.mp hl
              exact ⟨fun _ => ⟨a', List.mem_cons_of_mem _ ha', hnone⟩, fun _ => rfl⟩
          | some bs =>
              refine ⟨fun h => absurd h (by simp only [Option.bind_eq_bind, Option.bind_some,
                Option.pure_def, reduceCtorEq, not_false_eq_true]), ?_⟩
              rintro ⟨a', ha', hnone⟩
              rcases List.mem_cons.mp ha' with rfl | ha'
              · exact absurd (ha.symm.trans hnone) (by simp only [reduceCtorEq,
                  not_false_eq_true])
              · exact absurd (hl.symm.trans (ih.mpr ⟨a', ha', hnone⟩)) (by simp only [reduceCtorEq,
                  not_false_eq_true])

end Option

section Except

theorem bind_eq_ok_iff {x : Except ε α} {g : α → Except ε β} {b : β} :
    (x >>= g) = .ok b ↔ ∃ a, x = .ok a ∧ g a = .ok b := by
  cases x with
  | error e =>
      refine ⟨fun h => ?_, fun ⟨a, ha, _⟩ => ?_⟩
      · exact absurd h (by simp only [bind, Except.bind, reduceCtorEq, not_false_eq_true])
      · exact absurd ha (by simp only [reduceCtorEq, not_false_eq_true])
  | ok a =>
      refine ⟨fun h => ⟨a, rfl, h⟩, fun ⟨a', ha, hb⟩ => ?_⟩
      rw [Except.ok.inj ha]
      exact hb

theorem bind_eq_error_iff {x : Except ε α} {g : α → Except ε β} {e : ε} :
    (x >>= g) = .error e ↔ x = .error e ∨ ∃ a, x = .ok a ∧ g a = .error e := by
  cases x with
  | error e' =>
      refine ⟨fun h => .inl (congrArg Except.error (Except.error.inj h)), ?_⟩
      rintro (h | ⟨a, ha, -⟩)
      · exact congrArg Except.error (Except.error.inj h)
      · exact absurd ha (by simp only [reduceCtorEq, not_false_eq_true])
  | ok a =>
      refine ⟨fun h => .inr ⟨a, rfl, h⟩, ?_⟩
      rintro (h | ⟨a', ha, he⟩)
      · exact absurd h (by simp only [reduceCtorEq, not_false_eq_true])
      · rw [Except.ok.inj ha]
        exact he

variable {f : α → Except ε β}

theorem mapM_eq_ok_iff {l : List α} {l' : List β} :
    l.mapM f = .ok l' ↔ List.Forall₂ (fun a b => f a = .ok b) l l' := by
  induction l generalizing l' with
  | nil =>
      rw [List.mapM_nil, List.forall₂_nil_left_iff]
      exact ⟨fun h => (Except.ok.inj h).symm, fun h => by rw [h]; rfl⟩
  | cons a l ih =>
      rw [List.mapM_cons, List.forall₂_cons_left_iff, bind_eq_ok_iff]
      constructor
      · rintro ⟨b, hb, h⟩
        obtain ⟨bs, hbs, h⟩ := bind_eq_ok_iff.mp h
        exact ⟨b, bs, hb, ih.mp hbs, (Except.ok.inj h).symm⟩
      · rintro ⟨b, bs, hb, hbs, rfl⟩
        exact ⟨b, hb, bind_eq_ok_iff.mpr ⟨bs, ih.mpr hbs, rfl⟩⟩

theorem mapM_eq_error {l : List α} {e : ε} (h : l.mapM f = .error e) : ∃ a ∈ l, f a = .error e := by
  induction l with
  | nil => exact absurd h (by simp only [List.mapM_nil, pure, Except.pure, reduceCtorEq,
      not_false_eq_true])
  | cons a l ih =>
      rw [List.mapM_cons] at h
      rcases bind_eq_error_iff.mp h with ha | ⟨b, -, h⟩
      · exact ⟨a, List.mem_cons_self, ha⟩
      · rcases bind_eq_error_iff.mp h with hl | ⟨bs, -, h⟩
        · obtain ⟨a', ha', he⟩ := ih hl
          exact ⟨a', List.mem_cons_of_mem _ ha', he⟩
        · exact absurd h (by simp only [pure, Except.pure, reduceCtorEq, not_false_eq_true])

end Except

/-- One member of each list, the last list the fastest. -/
def product : List (List α) → List (List α)
  | [] => [[]]
  | l :: ls => l.flatMap fun x => (product ls).map (x :: ·)

theorem mem_product {ls : List (List α)} {xs : List α} :
    xs ∈ product ls ↔ List.Forall₂ (fun x l => x ∈ l) xs ls := by
  induction ls generalizing xs with
  | nil => rw [product, List.mem_singleton, List.forall₂_nil_right_iff]
  | cons l ls ih =>
      rw [product, List.mem_flatMap, List.forall₂_cons_right_iff]
      constructor
      · rintro ⟨x, hx, hxs⟩
        obtain ⟨ys, hys, rfl⟩ := List.mem_map.mp hxs
        exact ⟨x, ys, hx, ih.mp hys, rfl⟩
      · rintro ⟨x, ys, hx, hys, rfl⟩
        exact ⟨x, hx, List.mem_map.mpr ⟨ys, ih.mpr hys, rfl⟩⟩

/-! ## Places -/

theorem getElem?_set_cases {l : List α} {i k : Nat} {a b : α} (h : (l.set i a)[k]? = some b) :
    l[k]? = some b ∧ k ≠ i ∨ k = i ∧ b = a := by
  rw [List.getElem?_set] at h
  split at h
  · rename_i hik
    rw [Option.ite_none_right_eq_some, Option.some.injEq] at h
    exact .inr ⟨hik.symm, h.2.symm⟩
  · rename_i hik
    exact .inl ⟨h, Ne.symm hik⟩

theorem getElem?_append_cases {l : List α} {k : Nat} {a b : α} (h : (l ++ [a])[k]? = some b) :
    l[k]? = some b ∧ k < l.length ∨ k = l.length ∧ b = a := by
  by_cases hlt : k < l.length
  · rw [List.getElem?_append_left hlt] at h
    exact .inl ⟨h, hlt⟩
  · rw [List.getElem?_append_right (Nat.le_of_not_lt hlt), List.getElem?_singleton,
      Option.ite_none_right_eq_some, Option.some.injEq] at h
    exact .inr ⟨by omega, h.2.symm⟩

/-- Two searches, the first of which is for more, find the same place if before
    each member that only the first is for there is one that both are for. -/
theorem findIdx?_eq_iff {p q : α → Bool} {l : List α} (h : ∀ a ∈ l, q a = true → p a = true) :
    l.findIdx? p = l.findIdx? q ↔
      ∀ (i : Nat) (a : α), l[i]? = some a → p a = true → q a = false →
        ∃ j < i, ∃ b, l[j]? = some b ∧ q b = true := by
  induction l with
  | nil => exact ⟨fun _ i a hi => absurd hi (by simp only [List.getElem?_nil, reduceCtorEq,
      not_false_eq_true]), fun _ => rfl⟩
  | cons a l ih =>
      have ih := ih (fun b hb => h b (List.mem_cons_of_mem a hb))
      have hhead := h a List.mem_cons_self
      rw [List.findIdx?_cons, List.findIdx?_cons]
      cases hq : q a with
      | true =>
          rw [if_pos (hhead hq), if_pos rfl]
          refine ⟨fun _ i b hi hp hb => ?_, fun _ => rfl⟩
          cases i with
          | zero =>
              rw [List.getElem?_cons_zero, Option.some.injEq] at hi
              rw [← hi, hq] at hb
              exact absurd hb (by decide)
          | succ i => exact ⟨0, by omega, a, rfl, hq⟩
      | false =>
          rw [if_neg (show ¬ (false = true) by decide)]
          cases hp : p a with
          | true =>
              rw [if_pos rfl]
              constructor
              · intro heq
                cases hl : l.findIdx? q with
                | none => rw [hl] at heq; exact nomatch heq
                | some k =>
                    rw [hl, Option.map_some, Option.some.injEq] at heq
                    omega
              · intro hall
                rcases hall 0 a rfl hp hq with ⟨j, hj, _⟩
                omega
          | false =>
              rw [if_neg (by decide), (Option.map_injective (fun i j => Nat.succ.inj)).eq_iff, ih]
              constructor
              · intro hall i b hi hpb hqb
                cases i with
                | zero =>
                    rw [List.getElem?_cons_zero, Option.some.injEq] at hi
                    rw [← hi, hp] at hpb
                    exact absurd hpb (by decide)
                | succ i =>
                    rcases hall i b hi hpb hqb with ⟨j, hj, c, hc, hqc⟩
                    exact ⟨j + 1, by omega, c, hc, hqc⟩
              · intro hall i b hi hpb hqb
                rcases hall (i + 1) b hi hpb hqb with ⟨j, hj, c, hc, hqc⟩
                cases j with
                | zero =>
                    rw [List.getElem?_cons_zero, Option.some.injEq] at hc
                    rw [← hc, hq] at hqc
                    exact absurd hqc (by decide)
                | succ j => exact ⟨j, by omega, c, hc, hqc⟩

end Lists
