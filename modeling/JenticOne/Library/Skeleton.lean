import JenticOne.Library.Pattern

/-!
# Skeletons of Patterns

What a pattern matches does not depend on the names of its groups, nor on which of
its literals are captured. The skeleton of a pattern has what it does depend on:
characters and holes, where a back-reference is the hole, or the characters, of the
group it names.

A pattern is more general than another one when the holes of its skeleton can be
filled so as to give the other skeleton. It then matches every text the other one
matches.

## Main definitions

* `Spot`, `Skeleton`: Characters and holes, and what a hole may not take.
* `skeleton`: The skeleton of a pattern.
* `Skeleton.Matches`: A text is an instance of a skeleton.
* `Skeleton.General`: A skeleton is an instance of another one.

## Theorems

* `fullmatch_iff_skeleton`: The matches of a pattern are those of its skeleton.
* `matches_of_general`: A more general skeleton matches more texts.
-/

namespace Pattern

/-- A character, or a hole by its number. -/
inductive Spot
  | char (c : Char)
  | hole (k : Nat)
deriving DecidableEq

/-- The spots of a pattern, and for each hole the characters it may not take. -/
structure Skeleton where
  spots : List Spot
  excluded : List (List Char)
deriving DecidableEq

/-- What the groups stand for. -/
abbrev Spots := List (Text × List Spot)

/-- The spots and the holes of a pattern after `n` holes, where the groups so far
stand for `groups`. -/
def skeletonFrom (groups : Spots) (n : Nat) : List Piece → Skeleton
  | [] => ⟨[], []⟩
  | .plain (.text s) :: ps =>
      let rest := skeletonFrom groups n ps
      ⟨s.map .char ++ rest.spots, rest.excluded⟩
  | .plain (.run excluded) :: ps =>
      let rest := skeletonFrom groups (n + 1) ps
      ⟨.hole n :: rest.spots, excluded :: rest.excluded⟩
  | .group g (.text s) :: ps =>
      let rest := skeletonFrom ((g, s.map .char) :: groups) n ps
      ⟨s.map .char ++ rest.spots, rest.excluded⟩
  | .group g (.run excluded) :: ps =>
      let rest := skeletonFrom ((g, [.hole n]) :: groups) (n + 1) ps
      ⟨.hole n :: rest.spots, excluded :: rest.excluded⟩
  | .back g :: ps =>
      let rest := skeletonFrom groups n ps
      ⟨(groups.lookup g).getD [] ++ rest.spots, rest.excluded⟩

def skeleton (ps : List Piece) : Skeleton := skeletonFrom [] 0 ps

/-- The text of a spot under the values of the holes. -/
def Spot.fill (vals : Nat → Text) : Spot → Text
  | .char c => [c]
  | .hole k => vals k

/-- The text of spots under the values of the holes. -/
def fillAll (vals : Nat → Text) (spots : List Spot) : Text := spots.flatMap (Spot.fill vals)

/-- The holes from `n` on have values they may take. -/
def Fits (vals : Nat → Text) (n : Nat) (excluded : List (List Char)) : Prop :=
  ∀ k ex, excluded[k]? = some ex → (Body.run ex).Takes (vals (n + k))

def Skeleton.Matches (s : Skeleton) (t : Text) : Prop :=
  ∃ vals, Fits vals 0 s.excluded ∧ fillAll vals s.spots = t

/-! ## The matches of a pattern -/

section Matches

variable {vals vals' : Nat → Text} {n : Nat}

theorem fillAll_append (vals : Nat → Text) (a b : List Spot) :
    fillAll vals (a ++ b) = fillAll vals a ++ fillAll vals b :=
  List.flatMap_append

theorem fillAll_chars (vals : Nat → Text) (s : Text) : fillAll vals (s.map .char) = s := by
  induction s with
  | nil => rfl
  | cons c cs ih => exact congrArg (c :: ·) ih

theorem fits_cons {ex : List Char} {excluded : List (List Char)} :
    Fits vals n (ex :: excluded) ↔ (Body.run ex).Takes (vals n) ∧ Fits vals (n + 1) excluded := by
  constructor
  · intro h
    refine ⟨h 0 ex rfl, fun k ex' hk => ?_⟩
    have hnext := h (k + 1) ex' hk
    rw [show n + (k + 1) = n + 1 + k by omega] at hnext
    exact hnext
  · rintro ⟨hfirst, hrest⟩ k ex' hk
    cases k with
    | zero =>
        rw [List.getElem?_cons_zero, Option.some.injEq] at hk
        rw [← hk]
        exact hfirst
    | succ k =>
        have hnext := hrest k ex' hk
        rw [show n + 1 + k = n + (k + 1) by omega] at hnext
        exact hnext

/-- The groups stand for holes before `n` only. -/
def Below (n : Nat) (groups : Spots) : Prop := ∀ x ∈ groups, ∀ k, .hole k ∈ x.2 → k < n

theorem fillAll_congr {spots : List Spot} (h : ∀ k, .hole k ∈ spots → vals k = vals' k) :
    fillAll vals spots = fillAll vals' spots := by
  refine List.flatMap_congr fun spot hspot => ?_
  cases spot with
  | char c => rfl
  | hole k => exact h k hspot

/-- What has been captured is what the groups stand for. -/
def Stands (vals : Nat → Text) (groups : Spots) (env : Env) : Prop :=
  env = groups.map fun x => (x.1, fillAll vals x.2)

theorem stands_congr {groups : Spots} {env : Env} (hbelow : Below n groups)
    (h : ∀ k < n, vals k = vals' k) (hstands : Stands vals groups env) :
    Stands vals' groups env := by
  rw [Stands, hstands]
  refine List.map_congr_left fun x hx => ?_
  rw [fillAll_congr fun k hk => h k (hbelow x hx k hk)]

theorem lookup_stands {groups : Spots} {env : Env} (h : Stands vals groups env) (g : Text) :
    env.lookup g = (groups.lookup g).map (fillAll vals) := by
  rw [h]
  clear h
  induction groups with
  | nil => rfl
  | cons x rest ih =>
      rw [List.map_cons, List.lookup_cons, List.lookup_cons, ih]
      split <;> rfl

theorem below_succ {groups : Spots} (h : Below n groups) : Below (n + 1) groups :=
  fun x hx k hk => Nat.lt_succ_of_lt (h x hx k hk)

theorem below_cons {groups : Spots} {g : Text} {spots : List Spot} (h : Below n groups)
    (hspots : ∀ k, .hole k ∈ spots → k < n) : Below n ((g, spots) :: groups) := by
  intro x hx k hk
  rcases List.mem_cons.mp hx with hx | hx
  · rw [hx] at hk
    exact hspots k hk
  · exact h x hx k hk

/-- A match gives the holes values. -/
theorem fits_of_mem_fullMatches {ps : List Piece} {groups : Spots} {env env' : Env} {t : Text}
    (hbelow : Below n groups) (hstands : Stands vals groups env)
    (h : env' ∈ fullMatches (· == ·) ps env t) :
    ∃ vals', (∀ k < n, vals k = vals' k) ∧ Fits vals' n (skeletonFrom groups n ps).excluded ∧
      fillAll vals' (skeletonFrom groups n ps).spots = t := by
  induction ps generalizing groups env t n vals with
  | nil =>
      rw [mem_fullMatches_nil] at h
      refine ⟨vals, fun _ _ => rfl, fun k ex hk => ?_, h.1.symm⟩
      exact absurd hk (by simp only [skeletonFrom, List.getElem?_nil, reduceCtorEq,
        not_false_eq_true])
  | cons piece ps ih =>
      -- A run takes a new hole, whose value is what it has taken.
      have hrun : ∀ {groups' : Spots} {env₁ : Env} {ex : List Char} {v rest : Text},
          (Body.run ex).Takes v → t = v ++ rest → Below (n + 1) groups' →
          Stands (Function.update vals n v) groups' env₁ → env' ∈ fullMatches (· == ·) ps env₁ rest →
          ∃ vals', (∀ k < n, vals k = vals' k) ∧
            Fits vals' n (ex :: (skeletonFrom groups' (n + 1) ps).excluded) ∧
            fillAll vals' (.hole n :: (skeletonFrom groups' (n + 1) ps).spots) = t := by
        intro groups' env₁ ex v rest hv ht hbelow' hstands' hrest
        rcases ih hbelow' hstands' hrest with ⟨vals', hsame, hfits, hfill⟩
        have hn : vals' n = v := by
          rw [← hsame n (Nat.lt_succ_self n), Function.update_self]
        refine ⟨vals', fun k hk => ?_, fits_cons.mpr ⟨hn ▸ hv, hfits⟩, ?_⟩
        · rw [← hsame k (Nat.lt_succ_of_lt hk), Function.update_of_ne (Nat.ne_of_lt hk)]
        · rw [ht, ← hfill, ← hn]
          rfl
      have hupdate : ∀ v k, k < n → vals k = Function.update vals n v k := fun v k hk =>
        (Function.update_of_ne (Nat.ne_of_lt hk) v vals).symm
      cases piece with
      | plain b =>
          rcases mem_fullMatches_plain.mp h with ⟨v, rest, hv, ht, hrest⟩
          cases b with
          | text s =>
              rcases ih hbelow hstands hrest with ⟨vals', hsame, hfits, hfill⟩
              refine ⟨vals', hsame, hfits, ?_⟩
              rw [skeletonFrom, fillAll_append, fillAll_chars, hfill, ht, show v = s from hv]
          | run ex =>
              exact hrun hv ht (below_succ hbelow) (stands_congr hbelow (hupdate v) hstands) hrest
      | group g b =>
          rcases mem_fullMatches_group.mp h with ⟨v, rest, hv, ht, hrest⟩
          cases b with
          | text s =>
              have hbelow' : Below n ((g, s.map .char) :: groups) := by
                refine below_cons hbelow fun k hk => ?_
                rcases List.mem_map.mp hk with ⟨c, -, hc⟩
                exact absurd hc (by simp only [reduceCtorEq, not_false_eq_true])
              have hstands' : Stands vals ((g, s.map .char) :: groups) ((g, v) :: env) := by
                rw [Stands, List.map_cons, fillAll_chars, show v = s from hv, hstands]
              rcases ih hbelow' hstands' hrest with ⟨vals', hsame, hfits, hfill⟩
              refine ⟨vals', hsame, hfits, ?_⟩
              rw [skeletonFrom, fillAll_append, fillAll_chars, hfill, ht, show v = s from hv]
          | run ex =>
              refine hrun hv ht (below_cons (below_succ hbelow) fun k hk => ?_) ?_ hrest
              · rw [List.mem_singleton, Spot.hole.injEq] at hk
                omega
              · have hold := stands_congr hbelow (hupdate v) hstands
                rw [Stands, List.map_cons, ← hold]
                refine congrArg (· :: env) (congrArg (Prod.mk g) ?_)
                rw [fillAll, List.flatMap_cons, List.flatMap_nil, List.append_nil, Spot.fill,
                  Function.update_self]
      | back g =>
          rcases mem_fullMatches_back.mp h with ⟨v, rest, hv, ht, hrest⟩
          rcases ih hbelow hstands hrest with ⟨vals', hsame, hfits, hfill⟩
          refine ⟨vals', hsame, hfits, ?_⟩
          rw [lookup_stands hstands, Option.map_eq_some_iff] at hv
          rcases hv with ⟨spots, hspots, hv⟩
          have hmem : (g, spots) ∈ groups := by
            rcases List.lookup_eq_some_iff.mp hspots with ⟨before, after, hgroups, -⟩
            rw [hgroups]
            exact List.mem_append_right before List.mem_cons_self
          rw [skeletonFrom, fillAll_append, hfill, hspots, Option.getD_some, ht, ← hv,
            fillAll_congr fun k hk => (hsame k (hbelow _ hmem k hk)).symm]

/-- Values of the holes give a match. -/
theorem mem_fullMatches_of_fits {ps : List Piece} {groups : Spots} {env : Env} {t : Text}
    (hcompiles : compiles (groups.map Prod.fst) ps = true) (hstands : Stands vals groups env)
    (hfits : Fits vals n (skeletonFrom groups n ps).excluded)
    (hfill : fillAll vals (skeletonFrom groups n ps).spots = t) :
    ∃ env', env' ∈ fullMatches (· == ·) ps env t := by
  induction ps generalizing groups env t n with
  | nil => exact ⟨env, mem_fullMatches_nil.mpr ⟨hfill.symm, rfl⟩⟩
  | cons piece ps ih =>
      cases piece with
      | plain b =>
          cases b with
          | text s =>
              rw [skeletonFrom, fillAll_append, fillAll_chars] at hfill
              rcases ih hcompiles hstands hfits rfl with ⟨env', h⟩
              exact ⟨env', mem_fullMatches_plain.mpr ⟨s, _, rfl, hfill.symm, h⟩⟩
          | run ex =>
              rw [skeletonFrom] at hfits
              rcases fits_cons.mp hfits with ⟨htakes, hrest⟩
              rcases ih hcompiles hstands hrest rfl with ⟨env', h⟩
              exact ⟨env', mem_fullMatches_plain.mpr ⟨_, _, htakes, hfill.symm, h⟩⟩
      | group g b =>
          rw [compiles, Bool.and_eq_true] at hcompiles
          cases b with
          | text s =>
              rw [skeletonFrom, fillAll_append, fillAll_chars] at hfill
              have hstands' : Stands vals ((g, s.map .char) :: groups) ((g, s) :: env) := by
                rw [Stands, List.map_cons, fillAll_chars, hstands]
              have hnext : compiles (((g, s.map .char) :: groups).map Prod.fst) ps = true :=
                hcompiles.2
              rcases ih hnext hstands' hfits rfl with ⟨env', h⟩
              exact ⟨env', mem_fullMatches_group.mpr ⟨s, _, rfl, hfill.symm, h⟩⟩
          | run ex =>
              rw [skeletonFrom] at hfits
              rcases fits_cons.mp hfits with ⟨htakes, hrest⟩
              have hstands' : Stands vals ((g, [.hole n]) :: groups) ((g, vals n) :: env) := by
                rw [Stands, List.map_cons, ← hstands]
                refine congrArg (· :: env) (congrArg (Prod.mk g) ?_)
                rw [fillAll, List.flatMap_cons, List.flatMap_nil, List.append_nil, Spot.fill]
              have hnext : compiles (((g, [.hole n]) :: groups).map Prod.fst) ps = true :=
                hcompiles.2
              rcases ih hnext hstands' hrest rfl with ⟨env', h⟩
              exact ⟨env', mem_fullMatches_group.mpr ⟨_, _, htakes, hfill.symm, h⟩⟩
      | back g =>
          rw [compiles, Bool.and_eq_true, decide_eq_true_eq] at hcompiles
          rw [skeletonFrom, fillAll_append] at hfill
          rcases ih hcompiles.2 hstands hfits rfl with ⟨env', h⟩
          -- The group is one that has been captured.
          cases hlookup : groups.lookup g with
          | none =>
              rcases List.mem_map.mp hcompiles.1 with ⟨x, hx, hg⟩
              have hne := List.lookup_eq_none_iff.mp hlookup x hx
              rw [hg, bne_self_eq_false] at hne
              exact absurd hne Bool.false_ne_true
          | some spots =>
              rw [hlookup, Option.getD_some] at hfill
              refine ⟨env', mem_fullMatches_back.mpr ⟨fillAll vals spots, _, ?_, hfill.symm, h⟩⟩
              rw [lookup_stands hstands, hlookup, Option.map_some]

end Matches

/-- The matches of a pattern are those of its skeleton. -/
theorem fullmatch_iff_skeleton {r : Regex} {t : Text} :
    (r.fullmatch (· == ·) t).isSome ↔ (skeleton r.pieces).Matches t := by
  have hbelow : Below 0 ([] : Spots) := fun x hx => absurd hx List.not_mem_nil
  have hstands : ∀ vals, Stands vals [] [] := fun _ => rfl
  have hcompiled : compiles (([] : Spots).map Prod.fst) r.pieces = true := r.compiled
  rw [fullmatch_isSome]
  constructor
  · rintro ⟨env', h⟩
    rcases fits_of_mem_fullMatches hbelow (hstands fun _ => []) h with ⟨vals, -, hfits, hfill⟩
    exact ⟨vals, hfits, hfill⟩
  · rintro ⟨vals, hfits, hfill⟩
    exact mem_fullMatches_of_fits hcompiled (hstands vals) hfits hfill

/-! ## Generality -/

/-- The spots in the place of a hole, or the character. -/
def Spot.put (σ : Nat → List Spot) : Spot → List Spot
  | .char c => [.char c]
  | .hole k => σ k

namespace Skeleton

/-- A spot takes none of the characters. -/
def Avoids (s : Skeleton) (excluded : List Char) : Spot → Prop
  | .char c => c ∉ excluded
  | .hole k => ∃ ex, s.excluded[k]? = some ex ∧ excluded ⊆ ex

/-- The holes of the first skeleton can be filled with spots of the second one so as to
give it. -/
def General (s₀ s : Skeleton) : Prop :=
  ∃ σ : Nat → List Spot, s.spots = s₀.spots.flatMap (Spot.put σ) ∧
    ∀ (k : Nat) (ex : List Char), s₀.excluded[k]? = some ex →
      σ k ≠ [] ∧ ∀ spot ∈ σ k, s.Avoids ex spot

/-- What fills a spot that takes none of the characters. -/
theorem takes_fill {s : Skeleton} {vals : Nat → Text} (hfits : Fits vals 0 s.excluded)
    {ex : List Char} {spot : Spot} (h : s.Avoids ex spot) :
    (Body.run ex).Takes (spot.fill vals) := by
  cases spot with
  | char c =>
      refine ⟨List.cons_ne_nil c [], fun x hx => ?_⟩
      rw [Spot.fill, List.mem_singleton] at hx
      rw [hx]
      exact h
  | hole k =>
      rcases h with ⟨ex', hk, hsub⟩
      have htakes := hfits k ex' hk
      rw [Nat.zero_add] at htakes
      exact ⟨htakes.1, fun c hc hex => htakes.2 c hc (hsub hex)⟩

/-- A more general skeleton matches what the other one matches. -/
theorem matches_of_general {s₀ s : Skeleton} {t : Text} (h : s₀.General s) (hm : s.Matches t) :
    s₀.Matches t := by
  rcases h with ⟨σ, hspots, hσ⟩
  rcases hm with ⟨vals, hfits, hfill⟩
  refine ⟨fun k => fillAll vals (σ k), fun k ex hk => ?_, ?_⟩
  · rw [Nat.zero_add]
    rcases hσ k ex hk with ⟨hne, havoids⟩
    constructor
    · rcases List.exists_cons_of_ne_nil hne with ⟨spot, rest, hcons⟩
      have hhead := (takes_fill hfits (havoids spot (hcons ▸ List.mem_cons_self))).1
      intro hnil
      dsimp only at hnil
      rw [hcons, fillAll, List.flatMap_cons] at hnil
      exact hhead (List.append_eq_nil_iff.mp hnil).1
    · intro c hc
      dsimp only at hc
      rw [fillAll, List.mem_flatMap] at hc
      rcases hc with ⟨spot, hspot, hc⟩
      exact (takes_fill hfits (havoids spot hspot)).2 c hc
  · rw [← hfill, hspots, fillAll, fillAll, List.flatMap_assoc]
    refine List.flatMap_congr fun spot _ => ?_
    cases spot with
    | char c => rfl
    | hole k => rfl

/-- Every skeleton is as general as itself, if its holes are numbered. -/
theorem general_refl {s : Skeleton} : s.General s := by
  refine ⟨fun k => [.hole k], ?_, fun k ex hk => ⟨List.cons_ne_nil _ _, fun spot hspot => ?_⟩⟩
  · have hput : (Spot.put fun k => [.hole k]) = fun spot => [spot] := by
      funext spot
      cases spot <;> rfl
    rw [hput, List.flatMap_singleton']
  · rw [List.mem_singleton] at hspot
    rw [hspot]
    exact ⟨ex, hk, List.Subset.refl ex⟩

end Skeleton

end Pattern
