import JenticOne.Library.Segments
import JenticOne.Library.Wildcard

/-!
# Patterns, Segment by Segment

A wildcard stands for a part of a segment, so that a pattern is cut at its
separators into the patterns of its segments, and the segments of a text of the
pattern are texts of these. Two patterns have a text in common when the patterns of
their segments have, pair by pair; one has a text that begins with a text of the
other when this holds of the segments of the other, of the last one for a
beginning.

## Main definitions

* `Common`, `Opens`: Two patterns have a text in common, or one that begins with a
  text of the other.
* `Along`: A relation of the segments of two lists, up to the last one of the first
  list.
* `At`, `lastOr`: A relation at a place of two lists, by the place.

## Theorems

* `spells_segments`: The segments of a text of a pattern.
* `common_iff`, `opens_iff`: What two patterns have in common, by segments.
* `forall₂_iff_at`, `along_iff_at`: Relations of two lists, by places.
* `template_segments`: The pattern of a path with placeholders, by segments.
-/

namespace Wildcard

/-- The patterns have a text in common. -/
def Common (sep : Char) (ps ts : List (Token Char)) : Prop :=
  ∃ s, Spells sep ps s ∧ Spells sep ts s

/-- A text of the second pattern begins with a text of the first one. -/
def Opens (sep : Char) (ps ts : List (Token Char)) : Prop :=
  ∃ t r, Spells sep ps t ∧ Spells sep ts (t ++ r)

/-- The members of the first list and those of the second one at the same place, the
    last one of the first list by a relation of its own. -/
def Along {α β : Type} (inner last : α → β → Prop) : List α → List β → Prop
  | [], _ => True
  | _ :: _, [] => False
  | [a], b :: _ => last a b
  | a :: a' :: as, b :: bs => inner a b ∧ Along inner last (a' :: as) bs

/-- The members of two lists at the same place. -/
def At {α β : Type} (r : α → β → Prop) (as : List α) (bs : List β) (i : Nat) : Prop :=
  ∃ a ∈ as[i]?, ∃ b ∈ bs[i]?, r a b

/-- One relation for the last one of some places, another one for the others. -/
def lastOr {α β : Type} (inner last : α → β → Prop) (n i : Nat) : α → β → Prop :=
  if i + 1 = n then last else inner

/-! ## Places -/

section Places

variable {α β : Type} {r inner last : α → β → Prop} {a : α} {b : β} {as : List α} {bs : List β}

theorem at_zero : At r (a :: as) (b :: bs) 0 ↔ r a b := by
  unfold At
  simp only [List.getElem?_cons_zero, Option.mem_def, Option.some.injEq, exists_eq_left']

theorem at_succ {i : Nat} : At r (a :: as) (b :: bs) (i + 1) ↔ At r as bs i := Iff.rfl

theorem at_nil_left {i : Nat} : ¬ At r [] bs i := by
  rintro ⟨a, ha, _⟩
  exact absurd ha (by simp only [List.getElem?_nil, Option.not_mem_none, not_false_eq_true])

theorem at_nil_right {i : Nat} : ¬ At r as [] i := by
  rintro ⟨a, _, b, hb, _⟩
  exact absurd hb (by simp only [List.getElem?_nil, Option.not_mem_none, not_false_eq_true])

theorem at_map_left {γ : Type} {f : γ → α} {cs : List γ} {i : Nat} :
    At r (cs.map f) bs i ↔ At (fun c b => r (f c) b) cs bs i := by
  unfold At
  rw [List.getElem?_map]
  constructor
  · rintro ⟨a, ha, hb⟩
    rcases Option.mem_map.mp ha with ⟨c, hc, rfl⟩
    exact ⟨c, hc, hb⟩
  · rintro ⟨c, hc, hb⟩
    exact ⟨f c, Option.mem_map_of_mem f hc, hb⟩

/-- Two lists are in a relation if they are at every place of either. -/
theorem forall₂_iff_at :
    List.Forall₂ r as bs ↔ ∀ i < max as.length bs.length, At r as bs i := by
  induction as generalizing bs with
  | nil =>
      cases bs with
      | nil => exact ⟨fun _ i hi => absurd hi (Nat.not_lt_zero i), fun _ => .nil⟩
      | cons b bs =>
          exact ⟨fun h => absurd h (by simp only [List.forall₂_nil_left_iff, reduceCtorEq,
            not_false_eq_true]), fun h => absurd (h 0 (Nat.succ_pos _)) at_nil_left⟩
  | cons a as ih =>
      cases bs with
      | nil =>
          exact ⟨fun h => absurd h (by simp only [List.forall₂_nil_right_iff, reduceCtorEq,
            not_false_eq_true]), fun h => absurd (h 0 (Nat.succ_pos _)) at_nil_right⟩
      | cons b bs =>
          rw [List.forall₂_cons, ih, List.length_cons, List.length_cons]
          constructor
          · rintro ⟨hab, hrest⟩ i hi
            cases i with
            | zero => exact at_zero.mpr hab
            | succ i => exact at_succ.mpr (hrest i (by omega))
          · intro h
            exact ⟨at_zero.mp (h 0 (by omega)), fun i hi => at_succ.mp (h (i + 1) (by omega))⟩

theorem lastOr_succ {n i : Nat} : lastOr inner last (n + 1) (i + 1) = lastOr inner last n i := by
  unfold lastOr
  simp only [Nat.add_right_cancel_iff]

theorem lastOr_comp {γ : Type} {f : γ → α} {n i : Nat} {c : γ} :
    lastOr inner last n i (f c) b ↔
      lastOr (fun c b => inner (f c) b) (fun c b => last (f c) b) n i c b := by
  unfold lastOr
  split <;> exact Iff.rfl

/-- The relation of all places of the first list. -/
theorem along_iff_at :
    Along inner last as bs ↔ ∀ i < as.length, At (lastOr inner last as.length i) as bs i := by
  induction as generalizing bs with
  | nil => exact ⟨fun _ i hi => absurd hi (Nat.not_lt_zero i), fun _ => trivial⟩
  | cons a as ih =>
      cases bs with
      | nil =>
          refine ⟨fun h => ?_, fun h => absurd (h 0 (Nat.succ_pos _)) at_nil_right⟩
          cases as <;> exact absurd h id
      | cons b bs =>
          cases as with
          | nil =>
              constructor
              · intro h i hi
                rw [Nat.lt_one_iff.mp hi]
                exact at_zero.mpr h
              · intro h
                have hlast := at_zero.mp (h 0 Nat.one_pos)
                exact hlast
          | cons a' as =>
              have hinner : lastOr inner last (as.length + 1 + 1) 0 = inner :=
                if_neg (by omega)
              rw [Along, ih, List.length_cons (a := a), List.length_cons (a := a')]
              constructor
              · rintro ⟨hab, hrest⟩ i hi
                cases i with
                | zero =>
                    rw [hinner]
                    exact at_zero.mpr hab
                | succ i =>
                    rw [lastOr_succ, at_succ]
                    exact hrest i (Nat.lt_of_succ_lt_succ hi)
              · intro h
                constructor
                · have hfirst := h 0 (Nat.succ_pos _)
                  rw [hinner] at hfirst
                  exact at_zero.mp hfirst
                · intro i hi
                  have hi' := h (i + 1) (Nat.succ_lt_succ hi)
                  rwa [lastOr_succ, at_succ] at hi'

end Places

section Segments

variable {sep : Char} {ps ts : List (Token Char)} {s : Text}

/-- A pattern without a separator has texts without one. -/
theorem free_of_spells (h : Spells sep ts s) (hfree : .lit sep ∉ ts) : sep ∉ s := by
  induction h with
  | nil => exact List.not_mem_nil
  | lit _ ih =>
      rw [List.mem_cons, not_or] at hfree ⊢
      exact ⟨fun hc => hfree.1 (hc ▸ rfl), ih hfree.2⟩
  | segment _ hw _ ih =>
      rw [List.mem_append, not_or]
      exact ⟨fun hc => hw sep hc rfl, ih fun hc => hfree (List.mem_cons_of_mem _ hc)⟩

/-- Every pattern has a text. -/
theorem exists_spells {c : Char} (hc : c ≠ sep) (ts : List (Token Char)) :
    ∃ s, Spells sep ts s := by
  induction ts with
  | nil => exact ⟨[], .nil⟩
  | cons t ts ih =>
      rcases ih with ⟨s, hs⟩
      cases t with
      | lit a => exact ⟨a :: s, .lit hs⟩
      | segment =>
          refine ⟨[c] ++ s, .segment (List.cons_ne_nil _ _) (fun a ha => ?_) hs⟩
          rw [List.mem_singleton.mp ha]
          exact hc

theorem splitOn_lit_sep (ts : List (Token Char)) :
    (.lit sep :: ts).splitOn (.lit sep) = [] :: ts.splitOn (.lit sep) := by
  rw [List.splitOn_cons_eq_if_modifyHead, if_pos (beq_self_eq_true _)]

theorem splitOn_token {t : Token Char} (h : t ≠ .lit sep) (ts : List (Token Char)) :
    (t :: ts).splitOn (.lit sep) = (ts.splitOn (.lit sep)).modifyHead (t :: ·) := by
  rw [List.splitOn_cons_eq_if_modifyHead, beq_false_of_ne h, if_neg Bool.false_ne_true]

/-- The patterns of the segments have no separator. -/
theorem sep_not_mem_segments : ∀ p ∈ ts.splitOn (.lit sep), .lit sep ∉ p :=
  fun p hp hc => (Segments.forall_splitOn (P := fun t => t ≠ .lit sep)).mpr
    (fun _ _ h => h) p hp _ hc rfl

/-- The segments of a text of a pattern are texts of its segments. -/
theorem spells_segments (h : Spells sep ts s) :
    List.Forall₂ (Spells sep) (ts.splitOn (.lit sep)) (s.splitOn sep) := by
  induction h with
  | nil => exact .cons .nil .nil
  | @lit a ts t _ ih =>
      by_cases ha : a = sep
      · rw [ha, splitOn_lit_sep, Segments.splitOn_cons_sep]
        exact .cons .nil ih
      · rw [splitOn_token (fun hc => ha (Token.lit.inj hc)), List.splitOn_cons_eq_if_modifyHead,
          beq_false_of_ne ha, if_neg Bool.false_ne_true]
        cases ih' : ts.splitOn (.lit sep) with
        | nil => exact absurd ih' (List.splitOn_ne_nil _ _)
        | cons p ps =>
            rw [ih'] at ih
            cases hs : t.splitOn sep with
            | nil => exact absurd hs (List.splitOn_ne_nil _ _)
            | cons x xs =>
                rw [hs, List.forall₂_cons] at ih
                exact .cons (.lit ih.1) ih.2
  | @segment w ts t hne hw _ ih =>
      have hfree : sep ∉ w := fun hc => hw sep hc rfl
      rw [splitOn_token (by simp only [ne_eq, reduceCtorEq, not_false_eq_true]),
        Segments.splitOn_append hfree]
      cases ih' : ts.splitOn (.lit sep) with
      | nil => exact absurd ih' (List.splitOn_ne_nil _ _)
      | cons p ps =>
          rw [ih'] at ih
          cases hs : t.splitOn sep with
          | nil => exact absurd hs (List.splitOn_ne_nil _ _)
          | cons x xs =>
              rw [hs, List.forall₂_cons] at ih
              exact .cons (.segment hne hw ih.1) ih.2

theorem intercalate_append (w x : Text) (xs : List Text) :
    [sep].intercalate ((w ++ x) :: xs) = w ++ [sep].intercalate (x :: xs) := by
  cases xs with
  | nil => rw [List.intercalate_singleton, List.intercalate_singleton]
  | cons y ys => rw [Segments.intercalate_cons_cons, Segments.intercalate_cons_cons,
      List.append_assoc]

/-- Texts of the segments of a pattern make a text of it. -/
theorem spells_intercalate {xs : List Text}
    (h : List.Forall₂ (Spells sep) (ts.splitOn (.lit sep)) xs) :
    Spells sep ts ([sep].intercalate xs) := by
  induction ts generalizing xs with
  | nil =>
      rw [List.splitOn_nil, List.forall₂_cons_left_iff] at h
      rcases h with ⟨x, xs', hx, hxs, rfl⟩
      rw [List.forall₂_nil_left_iff.mp hxs, List.intercalate_singleton]
      exact hx
  | cons t ts ih =>
      by_cases ht : t = .lit sep
      · rw [ht, splitOn_lit_sep, List.forall₂_cons_left_iff] at h
        rcases h with ⟨x, xs', hx, hxs, rfl⟩
        cases hx
        cases xs' with
        | nil => exact absurd (List.forall₂_nil_right_iff.mp hxs) (List.splitOn_ne_nil _ _)
        | cons y ys =>
            rw [ht, Segments.intercalate_cons_cons, List.nil_append]
            exact .lit (ih hxs)
      · rw [splitOn_token ht] at h
        cases hs : ts.splitOn (.lit sep) with
        | nil => exact absurd hs (List.splitOn_ne_nil _ _)
        | cons p ps =>
            rw [hs, List.modifyHead_cons, List.forall₂_cons_left_iff] at h
            rcases h with ⟨x, xs', hx, hxs, rfl⟩
            rw [hs] at ih
            cases hx with
            | @lit a _ x hx =>
                have happend : [sep].intercalate (([a] ++ x) :: xs') =
                    [a] ++ [sep].intercalate (x :: xs') := intercalate_append [a] x xs'
                rw [List.singleton_append] at happend
                rw [happend]
                exact .lit (ih (.cons hx hxs))
            | @segment w _ x hne hw hx =>
                rw [intercalate_append]
                exact .segment hne hw (ih (.cons hx hxs))

/-- A text is one of a pattern if and only if its segments are texts of the segments. -/
theorem spells_iff_segments : Spells sep ts s ↔
    List.Forall₂ (Spells sep) (ts.splitOn (.lit sep)) (s.splitOn sep) := by
  constructor
  · exact spells_segments
  · intro h
    have hjoined := spells_intercalate h
    rwa [List.intercalate_splitOn] at hjoined

/-! ## Two patterns -/

/-- Two patterns have a text in common if and only if their segments have. -/
theorem common_iff : Common sep ps ts ↔
    List.Forall₂ (Common sep) (ps.splitOn (.lit sep)) (ts.splitOn (.lit sep)) := by
  constructor
  · rintro ⟨s, hps, hts⟩
    have hps := spells_segments hps
    have hts := spells_segments hts
    generalize ps.splitOn (.lit sep) = as at hps
    generalize ts.splitOn (.lit sep) = bs at hts
    generalize s.splitOn sep = xs at hps hts
    induction hps generalizing bs with
    | nil =>
        rw [List.forall₂_nil_right_iff.mp hts]
        exact .nil
    | cons hx _ ih =>
        rcases List.forall₂_cons_right_iff.mp hts with ⟨b, bs', hb, hbs, rfl⟩
        exact .cons ⟨_, hx, hb⟩ (ih _ hbs)
  · intro h
    have htexts : ∃ xs, List.Forall₂ (Spells sep) (ps.splitOn (.lit sep)) xs ∧
        List.Forall₂ (Spells sep) (ts.splitOn (.lit sep)) xs := by
      generalize ps.splitOn (.lit sep) = as at h
      generalize ts.splitOn (.lit sep) = bs at h
      induction h with
      | nil => exact ⟨[], .nil, .nil⟩
      | cons hx _ ih =>
          rcases hx with ⟨x, hxa, hxb⟩
          rcases ih with ⟨xs, has, hbs⟩
          exact ⟨x :: xs, .cons hxa has, .cons hxb hbs⟩
    rcases htexts with ⟨xs, hps, hts⟩
    exact ⟨_, spells_intercalate hps, spells_intercalate hts⟩

/-- Texts of the segments of two patterns, of which one begins with the other, by the
    segments of the patterns. -/
theorem along_of_spells {as bs : List (List (Token Char))} {us ss : List Text} {r : Text}
    (hus : List.Forall₂ (Spells sep) as us) (hss : List.Forall₂ (Spells sep) bs ss)
    (hfree : ∀ u ∈ us, sep ∉ u) (hfree' : ∀ x ∈ ss, sep ∉ x) (hne : ss ≠ [])
    (h : [sep].intercalate ss = [sep].intercalate us ++ r) :
    Along (Common sep) (Opens sep) as bs := by
  induction hus generalizing bs ss with
  | nil => trivial
  | @cons a u as us hu hrest ih =>
      cases hss with
      | nil => exact absurd rfl hne
      | @cons b x bs ss hx hxs =>
          have hux := hfree u List.mem_cons_self
          have hxx := hfree' x List.mem_cons_self
          cases hrest with
          | nil =>
              rw [List.intercalate_singleton] at h
              -- The last segment is a beginning, since it has no separator.
              refine ⟨u, x.drop u.length, hu, ?_⟩
              have hle : u <+: x := by
                have hu' : u <+: [sep].intercalate (x :: ss) := h ▸ List.prefix_append u r
                cases ss with
                | nil => rwa [List.intercalate_singleton] at hu'
                | cons y ys =>
                    rw [Segments.intercalate_cons_cons] at hu'
                    rcases List.prefix_or_prefix_of_prefix hu' (List.prefix_append x _) with
                      hux' | ⟨v, hv⟩
                    · exact hux'
                    · cases v with
                      | nil =>
                          rw [List.append_nil] at hv
                          rw [hv]
                      | cons c v =>
                          -- The beginning would go on with the separator.
                          rw [← hv, List.prefix_append_right_inj, List.cons_prefix_cons] at hu'
                          rw [← hv, hu'.1] at hux
                          exact absurd (List.mem_append_right x List.mem_cons_self) hux
              rcases hle with ⟨v, rfl⟩
              rw [List.drop_left]
              exact hx
          | @cons a' u' as us hu' hus =>
              rw [Segments.intercalate_cons_cons, List.append_assoc, List.cons_append] at h
              cases hxs with
              | nil =>
                  rw [List.intercalate_singleton] at h
                  rw [h] at hxx
                  exact absurd (List.mem_append_right u List.mem_cons_self) hxx
              | @cons b' y bs ss hy hys =>
                  rw [Segments.intercalate_cons_cons] at h
                  rcases Segments.append_sep_inj hxx hux h with ⟨hsame, hmore⟩
                  refine ⟨⟨u, hu, hsame ▸ hx⟩, ih (.cons hy hys) ?_ ?_ (List.cons_ne_nil _ _) hmore⟩
                  · exact fun v hv => hfree v (List.mem_cons_of_mem _ hv)
                  · exact fun v hv => hfree' v (List.mem_cons_of_mem _ hv)

/-- Texts of the segments of two patterns, of which one begins with the other. -/
theorem spells_of_along {c : Char} (hc : c ≠ sep) {as bs : List (List (Token Char))}
    (hne : as ≠ []) (h : Along (Common sep) (Opens sep) as bs) :
    ∃ us ss r, List.Forall₂ (Spells sep) as us ∧ List.Forall₂ (Spells sep) bs ss ∧
      us ≠ [] ∧ ss ≠ [] ∧ [sep].intercalate ss = [sep].intercalate us ++ r := by
  induction as generalizing bs with
  | nil => exact absurd rfl hne
  | cons a as ih =>
      cases bs with
      | nil => cases as <;> exact absurd h id
      | cons b bs =>
          cases as with
          | nil =>
              rcases h with ⟨u, v, hu, huv⟩
              have hrest : ∃ ss, List.Forall₂ (Spells sep) bs ss := by
                induction bs with
                | nil => exact ⟨[], .nil⟩
                | cons b bs ih =>
                    rcases exists_spells hc b with ⟨x, hx⟩
                    rcases ih with ⟨ss, hss⟩
                    exact ⟨x :: ss, .cons hx hss⟩
              rcases hrest with ⟨ss, hss⟩
              refine ⟨[u], (u ++ v) :: ss, [sep].intercalate (v :: ss), .cons hu .nil,
                .cons huv hss, List.cons_ne_nil _ _, List.cons_ne_nil _ _, ?_⟩
              rw [intercalate_append, List.intercalate_singleton]
          | cons a' as =>
              rcases h with ⟨⟨u, hu, hx⟩, hmore⟩
              rcases ih (List.cons_ne_nil _ _) hmore with ⟨us, ss, r, hus, hss, husne, hssne, heq⟩
              refine ⟨u :: us, u :: ss, r, .cons hu hus, .cons hx hss, List.cons_ne_nil _ _,
                List.cons_ne_nil _ _, ?_⟩
              rcases List.exists_cons_of_ne_nil husne with ⟨u', us', rfl⟩
              rcases List.exists_cons_of_ne_nil hssne with ⟨x', ss', rfl⟩
              rw [Segments.intercalate_cons_cons, Segments.intercalate_cons_cons, heq,
                List.append_assoc, List.cons_append]

/-- A text of the second pattern begins with one of the first pattern if and only if
    this holds of the last segment, and the segments before it have texts in common. -/
theorem opens_iff {c : Char} (hc : c ≠ sep) : Opens sep ps ts ↔
    Along (Common sep) (Opens sep) (ps.splitOn (.lit sep)) (ts.splitOn (.lit sep)) := by
  constructor
  · rintro ⟨t, r, hps, hts⟩
    refine along_of_spells (r := r) (spells_segments hps) (spells_segments hts)
      (fun u hu => Segments.not_mem_of_mem_splitOn hu)
      (fun x hx => Segments.not_mem_of_mem_splitOn hx) (List.splitOn_ne_nil _ _) ?_
    rw [List.intercalate_splitOn, List.intercalate_splitOn]
  · intro h
    rcases spells_of_along hc (List.splitOn_ne_nil _ _) h with ⟨us, ss, r, hus, hss, _, _, heq⟩
    exact ⟨_, r, spells_intercalate hus, heq ▸ spells_intercalate hss⟩

end Segments

/-! ## Placeholders -/

section Placeholders

/-- The name of a placeholder, and what follows it. -/
theorem placeholder_eq_some {u : Unit} {s rest : Text} (h : placeholder id s = some (u, rest)) :
    ∃ name, name ≠ [] ∧ '/' ∉ name ∧ '}' ∉ name ∧ s = '{' :: (name ++ '}' :: rest) := by
  cases s with
  | nil =>
      rw [placeholder] at h
      exact absurd h (by simp only [reduceCtorEq, not_false_eq_true])
  | cons a t =>
      rw [placeholder] at h
      split at h
      · rename_i hc
        rcases hc with ⟨ha, hname, hclose⟩
        have hall : ∀ b ∈ t.takeWhile (inName id), inName id b = true :=
          fun b hb => List.mem_takeWhile_imp hb
        refine ⟨t.takeWhile (inName id), hname, fun hb => ?_, fun hb => ?_, ?_⟩
        · exact absurd (hall _ hb) (by decide)
        · exact absurd (hall _ hb) (by decide)
        · have hrest : (t.dropWhile (inName id)).tail = rest := congrArg Prod.snd (Option.some.inj h)
          cases hdrop : t.dropWhile (inName id) with
          | nil =>
              rw [hdrop] at hclose
              exact absurd hclose (by simp only [List.head?_nil, reduceCtorEq, not_false_eq_true])
          | cons b rest' =>
              rw [hdrop, List.head?_cons, Option.some.injEq] at hclose
              rw [hdrop, List.tail_cons] at hrest
              have hsplit := List.takeWhile_append_dropWhile (p := inName id) (l := t)
              rw [hdrop, hclose, hrest] at hsplit
              exact congrArg₂ List.cons ha hsplit.symm
      · exact absurd h (by simp only [reduceCtorEq, not_false_eq_true])

theorem placeholder_of_name {name : Text} (hne : name ≠ []) (hslash : '/' ∉ name)
    (hbrace : '}' ∉ name) (rest : Text) :
    placeholder id ('{' :: (name ++ '}' :: rest)) = some ((), rest) := by
  have hall : ∀ b ∈ name, inName id b = true := by
    intro b hb
    unfold inName
    rw [Bool.and_eq_true, decide_eq_true_eq, decide_eq_true_eq]
    rw [id_eq, id_eq]
    exact ⟨fun hc => hbrace (hc ▸ hb), fun hc => hslash (hc ▸ hb)⟩
  have htake : (name ++ '}' :: rest).takeWhile (inName id) = name := by
    rw [List.takeWhile_append_of_pos hall, List.takeWhile_cons_of_neg (by decide), List.append_nil]
  have hdrop : (name ++ '}' :: rest).dropWhile (inName id) = '}' :: rest := by
    rw [List.dropWhile_append_of_pos hall, List.dropWhile_cons_of_neg (by decide)]
  rw [placeholder, htake, hdrop]
  exact if_pos ⟨rfl, hne, rfl⟩

theorem template_nil : template id ([] : Text) = [] := rfl

/-- A character that begins no placeholder is a literal. -/
theorem template_of_none {c : Char} {cs : Text} (h : placeholder id (c :: cs) = none) :
    template id (c :: cs) = .lit c :: template id cs := by
  unfold template pieces
  rw [Substitution.parseFrom_of_none h]
  rfl

/-- A placeholder is a wildcard. -/
theorem template_of_name {name : Text} (hne : name ≠ []) (hslash : '/' ∉ name)
    (hbrace : '}' ∉ name) (rest : Text) :
    template id ('{' :: (name ++ '}' :: rest)) = .segment :: template id rest := by
  have hcons : '{' :: (name ++ '}' :: rest) = '{' :: (name ++ ['}']) ++ rest := by
    rw [List.cons_append, List.append_assoc, List.singleton_append]
  have hread := placeholder_of_name hne hslash hbrace rest
  rw [hcons] at hread
  unfold template pieces
  rw [hcons, Substitution.parseFrom_of_some hread]
  rfl

/-- The pattern of a path with placeholders, by the segments of the path. -/
theorem template_segments (path : Text) :
    (template id path).splitOn (.lit '/') = (path.splitOn '/').map (template id) := by
  induction hlen : path.length using Nat.strong_induction_on generalizing path with
  | _ n ih =>
      cases path with
      | nil => rfl
      | cons c cs =>
          rw [List.length_cons] at hlen
          cases hread : placeholder id (c :: cs) with
          | none =>
              have hnext := ih cs.length (by omega) cs rfl
              rw [template_of_none hread]
              by_cases hc : c = '/'
              · rw [hc, splitOn_lit_sep, Segments.splitOn_cons_sep, hnext]
                rfl
              · rw [splitOn_token (fun he => hc (Token.lit.inj he)), hnext,
                  List.splitOn_cons_eq_if_modifyHead, beq_false_of_ne hc, if_neg Bool.false_ne_true]
                cases hs : cs.splitOn '/' with
                | nil => exact absurd hs (List.splitOn_ne_nil _ _)
                | cons x xs =>
                    -- A placeholder in the segment would be one in the path.
                    have hnone : placeholder id (c :: x) = none := by
                      cases hx : placeholder id (c :: x) with
                      | none => rfl
                      | some y =>
                          rcases placeholder_eq_some hx with ⟨name, hne, hslash, hbrace, heq⟩
                          have hjoin : ['/'].intercalate (cs.splitOn '/') = cs :=
                            List.intercalate_splitOn '/'
                          rw [hs] at hjoin
                          have hcs : ∃ more, cs = x ++ more := by
                            cases xs with
                            | nil => exact ⟨[], by rw [← hjoin, List.intercalate_singleton,
                                List.append_nil]⟩
                            | cons z zs => exact ⟨_, by rw [← hjoin,
                                Segments.intercalate_cons_cons]⟩
                          rcases hcs with ⟨more, hcs⟩
                          have hlong : c :: cs = '{' :: (name ++ '}' :: (y.2 ++ more)) := by
                            rw [hcs, ← List.cons_append, heq]
                            simp only [List.cons_append, List.append_assoc]
                          rw [hlong, placeholder_of_name hne hslash hbrace] at hread
                          exact absurd hread (by simp only [reduceCtorEq, not_false_eq_true])
                    rw [List.modifyHead_cons, List.map_cons, List.map_cons, List.modifyHead_cons,
                      template_of_none hnone]
          | some y =>
              rcases placeholder_eq_some hread with ⟨name, hne, hslash, hbrace, heq⟩
              have hcs : cs = name ++ '}' :: y.2 := (List.cons.inj heq).2
              have hshort : y.2.length < n := by
                rw [hcs, List.length_append, List.length_cons] at hlen
                omega
              have hfree : '/' ∉ '{' :: (name ++ ['}']) := by
                rw [List.mem_cons, List.mem_append, not_or, not_or]
                exact ⟨by decide, hslash, by decide⟩
              have hcons : '{' :: (name ++ '}' :: y.2) = '{' :: (name ++ ['}']) ++ y.2 := by
                rw [List.cons_append, List.append_assoc, List.singleton_append]
              rw [heq, template_of_name hne hslash hbrace,
                splitOn_token (by simp only [ne_eq, reduceCtorEq, not_false_eq_true]),
                ih y.2.length hshort y.2 rfl, hcons, Segments.splitOn_append hfree]
              cases hs : y.2.splitOn '/' with
              | nil => exact absurd hs (List.splitOn_ne_nil _ _)
              | cons x xs =>
                  rw [List.modifyHead_cons, List.map_cons, List.map_cons, List.modifyHead_cons,
                    List.cons_append, List.append_assoc, List.singleton_append,
                    template_of_name hne hslash hbrace]

end Placeholders

end Wildcard
