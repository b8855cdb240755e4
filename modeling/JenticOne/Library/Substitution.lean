import Mathlib

/-!
# Replacing Markers One Name at a Time

A text holds markers of names, and every name has a value to be put in the place
of its markers. The values may be put in together, in one pass that reads the
text as it was, or one name after another, each pass over what the passes before
it left. The two agree as long as no pass finds a marker that was not in the
text to begin with: one that came with a value, or that formed around one.

A text is read once into pieces, its markers and the elements between them.
`render` puts in the values of some names and leaves the markers of the others
as they were spelt. What a pass has to find is then the markers of its name
among the pieces, and `starts` counts the places where it does find one. Markers
that are left in place are found in any case, so that the counts are equal says
that nothing else is.

## Main definitions

* `Substitution.replaceFrom`: One pass.
* `Substitution.starts`: How often a marker begins in a text.
* `Substitution.parseFrom`, `Substitution.render`: Reading a text into pieces,
  and putting values in.
* `Substitution.valueOf`: The value a sequence of passes puts in.
* `Substitution.Quiet`: No pass finds a marker that was not there.

## Theorems

* `replaceFrom_render`: One pass.
* `foldl_replace`: Pass after pass is one substitution.
-/

namespace Substitution

variable {α ν : Type*}

/-- What is left of a text that begins with a marker. -/
abbrev Marker (α : Type*) := List α → Option (List α)

/-- The markers of a text replaced, from the left, on a text whose first `skip`
    elements belong to the one just replaced. -/
def replaceFrom (m : Marker α) (new : List α) : Nat → List α → List α
  | _, [] => []
  | skip + 1, _ :: cs => replaceFrom m new skip cs
  | 0, c :: cs =>
      match m (c :: cs) with
      | some rest => new ++ replaceFrom m new (cs.length - rest.length) cs
      | none => c :: replaceFrom m new 0 cs

/-- At how many places of a text a marker begins. -/
def starts (m : Marker α) : List α → Nat
  | [] => 0
  | c :: cs => (if (m (c :: cs)).isSome then 1 else 0) + starts m cs

/-- An element of a text, or a marker with how it is spelt. -/
inductive Piece (α ν : Type*)
  | plain (a : α)
  | mark (n : ν) (spelt : List α)

/-- A piece with the value of its name, if that has one. -/
def Piece.render (f : ν → Option (List α)) : Piece α ν → List α
  | .plain a => [a]
  | .mark n spelt => (f n).getD spelt

def render (f : ν → Option (List α)) (ps : List (Piece α ν)) : List α :=
  ps.flatMap (Piece.render f)

/-- The pieces of a text, whose first `skip` elements belong to the marker just
    read. -/
def parseFrom (any : List α → Option (ν × List α)) : Nat → List α → List (Piece α ν)
  | _, [] => []
  | skip + 1, _ :: cs => parseFrom any skip cs
  | 0, c :: cs =>
      match any (c :: cs) with
      | some (n, rest) =>
          .mark n ((c :: cs).take ((c :: cs).length - rest.length)) ::
            parseFrom any (cs.length - rest.length) cs
      | none => .plain c :: parseFrom any 0 cs

/-- How many markers of a name there are among pieces. -/
def count [DecidableEq ν] (n : ν) : List (Piece α ν) → Nat
  | [] => 0
  | .plain _ :: ps => count n ps
  | .mark k _ :: ps => (if k = n then 1 else 0) + count n ps

/-- Every marker among the pieces is one whatever follows it. -/
def Local (m : ν → Marker α) (ps : List (Piece α ν)) : Prop :=
  ∀ n spelt, Piece.mark n spelt ∈ ps → spelt ≠ [] ∧ ∀ x, m n (spelt ++ x) = some x

/-- What is read as a marker is one whatever follows it. -/
def Reads (m : ν → Marker α) (any : List α → Option (ν × List α)) : Prop :=
  ∀ s n rest, any s = some (n, rest) →
    ∃ spelt, spelt ≠ [] ∧ s = spelt ++ rest ∧ ∀ x, m n (spelt ++ x) = some x

theorem Piece.render_mark (f : ν → Option (List α)) (n : ν) (spelt : List α) :
    (Piece.mark n spelt).render f = (f n).getD spelt := rfl

/-! ## Pieces -/

theorem parseFrom_append (any : List α → Option (ν × List α)) (p s : List α) :
    parseFrom any p.length (p ++ s) = parseFrom any 0 s := by
  induction p with
  | nil => rfl
  | cons a p ih => exact ih

theorem parseFrom_of_none {any : List α → Option (ν × List α)} {c : α} {cs : List α}
    (h : any (c :: cs) = none) : parseFrom any 0 (c :: cs) = .plain c :: parseFrom any 0 cs := by
  conv_lhs => unfold parseFrom
  rw [h]

theorem parseFrom_of_some {any : List α → Option (ν × List α)} {a : α} {spelt rest : List α}
    {n : ν} (h : any (a :: spelt ++ rest) = some (n, rest)) :
    parseFrom any 0 (a :: spelt ++ rest) = .mark n (a :: spelt) :: parseFrom any 0 rest := by
  have hlen : (spelt ++ rest).length - rest.length = spelt.length := by
    rw [List.length_append]
    omega
  have htake : (a :: spelt ++ rest).take ((a :: spelt ++ rest).length - rest.length) =
      a :: spelt := by
    rw [List.length_append, Nat.add_sub_cancel, List.take_left]
  rw [List.cons_append] at h htake ⊢
  conv_lhs => unfold parseFrom
  rw [h]
  dsimp only
  rw [htake, hlen, parseFrom_append]

/-- One step of the reading. -/
theorem parseFrom_cases {m : ν → Marker α} {any : List α → Option (ν × List α)}
    (h : Reads m any) (c : α) (cs : List α) :
    (any (c :: cs) = none ∧ parseFrom any 0 (c :: cs) = .plain c :: parseFrom any 0 cs) ∨
      ∃ n a spelt rest, c :: cs = a :: spelt ++ rest ∧ any (c :: cs) = some (n, rest) ∧
        (∀ x, m n (a :: spelt ++ x) = some x) ∧
        parseFrom any 0 (c :: cs) = .mark n (a :: spelt) :: parseFrom any 0 rest := by
  cases hany : any (c :: cs) with
  | none => exact Or.inl ⟨rfl, parseFrom_of_none hany⟩
  | some x =>
      rcases x with ⟨n, rest⟩
      rcases h _ n rest hany with ⟨spelt, hne, hsplit, hmark⟩
      cases spelt with
      | nil => exact absurd rfl hne
      | cons a spelt =>
          refine Or.inr ⟨n, a, spelt, rest, hsplit, rfl, hmark, ?_⟩
          rw [hsplit] at hany ⊢
          exact parseFrom_of_some hany

/-- The pieces of a text are its markers and what is between them. -/
theorem parseFrom_spec {m : ν → Marker α} {any : List α → Option (ν × List α)}
    (h : Reads m any) (s : List α) :
    render (fun _ => none) (parseFrom any 0 s) = s ∧ Local m (parseFrom any 0 s) ∧
      ∀ n spelt, Piece.mark n spelt ∈ parseFrom any 0 s →
        ∃ rest, any (spelt ++ rest) = some (n, rest) := by
  induction hlen : s.length using Nat.strongRecOn generalizing s with
  | ind k ih =>
      cases s with
      | nil =>
          exact ⟨rfl, fun _ _ hmem => absurd hmem List.not_mem_nil,
            fun _ _ hmem => absurd hmem List.not_mem_nil⟩
      | cons c cs =>
          rw [List.length_cons] at hlen
          rcases parseFrom_cases h c cs with
            ⟨_, hplain⟩ | ⟨n, a, spelt, rest, hsplit, hany, hmark, hparse⟩
          · rcases ih cs.length (by omega) cs rfl with ⟨hrender, hlocal, hread⟩
            rw [hplain]
            refine ⟨?_, fun n spelt hmem => ?_, fun n spelt hmem => ?_⟩
            · unfold render at hrender ⊢
              rw [List.flatMap_cons, hrender]
              rfl
            · rcases List.mem_cons.mp hmem with hc | hmem
              · exact absurd hc (by simp only [reduceCtorEq, not_false_eq_true])
              · exact hlocal n spelt hmem
            · rcases List.mem_cons.mp hmem with hc | hmem
              · exact absurd hc (by simp only [reduceCtorEq, not_false_eq_true])
              · exact hread n spelt hmem
          · have hshort : rest.length < k := by
              have := congrArg List.length hsplit
              rw [List.length_cons, List.cons_append, List.length_cons, List.length_append] at this
              omega
            rcases ih rest.length hshort rest rfl with ⟨hrender, hlocal, hread⟩
            rw [hparse]
            refine ⟨?_, fun n' spelt' hmem => ?_, fun n' spelt' hmem => ?_⟩
            · unfold render at hrender ⊢
              rw [List.flatMap_cons, hrender, hsplit]
              rfl
            · rcases List.mem_cons.mp hmem with hc | hmem
              · rw [Piece.mark.injEq] at hc
                rw [hc.1, hc.2]
                exact ⟨List.cons_ne_nil a spelt, hmark⟩
              · exact hlocal n' spelt' hmem
            · rcases List.mem_cons.mp hmem with hc | hmem
              · rw [Piece.mark.injEq] at hc
                rw [hc.1, hc.2]
                exact ⟨rest, by rw [← hsplit]; exact hany⟩
              · exact hread n' spelt' hmem

/-! ## One pass -/

section Pass

variable {m : Marker α}

theorem starts_cons (m : Marker α) (c : α) (cs : List α) :
    starts m (c :: cs) = (if (m (c :: cs)).isSome then 1 else 0) + starts m cs := rfl

theorem starts_le_append (m : Marker α) (t s : List α) : starts m s ≤ starts m (t ++ s) := by
  induction t with
  | nil => exact Nat.le_refl _
  | cons c t ih =>
      rw [List.cons_append, starts_cons]
      omega

/-- A marker that is also one of another kind begins no more often. -/
theorem starts_mono {m' : Marker α} (h : ∀ s, (m s).isSome = true → (m' s).isSome = true)
    (s : List α) : starts m s ≤ starts m' s := by
  induction s with
  | nil => exact Nat.le_refl _
  | cons c cs ih =>
      rw [starts_cons, starts_cons]
      by_cases hm : (m (c :: cs)).isSome = true
      · rw [if_pos hm, if_pos (h _ hm)]
        omega
      · rw [if_neg hm]
        omega

/-- A pass goes over a part where no marker begins. -/
theorem replaceFrom_append_of_idle (new : List α) {t s : List α}
    (h : starts m (t ++ s) = starts m s) :
    replaceFrom m new 0 (t ++ s) = t ++ replaceFrom m new 0 s := by
  induction t with
  | nil => rfl
  | cons c t ih =>
      have hle := starts_le_append m t s
      rw [List.cons_append] at h ⊢
      rw [starts_cons] at h
      cases hm : m (c :: (t ++ s)) with
      | some rest =>
          rw [hm, Option.isSome_some, if_pos rfl] at h
          omega
      | none =>
          rw [hm, Option.isSome_none, if_neg (by decide)] at h
          conv_lhs => unfold replaceFrom
          rw [hm]
          dsimp only
          rw [ih (by omega), List.cons_append]

theorem replaceFrom_skip (new p s : List α) :
    replaceFrom m new p.length (p ++ s) = replaceFrom m new 0 s := by
  induction p with
  | nil => rfl
  | cons a p ih => exact ih

/-- A pass replaces the marker a text begins with. -/
theorem replaceFrom_marker (new : List α) {spelt s : List α} (hne : spelt ≠ [])
    (h : m (spelt ++ s) = some s) :
    replaceFrom m new 0 (spelt ++ s) = new ++ replaceFrom m new 0 s := by
  cases spelt with
  | nil => exact absurd rfl hne
  | cons a spelt =>
      rw [List.cons_append] at h ⊢
      conv_lhs => unfold replaceFrom
      rw [h]
      dsimp only
      rw [List.length_append, Nat.add_sub_cancel, replaceFrom_skip]

end Pass

section Names

variable [DecidableEq ν] {m : ν → Marker α} {ps : List (Piece α ν)} {f : ν → Option (List α)}

/-- How many markers of a name are left, where some names have their values. -/
def left (f : ν → Option (List α)) (n : ν) (ps : List (Piece α ν)) : Nat :=
  if f n = none then count n ps else 0

/-- The values of some names, and one more that did not have one. -/
def also (f : ν → Option (List α)) (n : ν) (new : List α) : ν → Option (List α) :=
  fun k => if k = n then some ((f n).getD new) else f k

theorem also_of_eq {k n : ν} (h : k = n) (f : ν → Option (List α)) (new : List α) :
    also f n new k = some ((f n).getD new) := if_pos h

theorem also_of_ne {k n : ν} (h : ¬ k = n) (f : ν → Option (List α)) (new : List α) :
    also f n new k = f k := if_neg h

theorem left_cons_plain (f : ν → Option (List α)) (n : ν) (a : α) (ps : List (Piece α ν)) :
    left f n (.plain a :: ps) = left f n ps := rfl

theorem left_cons_mark (f : ν → Option (List α)) (n k : ν) (spelt : List α)
    (ps : List (Piece α ν)) : left f n (.mark k spelt :: ps) =
      (if k = n ∧ f n = none then 1 else 0) + left f n ps := by
  unfold left
  conv_lhs => unfold count
  by_cases hf : f n = none
  · rw [if_pos hf, if_pos hf]
    by_cases hk : k = n
    · rw [if_pos hk, if_pos ⟨hk, hf⟩]
    · rw [if_neg hk, if_neg (fun hc => hk hc.1)]
  · rw [if_neg hf, if_neg hf, if_neg (fun hc => hf hc.2)]

/-- The markers that are left are found. -/
theorem left_le_starts (hlocal : Local m ps) (f : ν → Option (List α)) (n : ν) :
    left f n ps ≤ starts (m n) (render f ps) := by
  induction ps with
  | nil =>
      unfold left count
      split <;> exact Nat.zero_le _
  | cons p ps ih =>
      have ih := ih (fun k spelt hmem => hlocal k spelt (List.mem_cons_of_mem p hmem))
      have htail := starts_le_append (m n) (Piece.render f p) (render f ps)
      change left f n (p :: ps) ≤ starts (m n) (Piece.render f p ++ render f ps)
      cases p with
      | plain a =>
          rw [left_cons_plain]
          exact le_trans ih htail
      | mark k spelt =>
          rw [left_cons_mark]
          by_cases hk : k = n ∧ f n = none
          · rw [if_pos hk]
            rcases hlocal k spelt List.mem_cons_self with ⟨hne, hmark⟩
            have hspelt : Piece.render f (.mark k spelt) = spelt := by
              rw [Piece.render_mark, hk.1, hk.2, Option.getD_none]
            rw [hspelt]
            cases spelt with
            | nil => exact absurd rfl hne
            | cons a spelt =>
                have hstart := hmark (render f ps)
                have hrest := starts_le_append (m n) spelt (render f ps)
                rw [hk.1] at hstart
                rw [List.cons_append] at hstart ⊢
                rw [starts_cons, hstart, Option.isSome_some, if_pos rfl]
                omega
          · rw [if_neg hk, Nat.zero_add]
            exact le_trans ih htail

/-- A pass that finds only the markers that are left puts its value in. -/
theorem replaceFrom_render (hlocal : Local m ps) {n : ν} (new : List α)
    (h : starts (m n) (render f ps) = left f n ps) :
    replaceFrom (m n) new 0 (render f ps) = render (also f n new) ps := by
  induction ps with
  | nil => rfl
  | cons p ps ih =>
      have hlocal' : Local m ps :=
        fun k spelt hmem => hlocal k spelt (List.mem_cons_of_mem p hmem)
      have hfound := left_le_starts hlocal' f n
      have htail := starts_le_append (m n) (Piece.render f p) (render f ps)
      change starts (m n) (Piece.render f p ++ render f ps) = left f n (p :: ps) at h
      change replaceFrom (m n) new 0 (Piece.render f p ++ render f ps) =
        Piece.render (also f n new) p ++ render (also f n new) ps
      -- The piece is a marker of the name, or no marker of it begins there.
      have hcases : (∃ spelt, p = .mark n spelt ∧ f n = none) ∨
          (Piece.render (also f n new) p = Piece.render f p ∧ left f n (p :: ps) = left f n ps) := by
        cases p with
        | plain a => exact Or.inr ⟨rfl, rfl⟩
        | mark k spelt =>
            by_cases hk : k = n
            · cases hf : f n with
              | none => exact Or.inl ⟨spelt, by rw [hk], rfl⟩
              | some v =>
                  refine Or.inr ⟨?_, ?_⟩
                  · rw [Piece.render_mark, Piece.render_mark, also_of_eq hk, hk, hf]
                    rfl
                  · rw [left_cons_mark, if_neg (fun hc => absurd (hf.symm.trans hc.2) (by
                      simp only [reduceCtorEq, not_false_eq_true])), Nat.zero_add]
            · refine Or.inr ⟨?_, ?_⟩
              · rw [Piece.render_mark, Piece.render_mark, also_of_ne hk]
              · rw [left_cons_mark, if_neg (fun hc => hk hc.1), Nat.zero_add]
      rcases hcases with ⟨spelt, rfl, hf⟩ | ⟨hsame, hleft⟩
      · rcases hlocal n spelt List.mem_cons_self with ⟨hne, hmark⟩
        have hspelt : Piece.render f (.mark n spelt) = spelt := by
          rw [Piece.render_mark, hf, Option.getD_none]
        have hvalue : Piece.render (also f n new) (.mark n spelt) = new := by
          rw [Piece.render_mark, also_of_eq rfl, hf]
          rfl
        rw [left_cons_mark, if_pos ⟨rfl, hf⟩, hspelt] at h
        have hrest : starts (m n) (render f ps) = left f n ps := by
          cases spelt with
          | nil => exact absurd rfl hne
          | cons a spelt =>
              have hstart := hmark (render f ps)
              have hle := starts_le_append (m n) spelt (render f ps)
              rw [List.cons_append] at h hstart
              rw [starts_cons, hstart, Option.isSome_some, if_pos rfl] at h
              omega
        rw [hspelt, hvalue, replaceFrom_marker new hne (hmark _), ih hlocal' hrest]
      · rw [hleft] at h
        rw [replaceFrom_append_of_idle new (by omega), ih hlocal' (by omega), hsame]

/-! ## Passes -/

/-- The value a sequence of passes puts in for a name: that of the first. -/
def valueOf (passes : List (ν × List α)) (n : ν) : Option (List α) :=
  (passes.find? (fun x => x.1 = n)).map Prod.snd

/-- In a sequence of passes, every one finds the markers of its name that are
    left and no other. -/
def Quiet (m : ν → Marker α) (ps : List (Piece α ν)) (passes : List (ν × List α)) : Prop :=
  ∀ done n new todo, passes = done ++ (n, new) :: todo →
    starts (m n) (render (valueOf done) ps) = left (valueOf done) n ps

theorem valueOf_append (l l' : List (ν × List α)) (n : ν) :
    valueOf (l ++ l') n = (valueOf l n).or (valueOf l' n) := by
  unfold valueOf
  rw [List.find?_append]
  cases l.find? (fun x => x.1 = n) <;> rfl

theorem also_valueOf (done : List (ν × List α)) (n : ν) (new : List α) :
    also (valueOf done) n new = valueOf (done ++ [(n, new)]) := by
  funext k
  rw [valueOf_append]
  by_cases hk : k = n
  · have hnew : valueOf [(n, new)] k = some new := by
      have hfound : decide ((n, new).1 = k) = true := decide_eq_true hk.symm
      unfold valueOf
      rw [List.find?_cons, hfound]
      rfl
    rw [also_of_eq hk, hnew, hk]
    cases valueOf done n <;> rfl
  · have hnew : valueOf [(n, new)] k = none := by
      have hpassed : decide ((n, new).1 = k) = false := decide_eq_false (fun hc => hk hc.symm)
      unfold valueOf
      rw [List.find?_cons, hpassed]
      rfl
    rw [also_of_ne hk, hnew, Option.or_none]

/-- Passes that find no marker that was not there put all values in at once. -/
theorem foldl_replace (hlocal : Local m ps) {passes : List (ν × List α)}
    (h : Quiet m ps passes) :
    passes.foldl (fun s x => replaceFrom (m x.1) x.2 0 s) (render (fun _ => none) ps) =
      render (valueOf passes) ps := by
  induction passes using List.reverseRecOn with
  | nil => rfl
  | append_singleton done x ih =>
      have hdone : Quiet m ps done := by
        intro done' n new todo hsplit
        refine h done' n new (todo ++ [x]) ?_
        rw [hsplit, List.append_assoc, List.cons_append]
      rw [List.foldl_append, ih hdone, List.foldl_cons, List.foldl_nil,
        replaceFrom_render hlocal x.2 (h done x.1 x.2 [] rfl), also_valueOf]

end Names

end Substitution
