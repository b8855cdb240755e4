import JenticOne.Library.Marks
import JenticOne.Library.Skeleton
import JenticOne.Registry.Ranking

/-!
# The More Specific Template

Two operations with path templates of which one matches every path the other one
matches, and more. For a path both match, the row of the narrower template is
meant to be taken.

A segment is marked when it begins with text. Put a brace in the place of every
placeholder of the narrower template: the wider one matches the path that comes of
it, and a segment it begins with text cannot begin with a brace there. So the marks
of the wider template are spread out over those of the narrower one, which has at
least as many. The ranking tells the two apart by the marks only: not by a text
after a placeholder, a name that occurs twice, or a catch-all.

## Main definitions

* `Built`: A row with the regular expression of its template.
* `marks`: The segments that begin with text.
* `Sharper`: A template whose marks put it before another one.

## Theorems

* `spread_of_included`: The marks of the wider template, spread out.
* `narrower_wins_iff`: When the narrower template is taken.
-/

namespace JenticOne

namespace Registry

namespace Ranking

/-- A row with the regular expression and the names of its template. -/
structure Built (row : UrlIndexCandidate) : Prop where
  regex : ∃ operationPath, Pattern.compile (buildPathPieces row.pathTemplate operationPath) =
    some row.pathRegex
  names : row.paramNames = extractParamNames row.pathTemplate

def Matches (row : UrlIndexCandidate) (path : Text) : Prop :=
  (row.pathRegex.fullmatch (· == ·) path).isSome

instance (row : UrlIndexCandidate) (path : Text) : Decidable (Matches row path) :=
  inferInstanceAs (Decidable (_ = true))

/-- The request gives no server variable two values. -/
def Agrees (lib : Stdlib) (path host : Text) (row : UrlIndexCandidate) : Prop :=
  ∀ groups, row.pathRegex.fullmatch (· == ·) path = some groups →
    (resolveServerVariableGroups lib (hostGroups lib row host ++ groups.reverse)).isSome

/-- Which segments of a template begin with text. -/
def marks (template : Text) : List Bool := (templateParts template).map isLiteral

/-- A path from the root, without an empty segment at an end, whose placeholders
    have no slash in their names. -/
structure Ordinary (template : Text) : Prop where
  root : template.head? = some '/'
  first : template.tail.head? ≠ some '/'
  last : template.tail.getLast? ≠ some '/'
  plain : ∀ t ∈ tokens template, '/' ∉ t

/-- A template without a placeholder, or with more marks, or with as many of which
    the last one is further on though the first one is not; in a template that is
    not ordinary, the first one may also be further to the front. -/
def Sharper (template template' : Text) : Prop :=
  tokens template = [] ∨ (marks template').count true < (marks template).count true ∨
    (marks template).count true = (marks template').count true ∧
      (Marks.first (marks template) = Marks.first (marks template') ∧
          Marks.last (marks template') < Marks.last (marks template) ∨
        ¬ (Ordinary template ∧ Ordinary template') ∧
          Marks.first (marks template) < Marks.first (marks template'))

/-! ## Marks of a path -/

section Paths

/-- Which segments of a text begin with something else than a brace. -/
def segmentMarks (s : Text) : List Bool := (s.splitOn '/').map isLiteral

theorem segmentMarks_nil : segmentMarks [] = [true] := rfl

theorem segmentMarks_slash (s : Text) : segmentMarks ('/' :: s) = true :: segmentMarks s := by
  unfold segmentMarks
  rw [Segments.splitOn_cons_sep, List.map_cons]
  rfl

theorem segmentMarks_cons {c : Char} (h : c ≠ '/') (s : Text) :
    segmentMarks (c :: s) = decide (c ≠ '{') :: (segmentMarks s).tail := by
  unfold segmentMarks
  rw [List.splitOn_cons_eq_if_modifyHead, beq_false_of_ne h, if_neg Bool.false_ne_true]
  cases hs : s.splitOn '/' with
  | nil => exact absurd hs (List.splitOn_ne_nil _ _)
  | cons x xs =>
      rw [List.modifyHead_cons, List.map_cons, List.map_cons, List.tail_cons]
      refine congrArg (· :: _) ?_
      unfold isLiteral
      rw [List.head?_cons]
      simp only [ne_eq, Option.some.injEq]

theorem segmentMarks_ne_nil (s : Text) : segmentMarks s ≠ [] := by
  unfold segmentMarks
  exact fun hc => List.splitOn_ne_nil _ _ (List.map_eq_nil_iff.mp hc)

/-- What is put in front of a text adds marks before those of its further segments. -/
theorem segmentMarks_append (v s : Text) :
    ∃ c more, segmentMarks (v ++ s) = c :: (more ++ (segmentMarks s).tail) := by
  induction v with
  | nil =>
      rcases List.exists_cons_of_ne_nil (segmentMarks_ne_nil s) with ⟨c, cs, hs⟩
      exact ⟨c, [], by rw [List.nil_append, hs, List.tail_cons, List.nil_append]⟩
  | cons x v ih =>
      rcases ih with ⟨c, more, hv⟩
      by_cases hx : x = '/'
      · rw [List.cons_append, hx, segmentMarks_slash, hv]
        exact ⟨true, c :: more, rfl⟩
      · rw [List.cons_append, segmentMarks_cons hx, hv, List.tail_cons]
        exact ⟨_, more, rfl⟩

/-- A text without a slash only changes the first segment. -/
theorem tail_segmentMarks_append {v : Text} (h : '/' ∉ v) (s : Text) :
    (segmentMarks (v ++ s)).tail = (segmentMarks s).tail := by
  induction v with
  | nil => rfl
  | cons x v ih =>
      have hx : x ≠ '/' := fun hc => h (hc ▸ List.mem_cons_self)
      rw [List.cons_append, segmentMarks_cons hx, List.tail_cons,
        ih fun hv => h (List.mem_cons_of_mem x hv)]

theorem segmentMarks_braced {n : Text} (h : '/' ∉ n) (s : Text) :
    segmentMarks (braced n ++ s) = false :: (segmentMarks s).tail := by
  have hbody : '/' ∉ n ++ ['}'] := by
    rw [List.mem_append, not_or]
    exact ⟨h, by decide⟩
  unfold braced
  rw [List.cons_append, segmentMarks_cons (by decide), tail_segmentMarks_append hbody]
  rfl

/-- The marks of an ordinary template are those of what follows its first slash. -/
theorem marks_of_ordinary {template : Text} (h : Ordinary template) :
    ∃ rest, template = '/' :: rest ∧ marks template = segmentMarks rest := by
  rcases h with ⟨hroot, hfirst, hlast, -⟩
  cases template with
  | nil => exact absurd hroot (by simp only [List.head?_nil, reduceCtorEq, not_false_eq_true])
  | cons c rest =>
      rw [List.head?_cons, Option.some.injEq] at hroot
      rw [List.tail_cons] at hfirst hlast
      subst hroot
      refine ⟨rest, rfl, ?_⟩
      have hstrip : Text.strip '/' ('/' :: rest) = rest := by
        unfold Text.strip Text.rstrip
        rw [List.dropWhile_cons_of_pos (p := fun x => decide (x = '/')) (decide_eq_true rfl)]
        have hdrop : rest.dropWhile (fun x => decide (x = '/')) = rest := by
          cases rest with
          | nil => rfl
          | cons c rest =>
              rw [List.head?_cons, ne_eq, Option.some.injEq] at hfirst
              exact List.dropWhile_cons_of_neg (by rw [decide_eq_true_eq]; exact hfirst)
        rw [hdrop, List.rdropWhile_eq_self_iff]
        intro hne
        rw [decide_eq_true_eq]
        intro hc
        rw [List.getLast?_eq_getLast_of_ne_nil hne, hc] at hlast
        exact hlast rfl
      unfold marks templateParts segmentMarks
      rw [hstrip]

end Paths

/-! ## What a template shows of its regular expression -/

section Shown

open Pattern (Spot Spots skeleton skeletonFrom fillAll)

/-- Each character stands for itself, and a placeholder without a slash in its name
    for each hole. -/
inductive Shows : List Spot → Text → Prop
  | nil : Shows [] []
  | char {spots t} (c : Char) (h : Shows spots t) : Shows (.char c :: spots) (c :: t)
  | hole {spots t} (k : Nat) (n : Text) (hn : '/' ∉ n) (h : Shows spots t) :
      Shows (.hole k :: spots) (braced n ++ t)

theorem shows_chars {spots : List Spot} {t : Text} (h : Shows spots t) (s : Text) :
    Shows (s.map Spot.char ++ spots) (s ++ t) := by
  induction s with
  | nil => exact h
  | cons c s ih => exact .char c ih

/-- What a placeholder matches is a run, one that may be a brace. -/
theorem paramBody_run (wide : Bool) :
    ∃ ex, (if wide then anySegments else oneSegment) = .run ex ∧ '{' ∉ ex := by
  cases wide with
  | true => exact ⟨['\n'], rfl, by decide⟩
  | false => exact ⟨['/'], rfl, by decide⟩

/-- A template shows the pieces of its regular expression, and its holes may be
    filled with braces. -/
theorem shows_pathPieces (names : Dict Text Text) (catchAll : Dict Text Bool) {parts : List Part}
    (hplain : ∀ t, .token t ∈ parts → '/' ∉ t) (seen : List Text) (groups : Spots) (n : Nat)
    (hgroups : ∀ g ∈ seen, ∃ k, groups.lookup g = some [.hole k]) :
    Shows (skeletonFrom groups n (pathPieces names catchAll seen parts)).spots
        (parts.flatMap Part.shown) ∧
      ∀ ex ∈ (skeletonFrom groups n (pathPieces names catchAll seen parts)).excluded, '{' ∉ ex := by
  induction parts generalizing seen groups n with
  | nil => exact ⟨.nil, fun ex hex => absurd hex List.not_mem_nil⟩
  | cons part parts ih =>
      have hrest : ∀ t, .token t ∈ parts → '/' ∉ t := fun t ht =>
        hplain t (List.mem_cons_of_mem _ ht)
      cases part with
      | text s =>
          rcases ih hrest seen groups n hgroups with ⟨hshows, hbrace⟩
          exact ⟨shows_chars hshows s, hbrace⟩
      | token t =>
          have ht : '/' ∉ t := hplain t List.mem_cons_self
          rw [pathPieces, pathParamGroup, List.flatMap_cons]
          dsimp only
          rcases paramBody_run ((catchAll.get? (splitParamToken t).1).getD (splitParamToken t).2)
            with ⟨ex, hbody, hex⟩
          rw [hbody]
          cases names.get? (splitParamToken t).1 with
          | none =>
              rcases ih hrest seen groups (n + 1) hgroups with ⟨hshows, hbrace⟩
              exact ⟨.hole n t ht hshows, List.forall_mem_cons.mpr ⟨hex, hbrace⟩⟩
          | some g =>
              dsimp only
              by_cases hseen : g ∈ seen
              · rcases hgroups g hseen with ⟨k, hk⟩
                rw [if_pos hseen]
                rcases ih hrest seen groups n hgroups with ⟨hshows, hbrace⟩
                rw [skeletonFrom, hk]
                exact ⟨.hole k t ht hshows, hbrace⟩
              · rw [if_neg hseen]
                have hnext : ∀ g' ∈ g :: seen, ∃ k,
                    ((g, [Spot.hole n]) :: groups).lookup g' = some [.hole k] := by
                  intro g' hg'
                  by_cases heq : g' = g
                  · exact ⟨n, by rw [heq, List.lookup_cons_self]⟩
                  · rcases hgroups g' ((List.mem_cons.mp hg').resolve_left heq) with ⟨k, hk⟩
                    exact ⟨k, by rw [List.lookup_cons, beq_false_of_ne heq]; exact hk⟩
                rcases ih hrest _ _ (n + 1) hnext with ⟨hshows, hbrace⟩
                exact ⟨.hole n t ht hshows, List.forall_mem_cons.mpr ⟨hex, hbrace⟩⟩

/-- Without a placeholder, a template is the only path. -/
theorem fill_of_texts (names : Dict Text Text) (catchAll : Dict Text Bool) {parts : List Part}
    (h : parts.filterMap Part.token? = []) (seen : List Text) (groups : Spots) (n : Nat)
    (vals : Nat → Text) :
    fillAll vals (skeletonFrom groups n (pathPieces names catchAll seen parts)).spots =
      parts.flatMap Part.shown := by
  induction parts with
  | nil => rfl
  | cons part parts ih =>
      cases part with
      | text s =>
          rw [pathPieces, skeletonFrom, Pattern.fillAll_append, Pattern.fillAll_chars,
            List.flatMap_cons, ih h]
          rfl
      | token t =>
          rw [List.filterMap_cons_some (show Part.token? (.token t) = some t from rfl)] at h
          exact absurd h (List.cons_ne_nil _ _)

variable {spots : List Spot} {t : Text}

/-- With a brace in each hole, a text has the marks of what is shown. -/
theorem segmentMarks_braces (h : Shows spots t) :
    segmentMarks (fillAll (fun _ => ['{']) spots) = segmentMarks t := by
  induction h with
  | nil => rfl
  | char c _ ih =>
      rename_i spots t _
      change segmentMarks (c :: fillAll _ spots) = segmentMarks (c :: t)
      by_cases hc : c = '/'
      · rw [hc, segmentMarks_slash, segmentMarks_slash, ih]
      · rw [segmentMarks_cons hc, segmentMarks_cons hc, ih]
  | hole k n hn _ ih =>
      rename_i spots t _
      change segmentMarks ('{' :: fillAll _ spots) = _
      rw [segmentMarks_braced hn, segmentMarks_cons (by decide), ih]
      rfl

/-- However the holes are filled, the marks of what is shown are spread out. -/
theorem spread_fill (h : Shows spots t) (vals : Nat → Text) :
    Marks.Spread (segmentMarks t) (segmentMarks (fillAll vals spots)) := by
  induction h with
  | nil => exact .cons [] id .nil
  | char c _ ih =>
      rename_i spots t _
      change Marks.Spread (segmentMarks (c :: t)) (segmentMarks (c :: fillAll vals spots))
      by_cases hc : c = '/'
      · rw [hc, segmentMarks_slash, segmentMarks_slash]
        exact .cons [] id ih
      · rw [segmentMarks_cons hc, segmentMarks_cons hc]
        exact Marks.spread_head ih id []
  | hole k n hn _ ih =>
      rename_i spots t _
      change Marks.Spread _ (segmentMarks (vals k ++ fillAll vals spots))
      rw [segmentMarks_braced hn]
      rcases segmentMarks_append (vals k) (fillAll vals spots) with ⟨c, more, happend⟩
      rw [happend]
      exact Marks.spread_head ih (fun hf => absurd hf Bool.false_ne_true) more

end Shown

/-! ## The narrower template -/

section Narrower

open Pattern (skeleton fillAll)

variable {row row' : UrlIndexCandidate} {path : Text}

theorem matches_iff : Matches row path ↔ (skeleton row.pathRegex.pieces).Matches path :=
  Pattern.fullmatch_iff_skeleton

theorem shows_of_built (h : Built row) (hplain : ∀ t ∈ tokens row.pathTemplate, '/' ∉ t) :
    Shows (skeleton row.pathRegex.pieces).spots row.pathTemplate ∧
      ∀ ex ∈ (skeleton row.pathRegex.pieces).excluded, '{' ∉ ex := by
  rcases h.regex with ⟨operationPath, hregex⟩
  rw [Pattern.compile_eq_some hregex]
  have htokens : ∀ t, .token t ∈ split row.pathTemplate → '/' ∉ t := fun t ht =>
    hplain t (List.mem_filterMap.mpr ⟨.token t, ht, rfl⟩)
  have hshows := shows_pathPieces (pathParamGroupNames (operationPath.toList ++ [row.pathTemplate]))
    (pathParamCatchAll (operationPath.toList ++ [row.pathTemplate])) htokens [] [] 0
    fun g hg => absurd hg List.not_mem_nil
  rw [split_join] at hshows
  exact hshows

/-- Without a placeholder, a row matches its template only. -/
theorem eq_of_matches (h : Built row) (htokens : tokens row.pathTemplate = [])
    (hm : Matches row path) : path = row.pathTemplate := by
  rcases h.regex with ⟨operationPath, hregex⟩
  rcases matches_iff.mp hm with ⟨vals, _, hfill⟩
  rw [Pattern.compile_eq_some hregex, buildPathPieces] at hfill
  rw [← hfill]
  have hall := fill_of_texts (pathParamGroupNames (operationPath.toList ++ [row.pathTemplate]))
    (pathParamCatchAll (operationPath.toList ++ [row.pathTemplate])) htokens [] [] 0 vals
  rw [split_join] at hall
  exact hall

/-- The marks of a template that matches all another one does are spread out over
    those of the other one. -/
theorem spread_of_included (h : Built row) (h' : Built row') (hordinary : Ordinary row.pathTemplate)
    (hordinary' : Ordinary row'.pathTemplate) (hincluded : ∀ p, Matches row p → Matches row' p) :
    Marks.Spread (marks row'.pathTemplate) (marks row.pathTemplate) := by
  rcases shows_of_built h hordinary.plain with ⟨hshows, hbrace⟩
  rcases shows_of_built h' hordinary'.plain with ⟨hshows', _⟩
  rcases marks_of_ordinary hordinary with ⟨rest, htemplate, hmarks⟩
  rcases marks_of_ordinary hordinary' with ⟨rest', htemplate', hmarks'⟩
  rw [hmarks, hmarks']
  rw [htemplate] at hshows
  rw [htemplate'] at hshows'
  -- The narrower template with a brace in the place of each placeholder.
  have hpath : Matches row (fillAll (fun _ => ['{']) (skeleton row.pathRegex.pieces).spots) := by
    refine matches_iff.mpr ⟨_, fun k ex hk => ?_, rfl⟩
    refine ⟨List.cons_ne_nil _ _, fun c hc => ?_⟩
    rw [List.mem_singleton.mp hc]
    exact hbrace ex (List.mem_of_getElem? hk)
  rcases matches_iff.mp (hincluded _ hpath) with ⟨vals, _, hfill⟩
  generalize (skeleton row.pathRegex.pieces).spots = spots at hshows hfill
  generalize (skeleton row'.pathRegex.pieces).spots = spots' at hshows' hfill
  cases hshows with
  | char _ hrest =>
      cases hshows' with
      | char _ hrest' =>
          rw [← segmentMarks_braces hrest]
          have hsame := (List.cons.inj hfill).2
          change fillAll vals _ = fillAll _ _ at hsame
          rw [← hsame]
          exact spread_fill hrest' vals

theorem rankedMatch_of_agrees {lib : Stdlib} {host : Text} (hm : Matches row path)
    (h : Agrees lib path host row) :
    ∃ m, rankedMatch lib path host row = some m ∧ m.candidate = row ∧
      m.specificityKey = specificityKey row ∧ m.revisionId = row.revisionId := by
  rcases Option.isSome_iff_exists.mp hm with ⟨groups, hgroups⟩
  rcases Option.isSome_iff_exists.mp (h groups hgroups) with ⟨resolved, hresolved⟩
  refine ⟨⟨row.operationId, row.revisionId, resolved.pathParams, specificityKey row,
    resolved.values, resolved.defaults, row⟩, ?_, rfl, rfl, rfl⟩
  unfold rankedMatch
  rw [hgroups, Option.bind_eq_bind, Option.bind_some, hresolved]
  rfl

theorem rankedMatch_of_not_agrees {lib : Stdlib} {host : Text} (h : ¬ Agrees lib path host row) :
    rankedMatch lib path host row = none := by
  unfold Agrees at h
  simp only [not_forall] at h
  rcases h with ⟨groups, hgroups, hnone⟩
  unfold rankedMatch
  rw [hgroups, Option.bind_eq_bind, Option.bind_some, Option.not_isSome_iff_eq_none.mp hnone]
  rfl

theorem candidate_of_rankedMatch {lib : Stdlib} {host : Text} {m : RankedMatch}
    (h : rankedMatch lib path host row = some m) : m.candidate = row := by
  rcases Option.bind_eq_some_iff.mp h with ⟨groups, _, h⟩
  rcases Option.bind_eq_some_iff.mp h with ⟨resolved, _, h⟩
  rw [← Option.some.inj h]

theorem rankedMatch_of_not_matches {lib : Stdlib} {host : Text} (h : ¬ Matches row path) :
    rankedMatch lib path host row = none := by
  unfold Matches at h
  unfold rankedMatch
  rw [Option.not_isSome_iff_eq_none.mp h]
  rfl

/-- The counts and places of the code, by the marks. -/
theorem key_marks (row : UrlIndexCandidate) :
    (specificityKey row).negLiteralCount = -((marks row.pathTemplate).count true : Int) ∧
      (specificityKey row).firstLiteralPos = Marks.first (marks row.pathTemplate) ∧
      (specificityKey row).negLastLiteralPos = -Marks.last (marks row.pathTemplate) := by
  have hid : id ∘ isLiteral = isLiteral := rfl
  unfold specificityKey marks Marks.first Marks.last literalCount firstLiteralPos lastLiteralPos
  refine ⟨?_, ?_, ?_⟩
  · have hcount : (fun x => x == true) ∘ isLiteral = isLiteral := by
      funext part
      exact beq_true _
    rw [List.count, List.countP_map, hcount]
  · rw [List.findIdx_map, hid]
  · rw [← List.map_reverse, List.findIdx_map, hid, List.length_map]

/-- The key of a template is before that of a wider one if and only if the template
    is sharper. -/
theorem before_iff_sharper (h : Built row) (h' : Built row') (hwide : tokens row'.pathTemplate ≠ [])
    (hincluded : ∀ p, Matches row p → Matches row' p) :
    (specificityKey row).Before (specificityKey row') ↔
      Sharper row.pathTemplate row'.pathTemplate := by
  have hparam : ∀ {r : UrlIndexCandidate}, Built r →
      ((specificityKey r).isParameterized = false ↔ tokens r.pathTemplate = []) := by
    intro r hr
    change decide (r.paramNames ≠ []) = false ↔ _
    rw [decide_eq_false_iff_not, not_not, hr.names, extractParamNames, List.map_eq_nil_iff]
  have hwide' : (specificityKey row').isParameterized = true := by
    rw [← Bool.not_eq_false, hparam h']
    exact hwide
  rcases key_marks row with ⟨hcount, hfirst, hlast⟩
  rcases key_marks row' with ⟨hcount', hfirst', hlast'⟩
  unfold SpecificityKey.Before Sharper
  rw [hwide', hcount, hfirst, hlast, hcount', hfirst', hlast', hparam h]
  by_cases hnone : tokens row.pathTemplate = []
  · exact iff_of_true (Or.inl ⟨hnone, rfl⟩) (Or.inl hnone)
  · have htrue : (specificityKey row).isParameterized = true := by
      rw [← Bool.not_eq_false, hparam h]
      exact hnone
    have hforward : Ordinary row.pathTemplate ∧ Ordinary row'.pathTemplate →
        (marks row.pathTemplate).count true = (marks row'.pathTemplate).count true →
          Marks.first (marks row'.pathTemplate) ≤ Marks.first (marks row.pathTemplate) :=
      fun hordinary hsame => Marks.first_le_of_spread
        (spread_of_included h h' hordinary.1 hordinary.2 hincluded) hsame.symm
    rw [htrue]
    constructor
    · rintro (⟨hc, _⟩ | ⟨_, hmore | ⟨hsame, hrest⟩⟩)
      · exact absurd hc hnone
      · exact Or.inr (Or.inl (by omega))
      · have hsame' : (marks row.pathTemplate).count true =
            (marks row'.pathTemplate).count true := by omega
        refine Or.inr (Or.inr ⟨hsame', ?_⟩)
        rcases hrest with hfront | ⟨hplace, hback⟩
        · refine Or.inr ⟨fun hordinary => ?_, hfront⟩
          have hle := hforward hordinary hsame'
          omega
        · exact Or.inl ⟨hplace, by omega⟩
    · rintro (hc | hmore | ⟨hsame, hrest⟩)
      · exact absurd hc hnone
      · exact Or.inr ⟨rfl, Or.inl (by omega)⟩
      · refine Or.inr ⟨rfl, Or.inr ⟨by omega, ?_⟩⟩
        rcases hrest with ⟨hplace, hback⟩ | ⟨_, hfront⟩
        · exact Or.inr ⟨hplace, by omega⟩
        · exact Or.inl hfront

/-- Of two templates of a revision of which one matches every path the other one
    does, and more, the narrower one is taken for a path if and only if the request
    gives none of its server variables two values, and it is sharper, unless the
    request does so for the wider one. -/
theorem narrower_wins_iff (lib : Stdlib) {others candidates : List UrlIndexCandidate} {host : Text}
    (h : Built row) (h' : Built row') (hrevision : row.revisionId = row'.revisionId)
    (hincluded : ∀ p, Matches row p → Matches row' p)
    (hwider : ∃ p, Matches row' p ∧ ¬ Matches row p)
    (hpath : Matches row path) (hothers : ∀ c ∈ others, ¬ Matches c path)
    (hcandidates : candidates.Perm (row :: row' :: others)) :
    (∃ m, matchAndRank lib candidates path host = .ok (some m) ∧ m.candidate = row) ↔
      Agrees lib path host row ∧
        (¬ Agrees lib path host row' ∨ Sharper row.pathTemplate row'.pathTemplate) := by
  rcases hwider with ⟨p, hp', hp⟩
  have hpath' := hincluded path hpath
  have hne : row' ≠ row := fun hc => hp (hc ▸ hp')
  have hwide : tokens row'.pathTemplate ≠ [] := by
    intro hc
    -- The wider template would match one path, which the narrower one matches.
    rw [eq_of_matches h' hc hpath', ← eq_of_matches h' hc hp'] at hpath
    exact hp hpath
  have hfound := hcandidates.filterMap (rankedMatch lib path host)
  have hnone : others.filterMap (rankedMatch lib path host) = [] := by
    rw [List.filterMap_eq_nil_iff]
    exact fun c hc => rankedMatch_of_not_matches (hothers c hc)
  by_cases hagrees : Agrees lib path host row
  · rcases rankedMatch_of_agrees hpath hagrees with ⟨m, hm, hcandidate, hkey, hrev⟩
    rw [List.filterMap_cons_some hm] at hfound
    by_cases hagrees' : Agrees lib path host row'
    · rcases rankedMatch_of_agrees hpath' hagrees' with ⟨m', hm', hcandidate', hkey', hrev'⟩
      rw [List.filterMap_cons_some hm', hnone] at hfound
      have hdiffer : m ≠ m' := by
        intro hc
        rw [hc, hcandidate'] at hcandidate
        exact hne hcandidate
      have hpair := matchAndRank_pair hfound (hrev.trans (hrevision.trans hrev'.symm)) hdiffer
      rw [hkey, hkey', before_iff_sharper h h' hwide hincluded] at hpair
      rw [← hpair]
      constructor
      · rintro ⟨m'', hresult, hm''⟩
        refine ⟨hagrees, Or.inr ?_⟩
        rcases List.mem_cons.mp (hfound.subset (matchAndRank_mem hresult)) with rfl | hin
        · exact hresult
        · rw [List.mem_singleton.mp hin, hcandidate'] at hm''
          exact absurd hm'' hne
      · rintro ⟨_, hnot | hresult⟩
        · exact absurd hagrees' hnot
        · exact ⟨m, hresult, hcandidate⟩
    · rw [List.filterMap_cons_none (rankedMatch_of_not_agrees hagrees'), hnone] at hfound
      refine iff_of_true ⟨m, ?_, hcandidate⟩ ⟨hagrees, Or.inl hagrees'⟩
      exact matchAndRank_single (List.perm_singleton.mp hfound)
  · refine iff_of_false ?_ fun hc => hagrees hc.1
    rintro ⟨m, hresult, hm⟩
    rw [List.filterMap_cons_none (rankedMatch_of_not_agrees hagrees)] at hfound
    rcases List.mem_filterMap.mp (hfound.subset (matchAndRank_mem hresult)) with ⟨c, hc, hranked⟩
    rw [candidate_of_rankedMatch hranked] at hm
    rw [hm] at hc
    rcases List.mem_cons.mp hc with heq | hc
    · exact hne heq.symm
    · exact hothers row hc hpath

/-- A more general regular expression matches more. -/
theorem included_of_general
    (h : (skeleton row'.pathRegex.pieces).General (skeleton row.pathRegex.pieces)) :
    ∀ p, Matches row p → Matches row' p :=
  fun _ hp => matches_iff.mpr (Pattern.Skeleton.matches_of_general h (matches_iff.mp hp))

end Narrower

/-! ## Files -/

/-- The row of a path template of an operation. -/
def rowOf (operationId template : Text)
    (h : Pattern.compiles [] (buildPathPieces template none) = true) : UrlIndexCandidate where
  operationId
  revisionId := 1
  hostRegex := none
  pathTemplate := template
  pathRegex := ⟨buildPathPieces template none, h⟩
  paramNames := extractParamNames template

theorem built_rowOf (operationId template : Text)
    (h : Pattern.compiles [] (buildPathPieces template none) = true) :
    Built (rowOf operationId template h) :=
  ⟨⟨none, dif_pos h⟩, rfl⟩

def file : UrlIndexCandidate :=
  rowOf "file".toList "/files/{name}".toList (by decide +kernel)

def cancelFile : UrlIndexCandidate :=
  rowOf "cancelFile".toList "/files/{name}:cancel".toList (by decide +kernel)

def child : UrlIndexCandidate :=
  rowOf "child".toList "/files/{name}/{child}".toList (by decide +kernel)

def versions : UrlIndexCandidate :=
  rowOf "versions".toList "/files/{name}/versions".toList (by decide +kernel)

/-- A literal segment in the place of a placeholder wins. -/
theorem versions_wins :
    ∃ m, matchAndRank .ascii [child, versions] "/files/a/versions".toList [] = .ok (some m) ∧
      m.candidate = versions := by
  have hgeneral : (Pattern.skeleton child.pathRegex.pieces).General
      (Pattern.skeleton versions.pathRegex.pieces) := by
    have hchild : (Pattern.skeleton child.pathRegex.pieces).excluded = [['/'], ['/']] := by
      decide +kernel
    have hversions : (Pattern.skeleton versions.pathRegex.pieces).excluded = [['/']] := by
      decide +kernel
    have htext : '/' ∉ "versions".toList := by decide +kernel
    refine ⟨fun k => if k = 0 then [.hole 0] else "versions".toList.map .char, by decide +kernel,
      fun k ex hk => ?_⟩
    rw [hchild] at hk
    rcases k with _ | _ | k
    · refine ⟨List.cons_ne_nil _ _, fun spot hspot => ?_⟩
      dsimp only at hspot
      rw [if_pos rfl, List.mem_singleton] at hspot
      rw [hspot]
      exact ⟨['/'], by rw [hversions]; rfl, (Option.some.inj hk).symm ▸ List.Subset.refl _⟩
    · refine ⟨by decide +kernel, fun spot hspot => ?_⟩
      dsimp only at hspot
      rw [if_neg Nat.one_ne_zero] at hspot
      rcases List.mem_map.mp hspot with ⟨c, hc, rfl⟩
      rw [← Option.some.inj hk]
      exact fun hslash => htext (List.mem_singleton.mp hslash ▸ hc)
    · exact absurd hk (by simp)
  have hagrees : Agrees .ascii "/files/a/versions".toList [] versions := by
    intro groups hgroups
    have hmatch : versions.pathRegex.fullmatch (· == ·) "/files/a/versions".toList =
        some [("name".toList, ['a'])] := by decide +kernel
    rw [hmatch, Option.some.injEq] at hgroups
    rw [← hgroups]
    decide +kernel
  have hsharper : Sharper versions.pathTemplate child.pathTemplate :=
    Or.inr (Or.inl (by decide +kernel))
  exact (@narrower_wins_iff versions child "/files/a/versions".toList .ascii [] [child, versions] []
    (built_rowOf _ _ _) (built_rowOf _ _ _) rfl (included_of_general hgeneral)
    ⟨"/files/a/b".toList, by decide +kernel, by decide +kernel⟩ (by decide +kernel)
    (fun c hc => absurd hc List.not_mem_nil) (List.Perm.swap versions child [])).mpr
      ⟨hagrees, Or.inr hsharper⟩

/-- A text after the placeholder does not count. -/
theorem suffix_ambiguous :
    ¬ ∀ (lib : Stdlib) (row row' : UrlIndexCandidate) (candidates : List UrlIndexCandidate)
        (path host : Text), Built row → Built row' → row.revisionId = row'.revisionId →
      (∀ p, Matches row p → Matches row' p) → (∃ p, Matches row' p ∧ ¬ Matches row p) →
      Matches row path → candidates.Perm [row, row'] →
      ∃ m, matchAndRank lib candidates path host = .ok (some m) ∧ m.candidate = row := by
  intro hclaim
  have hgeneral : (Pattern.skeleton file.pathRegex.pieces).General
      (Pattern.skeleton cancelFile.pathRegex.pieces) := by
    have hfile : (Pattern.skeleton file.pathRegex.pieces).excluded = [['/']] := by decide +kernel
    have hcancel : (Pattern.skeleton cancelFile.pathRegex.pieces).excluded = [['/']] := by
      decide +kernel
    have htext : '/' ∉ ":cancel".toList := by decide +kernel
    refine ⟨fun _ => .hole 0 :: ":cancel".toList.map .char, by decide +kernel, fun k ex hk => ?_⟩
    rw [hfile] at hk
    rcases k with _ | k
    · refine ⟨List.cons_ne_nil _ _, fun spot hspot => ?_⟩
      rcases List.mem_cons.mp hspot with rfl | hspot
      · exact ⟨['/'], by rw [hcancel]; rfl, (Option.some.inj hk).symm ▸ List.Subset.refl _⟩
      · rcases List.mem_map.mp hspot with ⟨c, hc, rfl⟩
        rw [← Option.some.inj hk]
        exact fun hslash => htext (List.mem_singleton.mp hslash ▸ hc)
    · exact absurd hk (by simp)
  rcases hclaim .ascii cancelFile file [cancelFile, file] "/files/a:cancel".toList []
    (built_rowOf _ _ _) (built_rowOf _ _ _) rfl (included_of_general hgeneral)
    ⟨"/files/a".toList, by decide +kernel, by decide +kernel⟩ (by decide +kernel)
    (List.Perm.refl _) with ⟨m, hresult, _⟩
  have herror : (matchAndRank .ascii [cancelFile, file] "/files/a:cancel".toList []).isOk =
      false := by decide +kernel
  rw [hresult] at herror
  exact Bool.false_ne_true herror.symm

end Ranking

end Registry

end JenticOne
