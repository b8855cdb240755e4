import JenticOne.Library.WildcardSegments
import JenticOne.Permissions.Evaluation
import JenticOne.Registry.Template

/-!
# Rules That Can Apply to a Template

Whether a rule's path can match a request of an operation, as it is decided before a
rule is rewritten. In exact mode the path is matched, as it stands, against the
regular expression of the operation's template. In prefix mode the two are walked
segment by segment: a template segment that is one placeholder takes every segment
of the rule, another one only itself, or its beginnings where the rule ends.

What a rule really matches is decided by the texts that its pattern and the
template's have in common, and these are found segment by segment too, so that both
sides can be compared place by place. The decision is right when the comparison is
right at every place, and otherwise only where its errors are without an effect.

## Main definitions

* `pathAppliesToTemplate`: The decision.
* `Instance`, `Accepts`: The requests of a template, and those a rule matches.
* `Passes`, `Meets`: A place as the decision has it, and as the patterns have it.
* `Agrees`: The errors at the places have no effect.

## Theorems

* `pathAppliesToTemplate_iff`: The decision, by places.
* `exists_accepted_iff`: The requests in common, by places.
* `meets_of_passes`: Where a place of a rule in prefix mode passes wrongly.
* `accepted_of_exact`: A path accepted in exact mode is a request in common.
* `applies_iff_accepted_iff`: The decision is right just where the places agree.
-/

namespace JenticOne

namespace Permissions

namespace TemplateCheck

open Wildcard

/-! ## The decision -/

/-- `normalize_template`. -/
def normalizeTemplate (template : Text) : Text :=
  if template.rstrip '/' = [] then ['/'] else template.rstrip '/'

/-- The source of `_template_regex`. -/
def templateRegex (template : Text) : Text :=
  (Registry.split (normalizeTemplate template)).flatMap fun
    | .text p => escape id escaped p
    | .token _ => wildcard id

/-- `_PLACEHOLDER_SEGMENT_RE`, whose `$` is also before a line break at the end. -/
def placeholderSegment (seg : Text) : Bool :=
  seg.head? = some '{' && seg.tail.takeWhile (· ≠ '}') ≠ [] &&
    seg.tail.dropWhile (· ≠ '}') ∈ [['}'], ['}', '\n']]

/-- The loop of `_prefix_can_apply` from the segment of the rule at an index on. -/
def prefixLoop (pParts tParts : List Text) : Nat → List Text → Bool
  | _, [] => true
  | i, pSeg :: rest =>
      if placeholderSegment (tParts.getD i []) then prefixLoop pParts tParts (i + 1) rest
      else if i = pParts.length - 1 then
        if !pSeg.isPrefixOf (tParts.getD i []) then false
        else prefixLoop pParts tParts (i + 1) rest
      else if tParts.getD i [] ≠ pSeg then false
      else prefixLoop pParts tParts (i + 1) rest

/-- `_prefix_can_apply`. -/
def prefixCanApply (path template : Text) : Bool :=
  if (path.splitOn '/').length > ((normalizeTemplate template).splitOn '/').length then false
  else prefixLoop (path.splitOn '/') ((normalizeTemplate template).splitOn '/') 0
    (path.splitOn '/')

/-- `path_applies_to_template`. -/
def pathAppliesToTemplate (path : Text) (mode : MatchMode) (template : Text) :
    Except Text Bool :=
  match mode with
  | .exactMode =>
      .ok ((readFrom id 0 (templateRegex template)).any fun ts => fullmatch '/' ts path)
  | .prefixMode => .ok (prefixCanApply path template)
  | .regexMode => .error "unsupported match mode for template check: 'regex'".toList

/-! ## Requests -/

/-- The pattern of a part of a template. -/
def partTokens : Registry.Part → List (Token Char)
  | .text p => p.map .lit
  | .token _ => [.segment]

/-- The pattern of a template. -/
def templateTokens (template : Text) : List (Token Char) :=
  (Registry.split template).flatMap partTokens

/-- A request path of an operation: a part of a segment for each placeholder of its
    template without the slashes at the end. -/
def Instance (template requestPath : Text) : Prop :=
  Spells '/' (templateTokens (normalizeTemplate template)) requestPath

/-- A rule's path matches a request path. -/
def Accepts (engine : Engine Char) (path : Text) (mode : MatchMode) (requestPath : Text) : Prop :=
  (compileMatcher engine (some path) mode).any (fun m => m.matches engine requestPath) = true

/-- A path that is neither empty nor too long. -/
def ValidPath (path : Text) : Prop := path ≠ [] ∧ path.length ≤ maxPatternLength

/-! ## Places -/

/-- The places that the decision compares. -/
def places (mode : MatchMode) (path template : Text) : Nat :=
  if mode = .prefixMode then (path.splitOn '/').length
  else max (path.splitOn '/').length
    ((templateTokens (normalizeTemplate template)).splitOn (.lit '/')).length

/-- A segment of the rule passes before its last one. -/
def PassesInner (p t : Text) : Prop := placeholderSegment t = true ∨ t = p

/-- The last segment of the rule passes. -/
def PassesLast (p t : Text) : Prop := placeholderSegment t = true ∨ p <+: t

/-- The decision has nothing against the segments at a place. -/
def Passes (mode : MatchMode) (path template : Text) (i : Nat) : Prop :=
  if mode = .prefixMode then
    At (lastOr PassesInner PassesLast (path.splitOn '/').length i) (path.splitOn '/')
      ((normalizeTemplate template).splitOn '/') i
  else
    At (fun p ts => Spells '/' ts p) (path.splitOn '/')
      ((templateTokens (normalizeTemplate template)).splitOn (.lit '/')) i

/-- The segments at a place have a text in common, or, where a rule in prefix mode
    ends, one of the template's begins with one of the rule's. -/
def Meets (mode : MatchMode) (path template : Text) (i : Nat) : Prop :=
  if mode = .prefixMode then
    At (lastOr (fun p ts => Common '/' (Wildcard.template id p) ts)
      (fun p ts => Opens '/' (Wildcard.template id p) ts) (path.splitOn '/').length i)
      (path.splitOn '/') ((templateTokens (normalizeTemplate template)).splitOn (.lit '/')) i
  else
    At (fun p ts => Common '/' (Wildcard.template id p) ts) (path.splitOn '/')
      ((templateTokens (normalizeTemplate template)).splitOn (.lit '/')) i

/-- The errors at the places have no effect: a refused place has nothing in common, or
    a place is refused wrongly if and only if the path is invalid or a place passes
    wrongly. -/
def Agrees (mode : MatchMode) (path template : Text) : Prop :=
  (∃ i < places mode path template, ¬ Passes mode path template i ∧ ¬ Meets mode path template i) ∨
    ((∃ i < places mode path template,
        ¬ Passes mode path template i ∧ Meets mode path template i) ↔
      ¬ ValidPath path ∨ ∃ i < places mode path template,
        Passes mode path template i ∧ ¬ Meets mode path template i)

/-! ## The pattern of a template -/

/-- The source of a template is read as its pattern. -/
theorem read_templateRegex (template : Text) :
    readFrom id 0 (templateRegex template) =
      some (templateTokens (normalizeTemplate template)) := by
  unfold templateRegex templateTokens
  induction Registry.split (normalizeTemplate template) with
  | nil => rfl
  | cons p ps ih =>
      rw [List.flatMap_cons, List.flatMap_cons]
      cases p with
      | text s =>
          rw [readFrom_escape tells_id escaped_spec.1 escaped_spec.2.1 escaped_spec.2.2, ih]
          rfl
      | token _ =>
          rw [readFrom_wildcard, ih]
          rfl

/-- Only an opening brace begins a placeholder. -/
theorem segment_not_mem {path : Text} (h : '{' ∉ path) :
    .segment ∉ Wildcard.template id path := by
  induction path with
  | nil => exact List.not_mem_nil
  | cons c cs ih =>
      rw [List.mem_cons, not_or] at h
      cases hread : placeholder id (c :: cs) with
      | none =>
          rw [template_of_none hread, List.mem_cons, not_or]
          exact ⟨by simp only [reduceCtorEq, not_false_eq_true], ih h.2⟩
      | some y =>
          rcases placeholder_eq_some hread with ⟨name, _, _, _, heq⟩
          exact absurd (List.cons.inj heq).1.symm h.1

/-- A pattern without a placeholder is the path itself. -/
theorem template_eq_lits {path : Text} (h : .segment ∉ Wildcard.template id path) :
    Wildcard.template id path = path.map .lit := by
  induction path with
  | nil => rfl
  | cons c cs ih =>
      cases hread : placeholder id (c :: cs) with
      | none =>
          rw [template_of_none hread] at h ⊢
          rw [ih fun hc => h (List.mem_cons_of_mem _ hc), List.map_cons]
      | some y =>
          rcases placeholder_eq_some hread with ⟨name, hne, hslash, hbrace, heq⟩
          rw [heq, template_of_name hne hslash hbrace] at h
          exact absurd List.mem_cons_self h

/-- A path is a text of its own pattern. -/
theorem spells_template (path : Text) : Spells '/' (Wildcard.template id path) path := by
  induction hlen : path.length using Nat.strong_induction_on generalizing path with
  | _ n ih =>
      cases path with
      | nil => exact .nil
      | cons c cs =>
          rw [List.length_cons] at hlen
          cases hread : placeholder id (c :: cs) with
          | none =>
              rw [template_of_none hread]
              exact .lit (ih cs.length (by omega) cs rfl)
          | some y =>
              rcases placeholder_eq_some hread with ⟨name, hne, hslash, hbrace, heq⟩
              have hcs : cs = name ++ '}' :: y.2 := (List.cons.inj heq).2
              have hshort : y.2.length < n := by
                rw [hcs, List.length_append, List.length_cons] at hlen
                omega
              have hcons : '{' :: (name ++ '}' :: y.2) = '{' :: (name ++ ['}']) ++ y.2 := by
                rw [List.cons_append, List.append_assoc, List.singleton_append]
              rw [heq, template_of_name hne hslash hbrace, hcons]
              refine .segment (List.cons_ne_nil _ _) (fun a ha hc => ?_) (ih _ hshort y.2 rfl)
              rw [hc, List.mem_cons, List.mem_append] at ha
              exact absurd ha (not_or.mpr ⟨by decide, not_or.mpr ⟨hslash, by decide⟩⟩)

theorem spells_lits_iff {p t : Text} : Spells '/' (p.map .lit) t ↔ t = p := by
  constructor
  · intro h
    induction p generalizing t with
    | nil =>
        cases h
        rfl
    | cons c cs ih =>
        cases h with
        | lit h => rw [ih h]
  · intro h
    rw [h]
    clear h
    induction p with
    | nil => exact .nil
    | cons c cs ih => exact .lit ih

/-! ## What a rule accepts -/

theorem check_eq_none_iff {engine : Engine Char} {path : Text} {mode : MatchMode}
    (hmode : mode ≠ .regexMode) : check engine (some path) mode = none ↔ ValidPath path := by
  unfold check ValidPath
  rw [Option.bind_some, if_neg hmode]
  by_cases hlong : maxPatternLength < path.length
  · rw [if_pos hlong]
    exact ⟨fun h => absurd h (by simp only [reduceCtorEq, not_false_eq_true]),
      fun h => absurd hlong (Nat.not_lt.mpr h.2)⟩
  · rw [if_neg hlong]
    by_cases hempty : path = []
    · rw [if_pos hempty]
      exact ⟨fun h => absurd h (by simp only [reduceCtorEq, not_false_eq_true]),
        fun h => absurd hempty h.1⟩
    · rw [if_neg hempty]
      exact ⟨fun _ => ⟨hempty, Nat.not_lt.mp hlong⟩, fun _ => rfl⟩

/-- A rule accepts the texts of its pattern, in prefix mode with anything after them. -/
theorem accepts_iff {engine : Engine Char} {path requestPath : Text} {mode : MatchMode}
    (hmode : mode ≠ .regexMode) :
    Accepts engine path mode requestPath ↔
      ValidPath path ∧ ∃ t r, Spells '/' (Wildcard.template id path) t ∧ requestPath = t ++ r ∧
        (mode ≠ .prefixMode → r = []) := by
  by_cases hvalid : ValidPath path
  · unfold Accepts
    rw [matches_compileMatcher hmode ((check_eq_none_iff hmode).mpr hvalid)]
    by_cases hplace : hasPlaceholders path = true
    · rw [if_pos hplace]
      unfold templateMatches
      by_cases hp : mode = .prefixMode
      · rw [if_pos hp, startmatch_iff]
        constructor
        · rintro ⟨t, r, ht, hr⟩
          exact ⟨hvalid, t, r, ht, hr, fun hc => absurd hp hc⟩
        · rintro ⟨_, t, r, ht, hr, _⟩
          exact ⟨t, r, ht, hr⟩
      · rw [if_neg hp, fullmatch_iff]
        constructor
        · exact fun h => ⟨hvalid, requestPath, [], h, (List.append_nil _).symm, fun _ => rfl⟩
        · rintro ⟨_, t, r, ht, hr, hend⟩
          rw [hr, hend hp, List.append_nil]
          exact ht
    · have hlits : Wildcard.template id path = path.map .lit := by
        refine template_eq_lits fun hc => hplace ?_
        have hbrace : '{' ∈ path := by
          by_contra hnot
          exact segment_not_mem hnot hc
        unfold hasPlaceholders
        rw [Bool.and_eq_true, List.contains_iff_mem, List.contains_iff_mem]
        exact ⟨hbrace, hc⟩
      rw [if_neg hplace, hlits]
      simp only [spells_lits_iff]
      by_cases hp : mode = .prefixMode
      · rw [if_pos hp, List.isPrefixOf_iff_prefix]
        constructor
        · rintro ⟨r, hr⟩
          exact ⟨hvalid, path, r, rfl, hr.symm, fun hc => absurd hp hc⟩
        · rintro ⟨_, t, r, rfl, hr, _⟩
          exact ⟨r, hr.symm⟩
      · rw [if_neg hp, decide_eq_true_eq]
        constructor
        · exact fun h => ⟨hvalid, path, [], rfl, by rw [h, List.append_nil], fun _ => rfl⟩
        · rintro ⟨_, t, r, rfl, hr, hend⟩
          rw [hr, hend hp, List.append_nil]
  · have hcheck : (check engine (some path) mode).isSome = true := by
      rw [Option.isSome_iff_ne_none]
      exact fun hc => hvalid ((check_eq_none_iff hmode).mp hc)
    constructor
    · intro h
      unfold Accepts compileMatcher at h
      rw [Option.map_some, if_pos hcheck, Option.any_some] at h
      exact absurd h Bool.false_ne_true
    · exact fun h => absurd h.1 hvalid

/-! ## Both sides by places -/

/-- The loop passes if and only if every segment from the index on does. -/
theorem prefixLoop_iff {pParts tParts : List Text} (hfit : pParts.length ≤ tParts.length)
    {i : Nat} {rest : List Text} (hrest : rest = pParts.drop i) :
    prefixLoop pParts tParts i rest = true ↔
      ∀ j < pParts.length, i ≤ j →
        At (lastOr PassesInner PassesLast pParts.length j) pParts tParts j := by
  induction rest generalizing i with
  | nil =>
      have hend : pParts.length ≤ i := List.drop_eq_nil_iff.mp hrest.symm
      rw [prefixLoop]
      exact ⟨fun _ j hj hij => absurd hj (by omega), fun _ => rfl⟩
  | cons pSeg rest ih =>
      have hi : i < pParts.length := by
        by_contra hnot
        rw [List.drop_eq_nil_iff.mpr (by omega)] at hrest
        exact absurd hrest (List.cons_ne_nil _ _)
      have hdrop := List.drop_eq_getElem_cons hi
      rw [← hrest, List.cons.injEq] at hdrop
      have hnext := ih (i := i + 1) hdrop.2
      have hi' : i < tParts.length := by omega
      have hseg : tParts.getD i [] = tParts[i] := by
        rw [List.getD_eq_getElem?_getD, List.getElem?_eq_getElem hi', Option.getD_some]
      have hat (r : Text → Text → Prop) : At r pParts tParts i ↔ r pSeg tParts[i] := by
        unfold At
        rw [List.getElem?_eq_getElem hi, List.getElem?_eq_getElem hi', ← hdrop.1]
        simp only [Option.mem_def, Option.some.injEq, exists_eq_left']
      -- The segment passes, and every one after it.
      have hsplit : (∀ j < pParts.length, i ≤ j →
          At (lastOr PassesInner PassesLast pParts.length j) pParts tParts j) ↔
          lastOr PassesInner PassesLast pParts.length i pSeg tParts[i] ∧
            prefixLoop pParts tParts (i + 1) rest = true := by
        rw [hnext, ← hat (lastOr PassesInner PassesLast pParts.length i)]
        constructor
        · exact fun h => ⟨h i hi (Nat.le_refl i), fun j hj hij => h j hj (by omega)⟩
        · rintro ⟨hfirst, hmore⟩ j hj hij
          by_cases hji : j = i
          · rw [hji]
            exact hfirst
          · exact hmore j hj (by omega)
      rw [hsplit, prefixLoop, hseg]
      unfold lastOr PassesInner PassesLast
      by_cases hplace : placeholderSegment tParts[i] = true
      · rw [if_pos hplace]
        constructor
        · intro h
          refine ⟨?_, h⟩
          split <;> exact Or.inl hplace
        · exact fun h => h.2
      · rw [if_neg hplace]
        by_cases hlast : i = pParts.length - 1
        · rw [if_pos hlast, if_pos (by omega : i + 1 = pParts.length)]
          by_cases hopening : pSeg <+: tParts[i]
          · rw [List.isPrefixOf_iff_prefix.mpr hopening, Bool.not_true,
              if_neg Bool.false_ne_true]
            exact ⟨fun h => ⟨Or.inr hopening, h⟩, fun h => h.2⟩
          · have hnot : pSeg.isPrefixOf tParts[i] = false := by
              rw [Bool.eq_false_iff]
              exact fun hc => hopening (List.isPrefixOf_iff_prefix.mp hc)
            rw [hnot, Bool.not_false, if_pos rfl]
            exact ⟨fun h => absurd h Bool.false_ne_true,
              fun h => absurd h.1 (not_or.mpr ⟨hplace, hopening⟩)⟩
        · rw [if_neg hlast, if_neg (by omega : ¬ i + 1 = pParts.length)]
          by_cases hsame : tParts[i] = pSeg
          · rw [if_neg (not_not.mpr hsame)]
            exact ⟨fun h => ⟨Or.inr hsame, h⟩, fun h => h.2⟩
          · rw [if_pos hsame]
            exact ⟨fun h => absurd h Bool.false_ne_true,
              fun h => absurd h.1 (not_or.mpr ⟨hplace, hsame⟩)⟩

theorem prefixCanApply_iff {path template : Text} :
    prefixCanApply path template = true ↔
      ∀ i < places .prefixMode path template, Passes .prefixMode path template i := by
  unfold prefixCanApply places Passes
  rw [if_pos rfl]
  simp only [if_true]
  generalize path.splitOn '/' = pParts
  generalize (normalizeTemplate template).splitOn '/' = tParts
  by_cases hlong : pParts.length > tParts.length
  · rw [if_pos hlong]
    constructor
    · exact fun h => absurd h Bool.false_ne_true
    · intro h
      -- The template has no segment at the place of its length.
      rcases h tParts.length hlong with ⟨_, _, t, ht, _⟩
      rw [Option.mem_def, List.getElem?_eq_none (Nat.le_refl _)] at ht
      exact absurd ht (by simp only [reduceCtorEq, not_false_eq_true])
  · rw [if_neg hlong, prefixLoop_iff (Nat.not_lt.mp hlong) List.drop_zero.symm]
    exact ⟨fun h j hj => h j hj (Nat.zero_le j), fun h j hj _ => h j hj⟩

/-- A path applies to a template if and only if every place passes. -/
theorem pathAppliesToTemplate_iff {path template : Text} {mode : MatchMode}
    (hmode : mode ≠ .regexMode) :
    pathAppliesToTemplate path mode template = .ok true ↔
      ∀ i < places mode path template, Passes mode path template i := by
  cases mode with
  | regexMode => exact absurd rfl hmode
  | prefixMode =>
      rw [← prefixCanApply_iff]
      exact ⟨fun h => Except.ok.inj h, fun h => congrArg Except.ok h⟩
  | exactMode =>
      have hexact : ¬ MatchMode.exactMode = .prefixMode := by decide
      unfold pathAppliesToTemplate places Passes
      simp only [if_neg hexact]
      rw [read_templateRegex, Option.any_some, Except.ok.injEq, fullmatch_iff,
        spells_iff_segments, ← forall₂_iff_at]
      exact ⟨List.Forall₂.flip, List.Forall₂.flip⟩

/-- The segments of a rule's pattern are the patterns of its segments. -/
theorem forall₂_template {path : Text} {r : List (Token Char) → List (Token Char) → Prop}
    {bs : List (List (Token Char))} :
    List.Forall₂ r ((Wildcard.template id path).splitOn (.lit '/')) bs ↔
      List.Forall₂ (fun p ts => r (Wildcard.template id p) ts) (path.splitOn '/') bs := by
  rw [template_segments, List.forall₂_map_left_iff]

/-- There is a request of the template that the rule accepts if and only if the rule's
    path is valid and the segments meet at every place. -/
theorem exists_accepted_iff {engine : Engine Char} {path template : Text} {mode : MatchMode}
    (hmode : mode ≠ .regexMode) :
    (∃ requestPath, Instance template requestPath ∧ Accepts engine path mode requestPath) ↔
      ValidPath path ∧ ∀ i < places mode path template, Meets mode path template i := by
  have hslash : 'a' ≠ '/' := by decide
  by_cases hp : mode = .prefixMode
  · unfold Meets places
    simp only [if_pos hp]
    have hopens : Opens '/' (Wildcard.template id path)
        (templateTokens (normalizeTemplate template)) ↔ _ := opens_iff hslash
    rw [template_segments, along_iff_at, List.length_map] at hopens
    simp only [at_map_left, lastOr_comp] at hopens
    rw [← hopens]
    constructor
    · rintro ⟨requestPath, hinstance, haccepts⟩
      rcases (accepts_iff hmode).mp haccepts with ⟨hvalid, t, r, ht, hr, _⟩
      exact ⟨hvalid, t, r, ht, hr ▸ hinstance⟩
    · rintro ⟨hvalid, t, r, ht, hinstance⟩
      exact ⟨t ++ r, hinstance, (accepts_iff hmode).mpr
        ⟨hvalid, t, r, ht, rfl, fun hc => absurd hp hc⟩⟩
  · unfold Meets places
    simp only [if_neg hp]
    rw [← forall₂_iff_at, ← forall₂_template, ← common_iff]
    constructor
    · rintro ⟨requestPath, hinstance, haccepts⟩
      rcases (accepts_iff hmode).mp haccepts with ⟨hvalid, t, r, ht, hr, hend⟩
      rw [hend hp, List.append_nil] at hr
      exact ⟨hvalid, t, ht, hr ▸ hinstance⟩
    · rintro ⟨hvalid, t, ht, hinstance⟩
      exact ⟨t, hinstance, (accepts_iff hmode).mpr
        ⟨hvalid, t, [], ht, (List.append_nil t).symm, fun _ => rfl⟩⟩

/-- A path that applies in exact mode is itself a request of the template that the rule
    accepts. -/
theorem accepted_of_exact {engine : Engine Char} {path template : Text}
    (hvalid : ValidPath path)
    (happlies : pathAppliesToTemplate path .exactMode template = .ok true) :
    Instance template path ∧ Accepts engine path .exactMode path := by
  have hmatch := Except.ok.inj happlies
  rw [read_templateRegex, Option.any_some, fullmatch_iff] at hmatch
  have hmode : MatchMode.exactMode ≠ .regexMode := by decide
  exact ⟨hmatch, (accepts_iff hmode).mpr
    ⟨hvalid, path, [], spells_template path, (List.append_nil _).symm, fun _ => rfl⟩⟩

/-- Where no placeholder has a slash in it, the placeholders of a template are those of
    a rule's path. -/
theorem templateTokens_eq {template : Text} (hplain : ∀ t ∈ Registry.tokens template, '/' ∉ t) :
    templateTokens template = Wildcard.template id template := by
  suffices hfrom : ∀ n (s acc : Text), s.length = n →
      (∀ t ∈ (Registry.splitFrom false acc s).filterMap Registry.Part.token?, '/' ∉ t) →
      (Registry.splitFrom false acc s).flatMap partTokens =
        acc.reverse.map .lit ++ Wildcard.template id s from
    hfrom _ template [] rfl hplain
  intro n
  induction n using Nat.strong_induction_on with
  | _ n ih =>
      intro s acc hlen hplain
      cases s with
      | nil => rfl
      | cons c cs =>
          rw [List.length_cons] at hlen
          rw [Registry.splitFrom] at hplain ⊢
          by_cases hopen : (decide (c = '{') && Registry.opens cs) = true
          · rw [if_pos hopen] at hplain ⊢
            rw [Bool.and_eq_true, decide_eq_true_eq, Registry.opens_iff] at hopen
            rcases hopen with ⟨hc, name, rest, hcs, hne, hbrace⟩
            have hshort : rest.length < n := by
              rw [hcs, List.length_append, List.length_cons] at hlen
              omega
            rw [hcs, Registry.splitFrom_name hbrace] at hplain ⊢
            rw [List.reverse_nil, List.nil_append] at hplain ⊢
            have hslash : '/' ∉ name := hplain name List.mem_cons_self
            have hmore : ∀ t ∈ (Registry.splitFrom false [] rest).filterMap
                Registry.Part.token?, '/' ∉ t :=
              fun t ht => hplain t (List.mem_cons_of_mem name ht)
            rw [List.flatMap_cons, List.flatMap_cons, ih rest.length hshort rest [] rfl hmore, hc,
              template_of_name hne hslash hbrace]
            rfl
          · rw [if_neg hopen] at hplain ⊢
            have hnone : placeholder id (c :: cs) = none := by
              cases hread : placeholder id (c :: cs) with
              | none => rfl
              | some y =>
                  rcases placeholder_eq_some hread with ⟨name, hne, _, hbrace, heq⟩
                  rcases List.cons.inj heq with ⟨hc, hcs⟩
                  refine absurd ?_ hopen
                  rw [Bool.and_eq_true, decide_eq_true_eq, Registry.opens, Bool.and_eq_true,
                    decide_eq_true_eq, List.contains_iff_mem, hcs]
                  refine ⟨hc, fun hhead => ?_, List.mem_append_right _ List.mem_cons_self⟩
                  cases name with
                  | nil => exact hne rfl
                  | cons b name =>
                      rw [List.cons_append, List.head?_cons, Option.some.injEq] at hhead
                      exact hbrace (hhead ▸ List.mem_cons_self)
            rw [ih cs.length (by omega) cs (c :: acc) rfl hplain, template_of_none hnone,
              List.reverse_cons, List.map_append, List.append_assoc]
            rfl

/-- A segment that is one placeholder stands for any segment. -/
theorem template_placeholderSegment {t : Text} (h : placeholderSegment t = true)
    (hslash : '/' ∉ t) (hline : '\n' ∉ t) : Wildcard.template id t = [.segment] := by
  cases t with
  | nil => exact absurd h (by decide)
  | cons c cs =>
      unfold placeholderSegment at h
      rw [Bool.and_eq_true, Bool.and_eq_true, decide_eq_true_eq, decide_eq_true_eq,
        decide_eq_true_eq, List.head?_cons, List.tail_cons, Option.some.injEq] at h
      rcases h with ⟨⟨hc, hname⟩, hend⟩
      have hsplit := List.takeWhile_append_dropWhile (p := fun a => decide (a ≠ '}')) (l := cs)
      have hbrace : '}' ∉ cs.takeWhile fun a => decide (a ≠ '}') := by
        intro hmem
        have := List.mem_takeWhile_imp hmem
        exact absurd this (by decide)
      rw [List.mem_cons, not_or] at hslash hline
      have hslash' : '/' ∉ cs.takeWhile fun a => decide (a ≠ '}') :=
        fun hmem => hslash.2 (List.takeWhile_subset _ hmem)
      have hclosed : cs.dropWhile (fun a => decide (a ≠ '}')) = ['}'] := by
        rw [List.mem_cons, List.mem_singleton] at hend
        refine hend.resolve_right fun hbreak => hline.2 ?_
        rw [← hsplit, hbreak]
        exact List.mem_append_right _ (by decide)
      rw [hclosed] at hsplit
      rw [← hsplit, hc, template_of_name hname hslash' hbrace]
      rfl

/-- Where the placeholders of the template have no slash and no line break in them, a
    place passes wrongly only for an empty segment before the end of the rule. -/
theorem meets_of_passes {path template : Text} {i : Nat}
    (hplain : ∀ t ∈ Registry.tokens (normalizeTemplate template), '/' ∉ t)
    (hline : '\n' ∉ normalizeTemplate template)
    (hne : (path.splitOn '/')[i]? = some [] → i + 1 = (path.splitOn '/').length)
    (hpasses : Passes .prefixMode path template i) : Meets .prefixMode path template i := by
  unfold Passes at hpasses
  unfold Meets
  rw [if_pos rfl] at hpasses ⊢
  rw [templateTokens_eq hplain, template_segments]
  rcases hpasses with ⟨p, hp, t, ht, hpt⟩
  have hsegment : Wildcard.template id t ∈
      (((normalizeTemplate template).splitOn '/').map (Wildcard.template id))[i]? := by
    rw [List.getElem?_map]
    exact Option.mem_map_of_mem _ ht
  refine ⟨p, hp, Wildcard.template id t, hsegment, ?_⟩
  have hpfree : '/' ∉ p := Segments.not_mem_of_mem_splitOn (List.mem_of_getElem? hp)
  have htmem : t ∈ (normalizeTemplate template).splitOn '/' := List.mem_of_getElem? ht
  have htline : '\n' ∉ t := fun hmem =>
    (Segments.forall_splitOn (P := fun c => c ≠ '\n')).mpr
      (fun c hc _ he => hline (he ▸ hc)) t htmem _ hmem rfl
  have hany : placeholderSegment t = true → ∀ w : Text, w ≠ [] → '/' ∉ w →
      Spells '/' (Wildcard.template id t) w := by
    intro hplace w hw hslash
    rw [template_placeholderSegment hplace (Segments.not_mem_of_mem_splitOn htmem) htline,
      ← List.append_nil w]
    exact .segment hw (fun a ha hc => hslash (hc ▸ ha)) .nil
  unfold lastOr at hpt ⊢
  by_cases hlast : i + 1 = (path.splitOn '/').length
  · rw [if_pos hlast] at hpt ⊢
    rcases hpt with hplace | ⟨r, hr⟩
    · by_cases hempty : p = []
      · refine ⟨[], ['a'], ?_, hany hplace ['a'] (List.cons_ne_nil _ _) (by decide)⟩
        rw [hempty]
        exact .nil
      · refine ⟨p, [], spells_template p, ?_⟩
        rw [List.append_nil]
        exact hany hplace p hempty hpfree
    · exact ⟨p, r, spells_template p, hr ▸ spells_template t⟩
  · rw [if_neg hlast] at hpt ⊢
    rcases hpt with hplace | hsame
    · refine ⟨p, spells_template p, hany hplace p (fun hempty => hlast (hne ?_)) hpfree⟩
      rw [← hempty]
      exact hp
    · exact ⟨p, spells_template p, hsame ▸ spells_template t⟩

/-! ## Where the decision is right -/

/-- The decision is right just where the places agree. -/
theorem applies_iff_accepted_iff (engine : Engine Char) (path template : Text) (mode : MatchMode)
    (hmode : mode ≠ .regexMode) :
    (pathAppliesToTemplate path mode template = .ok true ↔
      ∃ requestPath, Instance template requestPath ∧ Accepts engine path mode requestPath) ↔
      Agrees mode path template := by
  rw [pathAppliesToTemplate_iff hmode, exists_accepted_iff hmode]
  unfold Agrees
  generalize places mode path template = n
  generalize Passes mode path template = passes
  generalize Meets mode path template = meets
  by_cases hneither : ∃ i < n, ¬ passes i ∧ ¬ meets i
  · -- Neither side has anything.
    rcases hneither with ⟨i, hi, hpass, hmeet⟩
    exact ⟨fun _ => Or.inl ⟨i, hi, hpass, hmeet⟩,
      fun _ => ⟨fun h => absurd (h i hi) hpass, fun h => absurd (h.2 i hi) hmeet⟩⟩
  · have hrefused : (∃ i < n, ¬ passes i ∧ meets i) ↔ ¬ ∀ i < n, passes i := by
      constructor
      · rintro ⟨i, hi, hpass, _⟩ h
        exact hpass (h i hi)
      · intro h
        push Not at h
        rcases h with ⟨i, hi, hpass⟩
        exact ⟨i, hi, hpass, by_contra fun hmeet => hneither ⟨i, hi, hpass, hmeet⟩⟩
    have hpassed : (∃ i < n, passes i ∧ ¬ meets i) ↔ ¬ ∀ i < n, meets i := by
      constructor
      · rintro ⟨i, hi, _, hmeet⟩ h
        exact hmeet (h i hi)
      · intro h
        push Not at h
        rcases h with ⟨i, hi, hmeet⟩
        exact ⟨i, hi, by_contra fun hpass => hneither ⟨i, hi, hpass, hmeet⟩, hmeet⟩
    rw [hrefused, hpassed, or_iff_right hneither, ← not_and_or, not_iff_not]

/-- A rule for some files, by the beginning of their names. -/
def filesPath : Text := "/files/a".toList

/-- An operation whose template has a placeholder for a part of a segment. -/
def filesTemplate : Text := "/files/{id}.json".toList

/-- The rule for some files cannot apply by the decision, since a placeholder is looked
    for in whole segments, though it accepts the request `/files/a.json`. -/
theorem part_of_segment_refused :
    ¬ (pathAppliesToTemplate filesPath .prefixMode filesTemplate = .ok true ↔
      ∃ requestPath, Instance filesTemplate requestPath ∧
        Accepts ⟨fun _ => none, fun _ => false, fun _ _ => false⟩ filesPath .prefixMode
          requestPath) := by
  intro h
  have hrefused : pathAppliesToTemplate filesPath .prefixMode filesTemplate ≠ .ok true := by decide
  refine hrefused (h.mpr ⟨"/files/a.json".toList, ?_, by unfold Accepts; decide⟩)
  have hmatch : fullmatch '/' (templateTokens (normalizeTemplate filesTemplate))
      "/files/a.json".toList = true := by decide
  exact fullmatch_iff.mp hmatch

theorem part_of_segment_agrees :
    (pathAppliesToTemplate filesPath .prefixMode filesTemplate = .ok true ↔
      ∃ requestPath, Instance filesTemplate requestPath ∧
        Accepts ⟨fun _ => none, fun _ => false, fun _ _ => false⟩ filesPath .prefixMode
          requestPath) ↔
      Agrees .prefixMode filesPath filesTemplate :=
  applies_iff_accepted_iff _ filesPath filesTemplate .prefixMode (by decide)

end TemplateCheck

end Permissions

end JenticOne
