import JenticOne.Library.RegexMatch
import JenticOne.Permissions.TemplateCheck
import JenticOne.Registry.BasePaths

/-!
# Rules with a Server Base Path

Rules are judged on the path of a request without the base path of the server. A rule
that was written with the base path in front matches nothing, and it is decided for each
of these whether it can be rewritten: a base is taken off at the front where a backtracking
match of its expression ends before a slash or at the end, and what is left has to apply
to an operation.

A rule that is rewritten accepts just those requests that the old one accepted on the
full path under the base that was taken off. There is one such base at every API that the
rule is for, with no variable in it, and whatever else can be taken off either leaves the
same path or one that applies to no operation. The new path applies to an operation, so
it is not rewritten again.

## Main definitions

* `RewriteDecision`, `decideForShape`, `decideRewrite`: The decision.
* `Strips`: A base can be taken off.
* `upstream`: A request as the old rule saw it.
* `Rewritten`: What is known of a rule that is rewritten.

## Theorems

* `decideForShape_eq_rewrite`: When a rule is rewritten for one API.
* `accepts_strip`: The old and the new path.
* `decideRewrite_sound`: Rules that are rewritten.
-/

namespace JenticOne

namespace Permissions

namespace BasePathRewrite

open Registry.BasePaths (BasePath BasePathKind ApiPathShape cutsIntoBase singleSegment)

open TemplateCheck (pathAppliesToTemplate Accepts ValidPath accepts_iff)

/-! ## The decision -/

inductive SkipReason
  | regexNotRewritable
  | apiNotFound
  | ambiguousBase
  | matchesNoOperation
  | ruleSetMixedApis
  | serverVariableBase
  | specPathOrBaseQualified
  | prefixOfServerBase
  | credentialNotFound
  | credentialNotApiScoped
  | bindingNotFound
  | ruleSetNotAttached
deriving DecidableEq

inductive RewriteDecision
  | rewrite (newPath : Text)
  | unchanged
  | skipped (reason : SkipReason)
deriving DecidableEq

/-- The value of a match mode. -/
def modeValue : MatchMode → Text
  | .exactMode => "exact".toList
  | .prefixMode => "prefix".toList
  | .regexMode => "regex".toList

/-- `_applies`. -/
def applies (path : Text) (mode : MatchMode) (shape : ApiPathShape) : Bool :=
  shape.operationTemplates.any fun t =>
    match pathAppliesToTemplate path mode t with
    | .ok b => b
    | .error _ => false

/-- `(?=/|$)`, where `$` is also before a line break at the end. -/
def boundary : Text → Bool
  | [] => true
  | ['\n'] => true
  | c :: _ => c = '/'

/-- What a base leaves of a path, with the kind of the base. -/
def strip (path : Text) (base : BasePath) : Option (Text × BasePathKind) :=
  (base.pattern.matchBefore boundary path).map fun rest =>
    (if rest = [] then ['/'] else rest, base.kind)

/-- `_decide_for_shape`. -/
def decideForShape (path : Text) (mode : MatchMode) (shape : ApiPathShape) : RewriteDecision :=
  let stripped := shape.basePaths.filterMap (strip path)
  let applicable := stripped.filter fun x => applies x.1 mode shape
  if applies path mode shape then
    if applicable.any (fun x => x.2 ≠ .freeform) || cutsIntoBase path (modeValue mode) shape true then
      .skipped .specPathOrBaseQualified
    else .unchanged
  else if stripped = [] then
    if cutsIntoBase path (modeValue mode) shape false then .skipped .prefixOfServerBase
    else .unchanged
  else if applicable = [] then .skipped .matchesNoOperation
  else if applicable.any fun x => x.2 ≠ .static then .skipped .serverVariableBase
  else
    match (applicable.map Prod.fst).dedup with
    | [c] => .rewrite c
    | _ => .skipped .ambiguousBase

/-- `decide_rewrite`. -/
def decideRewrite (path : Option Text) (mode : MatchMode) (shapes : List (Option ApiPathShape)) :
    RewriteDecision :=
  match path with
  | none => .unchanged
  | some path =>
      if mode = .regexMode then .skipped .regexNotRewritable
      else if shapes = [] then .unchanged
      else if shapes.any Option.isNone then .skipped .apiNotFound
      else
        match ((shapes.filterMap id).map (decideForShape path mode)).dedup with
        | [d] => d
        | _ => .skipped .ruleSetMixedApis

/-! ## One API -/

section Decision

variable {path new : Text} {mode : MatchMode} {shape : ApiPathShape}

/-- What a base leaves comes after a text of the base, and the text ends where a segment
does. -/
theorem strip_eq_some {base : BasePath} {x : Text × BasePathKind}
    (h : strip path base = some x) :
    x.2 = base.kind ∧ ∃ b rest, Re.Spells base.pattern b ∧ path = b ++ rest ∧
      boundary rest = true ∧ x.1 = if rest = [] then ['/'] else rest := by
  rw [strip, Option.map_eq_some_iff] at h
  rcases h with ⟨rest, hrest, rfl⟩
  rcases Re.matchBefore_eq_some hrest with ⟨⟨b, hb, hpath⟩, hboundary⟩
  exact ⟨rfl, b, rest, hb, hpath, hboundary, rfl⟩

/-- A rule is rewritten for an API if it applies to no operation, a base leaves a path that
does, and no base leaves another one that does, nor a base with a variable any. -/
theorem decideForShape_eq_rewrite :
    decideForShape path mode shape = .rewrite new ↔
      applies path mode shape = false ∧
        (∃ base ∈ shape.basePaths, strip path base = some (new, .static) ∧
          applies new mode shape = true) ∧
        ∀ base ∈ shape.basePaths, ∀ x, strip path base = some x → applies x.1 mode shape = true →
          x = (new, .static) := by
  have hmem : ∀ x, x ∈ (shape.basePaths.filterMap (strip path)).filter
      (fun x => applies x.1 mode shape) ↔
      ∃ base ∈ shape.basePaths, strip path base = some x ∧ applies x.1 mode shape = true := by
    intro x
    rw [List.mem_filter, List.mem_filterMap]
    constructor
    · rintro ⟨⟨base, hbase, hstrip⟩, happlies⟩
      exact ⟨base, hbase, hstrip, happlies⟩
    · rintro ⟨base, hbase, hstrip, happlies⟩
      exact ⟨⟨base, hbase, hstrip⟩, happlies⟩
  unfold decideForShape
  dsimp only
  generalize happlicable : (shape.basePaths.filterMap (strip path)).filter
    (fun x => applies x.1 mode shape) = applicable at hmem
  constructor
  · intro h
    split at h
    · split at h <;> exact absurd h (by simp only [reduceCtorEq, not_false_eq_true])
    · rename_i hbefore
      split at h
      · split at h <;> exact absurd h (by simp only [reduceCtorEq, not_false_eq_true])
      · split at h
        · exact absurd h (by simp only [reduceCtorEq, not_false_eq_true])
        · rename_i hsome
          split at h
          · exact absurd h (by simp only [reduceCtorEq, not_false_eq_true])
          · rename_i hstatic
            split at h
            · rename_i c hone
              rw [RewriteDecision.rewrite.injEq] at h
              rw [h] at hone
              have honly : ∀ x ∈ applicable, x = (new, .static) := by
                intro x hx
                have hfirst : x.1 ∈ (applicable.map Prod.fst).dedup :=
                  List.mem_dedup.mpr (List.mem_map_of_mem hx)
                rw [hone, List.mem_singleton] at hfirst
                have hkind : x.2 = .static := by
                  by_contra hne
                  exact hstatic (List.any_eq_true.mpr ⟨x, hx, decide_eq_true hne⟩)
                exact Prod.ext hfirst hkind
              rcases List.exists_mem_of_ne_nil _ hsome with ⟨x, hx⟩
              have hx' := hx
              rw [honly x hx] at hx'
              exact ⟨Bool.eq_false_of_not_eq_true hbefore, (hmem _).mp hx',
                fun base hbase x hstrip happlies =>
                  honly x ((hmem x).mpr ⟨base, hbase, hstrip, happlies⟩)⟩
            · exact absurd h (by simp only [reduceCtorEq, not_false_eq_true])
  · rintro ⟨hbefore, ⟨base, hbase, hstrip, happlies⟩, honly⟩
    have hin : (new, BasePathKind.static) ∈ applicable :=
      (hmem _).mpr ⟨base, hbase, hstrip, happlies⟩
    have hall : ∀ x ∈ applicable, x = (new, .static) := by
      intro x hx
      rcases (hmem x).mp hx with ⟨base', hbase', hstrip', happlies'⟩
      exact honly base' hbase' x hstrip' happlies'
    have hstripped : shape.basePaths.filterMap (strip path) ≠ [] :=
      List.ne_nil_of_mem (List.mem_filterMap.mpr ⟨base, hbase, hstrip⟩)
    have hstatic : ¬ (applicable.any fun x => x.2 ≠ .static) = true := by
      rw [List.any_eq_true]
      rintro ⟨x, hx, hne⟩
      rw [hall x hx] at hne
      exact absurd rfl (of_decide_eq_true hne)
    have hone : (applicable.map Prod.fst).dedup = [new] := by
      have hperm : (applicable.map Prod.fst).dedup.Perm [new] := by
        rw [List.perm_ext_iff_of_nodup (List.nodup_dedup _) (List.nodup_singleton new)]
        intro c
        rw [List.mem_dedup, List.mem_map, List.mem_singleton]
        constructor
        · rintro ⟨x, hx, rfl⟩
          rw [hall x hx]
        · rintro rfl
          exact ⟨_, hin, rfl⟩
      exact List.perm_singleton.mp hperm
    rw [if_neg (by rw [hbefore]; exact Bool.false_ne_true), if_neg hstripped,
      if_neg (List.ne_nil_of_mem hin), if_neg hstatic, hone]

end Decision

/-! ## Requests -/

/-- A request of the API on the full path, under a base that was taken off a rule. A rule
in exact mode that is the base itself was about the base without a slash. -/
def upstream (mode : MatchMode) (b rest requestPath : Text) : Text :=
  b ++ if mode = .exactMode ∧ rest = [] ∧ requestPath = ['/'] then [] else requestPath

section Requests

open Wildcard

variable {engine : Engine Char} {mode : MatchMode} {b rest r : Text}

/-- Without an opening brace nothing in front of a path is a placeholder. -/
theorem template_append (h : '{' ∉ b) (rest : Text) :
    template id (b ++ rest) = b.map .lit ++ template id rest := by
  induction b with
  | nil => rfl
  | cons c cs ih =>
      rw [List.mem_cons, not_or] at h
      have hnone : placeholder id (c :: (cs ++ rest)) = none := by
        rw [placeholder]
        exact if_neg fun hc => h.1 hc.1.symm
      rw [List.cons_append, template_of_none hnone, ih h.2]
      rfl

theorem spells_lits_append {ts : List (Token Char)} {t : Text} :
    Spells '/' (b.map .lit ++ ts) t ↔ ∃ t', Spells '/' ts t' ∧ t = b ++ t' := by
  induction b generalizing t with
  | nil =>
      constructor
      · intro h
        exact ⟨t, h, rfl⟩
      · rintro ⟨t', ht', rfl⟩
        exact ht'
  | cons c cs ih =>
      constructor
      · intro h
        rw [List.map_cons, List.cons_append] at h
        cases h with
        | lit h =>
            rcases ih.mp h with ⟨t', ht', rfl⟩
            exact ⟨t', ht', rfl⟩
      · rintro ⟨t', ht', rfl⟩
        exact .lit (ih.mpr ⟨t', ht', rfl⟩)

/-- What a rule with a text in front accepts. -/
theorem accepts_append (hmode : mode ≠ .regexMode) (hvalid : ValidPath (b ++ rest))
    (hb : '{' ∉ b) {s : Text} :
    Accepts engine (b ++ rest) mode (b ++ s) ↔
      ∃ t r, Spells '/' (template id rest) t ∧ s = t ++ r ∧ (mode ≠ .prefixMode → r = []) := by
  rw [accepts_iff hmode, template_append hb]
  constructor
  · rintro ⟨_, t, r, ht, hr, hend⟩
    rcases spells_lits_append.mp ht with ⟨t', ht', rfl⟩
    rw [List.append_assoc] at hr
    exact ⟨t', r, ht', List.append_cancel_left hr, hend⟩
  · rintro ⟨t, r, ht, rfl, hend⟩
    exact ⟨hvalid, b ++ t, r, spells_lits_append.mpr ⟨t, ht, rfl⟩,
      (List.append_assoc b t r).symm, hend⟩

/-- The old path is about the same requests as the new one. -/
theorem accepts_strip (hmode : mode ≠ .regexMode) (hvalid : ValidPath (b ++ rest))
    (hb : '{' ∉ b) (hr : r.head? = some '/') :
    Accepts engine (if rest = [] then ['/'] else rest) mode r ↔
      Accepts engine (b ++ rest) mode (upstream mode b rest r) := by
  rw [upstream, accepts_append hmode hvalid hb]
  by_cases hrest : rest = []
  · rw [if_pos hrest, hrest, accepts_iff hmode]
    have hroot : template id ['/'] = [.lit '/'] := by
      decide
    have hempty : template id ([] : Text) = [] := rfl
    rw [hroot, hempty]
    have hslash : ∀ t : Text, Spells '/' [.lit '/'] t ↔ t = ['/'] := fun t =>
      TemplateCheck.spells_lits_iff (p := ['/'])
    have hnil : ∀ t : Text, Spells '/' [] t ↔ t = [] := fun t =>
      TemplateCheck.spells_lits_iff (p := [])
    have hvalidRoot : ValidPath ['/'] := by
      constructor
      · decide
      · decide
    rcases List.head?_eq_some_iff.mp hr with ⟨s, rfl⟩
    cases mode with
    | regexMode => exact absurd rfl hmode
    | prefixMode =>
        refine iff_of_true ⟨hvalidRoot, ['/'], s, (hslash _).mpr rfl, rfl, ?_⟩
          ⟨[], '/' :: s, (hnil _).mpr rfl, ?_, ?_⟩
        · exact fun hne => absurd rfl hne
        · rfl
        · exact fun hne => absurd rfl hne
    | exactMode =>
        have hexact : MatchMode.exactMode ≠ .prefixMode := by
          decide
        constructor
        · rintro ⟨_, t, r, ht, hs, hend⟩
          rw [(hslash t).mp ht, hend hexact] at hs
          refine ⟨[], [], (hnil _).mpr rfl, ?_, fun _ => rfl⟩
          rw [if_pos ⟨rfl, rfl, hs⟩]
          rfl
        · rintro ⟨t, r, ht, hs, hend⟩
          rw [(hnil t).mp ht, hend hexact] at hs
          split at hs
          · rename_i hroot'
            rw [hroot'.2.2]
            exact ⟨hvalidRoot, ['/'], [], (hslash _).mpr rfl, rfl, fun _ => rfl⟩
          · exact absurd hs (List.cons_ne_nil _ _)
  · have hvalidRest : ValidPath rest := by
      refine ⟨hrest, ?_⟩
      have hlength := hvalid.2
      rw [List.length_append] at hlength
      omega
    rw [if_neg hrest, if_neg fun h => hrest h.2.1, accepts_iff hmode]
    exact and_iff_right hvalidRest

end Requests

/-! ## Rules that are rewritten -/

/-- What is known of a rule that is rewritten, with the APIs it is for. -/
structure Rewritten (engine : Engine Char) (path : Text) (mode : MatchMode)
    (shapes : List (Option ApiPathShape)) (new : Text) : Prop where
  before : ∀ shape, some shape ∈ shapes → applies path mode shape = false
  after : ∀ shape, some shape ∈ shapes → applies new mode shape = true
  base : ∀ shape, some shape ∈ shapes → ∃ base ∈ shape.basePaths, base.kind = .static ∧
    ∃ b rest, Re.Spells base.pattern b ∧ path = b ++ rest ∧ boundary rest = true ∧
      new = (if rest = [] then ['/'] else rest) ∧
      (ValidPath path → '{' ∉ b → ∀ r, r.head? = some '/' →
        (Accepts engine new mode r ↔ Accepts engine path mode (upstream mode b rest r)))
  only : ∀ shape, some shape ∈ shapes → ∀ base ∈ shape.basePaths, ∀ x,
    strip path base = some x → applies x.1 mode shape = true → x = (new, .static)
  again : ∀ newer, decideRewrite (some new) mode shapes ≠ .rewrite newer

/-- A rule is rewritten if there are APIs, all of them are known, and it is rewritten to
the same for each. -/
theorem decideRewrite_eq_rewrite {path new : Text} {mode : MatchMode}
    {shapes : List (Option ApiPathShape)} :
    decideRewrite (some path) mode shapes = .rewrite new ↔
      mode ≠ .regexMode ∧ shapes ≠ [] ∧
        ∀ shape ∈ shapes, ∃ s, shape = some s ∧ decideForShape path mode s = .rewrite new := by
  have hmem : ∀ d, d ∈ ((shapes.filterMap id).map (decideForShape path mode)).dedup ↔
      ∃ s, some s ∈ shapes ∧ decideForShape path mode s = d := by
    intro d
    rw [List.mem_dedup, List.mem_map]
    simp only [List.mem_filterMap, id_eq, exists_eq_right]
  unfold decideRewrite
  dsimp only
  constructor
  · intro h
    split at h
    · exact absurd h (by simp only [reduceCtorEq, not_false_eq_true])
    · rename_i hmode
      split at h
      · exact absurd h (by simp only [reduceCtorEq, not_false_eq_true])
      · rename_i hne
        split at h
        · exact absurd h (by simp only [reduceCtorEq, not_false_eq_true])
        · rename_i hknown
          split at h
          · rename_i d hone
            refine ⟨hmode, hne, fun shape hshape => ?_⟩
            cases shape with
            | none => exact absurd (List.any_eq_true.mpr ⟨none, hshape, rfl⟩) hknown
            | some s =>
                have hd := (hmem _).mpr ⟨s, hshape, rfl⟩
                rw [hone, List.mem_singleton, h] at hd
                exact ⟨s, rfl, hd⟩
          · exact absurd h (by simp only [reduceCtorEq, not_false_eq_true])
  · rintro ⟨hmode, hne, hall⟩
    have hknown : ¬ shapes.any Option.isNone = true := by
      rw [List.any_eq_true]
      rintro ⟨shape, hshape, hnone⟩
      rcases hall shape hshape with ⟨s, rfl, _⟩
      exact absurd hnone Bool.false_ne_true
    have hone : ((shapes.filterMap id).map (decideForShape path mode)).dedup = [.rewrite new] := by
      refine List.perm_singleton.mp ((List.perm_ext_iff_of_nodup (List.nodup_dedup _)
        (List.nodup_singleton _)).mpr fun d => ?_)
      rw [hmem, List.mem_singleton]
      constructor
      · rintro ⟨s, hs, rfl⟩
        rcases hall _ hs with ⟨s', hs', hdecide⟩
        rw [Option.some.inj hs']
        exact hdecide
      · rintro rfl
        rcases List.exists_mem_of_ne_nil _ hne with ⟨shape, hshape⟩
        rcases hall shape hshape with ⟨s, rfl, hdecide⟩
        exact ⟨s, hshape, hdecide⟩
    rw [if_neg hmode, if_neg hne, if_neg hknown, hone]

/-- A rule that is rewritten keeps its requests, and is not rewritten again. -/
theorem decideRewrite_sound (engine : Engine Char) {path new : Text} {mode : MatchMode}
    {shapes : List (Option ApiPathShape)}
    (h : decideRewrite (some path) mode shapes = .rewrite new) :
    Rewritten engine path mode shapes new := by
  rcases decideRewrite_eq_rewrite.mp h with ⟨hmode, hne, hall⟩
  have hshape : ∀ shape, some shape ∈ shapes → decideForShape path mode shape = .rewrite new := by
    intro shape hshape
    rcases hall _ hshape with ⟨s, hs, hdecide⟩
    rw [Option.some.inj hs]
    exact hdecide
  have happlies : ∀ shape, some shape ∈ shapes → applies new mode shape = true := by
    intro shape hin
    rcases (decideForShape_eq_rewrite.mp (hshape shape hin)).2.1 with ⟨_, _, _, happlies⟩
    exact happlies
  refine ⟨fun shape hin => ?_, happlies, fun shape hin => ?_, fun shape hin => ?_,
    fun newer hagain => ?_⟩
  · exact (decideForShape_eq_rewrite.mp (hshape shape hin)).1
  · rcases (decideForShape_eq_rewrite.mp (hshape shape hin)).2.1 with ⟨base, hbase, hstrip, _⟩
    rcases strip_eq_some hstrip with ⟨hkind, b, rest, hb, rfl, hboundary, hnew⟩
    refine ⟨base, hbase, hkind.symm, b, rest, hb, rfl, hboundary, hnew, ?_⟩
    intro hvalid hbrace r hr
    dsimp only at hnew
    rw [hnew]
    exact accepts_strip hmode hvalid hbrace hr
  · exact (decideForShape_eq_rewrite.mp (hshape shape hin)).2.2
  · -- The new path applies to an operation of the first API.
    rcases List.exists_mem_of_ne_nil _ hne with ⟨shape, hin⟩
    rcases (decideRewrite_eq_rewrite.mp hagain).2.2 shape hin with ⟨s, rfl, hdecide⟩
    have hbefore := (decideForShape_eq_rewrite.mp hdecide).1
    rw [happlies s hin] at hbefore
    exact absurd hbefore (Ne.symm Bool.false_ne_true)

/-- A rule for pets with the path of the server in front. -/
def petShape : ApiPathShape :=
  ⟨[⟨.concat [.text "/api/v3".toList], .static, none⟩, ⟨.concat [singleSegment], .freeform, none⟩],
    ["/pet/{petId}".toList, "/store".toList]⟩

theorem decideRewrite_sound_pet (engine : Engine Char) :
    Rewritten engine "/api/v3/pet".toList .prefixMode [some petShape] "/pet".toList :=
  decideRewrite_sound engine (by decide +kernel)

end BasePathRewrite

end Permissions

end JenticOne
