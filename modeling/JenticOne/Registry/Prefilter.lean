import JenticOne.Registry.Rows

/-!
# The Segment Prefilter

A lookup reads the rows of a host by the number of segments of the request path
and only then matches their regular expressions. The number a row is stored
under counts its pattern, where the placeholders stand by their names and a
catch-all counts −1; the number of the request counts the path itself. A row is
lost when its regular expression matches and the two numbers differ.

When neither the pattern nor the request is special, the request is the pattern
with a word without a slash for each placeholder, so that the numbers differ by
the slashes in the names.

## Main definitions

* `lookupByHost`, `lookupByHostLive`: The rows that are read.
* `Agrees`: When the row is not lost.
* `Stray`: The rows with a placeholder that takes a name of the index's own.

## Theorems

* `alike_slotPieces`: What a row's regular expression matches.
* `agrees_count`, `count_agrees`: One row.
* `prefilter_keeps`: Every entry of the builder.
-/

namespace JenticOne

namespace Registry

/-! ## The rows that are read -/

structure UrlIndexRow where
  revisionId : Nat
  method : Text
  entry : URLIndexEntry

def lookupByHost (table : List UrlIndexRow) (revisionId : Nat) (method host : Text)
    (segmentCount : Int) : List UrlIndexRow :=
  table.filter fun r => r.revisionId = revisionId && r.method = method &&
    r.entry.hostPattern = host && r.entry.segmentCount = segmentCount

/-- The rows of the revisions that are live. -/
def lookupByHostLive (table : List UrlIndexRow) (live : List Nat) (method host : Text)
    (segmentCount : Int) : List UrlIndexRow :=
  table.filter fun r => r.revisionId ∈ live && r.method = method &&
    r.entry.hostPattern = host && r.entry.segmentCount = segmentCount

/-- A row of this entry is read for a request path, whatever else the table
holds, by the pinned lookup and by the live one. -/
def Survives (e : URLIndexEntry) (p : Text) : Prop :=
  ∀ table : List UrlIndexRow, ∀ r ∈ table, r.entry = e → ∀ live : List Nat, r.revisionId ∈ live →
    r ∈ lookupByHost table r.revisionId r.method e.hostPattern (countSegments p) ∧
      r ∈ lookupByHostLive table live r.method e.hostPattern (countSegments p)

theorem survives_iff {e : URLIndexEntry} {p : Text} :
    Survives e p ↔ countSegments p = e.segmentCount := by
  constructor
  · intro h
    have hr := (h [⟨0, [], e⟩] ⟨0, [], e⟩ List.mem_cons_self rfl [0] List.mem_cons_self).1
    rw [lookupByHost, List.mem_filter] at hr
    simp only [Bool.and_eq_true, decide_eq_true_eq] at hr
    exact hr.2.2.symm
  · intro h table r hr he live hlive
    rw [lookupByHost, lookupByHostLive, List.mem_filter, List.mem_filter, he]
    simp only [hr, hlive, h, decide_true, Bool.and_self, and_self]

/-! ## When a row is read -/

namespace Row

/-- A placeholder takes a name of the index's own: it is matched across slashes
for the sake of another one though not written so, or its group is the group of
a server variable. -/
def Stray (row : Row) : Prop :=
  ∃ t, .param t ∈ row.slots ∧
    ((row.wide t = true ∧ t.head? ≠ some '+') ∨
      ∃ g, row.names.get? (splitParamToken t).1 = some g ∧ row.variableGroup g)

/-- The request path is special exactly when the pattern is, and when they are
not, no placeholder has a slash in its name or a name of the index's own. -/
def Agrees (lib : Stdlib) (row : Row) (p : Text) : Prop :=
  special (row.shown lib) = special p ∧
    (special p = false → ¬ row.Stray ∧ ∀ slot ∈ row.slots, ∀ n ∈ slot.hole, '/' ∉ n)

end Row

/-! ## What a row matches -/

/-- The slashes in the name of a placeholder. -/
def Slot.slashes (slot : Slot) : Nat := (slot.hole.getD []).count '/'

def slashes (slots : List Slot) : Nat := (slots.map Slot.slashes).sum

theorem slashes_eq_zero {slots : List Slot} :
    slashes slots = 0 ↔ ∀ slot ∈ slots, ∀ n ∈ slot.hole, '/' ∉ n := by
  rw [slashes, List.sum_eq_zero_iff]
  constructor
  · intro h slot hslot n hn
    have hzero := h _ (List.mem_map_of_mem hslot)
    rw [Slot.slashes, Option.mem_def.mp hn, Option.getD_some] at hzero
    exact List.count_eq_zero.mp hzero
  · intro h x hx
    obtain ⟨slot, hslot, rfl⟩ := List.mem_map.mp hx
    rw [Slot.slashes]
    cases hhole : slot.hole with
    | none => rfl
    | some n => exact List.count_eq_zero.mpr (h slot hslot n hhole)

/-- A word for a placeholder. -/
theorem alike_braced {v : Text} (h : oneSegment.Takes v) (n : Text) :
    Segments.Alike '/' (n.count '/') v (braced n) := by
  have hfree : '/' ∉ v := fun hm => h.2 '/' hm (List.mem_singleton.mpr rfl)
  have hcount : (braced n).count '/' = n.count '/' := by
    rw [braced, List.count_cons_of_ne (by decide), List.count_append,
      List.count_cons_of_ne (by decide), List.count_nil, Nat.add_zero]
  rw [← hcount]
  exact Segments.alike_word h.1 hfree (Segments.word_between (by decide) (by decide) n)

/-- What matches at a variable. -/
theorem alike_shownAs {lib : Stdlib} {spec : ServerVariableSpec} {binding : Binding} {v : Text}
    (h : (matcher lib false spec binding).Takes v) :
    Segments.Alike '/' (Slot.slashes (.var spec binding)) v (shownAs lib false spec binding) := by
  cases binding with
  | value w =>
      have hv : v = shownAs lib false spec (.value w) := h
      rw [hv]
      exact Segments.alike_refl _
  | template =>
      have hv : v = shownAs lib false spec .template := h
      rw [hv]
      exact Segments.alike_refl _
  | free => exact alike_braced h spec.name

/-- The captures after the groups in `seen`: a variable's group has what the
variable matches, any other group a word. -/
def Captures (lib : Stdlib) (row : Row) (seen : List Text) (env : Pattern.Env) : Prop :=
  ∀ g ∈ seen, ∃ v, env.lookup g = some v ∧
    (∀ spec binding, .var spec binding ∈ row.slots → svGroupName spec = g →
      (matcher lib false spec binding).Takes v) ∧
    (¬ row.variableGroup g → oneSegment.Takes v)

/-- One group more. -/
theorem captures_cons {lib : Stdlib} {row : Row} {seen : List Text} {env : Pattern.Env}
    {g v : Text} (h : Captures lib row seen env)
    (hvar : ∀ spec binding, .var spec binding ∈ row.slots → svGroupName spec = g →
      (matcher lib false spec binding).Takes v)
    (hword : ¬ row.variableGroup g → oneSegment.Takes v) :
    Captures lib row (g :: seen) ((g, v) :: env) := by
  intro g' hg'
  by_cases heq : g' = g
  · subst heq
    exact ⟨v, List.lookup_cons_self, hvar, hword⟩
  · obtain ⟨w, hw, hrest⟩ := h g' ((List.mem_cons.mp hg').resolve_left heq)
    refine ⟨w, ?_, hrest⟩
    rw [List.lookup_cons, beq_eq_false_iff_ne.mpr heq]
    exact hw

section Narrow

variable {lib : Stdlib} {row : Row} (hdistinct : row.Distinct)
  (hnarrow : ∀ t, .param t ∈ row.slots → row.wide t = false)
  (hfree : ∀ t g, .param t ∈ row.slots → row.names.get? (splitParamToken t).1 = some g →
    ¬ row.variableGroup g)

include hnarrow hfree in
/-- What matches at a placeholder, and the captures after it. -/
theorem match_param {t : Text} (ht : .param t ∈ row.slots) {seen : List Text}
    {env env' : Pattern.Env} {p : Text} {k : List Text → List Pattern.Piece}
    (hinv : Captures lib row seen env)
    (hm : env' ∈ Pattern.fullMatches (· == ·)
      ((pathParamGroup t row.names seen row.catchAll).1 ::
        k (pathParamGroup t row.names seen row.catchAll).2) env p) :
    ∃ v p' seen' env₁, oneSegment.Takes v ∧ p = v ++ p' ∧ Captures lib row seen' env₁ ∧
      env' ∈ Pattern.fullMatches (· == ·) (k seen') env₁ p' := by
  have hwide := hnarrow t ht
  rw [Row.wide] at hwide
  rw [pathParamGroup] at hm
  dsimp only at hm
  rw [hwide, if_neg Bool.false_ne_true] at hm
  cases hname : row.names.get? (splitParamToken t).1 with
  | none =>
      rw [hname] at hm
      obtain ⟨v, p', hv, hp, hm⟩ := Pattern.mem_fullMatches_plain.mp hm
      exact ⟨v, p', seen, env, hv, hp, hinv, hm⟩
  | some g =>
      rw [hname] at hm
      dsimp only at hm
      have hg := hfree t g ht hname
      by_cases hseen : g ∈ seen
      · rw [if_pos hseen] at hm
        obtain ⟨v, p', hlookup, hp, hm⟩ := Pattern.mem_fullMatches_back.mp hm
        obtain ⟨w, hw, -, hword⟩ := hinv g hseen
        rw [hlookup, Option.some.injEq] at hw
        exact ⟨v, p', seen, env, hw ▸ hword hg, hp, hinv, hm⟩
      · rw [if_neg hseen] at hm
        obtain ⟨v, p', hv, hp, hm⟩ := Pattern.mem_fullMatches_group.mp hm
        refine ⟨v, p', g :: seen, (g, v) :: env, hv, hp, captures_cons hinv ?_ (fun _ => hv), hm⟩
        exact fun spec binding hmem heq => absurd ⟨spec, binding, hmem, heq⟩ hg

include hdistinct in
/-- What matches at a variable, and the captures after it. -/
theorem match_var {spec : ServerVariableSpec} {binding : Binding}
    (hslot : .var spec binding ∈ row.slots) {seen : List Text} {env env' : Pattern.Env} {p : Text}
    {slots : List Slot} (hinv : Captures lib row seen env)
    (hm : env' ∈ Pattern.fullMatches (· == ·)
      (slotPieces lib false row.names row.catchAll seen (.var spec binding :: slots)) env p) :
    ∃ v p' seen' env₁, (matcher lib false spec binding).Takes v ∧ p = v ++ p' ∧
      Captures lib row seen' env₁ ∧
      env' ∈ Pattern.fullMatches (· == ·) (slotPieces lib false row.names row.catchAll seen' slots)
        env₁ p' := by
  rw [slotPieces] at hm
  by_cases hseen : svGroupName spec ∈ seen
  · rw [if_pos hseen] at hm
    obtain ⟨v, p', hlookup, hp, hm⟩ := Pattern.mem_fullMatches_back.mp hm
    obtain ⟨w, hw, hvar, -⟩ := hinv _ hseen
    rw [hlookup, Option.some.injEq] at hw
    exact ⟨v, p', seen, env, hw ▸ hvar spec binding hslot rfl, hp, hinv, hm⟩
  · rw [if_neg hseen] at hm
    obtain ⟨v, p', hv, hp, hm⟩ := Pattern.mem_fullMatches_group.mp hm
    refine ⟨v, p', _, _, hv, hp, captures_cons hinv ?_ ?_, hm⟩
    · intro spec' binding' hslot' hgroup
      obtain ⟨rfl, rfl⟩ := hdistinct spec' binding' spec binding hslot' hslot hgroup
      exact hv
    · exact fun hno => absurd ⟨spec, binding, hslot, rfl⟩ hno

include hdistinct hnarrow hfree in
/-- A text that slots match is what they show, with words for the placeholders. -/
theorem alike_slotPieces {slots : List Slot} (hsub : ∀ slot ∈ slots, slot ∈ row.slots)
    {seen : List Text} {env env' : Pattern.Env} {p : Text} (hinv : Captures lib row seen env)
    (hm : env' ∈ Pattern.fullMatches (· == ·)
      (slotPieces lib false row.names row.catchAll seen slots) env p) :
    Segments.Alike '/' (slashes slots) p (slots.flatMap (Slot.shown lib false)) := by
  induction slots generalizing seen env p with
  | nil =>
      rw [slotPieces, Pattern.mem_fullMatches_nil] at hm
      rw [hm.1]
      exact Segments.Alike.nil
  | cons slot slots ih =>
      have hslot := hsub slot List.mem_cons_self
      have hrest : ∀ s ∈ slots, s ∈ row.slots := fun s hs => hsub s (List.mem_cons_of_mem _ hs)
      rw [slashes, List.map_cons, List.sum_cons, List.flatMap_cons]
      cases slot with
      | text s =>
          rw [slotPieces] at hm
          obtain ⟨v, p', hv, hp, hm⟩ := Pattern.mem_fullMatches_plain.mp hm
          have hvs : v = s := hv
          rw [hp, hvs]
          exact Segments.alike_append (Segments.alike_refl s) (ih hrest hinv hm)
      | var spec binding =>
          obtain ⟨v, p', seen', env₁, hv, hp, hinv, hm⟩ := match_var hdistinct hslot hinv hm
          rw [hp]
          exact Segments.alike_append (alike_shownAs hv) (ih hrest hinv hm)
      | param t =>
          rw [slotPieces, if_neg Bool.false_ne_true] at hm
          obtain ⟨v, p', seen', env₁, hv, hp, hinv, hm⟩ := match_param hnarrow hfree hslot
            (k := fun seen => slotPieces lib false row.names row.catchAll seen slots) hinv hm
          rw [hp]
          exact Segments.alike_append (alike_braced hv t) (ih hrest hinv hm)

end Narrow

/-! ## The numbers -/

/-- A path is counted apart from the special ones. -/
theorem countSegments_nonneg {p : Text} (h : special p = false) : 0 ≤ countSegments p := by
  rw [countSegments_of_not_special h]
  exact Int.natCast_nonneg _

/-- A placeholder written as a catch-all makes the pattern special. -/
theorem special_of_plus {lib : Stdlib} {row : Row} {t : Text} (ht : .param t ∈ row.slots)
    (hplus : t.head? = some '+') : special (row.shown lib) = true := by
  have hshown : braced t <:+: row.shown lib :=
    List.infix_of_mem_flatten (List.mem_map_of_mem (f := Slot.shown lib false) ht)
  have hinfix : ['{', '+'] <:+: row.shown lib := by
    refine List.IsInfix.trans ?_ hshown
    cases t with
    | nil => exact absurd hplus (by simp only [List.head?_nil, reduceCtorEq, not_false_eq_true])
    | cons c cs =>
        rw [List.head?_cons, Option.some.injEq] at hplus
        rw [hplus]
        exact (List.prefix_append ['{', '+'] (cs ++ ['}'])).isInfix
  rw [special, Bool.or_eq_true, decide_eq_true_eq, decide_eq_true_eq]
  exact .inr hinfix

/-- The empty groups at the head of a path take nothing. -/
theorem match_fixed {row : Row} {ps : List Pattern.Piece} {env env' : Pattern.Env} {p : Text}
    (h : env' ∈ Pattern.fullMatches (· == ·) (row.fixedPieces ++ ps) env p) :
    ∃ env₁, env' ∈ Pattern.fullMatches (· == ·) ps env₁ p := by
  rw [Row.fixedPieces] at h
  generalize row.fixed = fixed at h
  induction fixed generalizing env p with
  | nil => exact ⟨env, h⟩
  | cons x fixed ih =>
      rw [List.map_cons, List.cons_append] at h
      obtain ⟨v, p', hv, hp, h⟩ := Pattern.mem_fullMatches_group.mp h
      have hv : v = [] := hv
      rw [hp, hv, List.nil_append]
      exact ih h

section Entry

variable {lib : Stdlib} {row : Row} {e : URLIndexEntry} {p : Text}

/-- A request that a row matches has the segments of the pattern but for the
slashes in the names, when neither is special and no name is the index's own. -/
theorem segments_of_match (hof : RowOf lib row e) (hm : (e.pathRegex.fullmatch (· == ·) p).isSome)
    (hp : special p = false) (hrow : special (row.shown lib) = false) (hstray : ¬ row.Stray) :
    e.segmentCount = countSegments p + slashes row.slots := by
  obtain ⟨env', hm⟩ := Pattern.fullmatch_isSome.mp hm
  rw [hof.pathPieces] at hm
  obtain ⟨env, hm⟩ := match_fixed hm
  have hnarrow : ∀ t, .param t ∈ row.slots → row.wide t = false := by
    intro t ht
    rw [Bool.eq_false_iff]
    intro hwide
    by_cases hplus : t.head? = some '+'
    · exact absurd (special_of_plus ht hplus) (by rw [hrow]; exact Bool.false_ne_true)
    · exact hstray ⟨t, ht, .inl ⟨hwide, hplus⟩⟩
  have hfree : ∀ t g, .param t ∈ row.slots → row.names.get? (splitParamToken t).1 = some g →
      ¬ row.variableGroup g := fun t g ht hg hvar => hstray ⟨t, ht, .inr ⟨g, hg, hvar⟩⟩
  have halike : Segments.Alike '/' (slashes row.slots) p (row.slots.flatMap (Slot.shown lib false)) :=
    alike_slotPieces hof.distinct hnarrow hfree (fun _ hs => hs)
      (fun g hg => absurd hg List.not_mem_nil) hm
  rw [hof.segmentCount, hof.pathPattern, countSegments_of_not_special hrow,
    countSegments_of_not_special hp, Row.shown, Segments.alike_segments halike]
  exact Int.natCast_add _ _

/-- A row that agrees with a request it matches has the request's number. -/
theorem agrees_count (hof : RowOf lib row e) (hm : (e.pathRegex.fullmatch (· == ·) p).isSome)
    (h : row.Agrees lib p) : countSegments p = e.segmentCount := by
  obtain ⟨hspecial, hrest⟩ := h
  cases hp : special p with
  | true =>
      rw [hp] at hspecial
      rw [hof.segmentCount, hof.pathPattern, countSegments_of_special hspecial,
        countSegments_of_special hp]
  | false =>
      rw [hp] at hspecial
      obtain ⟨hstray, hnames⟩ := hrest hp
      rw [segments_of_match hof hm hp hspecial hstray, slashes_eq_zero.mpr hnames]
      exact (Int.add_zero _).symm

/-- A row with the number of a request it matches agrees with it, unless a
placeholder takes a name of the index's own. -/
theorem count_agrees (hof : RowOf lib row e) (hm : (e.pathRegex.fullmatch (· == ·) p).isSome)
    (h : countSegments p = e.segmentCount) :
    row.Agrees lib p ∨ (special p = false ∧ row.Stray) := by
  have hcount : e.segmentCount = countSegments (row.shown lib) := by
    rw [hof.segmentCount, hof.pathPattern]
  cases hp : special p with
  | true =>
      -- The number of the request is negative, so that the pattern is special.
      cases hrow : special (row.shown lib) with
      | true => exact .inl ⟨by rw [hrow, hp], fun hf => absurd (hp.symm.trans hf)
          (Ne.symm Bool.false_ne_true)⟩
      | false =>
          have hnonneg := countSegments_nonneg hrow
          rw [countSegments_of_special hp] at h
          omega
  | false =>
      have hnonneg := countSegments_nonneg hp
      cases hrow : special (row.shown lib) with
      | true =>
          rw [countSegments_of_special hrow] at hcount
          omega
      | false =>
          by_cases hstray : row.Stray
          · exact .inr ⟨rfl, hstray⟩
          · refine .inl ⟨by rw [hrow, hp], fun _ => ⟨hstray, slashes_eq_zero.mp ?_⟩⟩
            have hslashes := segments_of_match hof hm hp hrow hstray
            omega

end Entry

/-! ## Every entry -/

/-- Every entry of the builder, for every request path its regular expression
matches: the entry is read for the request exactly when its row agrees with it,
but for rows where a placeholder takes a name of the index's own. -/
theorem prefilter_keeps {lib : Stdlib} {serverUrl operationPath : Text} {declared : Json}
    {expansion : ServerIndexExpansion}
    (h : buildServerIndexEntries lib serverUrl declared operationPath = .ok expansion) :
    List.Forall₂ (fun row e => ∀ p : Text, (e.pathRegex.fullmatch (· == ·) p).isSome →
        (row.Agrees lib p → countSegments p = e.segmentCount ∧ Survives e p) ∧
        (countSegments p = e.segmentCount → row.Agrees lib p ∨ (special p = false ∧ row.Stray)))
      (rows lib serverUrl declared operationPath) expansion.entries := by
  refine (rows_entries h).imp fun row e hof p hm => ⟨fun hagrees => ?_, count_agrees hof hm⟩
  have hcount := agrees_count hof hm hagrees
  exact ⟨hcount, survives_iff.mpr hcount⟩

theorem exists_of_isOk {ε α : Type} {x : Except ε α} (h : x.isOk = true) : ∃ a, x = .ok a := by
  cases x with
  | error e => exact absurd h Bool.false_ne_true
  | ok a => exact ⟨a, rfl⟩

/-- The rows and the entries of a server with a variable and two placeholders. -/
theorem prefilter_keeps_pets :
    ∃ expansion, buildServerIndexEntries .ascii "https://api.example.com/{version}".toList
        (.obj [("version", .obj [("default", .str "v1")])]) "/pets/{petId}/toys/{toyId}".toList =
          .ok expansion ∧
      List.Forall₂ (fun row e => ∀ p : Text, (e.pathRegex.fullmatch (· == ·) p).isSome →
          (row.Agrees .ascii p → countSegments p = e.segmentCount ∧ Survives e p) ∧
          (countSegments p = e.segmentCount →
            row.Agrees .ascii p ∨ (special p = false ∧ row.Stray)))
        (rows .ascii "https://api.example.com/{version}".toList
          (.obj [("version", .obj [("default", .str "v1")])])
          "/pets/{petId}/toys/{toyId}".toList) expansion.entries := by
  obtain ⟨expansion, h⟩ := exists_of_isOk (x := buildServerIndexEntries .ascii
    "https://api.example.com/{version}".toList (.obj [("version", .obj [("default", .str "v1")])])
    "/pets/{petId}/toys/{toyId}".toList) (by decide +kernel)
  exact ⟨expansion, h, prefilter_keeps h⟩

/-- Some entry matches the request path and has another number. -/
def loses (lib : Stdlib) (serverUrl : Text) (declared : Json) (operationPath raw : Text) : Bool :=
  match buildServerIndexEntries lib serverUrl declared operationPath with
  | .error _ => false
  | .ok expansion => expansion.entries.any fun e =>
      (e.pathRegex.fullmatch (· == ·) (normalizePath raw)).isSome &&
        countSegments (normalizePath raw) ≠ e.segmentCount

/-- The entry of a catch-all is stored under −1 and its requests are counted, so
that the lookup does not read it: `/a/b` is lost by `/{+rest}`. -/
theorem catchAll_lost :
    ¬ ∀ (lib : Stdlib) (serverUrl operationPath : Text) (declared : Json)
        (expansion : ServerIndexExpansion),
      buildServerIndexEntries lib serverUrl declared operationPath = .ok expansion →
      ∀ e ∈ expansion.entries, ∀ raw : Text,
        (e.pathRegex.fullmatch (· == ·) (normalizePath raw)).isSome →
        countSegments (normalizePath raw) = e.segmentCount := by
  intro hall
  have hloses : loses .ascii "https://api.example.com".toList .null "/{+rest}".toList
      "/a/b".toList = true := by decide +kernel
  rw [loses] at hloses
  cases hb : buildServerIndexEntries .ascii "https://api.example.com".toList .null
      "/{+rest}".toList with
  | error failure => rw [hb] at hloses; exact Bool.false_ne_true hloses
  | ok expansion =>
      rw [hb] at hloses
      obtain ⟨e, he, hlost⟩ := List.any_eq_true.mp hloses
      rw [Bool.and_eq_true, decide_eq_true_eq] at hlost
      exact hlost.2 (hall _ _ _ _ expansion hb e he _ hlost.1)

end Registry

end JenticOne
