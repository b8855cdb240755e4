import JenticOne.Registry.Combos

/-!
# Rows

What the entries of the builder are built from. A `Row` is a host and a path
template as lists of slots, which are texts, server variables with their
bindings, and placeholders; every entry shows the texts of its row and has the
pieces of its row as its regular expressions, after the empty groups that pin
variables.

## Main definitions

* `Slot`, `Row`: What a template is made of.
* `rows`: The rows of a server URL and an operation path.
* `slotPieces`: The regular expression of slots.
* `RowOf`: An entry is the one of a row.

## Theorems

* `renderServerTemplate_eq`: Rendering is reading the slots.
* `rows_entries`: The entries of the builder are those of the rows, one by one.
-/

namespace JenticOne

namespace Registry

/-! ## Slots -/

/-- A text, a server variable with its binding, or a placeholder. -/
inductive Slot
  | text (s : Text)
  | var (spec : ServerVariableSpec) (binding : Binding)
  | param (t : Text)

/-- What stands in the pattern of a host or a path. -/
def Slot.shown (lib : Stdlib) (inHost : Bool) : Slot → Text
  | .text s => s
  | .var spec binding => shownAs lib inHost spec binding
  | .param t => braced t

/-- The name of a placeholder that any text of a segment may stand for. -/
def Slot.hole : Slot → Option Text
  | .text _ => none
  | .var spec .free => some spec.name
  | .var _ _ => none
  | .param t => some t

/-- The part of a template that the index has put a variable into. -/
def Slot.ofPart (lib : Stdlib) (captured : Combo) : Part → Option Slot
  | .text s => some (.text s)
  | .token t => (serverVariable lib captured t).map fun
      | some (spec, binding) => .var spec binding
      | none => .param t

/-- The part of a template without server variables. -/
def Slot.plain : Part → Slot
  | .text s => .text s
  | .token t => .param t

/-- The pieces of the slots of a host or a path after the groups in `seen`. -/
def slotPieces (lib : Stdlib) (inHost : Bool) (names : Dict Text Text)
    (catchAll : Dict Text Bool) : List Text → List Slot → List Pattern.Piece
  | _, [] => []
  | seen, .text s :: slots => .plain (.text s) :: slotPieces lib inHost names catchAll seen slots
  | seen, .var spec binding :: slots =>
      if svGroupName spec ∈ seen then
        .back (svGroupName spec) :: slotPieces lib inHost names catchAll seen slots
      else
        .group (svGroupName spec) (matcher lib inHost spec binding) ::
          slotPieces lib inHost names catchAll (svGroupName spec :: seen) slots
  | seen, .param t :: slots =>
      if inHost then .plain hostLabels :: slotPieces lib inHost names catchAll seen slots
      else
        (pathParamGroup t names seen catchAll).1 ::
          slotPieces lib inHost names catchAll (pathParamGroup t names seen catchAll).2 slots

/-- Rendering a template is reading its parts as slots, or a `ValueError`. -/
theorem renderServerTemplate_eq (lib : Stdlib) (captured : Combo) (inHost : Bool)
    (names : Dict Text Text) (catchAll : Dict Text Bool) (seen : List Text) (parts : List Part) :
    renderServerTemplate lib captured inHost names catchAll seen parts =
      match parts.mapM (Slot.ofPart lib captured) with
      | none => .error .valueError
      | some slots => .ok (slots.flatMap (Slot.shown lib inHost),
          slotPieces lib inHost names catchAll seen slots) := by
  induction parts generalizing seen with
  | nil => rfl
  | cons part parts ih =>
      rw [List.mapM_cons]
      cases part with
      | text s =>
          rw [renderServerTemplate, ih]
          cases parts.mapM (Slot.ofPart lib captured) <;> rfl
      | token t =>
          rw [renderServerTemplate, Slot.ofPart]
          rcases serverVariable lib captured t with _ | _ | ⟨spec, binding⟩
          · rfl
          · dsimp only
            cases inHost with
            | true =>
                rw [if_pos rfl, ih]
                cases parts.mapM (Slot.ofPart lib captured) <;> rfl
            | false =>
                rw [if_neg Bool.false_ne_true, ih]
                cases parts.mapM (Slot.ofPart lib captured) <;> rfl
          · dsimp only
            rw [ih]
            by_cases hseen : svGroupName spec ∈ seen
            · rw [if_pos hseen, if_pos hseen]
              cases parts.mapM (Slot.ofPart lib captured) with
              | none => rfl
              | some slots => simp only [Option.map_some, Option.bind_eq_bind, Option.bind_some,
                  Option.pure_def, slotPieces, if_pos hseen]; rfl
            · rw [if_neg hseen, if_neg hseen]
              cases parts.mapM (Slot.ofPart lib captured) with
              | none => rfl
              | some slots => simp only [Option.map_some, Option.bind_eq_bind, Option.bind_some,
                  Option.pure_def, slotPieces, if_neg hseen]; rfl

theorem renderServerTemplate_ok {lib : Stdlib} {captured : Combo} {inHost : Bool}
    {names : Dict Text Text} {catchAll : Dict Text Bool} {parts : List Part} {display : Text}
    {pieces : List Pattern.Piece}
    (h : renderServerTemplate lib captured inHost names catchAll [] parts = .ok (display, pieces)) :
    ∃ slots, parts.mapM (Slot.ofPart lib captured) = some slots ∧
      display = slots.flatMap (Slot.shown lib inHost) ∧
      pieces = slotPieces lib inHost names catchAll [] slots := by
  rw [renderServerTemplate_eq] at h
  cases hslots : parts.mapM (Slot.ofPart lib captured) with
  | none => rw [hslots] at h; exact absurd h (by simp only [reduceCtorEq, not_false_eq_true])
  | some slots =>
      rw [hslots, Except.ok.injEq, Prod.mk.injEq] at h
      exact ⟨slots, rfl, h.1.symm, h.2.symm⟩

theorem renderServerTemplate_error {lib : Stdlib} {captured : Combo} {inHost : Bool}
    {names : Dict Text Text} {catchAll : Dict Text Bool} {parts : List Part} {failure : Failure}
    (h : renderServerTemplate lib captured inHost names catchAll [] parts = .error failure) :
    parts.mapM (Slot.ofPart lib captured) = none := by
  rw [renderServerTemplate_eq] at h
  cases hslots : parts.mapM (Slot.ofPart lib captured) with
  | none => rfl
  | some slots => rw [hslots] at h; exact absurd h (by simp only [reduceCtorEq, not_false_eq_true])

theorem pathPieces_eq (lib : Stdlib) (names : Dict Text Text) (catchAll : Dict Text Bool)
    (seen : List Text) (parts : List Part) :
    pathPieces names catchAll seen parts =
      slotPieces lib false names catchAll seen (parts.map Slot.plain) := by
  induction parts generalizing seen with
  | nil => rfl
  | cons part parts ih =>
      cases part with
      | text s => rw [pathPieces, ih]; rfl
      | token t =>
          rw [pathPieces]
          dsimp only
          rw [ih]
          rfl

theorem hostPieces_eq (lib : Stdlib) (parts : List Part) :
    (parts.map fun
      | .text s => .plain (.text s)
      | .token _ => .plain hostLabels) =
      slotPieces lib true Dict.empty Dict.empty [] (parts.map Slot.plain) := by
  induction parts with
  | nil => rfl
  | cons part parts ih =>
      rw [List.map_cons, ih]
      cases part <;> rfl

/-- The slots of a template without server variables show the template. -/
theorem shown_plain (lib : Stdlib) (inHost : Bool) (template : Text) :
    ((split template).map Slot.plain).flatMap (Slot.shown lib inHost) = template := by
  have hpart : ∀ part, Slot.shown lib inHost (Slot.plain part) = part.shown := by
    intro part
    cases part <;> rfl
  rw [List.flatMap_map, funext hpart]
  exact split_join template

/-! ## Rows -/

/-- The slots of a host and a path, the groups of the placeholders of the path,
and the values the row pins variables to. -/
structure Row where
  fixed : List (Text × Text)
  hostSlots : List Slot
  slots : List Slot
  names : Dict Text Text
  catchAll : Dict Text Bool

/-- The row of a path template whose groups are named after the operation's first. -/
def Row.of (operationPath full : Text) (fixed : List (Text × Text)) (hostSlots slots : List Slot) :
    Row where
  fixed
  hostSlots
  slots
  names := pathParamGroupNames (groupTemplates operationPath full)
  catchAll := pathParamCatchAll (groupTemplates operationPath full)

/-- The row of one combination, unless a `ValueError` stops it. -/
def comboRow (lib : Stdlib) (serverUrl : Text) (combo : Combo) (operationPath : Text) :
    Option Row := do
  let tokenized := tokenize serverUrl combo
  let parsed ← parseServerUrl lib tokenized.url
  let full := fullPath parsed.path operationPath
  let hostSlots ← (split parsed.host).mapM (Slot.ofPart lib tokenized.captured)
  let slots ← (split full).mapM (Slot.ofPart lib tokenized.captured)
  let empty := combo.filter (fun x => x.2 = .value [])
  return Row.of operationPath full (empty.map fun x => (x.1.name, [])) hostSlots slots

/-- The row of the URL with the defaults in it. -/
def defaultRow (lib : Stdlib) (serverUrl : Text) (used : List ServerVariableSpec)
    (operationPath : Text) : Option Row := do
  let parsed ← parseServerUrl lib (expandDefaults serverUrl used).1
  let full := fullPath parsed.path operationPath
  return Row.of operationPath full (used.filterMap fun s => s.default.map fun v => (s.name, v))
    ((split (normaliseHost lib parsed.host parsed.scheme)).map Slot.plain)
    ((split full).map Slot.plain)

/-- The rows of a server URL and an operation path, in the order of the entries. -/
def rows (lib : Stdlib) (serverUrl : Text) (declared : Json) (operationPath : Text) : List Row :=
  let used := usedVariables lib serverUrl declared
  match (combos serverUrl used).1.mapM (fun c => comboRow lib serverUrl c operationPath) with
  | some rows => rows
  | none => (defaultRow lib serverUrl used operationPath).toList

namespace Row

/-- The pattern of the path. -/
def shown (lib : Stdlib) (row : Row) : Text := row.slots.flatMap (Slot.shown lib false)

/-- The groups that pin the variables of a row. -/
def fixedPieces (row : Row) : List Pattern.Piece :=
  row.fixed.map fun x => fixedValueGroup x.1 x.2

/-- A placeholder is matched across slashes. -/
def wide (row : Row) (t : Text) : Bool :=
  (row.catchAll.get? (splitParamToken t).1).getD (splitParamToken t).2

/-- The path of the row has a variable of this group. -/
def variableGroup (row : Row) (g : Text) : Prop :=
  ∃ spec binding, .var spec binding ∈ row.slots ∧ svGroupName spec = g

/-- The variables of a row have different groups. -/
def Distinct (row : Row) : Prop :=
  ∀ spec binding spec' binding', .var spec binding ∈ row.slots → .var spec' binding' ∈ row.slots →
    svGroupName spec = svGroupName spec' → spec = spec' ∧ binding = binding'

end Row

/-- The entry of a row. -/
structure RowOf (lib : Stdlib) (row : Row) (e : URLIndexEntry) : Prop where
  hostPattern : e.hostPattern = row.hostSlots.flatMap (Slot.shown lib true)
  hostPieces : e.hostRegex.pieces = slotPieces lib true Dict.empty Dict.empty [] row.hostSlots
  pathPattern : e.pathPattern = row.shown lib
  segmentCount : e.segmentCount = countSegments e.pathPattern
  pathPieces : e.pathRegex.pieces =
    row.fixedPieces ++ slotPieces lib false row.names row.catchAll [] row.slots
  distinct : row.Distinct

/-! ## The rows of the builder -/

variable {lib : Stdlib} {serverUrl operationPath : Text} {declared : Json}

/-- The variables of the slots are those that have a position. -/
theorem mem_captured_of_slots {captured : Combo} {parts : List Part} {slots : List Slot}
    (h : parts.mapM (Slot.ofPart lib captured) = some slots) {spec : ServerVariableSpec}
    {binding : Binding} (hslot : .var spec binding ∈ slots) : (spec, binding) ∈ captured := by
  obtain ⟨part, -, hpart⟩ := Lists.exists_of_mapM_eq_some h hslot
  cases part with
  | text s => exact absurd hpart (by simp only [Slot.ofPart, Option.some.injEq, reduceCtorEq,
      not_false_eq_true])
  | token t =>
      obtain ⟨x, hx, hvar⟩ := Option.map_eq_some_iff.mp hpart
      cases x with
      | none => exact absurd hvar (by simp only [reduceCtorEq, not_false_eq_true])
      | some x =>
          have heq : x = (spec, binding) := by
            injection hvar with hspec hbinding
            exact Prod.ext hspec hbinding
          exact heq ▸ mem_of_serverVariable hx

theorem distinct_of_nodup {captured : Combo} (hnodup : (captured.map fun x => x.1.name).Nodup)
    {row : Row} (h : ∀ spec binding, .var spec binding ∈ row.slots → (spec, binding) ∈ captured) :
    row.Distinct := by
  intro spec binding spec' binding' hslot hslot' hgroup
  have heq := List.inj_on_of_nodup_map hnodup (h _ _ hslot) (h _ _ hslot') (svGroupName_inj hgroup)
  exact ⟨congrArg Prod.fst heq, congrArg Prod.snd heq⟩

/-- The entry for a combination has a row, and it is its row. -/
theorem comboRow_of_entry {combo : Combo} (hnodup : (combo.map fun x => x.1.name).Nodup)
    {e : URLIndexEntry} (h : entryForBindings lib serverUrl combo operationPath = .ok e) :
    ∃ row, comboRow lib serverUrl combo operationPath = some row ∧ RowOf lib row e := by
  obtain ⟨parsed, hparsed, h⟩ := Lists.bind_eq_ok_iff.mp h
  obtain ⟨⟨hostDisplay, hostPieces⟩, hhost, h⟩ := Lists.bind_eq_ok_iff.mp h
  obtain ⟨⟨pathDisplay, pathPieces⟩, hpath, h⟩ := Lists.bind_eq_ok_iff.mp h
  obtain ⟨hostRegex, hhostRegex, h⟩ := Lists.bind_eq_ok_iff.mp h
  obtain ⟨pathRegex, hpathRegex, h⟩ := Lists.bind_eq_ok_iff.mp h
  obtain ⟨hostSlots, hhostSlots, hhostDisplay, hhostPieces⟩ := renderServerTemplate_ok hhost
  obtain ⟨slots, hslots, hpathDisplay, hpathPieces⟩ := renderServerTemplate_ok hpath
  have hfixed : (tokenize serverUrl combo).fixedGroups =
      ((combo.filter (fun x => x.2 = .value [])).map fun x => (x.1.name, [])).map
        fun x => fixedValueGroup x.1 x.2 := by
    rw [fixedGroups_tokenize, List.map_map]
    rfl
  refine ⟨Row.of operationPath (fullPath parsed.path operationPath)
    ((combo.filter (fun x => x.2 = .value [])).map fun x => (x.1.name, [])) hostSlots slots, ?_, ?_⟩
  · rw [comboRow, raising_eq_ok hparsed]
    dsimp only [Option.bind_eq_bind, Option.bind_some]
    rw [hhostSlots, Option.bind_some, hslots]
    rfl
  · rw [← Except.ok.inj h]
    constructor
    · exact hhostDisplay
    · rw [Pattern.compile_eq_some (raising_eq_ok hhostRegex)]
      exact hhostPieces
    · exact hpathDisplay
    · rfl
    · rw [Pattern.compile_eq_some (raising_eq_ok hpathRegex), hfixed, hpathPieces]
      rfl
    · exact distinct_of_nodup (names_nodup_captured hnodup)
        fun spec binding hslot => mem_captured_of_slots hslots hslot

/-- A combination that raises a `ValueError` has no row. -/
theorem comboRow_of_error {combo : Combo}
    (h : entryForBindings lib serverUrl combo operationPath = .error .valueError) :
    comboRow lib serverUrl combo operationPath = none := by
  rw [comboRow]
  rcases Lists.bind_eq_error_iff.mp h with hparsed | ⟨parsed, hparsed, h⟩
  · rw [(raising_eq_error hparsed).1]
    rfl
  rw [raising_eq_ok hparsed]
  dsimp only [Option.bind_eq_bind, Option.bind_some]
  rcases Lists.bind_eq_error_iff.mp h with hhost | ⟨⟨hostDisplay, hostPieces⟩, hhost, h⟩
  · rw [renderServerTemplate_error hhost]
    rfl
  obtain ⟨hostSlots, hhostSlots, -, -⟩ := renderServerTemplate_ok hhost
  rw [hhostSlots, Option.bind_some]
  rcases Lists.bind_eq_error_iff.mp h with hpath | ⟨⟨pathDisplay, pathPieces⟩, hpath, h⟩
  · rw [renderServerTemplate_error hpath]
    rfl
  -- The patterns fail to compile with another exception.
  rcases Lists.bind_eq_error_iff.mp h with hregex | ⟨hostRegex, -, h⟩
  · exact absurd (raising_eq_error hregex).2 (by decide)
  rcases Lists.bind_eq_error_iff.mp h with hregex | ⟨pathRegex, -, h⟩
  · exact absurd (raising_eq_error hregex).2 (by decide)
  · exact absurd h (by simp only [pure, Except.pure, reduceCtorEq, not_false_eq_true])

theorem fixed_expandDefaults (serverUrl : Text) (used : List ServerVariableSpec) :
    (expandDefaults serverUrl used).2 =
      (used.filterMap fun s => s.default.map fun v => (s.name, v)).map
        fun x => fixedValueGroup x.1 x.2 := by
  rw [expandDefaults]
  suffices h : ∀ s : Text × List Pattern.Piece, (used.foldl pinDefault s).2 =
      s.2 ++ (used.filterMap fun s => s.default.map fun v => (s.name, v)).map
        fun x => fixedValueGroup x.1 x.2 from h (serverUrl, [])
  induction used with
  | nil => exact fun s => (List.append_nil s.2).symm
  | cons spec used ih =>
      intro s
      rw [List.foldl_cons, ih, pinDefault]
      cases hdefault : spec.default with
      | none => rw [List.filterMap_cons_none (by rw [hdefault]; rfl)]
      | some default =>
          rw [List.filterMap_cons_some (by rw [hdefault]; rfl), List.map_cons]
          exact List.append_assoc s.2 [_] _

/-- The entry of the URL with the defaults in it has a row, and it is its row. -/
theorem defaultRow_of_entry {used : List ServerVariableSpec} {e : URLIndexEntry}
    (h : defaultEntry lib serverUrl used operationPath = .ok e) :
    ∃ row, defaultRow lib serverUrl used operationPath = some row ∧ RowOf lib row e := by
  obtain ⟨parsed, hparsed, h⟩ := Lists.bind_eq_ok_iff.mp h
  obtain ⟨entry, hentry, h⟩ := Lists.bind_eq_ok_iff.mp h
  obtain ⟨pathRegex, hpathRegex, h⟩ := Lists.bind_eq_ok_iff.mp h
  obtain ⟨hostRegex, hhostRegex, hentry⟩ := Lists.bind_eq_ok_iff.mp hentry
  obtain ⟨inner, hinner, hentry⟩ := Lists.bind_eq_ok_iff.mp hentry
  have hserver : parseServerUrl lib (expandDefaults serverUrl used).1 = some parsed :=
    raising_eq_ok hparsed
  have hpath : pathRegex.pieces = (expandDefaults serverUrl used).2 ++ entry.pathRegex.pieces :=
    Pattern.compile_eq_some (raising_eq_ok hpathRegex)
  have hhost := Pattern.compile_eq_some (raising_eq_ok hhostRegex)
  have hinner := Pattern.compile_eq_some (raising_eq_ok hinner)
  have hentry := Except.ok.inj hentry
  subst hentry
  rw [← Except.ok.inj h]
  refine ⟨Row.of operationPath (fullPath parsed.path operationPath)
    (used.filterMap fun s => s.default.map fun v => (s.name, v))
    ((split (normaliseHost lib parsed.host parsed.scheme)).map Slot.plain)
    ((split (fullPath parsed.path operationPath)).map Slot.plain), ?_, ?_⟩
  · rw [defaultRow, hserver]
    rfl
  · constructor
    · exact (shown_plain lib true _).symm
    · exact hhost.trans (hostPieces_eq lib _)
    · exact (shown_plain lib false _).symm
    · rfl
    · dsimp only at hpath ⊢
      rw [hpath, hinner, buildPathPieces, pathPieces_eq lib, fixed_expandDefaults]
      rfl
    · intro spec binding spec' binding' hslot
      obtain ⟨part, -, hpart⟩ := List.mem_map.mp hslot
      cases part <;> exact absurd hpart (by simp only [Slot.plain, reduceCtorEq,
        not_false_eq_true])

/-- The entries of the builder are those of the rows, one by one. -/
theorem rows_entries {expansion : ServerIndexExpansion}
    (h : buildServerIndexEntries lib serverUrl declared operationPath = .ok expansion) :
    List.Forall₂ (RowOf lib) (rows lib serverUrl declared operationPath) expansion.entries := by
  rw [buildServerIndexEntries] at h
  rw [rows]
  dsimp only at h ⊢
  have hnodup : ∀ combo ∈ (combos serverUrl (usedVariables lib serverUrl declared)).1,
      (combo.map fun x => x.1.name).Nodup := fun combo hc => names_nodup_of_mem_combos hc
  rcases hcombos : combos serverUrl (usedVariables lib serverUrl declared) with ⟨all, capped⟩
  rw [hcombos] at h hnodup
  dsimp only at h hnodup ⊢
  rcases hentries : all.mapM (fun c => entryForBindings lib serverUrl c operationPath) with
    failure | entries
  · rw [hentries] at h
    cases failure with
    | reError => exact absurd h (by simp only [reduceCtorEq, not_false_eq_true])
    | valueError =>
        obtain ⟨combo, hcombo, herror⟩ := Lists.mapM_eq_error hentries
        have hnone : all.mapM (fun c => comboRow lib serverUrl c operationPath) = none :=
          Lists.mapM_eq_none_iff.mpr ⟨combo, hcombo, comboRow_of_error herror⟩
        rw [hnone]
        obtain ⟨entry, hentry, h⟩ := Lists.bind_eq_ok_iff.mp h
        obtain ⟨row, hrow, hof⟩ := defaultRow_of_entry hentry
        rw [hrow, ← Except.ok.inj h]
        exact List.Forall₂.cons hof List.Forall₂.nil
  · rw [hentries] at h
    rw [← Except.ok.inj h]
    obtain ⟨rows, hrows, hall⟩ := Lists.mapM_of_forall₂ (Lists.mapM_eq_ok_iff.mp hentries)
      fun combo hcombo e he => comboRow_of_entry (hnodup combo hcombo) he
    rw [hrows]
    exact hall

end Registry

end JenticOne
