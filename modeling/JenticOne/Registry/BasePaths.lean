import JenticOne.Library.Prefixes
import JenticOne.Library.Regex
import JenticOne.Registry.Combos

/-!
# Server Base Paths

What the rewrite of rules knows of the path of a server URL: an expression of the paths
it stands for, and one of the openings of these. A rule whose path is such an opening
stops part-way through the base.

A declared variable with an enumeration stands for its members and its default, any other
placeholder for one segment. The expression of the openings is built from right to left:
each atom, a literal character or a placeholder, is cut short or is present in full before
the openings of the rest.

## Main definitions

* `serverBasePath`: The two expressions of a server URL.
* `prefixLanguage`: The expression of the openings.
* `cutsIntoBase`: The rule stops part-way through a base.
* `Instance`: A path that a base path stands for.

## Theorems

* `spells_prefixLanguage`: The openings of a list of atoms.
* `instance_iff`: The instances are the product of the languages of the atoms.
* `prefixPattern_exact`: The expression of the openings matches the openings of the
  instances and nothing else.
-/

namespace JenticOne

namespace Registry

namespace BasePaths

inductive BasePathKind
  | static
  | enum
  | freeform
deriving DecidableEq

structure BasePath where
  pattern : Re
  kind : BasePathKind
  prefixPattern : Option Re

structure ApiPathShape where
  basePaths : List BasePath
  operationTemplates : List Text

/-- `[^/]` -/
def inSegment : Re := .set (· ≠ '/')

def singleSegment : Re := .plus inSegment

/-- The members of an enumeration, with the default. -/
def members (spec : ServerVariableSpec) : List Text :=
  match spec.default with
  | some default => if default ∈ spec.enum then spec.enum else spec.enum ++ [default]
  | none => spec.enum

/-- The members a placeholder stands for, if it names a variable with an enumeration. -/
def membersOf (specs : List ServerVariableSpec) (token : Text) : Option (List Text) :=
  ((specs.find? (·.name = token)).filter (·.enum ≠ [])).map members

/-- The proper prefixes of the members, in order and each once. -/
def partials (members : List Text) : List Text :=
  (members.flatMap fun m => (List.range m.length).map m.take).dedup.mergeSort (· ≤ ·)

/-- What the loop over the parts of a path has built. -/
structure Draft where
  out : List Re
  kind : BasePathKind
  atoms : List (Re × Re)

def addPart (specs : List ServerVariableSpec) (draft : Draft) : Part → Draft
  | .text s =>
      { draft with
        out := draft.out ++ [.text s]
        atoms := draft.atoms ++ s.map fun c => (.text [c], .eps) }
  | .token t =>
      match membersOf specs t with
      | some members =>
          { out := draft.out ++ [.oneOf members]
            kind := if 1 < members.length && draft.kind = .static then .enum else draft.kind
            atoms := draft.atoms ++ [(.oneOf members, .oneOf (partials members))] }
      | none =>
          { out := draft.out ++ [singleSegment]
            kind := .freeform
            atoms := draft.atoms ++ [(singleSegment, .star inSegment)] }

/-- Each atom cut short, or in full before the rest. -/
def prefixLanguage (atoms : List (Re × Re)) : Re :=
  atoms.foldr (fun atom rest => .alt atom.2 (.seq atom.1 rest)) .eps

/-- The path of a server URL in normal form; `none` is a `ValueError`. -/
def basePathOf (lib : Stdlib) (serverUrl : Text) : Option Text := do
  let rawPath ← if "://".toList <:+: serverUrl then
      (Urllib.urlsplit lib serverUrl).map Urllib.SplitResult.path
    else some serverUrl
  return normalizePathTemplate (if rawPath = [] then ['/'] else rawPath)

/-- The base path of a server URL, if it has one; the outer `none` is a `ValueError`. -/
def serverBasePath (lib : Stdlib) (serverUrl : Text) (declared : Json) :
    Option (Option BasePath) :=
  (basePathOf lib serverUrl).map fun path =>
    if path = ['/'] then none
    else
      let draft := (split path).foldl (addPart (serverVariableSpecs lib declared))
        ⟨[], .static, []⟩
      some ⟨.concat draft.out, draft.kind, some (prefixLanguage draft.atoms)⟩

/-- The rule stops part-way through a server base. -/
def cutsIntoBase (path mode : Text) (shape : ApiPathShape) (concreteOnly : Bool) : Bool :=
  if mode ≠ "prefix".toList || path = ['/'] then false
  else shape.basePaths.any fun base =>
    !(concreteOnly && base.kind = .freeform) && base.prefixPattern.any (·.fullmatch path)

/-! ## Instances -/

/-- A value that a placeholder may be replaced by: a member or the default of the
    enumeration it names, and otherwise any segment. -/
def Allowed (specs : List ServerVariableSpec) (token value : Text) : Prop :=
  (∃ spec ∈ specs, spec.name = token ∧ spec.enum ≠ [] ∧
      (value ∈ spec.enum ∨ spec.default = some value)) ∨
    (∀ spec ∈ specs, spec.name = token → spec.enum = []) ∧ value ≠ [] ∧ ∀ c ∈ value, c ≠ '/'

/-- A text with each placeholder of a template replaced by an allowed value. -/
inductive Instance (specs : List ServerVariableSpec) : List Part → Text → Prop
  | nil : Instance specs [] []
  | text {parts : List Part} {w : Text} (s : Text) :
      Instance specs parts w → Instance specs (.text s :: parts) (s ++ w)
  | token {parts : List Part} {t value w : Text} :
      Allowed specs t value → Instance specs parts w →
        Instance specs (.token t :: parts) (value ++ w)

/-! ## Languages -/

/-- The texts of an expression, as a language. -/
def language (r : Re) : Language Char := {t | Re.Spells r t}

theorem mem_language {r : Re} {t : Text} : t ∈ language r ↔ Re.Spells r t := Iff.rfl

/-- The languages of an atom, in full and cut short. -/
def factor (atom : Re × Re) : Language Char × Language Char :=
  (language atom.1, language atom.2)

/-- The expression of a list of atoms is the chain of their languages. -/
theorem spells_prefixLanguage {atoms : List (Re × Re)} {s : Text} :
    Re.Spells (prefixLanguage atoms) s ↔ s ∈ Prefixes.chain (atoms.map factor) := by
  induction atoms generalizing s with
  | nil => exact Re.spells_eps
  | cons atom atoms ih =>
      rw [prefixLanguage, List.foldr_cons, ← prefixLanguage, Re.spells_alt, Re.spells_seq,
        List.map_cons, factor, Prefixes.chain, Language.mem_add, Language.mem_mul]
      refine or_congr Iff.rfl ?_
      constructor
      · rintro ⟨a, b, ha, hb, rfl⟩
        exact ⟨a, ha, b, ih.mp hb, rfl⟩
      · rintro ⟨a, ha, b, hb, rfl⟩
        exact ⟨a, b, ha, ih.mpr hb, rfl⟩

/-- The atoms of one part. -/
def partAtoms (specs : List ServerVariableSpec) : Part → List (Re × Re)
  | .text s => s.map fun c => (.text [c], .eps)
  | .token t =>
      match membersOf specs t with
      | some members => [(.oneOf members, .oneOf (partials members))]
      | none => [(singleSegment, .star inSegment)]

/-- The atoms after a part are those before it and those of the part. -/
theorem atoms_addPart (specs : List ServerVariableSpec) (draft : Draft) (part : Part) :
    (addPart specs draft part).atoms = draft.atoms ++ partAtoms specs part := by
  cases part with
  | text s => rfl
  | token t =>
      rw [addPart, partAtoms]
      cases membersOf specs t with
      | none => rfl
      | some members => rfl

theorem atoms_foldl (specs : List ServerVariableSpec) (draft : Draft) (parts : List Part) :
    (parts.foldl (addPart specs) draft).atoms =
      draft.atoms ++ parts.flatMap (partAtoms specs) := by
  induction parts generalizing draft with
  | nil => exact (List.append_nil _).symm
  | cons part parts ih =>
      rw [List.foldl_cons, ih, atoms_addPart, List.flatMap_cons, List.append_assoc]

/-! ## Atoms -/

theorem mem_partials {members : List Text} {s : Text} :
    s ∈ partials members ↔ ∃ w ∈ members, ∃ n < w.length, s = w.take n := by
  rw [partials, List.mem_mergeSort, List.mem_dedup, List.mem_flatMap]
  refine exists_congr fun w => and_congr_right fun _ => ?_
  rw [List.mem_map]
  refine exists_congr fun n => ?_
  rw [List.mem_range]
  exact and_congr_right fun _ => eq_comm

/-- The proper prefixes of the members, and the empty text when there is none. -/
theorem spells_partials {members : List Text} {s : Text} :
    Re.Spells (.oneOf (partials members)) s ↔
      s = [] ∨ ∃ w ∈ members, ∃ n < w.length, s = w.take n := by
  by_cases hp : partials members = []
  · rw [hp, Re.oneOf, Re.spells_eps, ← mem_partials, hp]
    exact ⟨Or.inl, fun h => h.resolve_right List.not_mem_nil⟩
  · rw [Re.spells_oneOf hp, ← mem_partials]
    refine ⟨Or.inr, fun h => h.elim (fun hs => ?_) id⟩
    -- A member with a proper prefix has the empty one.
    rcases List.exists_mem_of_ne_nil _ hp with ⟨u, hu⟩
    rcases mem_partials.mp hu with ⟨w, hw, n, hn, _⟩
    exact mem_partials.mpr ⟨w, hw, 0, Nat.zero_lt_of_lt hn, hs⟩

theorem members_ne_nil {spec : ServerVariableSpec} (h : spec.enum ≠ []) : members spec ≠ [] := by
  rw [members]
  cases spec.default with
  | none => exact h
  | some default =>
      dsimp only
      split
      · exact h
      · exact List.append_ne_nil_of_left_ne_nil h _

theorem mem_members {spec : ServerVariableSpec} {value : Text} :
    value ∈ members spec ↔ value ∈ spec.enum ∨ spec.default = some value := by
  rw [members]
  cases hd : spec.default with
  | none => simp
  | some default =>
      dsimp only
      rw [Option.some.injEq]
      split
      · next hmem => exact ⟨Or.inl, fun h => h.elim id fun he => he ▸ hmem⟩
      · rw [List.mem_append, List.mem_singleton, eq_comm]

/-- The members are those of the variable of this name, which has an enumeration. -/
theorem membersOf_eq_some {specs : List ServerVariableSpec} {token : Text} {ms : List Text}
    (h : membersOf specs token = some ms) :
    ∃ spec ∈ specs, spec.name = token ∧ spec.enum ≠ [] ∧ ms = members spec := by
  rw [membersOf, Option.map_eq_some_iff] at h
  rcases h with ⟨spec, hspec, rfl⟩
  rw [Option.filter_eq_some_iff] at hspec
  have hname := List.find?_some hspec.1
  simp only [decide_eq_true_eq] at hname
  exact ⟨spec, List.mem_of_find?_eq_some hspec.1, hname, of_decide_eq_true hspec.2, rfl⟩

theorem allowed_of_some {specs : List ServerVariableSpec} {token value : Text} {ms : List Text}
    (hnames : (specs.map ServerVariableSpec.name).Nodup)
    (h : membersOf specs token = some ms) : Allowed specs token value ↔ value ∈ ms := by
  rcases membersOf_eq_some h with ⟨spec, hspec, hname, henum, rfl⟩
  have honly : ∀ spec' ∈ specs, spec'.name = token → spec' = spec := fun spec' hs' hn' =>
    List.inj_on_of_nodup_map hnames hs' hspec (hn'.trans hname.symm)
  rw [mem_members]
  constructor
  · rintro (⟨spec', hs', hn', _, hv⟩ | ⟨hall, _⟩)
    · rw [← honly spec' hs' hn']
      exact hv
    · exact absurd (hall spec hspec hname) henum
  · exact fun hv => Or.inl ⟨spec, hspec, hname, henum, hv⟩

theorem allowed_of_none {specs : List ServerVariableSpec} {token value : Text}
    (hnames : (specs.map ServerVariableSpec.name).Nodup) (h : membersOf specs token = none) :
    Allowed specs token value ↔ value ≠ [] ∧ ∀ c ∈ value, c ≠ '/' := by
  have hplain : ∀ spec ∈ specs, spec.name = token → spec.enum = [] := by
    intro spec hspec hname
    by_contra henum
    rw [membersOf, Option.map_eq_none_iff] at h
    cases hfind : specs.find? (·.name = token) with
    | none =>
        have hno := List.find?_eq_none.mp hfind spec hspec
        exact hno (decide_eq_true hname)
    | some spec' =>
        -- The variable that is found is the only one of its name.
        have hname' := List.find?_some hfind
        simp only [decide_eq_true_eq] at hname'
        have heq : spec' = spec := List.inj_on_of_nodup_map hnames
          (List.mem_of_find?_eq_some hfind) hspec (hname'.trans hname.symm)
        rw [hfind, heq, Option.filter_some, if_pos (decide_eq_true henum)] at h
        exact absurd h (by simp only [reduceCtorEq, not_false_eq_true])
  constructor
  · rintro (⟨spec, hspec, hname, henum, _⟩ | ⟨_, hv⟩)
    · exact absurd (hplain spec hspec hname) henum
    · exact hv
  · exact fun hv => Or.inr ⟨hplain, hv⟩

/-- The allowed values of a placeholder are the full texts of its atom. -/
theorem prod_token {specs : List ServerVariableSpec} {token : Text}
    (hnames : (specs.map ServerVariableSpec.name).Nodup) :
    (((partAtoms specs (.token token)).map factor).map Prod.fst).prod =
      Prefixes.having (Allowed specs token) := by
  rw [partAtoms]
  cases h : membersOf specs token with
  | some ms =>
      rcases membersOf_eq_some h with ⟨spec, _, _, henum, rfl⟩
      ext v
      rw [List.map_singleton, List.map_singleton, List.prod_singleton]
      exact (Re.spells_oneOf (members_ne_nil henum)).trans (allowed_of_some hnames h).symm
  | none =>
      ext v
      rw [List.map_singleton, List.map_singleton, List.prod_singleton]
      refine Re.spells_plus_set.trans ?_
      simp only [decide_eq_true_eq]
      exact (allowed_of_none hnames h).symm

theorem prod_text (specs : List ServerVariableSpec) (s : Text) :
    (((partAtoms specs (.text s)).map factor).map Prod.fst).prod =
      Prefixes.having (· = s) := by
  rw [partAtoms, List.map_map, List.map_map]
  induction s with
  | nil => rfl
  | cons c s ih =>
      ext v
      rw [List.map_cons, List.prod_cons, ih, Language.mem_mul]
      constructor
      · rintro ⟨a, ha, b, rfl, rfl⟩
        rw [Re.spells_text.mp ha]
        rfl
      · rintro rfl
        exact ⟨[c], Re.spells_text.mpr rfl, s, rfl, rfl⟩

/-- Each atom is cut to the prefixes of its full texts. -/
theorem cuts_partAtoms (specs : List ServerVariableSpec) (part : Part) :
    ∀ atom ∈ partAtoms specs part, Prefixes.Cuts (factor atom).1 (factor atom).2 := by
  cases part with
  | text s =>
      rw [partAtoms, List.forall_mem_map]
      intro c _
      have hfull : language (.text [c]) = Prefixes.having (· = [c]) :=
        Language.ext fun w => Re.spells_text
      have hcut : language .eps = 1 := Language.ext fun w => Re.spells_eps
      rw [factor, hfull, hcut]
      exact Prefixes.cuts_word c
  | token t =>
      rw [partAtoms]
      cases h : membersOf specs t with
      | some ms =>
          rcases membersOf_eq_some h with ⟨spec, _, _, henum, rfl⟩
          have hne := members_ne_nil henum
          have hfull : language (.oneOf (members spec)) = Prefixes.having (· ∈ members spec) :=
            Language.ext fun w => Re.spells_oneOf hne
          rw [List.forall_mem_singleton, factor, hfull]
          exact Prefixes.cuts_words hne fun s => spells_partials
      | none =>
          have hfull : language singleSegment =
              Prefixes.having fun w => w ≠ [] ∧ ∀ c ∈ w, c ≠ '/' := by
            ext w
            refine Re.spells_plus_set.trans ?_
            simp only [decide_eq_true_eq]
            rfl
          have hcut : language (.star inSegment) = Prefixes.having fun w => ∀ c ∈ w, c ≠ '/' := by
            ext w
            refine Re.spells_star_set.trans ?_
            simp only [decide_eq_true_eq]
            rfl
          rw [List.forall_mem_singleton, factor, hfull, hcut]
          exact Prefixes.cuts_run ⟨'a', by decide⟩

/-- The instances of a template are the product of the full texts of its atoms. -/
theorem instance_iff {specs : List ServerVariableSpec} {parts : List Part} {w : Text}
    (hnames : (specs.map ServerVariableSpec.name).Nodup) :
    Instance specs parts w ↔
      w ∈ (((parts.flatMap (partAtoms specs)).map factor).map Prod.fst).prod := by
  induction parts generalizing w with
  | nil =>
      constructor
      · intro h
        cases h
        exact Language.nil_mem_one
      · intro h
        rw [(Language.mem_one w).mp h]
        exact .nil
  | cons part parts ih =>
      rw [List.flatMap_cons, List.map_append, List.map_append, List.prod_append, Language.mem_mul]
      cases part with
      | text s =>
          rw [prod_text]
          constructor
          · intro h
            cases h with
            | text _ hw => exact ⟨s, rfl, _, ih.mp hw, rfl⟩
          · rintro ⟨a, rfl, b, hb, rfl⟩
            exact .text a (ih.mpr hb)
      | token t =>
          rw [prod_token hnames]
          constructor
          · intro h
            cases h with
            | token hv hw => exact ⟨_, hv, _, ih.mp hw, rfl⟩
          · rintro ⟨a, ha, b, hb, rfl⟩
            exact .token ha (ih.mpr hb)

/-! ## The expression of the openings -/

/-- The expression of the openings of any template matches the openings of its instances
    and nothing else. -/
theorem fullmatch_prefixLanguage {specs : List ServerVariableSpec} {parts : List Part}
    {s : Text} (hnames : (specs.map ServerVariableSpec.name).Nodup) :
    (prefixLanguage (parts.flatMap (partAtoms specs))).fullmatch s = true ↔
      ∃ w, Instance specs parts w ∧ s <+: w := by
  have hcuts : ∀ f ∈ (parts.flatMap (partAtoms specs)).map factor, Prefixes.Cuts f.1 f.2 := by
    rw [List.forall_mem_map]
    intro atom hatom
    rcases List.mem_flatMap.mp hatom with ⟨part, _, hp⟩
    exact cuts_partAtoms specs part atom hp
  rw [Re.fullmatch_iff, spells_prefixLanguage, Prefixes.chain_eq_closure hcuts,
    Prefixes.mem_closure]
  exact exists_congr fun w => and_congr_left fun _ => (instance_iff hnames).symm

/-- The expression of the openings of a server's base path matches the openings of the
    instances of the base and nothing else, and so a rule is found to stop part-way
    through the base if and only if its path is such an opening. -/
theorem prefixPattern_exact {lib : Stdlib} {serverUrl : Text} {declared : Json}
    {base : BasePath} (h : serverBasePath lib serverUrl declared = some (some base)) :
    ∃ path pattern, basePathOf lib serverUrl = some path ∧ base.prefixPattern = some pattern ∧
      (∀ s, pattern.fullmatch s = true ↔
        ∃ w, Instance (serverVariableSpecs lib declared) (split path) w ∧ s <+: w) ∧
      ∀ s templates, cutsIntoBase s "prefix".toList ⟨[base], templates⟩ false = true ↔
        s ≠ ['/'] ∧
          ∃ w, Instance (serverVariableSpecs lib declared) (split path) w ∧ s <+: w := by
  rw [serverBasePath, Option.map_eq_some_iff] at h
  rcases h with ⟨path, hpath, hbase⟩
  by_cases hroot : path = ['/']
  · rw [if_pos hroot] at hbase
    exact absurd hbase (by simp only [reduceCtorEq, not_false_eq_true])
  · rw [if_neg hroot, Option.some.injEq, atoms_foldl, List.nil_append] at hbase
    have hexact := @fullmatch_prefixLanguage (serverVariableSpecs lib declared) (split path)
    have hnames := serverVariableSpecs_nodup lib declared
    refine ⟨path, _, hpath, hbase ▸ rfl, fun s => hexact hnames, fun s templates => ?_⟩
    rw [← hexact hnames, ← hbase, cutsIntoBase]
    by_cases hs : s = ['/']
    · simp [hs]
    · simp [hs]

/-- A base with a variable whose members and default are of different lengths. -/
theorem prefixPattern_exact_regions :
    ∃ base, serverBasePath .ascii "http://{host}/{region}/v1".toList
        (.obj [("region", .obj [("enum", .arr [.str "eu", .str ""]), ("default", .str "us")])]) =
          some (some base) ∧
      ∃ path pattern, basePathOf .ascii "http://{host}/{region}/v1".toList = some path ∧
        base.prefixPattern = some pattern ∧
        ∀ s, pattern.fullmatch s = true ↔
          ∃ w, Instance (serverVariableSpecs .ascii
            (.obj [("region", .obj [("enum", .arr [.str "eu", .str ""]), ("default", .str "us")])]))
              (split path) w ∧ s <+: w := by
  refine ⟨_, rfl, ?_⟩
  have h := @prefixPattern_exact .ascii "http://{host}/{region}/v1".toList
    (.obj [("region", .obj [("enum", .arr [.str "eu", .str ""]), ("default", .str "us")])]) _ rfl
  rcases h with ⟨path, pattern, hpath, hpattern, hexact, _⟩
  exact ⟨path, pattern, hpath, hpattern, hexact⟩

end BasePaths

end Registry

end JenticOne
