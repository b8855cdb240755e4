import JenticOne.Registry.Template

/-!
# Instances of a Path Template

An instance of a template has a value in the place of each placeholder, the same
one wherever a name occurs. The regular expression of a template accepts its
instances and nothing else, where it compiles: which it does when each name may
be made a group of.

A name that is empty, or begins with a digit, makes no group. The placeholders
the index puts in for server variables get no group either, on purpose, so that
one of them that occurs twice is not tied to one value.

## Main definitions

* `Assigns`, `instantiate`: The values of the names, and what they make of a
  template.
* `ExactRegex`: The regular expression is that of the instances.
* `Proper`: Every name makes a group, and no server variable is tied to another.

## Theorems

* `groups_names`: The groups of the names.
* `mem_fullMatches_pathPieces`: The matches, by a value for each placeholder.
* `exactRegex_iff`: Exactly the proper templates have such an expression.
-/

namespace JenticOne

namespace Registry

/-- The name of a placeholder. -/
def paramName (token : Text) : Text := (splitParamToken token).1

/-- `build_path_regex` of a template alone; `none` is an `re.error`. -/
def buildPathRegex (template : Text) : Option Pattern.Regex :=
  Pattern.compile (buildPathPieces template none)

/-- Some parts with each placeholder replaced by the value of its name. -/
def filled (value : Text → Text) (parts : List Part) : Text :=
  parts.flatMap fun
    | .text s => s
    | .token t => value (paramName t)

/-- A template with each placeholder replaced by the value of its name. -/
def instantiate (value : Text → Text) (template : Text) : Text := filled value (split template)

/-- Each name has a value that is not empty, and that is one segment unless each
    placeholder of that name is a catch-all. -/
structure Assigns (template : Text) (value : Text → Text) : Prop where
  nonempty : ∀ t ∈ tokens template, value (paramName t) ≠ []
  segment : ∀ t ∈ tokens template, t.head? ≠ some '+' → '/' ∉ value (paramName t)

/-- The regular expression of a template compiles, accepts its instances and
    nothing else, and keeps its names apart. -/
structure ExactRegex (template : Text) : Prop where
  compiles : (buildPathRegex template).isSome
  accepts : ∀ r, buildPathRegex template = some r → ∀ path, '\n' ∉ path →
    ((r.fullmatch (· == ·) path).isSome ↔
      ∃ value, Assigns template value ∧ instantiate value template = path)
  apart : ∀ name name' g, (pathParamGroupNames [template]).get? name = some g →
    (pathParamGroupNames [template]).get? name' = some g → name = name'

/-- A name that can be made a group of. -/
def Nameable (name : Text) : Prop := name ≠ [] ∧ name.head?.all (fun c => !c.isDigit) = true

instance (name : Text) : Decidable (Nameable name) := inferInstanceAs (Decidable (_ ∧ _))

/-- A placeholder the index puts in for a server variable. -/
def isServerToken (token : Text) : Bool := svTokenPrefix.isPrefixOf token

/-- Every name can be made a group of. A placeholder for a server variable is
    also written with an operator that is no catch-all, or it is the only one of
    its name; no matter where the text around has a line break, and no path
    without one is an instance. -/
structure Proper (template : Text) : Prop where
  named : ∀ t ∈ tokens template, Nameable (paramName t)
  server : (∀ s, .text s ∈ split template → '\n' ∉ s) →
    ∀ t ∈ tokens template, isServerToken t = true →
    (∃ t' ∈ tokens template, t' ≠ t ∧ paramName t' = t ∧ t'.head? ≠ some '+') ∨
      (∀ t' ∈ tokens template, paramName t' = t → t' = t) ∧ (tokens template).count t = 1

/-! ## Names of groups -/

section Groups

/-- The group of a name is its safe form, or that with a number after it, which
    the empty name never needs. -/
def GroupOf (name g : Text) : Prop :=
  g = safeParamName name ∨
    name ≠ [] ∧ ∃ n, g = safeParamName name ++ ['_', '_'] ++ Text.ofNat n

theorem freeGroup_spec (base : Text) (taken : List Text) :
    freeGroup base taken ∉ taken ∧
      (freeGroup base taken = base ∨
        base ∈ taken ∧ ∃ n, freeGroup base taken = base ++ ['_', '_'] ++ Text.ofNat n) := by
  unfold freeGroup
  dsimp only
  cases hfind : (base :: (List.range taken.length).map
      (fun n => base ++ ['_', '_'] ++ Text.ofNat (n + 2))).find? (· ∉ taken) with
  | some g =>
      have hfree := List.find?_some hfind
      rw [decide_eq_true_eq] at hfree
      refine ⟨hfree, ?_⟩
      by_cases hbase : base ∈ taken
      · rcases List.mem_cons.mp (List.mem_of_find?_eq_some hfind) with h | h
        · exact Or.inl h
        · rcases List.mem_map.mp h with ⟨n, _, hn⟩
          exact Or.inr ⟨hbase, n + 2, hn.symm⟩
      · rw [List.find?_cons_of_pos (p := fun x => decide (x ∉ taken)) (decide_eq_true hbase),
          Option.some.injEq] at hfind
        exact Or.inl hfind.symm
  | none =>
      -- There are more candidates than groups that are taken.
      have hall := List.find?_eq_none.mp hfind
      have hnodup : (base :: (List.range taken.length).map
          (fun n => base ++ ['_', '_'] ++ Text.ofNat (n + 2))).Nodup := by
        rw [List.nodup_cons]
        constructor
        · intro hmem
          rcases List.mem_map.mp hmem with ⟨n, _, hn⟩
          have hlen := congrArg List.length hn
          simp only [List.length_append, List.length_cons, List.length_nil] at hlen
          omega
        · refine List.Nodup.map (fun a b hab => ?_) List.nodup_range
          have hnat := Text.ofNat_injective (List.append_cancel_left hab)
          omega
      have hsub := (List.Nodup.subperm hnodup (fun x hx => by
        have hx' := hall x hx
        rw [decide_eq_true_eq, not_not] at hx'
        exact hx')).length_le
      rw [List.length_cons, List.length_map, List.length_range] at hsub
      omega

/-- What the groups are after some placeholders. -/
structure Groups (l : List Text) (groups : Dict Text Text) : Prop where
  named : ∀ name, (groups.get? name).isSome ↔ ∃ t ∈ l, isServerToken t = false ∧ paramName t = name
  shape : ∀ name g, groups.get? name = some g → GroupOf name g
  apart : ∀ name name' g, groups.get? name = some g → groups.get? name' = some g → name = name'

theorem groups_allocate {l : List Text} {groups : Dict Text Text} (h : Groups l groups)
    (t : Text) : Groups (l ++ [t]) (allocate groups t) := by
  have hsnoc : ∀ name, (∃ t' ∈ l ++ [t], isServerToken t' = false ∧ paramName t' = name) ↔
      (∃ t' ∈ l, isServerToken t' = false ∧ paramName t' = name) ∨
        isServerToken t = false ∧ paramName t = name := by
    intro name
    constructor
    · rintro ⟨t', ht', hrest⟩
      rcases List.mem_append.mp ht' with hl | ht
      · exact Or.inl ⟨t', hl, hrest⟩
      · rw [List.mem_singleton.mp ht] at hrest
        exact Or.inr hrest
    · rintro (⟨t', ht', hrest⟩ | hrest)
      · exact ⟨t', List.mem_append_left _ ht', hrest⟩
      · exact ⟨t, List.mem_append_right _ (List.mem_singleton_self t), hrest⟩
  unfold allocate
  by_cases hsv : isServerToken t = true
  · rw [if_pos (show svTokenPrefix.isPrefixOf t = true from hsv)]
    refine ⟨fun name => ?_, h.shape, h.apart⟩
    rw [h.named, hsnoc, hsv]
    simp only [Bool.true_eq_false, false_and, or_false]
  · rw [if_neg (show ¬ svTokenPrefix.isPrefixOf t = true from hsv)]
    rw [Bool.not_eq_true] at hsv
    dsimp only
    cases hget : groups.get? (splitParamToken t).1 with
    | some g =>
        change groups.get? (paramName t) = some g at hget
        refine ⟨fun name => ?_, h.shape, h.apart⟩
        rw [hsnoc, ← h.named]
        refine ⟨Or.inl, fun hor => hor.elim id fun heq => ?_⟩
        rw [← heq.2, hget]
        rfl
    | none =>
        change groups.get? (paramName t) = none at hget
        change Groups _ (groups.set (paramName t)
          (freeGroup (safeParamName (paramName t)) (groups.items.map Prod.snd)))
        rcases freeGroup_spec (safeParamName (paramName t)) (groups.items.map Prod.snd) with
          ⟨hfree, hshape⟩
        generalize freeGroup (safeParamName (paramName t)) (groups.items.map Prod.snd) = g at *
        have hother : ∀ name, groups.get? name ≠ some g := by
          intro name hc
          exact hfree (List.mem_map.mpr
            ⟨(name, g), (Dict.get?_eq_some_iff groups name g).mp hc, rfl⟩)
        refine ⟨fun name => ?_, fun name g' hg => ?_, fun name name' g' hg hg' => ?_⟩
        · rw [Dict.get?_set, hsnoc, ← h.named]
          by_cases hname : paramName t = name
          · rw [if_pos hname]
            exact iff_of_true rfl (Or.inr ⟨hsv, hname⟩)
          · rw [if_neg hname]
            exact (or_iff_left fun hc => hname hc.2).symm
        · rw [Dict.get?_set] at hg
          split at hg
          · rename_i hname
            rw [← Option.some.inj hg, ← hname]
            refine hshape.imp id fun hmore => ⟨fun hnil => ?_, hmore.2⟩
            -- The empty group is taken by the empty name only.
            rcases List.mem_map.mp hmore.1 with ⟨⟨name', g''⟩, hmem, hbase⟩
            have hget' := (Dict.get?_eq_some_iff groups name' g'').mpr hmem
            change g'' = safeParamName (paramName t) at hbase
            rw [hnil] at hbase hget
            rcases h.shape name' g'' hget' with hsafe | ⟨_, n, hlong⟩
            · rw [hbase] at hsafe
              rw [List.map_eq_nil_iff.mp hsafe.symm, hget] at hget'
              exact absurd hget' (by simp only [reduceCtorEq, not_false_eq_true])
            · have hlen := congrArg List.length (hbase.symm.trans hlong)
              simp only [safeParamName, List.map_nil, List.length_append, List.length_cons,
                List.length_nil] at hlen
              omega
          · exact h.shape name g' hg
        · rw [Dict.get?_set] at hg hg'
          split at hg
          · rename_i hname
            split at hg'
            · rename_i hname'
              exact hname.symm.trans hname'
            · exact absurd ((Option.some.inj hg).symm ▸ hg') (hother name')
          · split at hg'
            · exact absurd ((Option.some.inj hg').symm ▸ hg) (hother name)
            · exact h.apart name name' g' hg hg'

theorem groups_foldl {l l' : List Text} {groups : Dict Text Text} (h : Groups l groups) :
    Groups (l ++ l') (l'.foldl allocate groups) := by
  induction l' generalizing l groups with
  | nil =>
      rw [List.append_nil]
      exact h
  | cons t l' ih =>
      have hnext := ih (groups_allocate h t)
      rw [List.append_assoc] at hnext
      exact hnext

/-- The groups of the names of a template. -/
theorem groups_names (template : Text) :
    Groups (tokens template) (pathParamGroupNames [template]) := by
  have hempty : Groups [] (Dict.empty : Dict Text Text) := by
    refine ⟨fun name => ?_, fun name g h => ?_, fun name name' g h => ?_⟩
    · rw [Dict.get?_empty]
      exact ⟨fun h => absurd h Bool.false_ne_true,
        fun ⟨t, ht, _⟩ => absurd ht List.not_mem_nil⟩
    · exact absurd h (by simp only [Dict.get?_empty, reduceCtorEq, not_false_eq_true])
    · exact absurd h (by simp only [Dict.get?_empty, reduceCtorEq, not_false_eq_true])
  have hall : Groups ([] ++ tokens template) ((tokens template).foldl allocate Dict.empty) :=
    groups_foldl hempty
  unfold pathParamGroupNames
  rw [List.flatMap_singleton]
  exact hall

theorem safeParamName_cons (c : Char) (cs : Text) :
    safeParamName (c :: cs) =
      (if c.isAlphanum || c = '_' then c else '_') :: safeParamName cs := rfl

/-- A name is made safe without losing or gaining a digit at its head. -/
theorem head?_safeParamName (name : Text) :
    (safeParamName name).head?.all (fun c => !c.isDigit) =
      name.head?.all (fun c => !c.isDigit) := by
  cases name with
  | nil => rfl
  | cons c cs =>
      rw [safeParamName_cons, List.head?_cons, List.head?_cons, Option.all_some, Option.all_some]
      split
      · rfl
      · rename_i hc
        rw [Bool.or_eq_true, not_or, Char.isAlphanum, Bool.or_eq_true, not_or,
          Bool.not_eq_true] at hc
        rw [Bool.not_eq_true] at hc
        rw [hc.1.2]
        rfl

theorem all_safeParamName (name : Text) :
    (safeParamName name).all (fun c => c.isAlphanum || c = '_') = true := by
  rw [List.all_eq_true]
  intro x hx
  rcases List.mem_map.mp hx with ⟨c, _, hc⟩
  split at hc
  · rename_i hsafe
    rw [← hc]
    exact hsafe
  · rw [← hc]
    rfl

/-- A group is a name an expression may have exactly if it is made of a name that
    can be. -/
theorem isName_iff {name g : Text} (h : GroupOf name g) :
    Pattern.isName g = true ↔ Nameable name := by
  unfold Pattern.isName Nameable
  rw [Bool.and_eq_true, Bool.and_eq_true, decide_eq_true_eq, ← head?_safeParamName name]
  rcases h with rfl | ⟨hne, n, rfl⟩
  · have hnil : safeParamName name ≠ [] ↔ name ≠ [] := by
      unfold safeParamName
      rw [ne_eq, List.map_eq_nil_iff]
    rw [hnil]
    exact and_iff_left (all_safeParamName name)
  · cases name with
    | nil => exact absurd rfl hne
    | cons c cs =>
        rw [safeParamName_cons, List.cons_append, List.cons_append, List.head?_cons,
          List.head?_cons]
        have hall : ((safeParamName (c :: cs) ++ ['_', '_'] ++ Text.ofNat n).all
            (fun c => c.isAlphanum || c = '_')) = true := by
          rw [List.all_append, List.all_append, all_safeParamName, Bool.true_and, Bool.and_eq_true]
          refine ⟨rfl, List.all_eq_true.mpr fun x hx => ?_⟩
          have hdigit : x.isDigit = true := Text.isDigit_of_mem_ofNat hx
          rw [Char.isAlphanum, hdigit, Bool.or_true, Bool.true_or]
        rw [safeParamName_cons, List.cons_append, List.cons_append] at hall
        simp only [ne_eq, reduceCtorEq, not_false_eq_true, true_and, hall, and_true]

end Groups

/-! ## Catch-alls -/

section CatchAlls

/-- What is known of the catch-alls after some placeholders. -/
structure CatchAlls (l : List Text) (catchAll : Dict Text Bool) : Prop where
  named : ∀ name, (catchAll.get? name).isSome ↔
    ∃ t ∈ l, isServerToken t = false ∧ paramName t = name
  all : ∀ name wide, catchAll.get? name = some wide → (wide = true ↔
    ∀ t ∈ l, isServerToken t = false → paramName t = name → t.head? = some '+')

theorem catchAlls_meet {l : List Text} {catchAll : Dict Text Bool} (h : CatchAlls l catchAll)
    (t : Text) : CatchAlls (l ++ [t]) (meet catchAll t) := by
  have hsnoc : ∀ P : Text → Prop, (∃ t' ∈ l ++ [t], P t') ↔ (∃ t' ∈ l, P t') ∨ P t := by
    intro P
    simp only [List.mem_append, List.mem_singleton, or_and_right, exists_or, exists_eq_left]
  have hall : ∀ P : Text → Prop, (∀ t' ∈ l ++ [t], P t') ↔ (∀ t' ∈ l, P t') ∧ P t := by
    intro P
    simp only [List.mem_append, List.mem_singleton, or_imp, forall_and, forall_eq]
  unfold meet
  by_cases hsv : isServerToken t = true
  · rw [if_pos (show svTokenPrefix.isPrefixOf t = true from hsv)]
    constructor
    · intro name
      rw [h.named, hsnoc, hsv]
      simp only [Bool.true_eq_false, false_and, or_false]
    · intro name wide hwide
      rw [h.all name wide hwide, hall, hsv]
      simp only [Bool.true_eq_false, false_implies, and_true]
  · rw [if_neg (show ¬ svTokenPrefix.isPrefixOf t = true from hsv)]
    rw [Bool.not_eq_true] at hsv
    change CatchAlls _ (catchAll.set (paramName t)
      ((catchAll.get? (paramName t)).getD true && decide (t.head? = some '+')))
    constructor
    · intro name
      rw [Dict.get?_set, hsnoc, ← h.named]
      by_cases hname : paramName t = name
      · rw [if_pos hname]
        exact iff_of_true rfl (Or.inr ⟨hsv, hname⟩)
      · rw [if_neg hname]
        exact (or_iff_left fun hc => hname hc.2).symm
    · intro name wide hwide
      rw [Dict.get?_set] at hwide
      rw [hall]
      by_cases hname : paramName t = name
      · rw [if_pos hname, Option.some.injEq] at hwide
        rw [← hwide, Bool.and_eq_true, decide_eq_true_eq, hname]
        refine and_congr ?_ ⟨fun hp _ _ => hp, fun hp => hp hsv rfl⟩
        cases hget : catchAll.get? name with
        | some before => exact h.all name before hget
        | none =>
            refine iff_of_true rfl fun t' ht' hsv' hname' => ?_
            have hsome := (h.named name).mpr ⟨t', ht', hsv', hname'⟩
            rw [hget] at hsome
            exact absurd hsome Bool.false_ne_true
      · rw [if_neg hname] at hwide
        rw [h.all name wide hwide]
        exact (and_iff_left fun _ hc => absurd hc hname).symm

theorem catchAlls_foldl {l l' : List Text} {catchAll : Dict Text Bool} (h : CatchAlls l catchAll) :
    CatchAlls (l ++ l') (l'.foldl meet catchAll) := by
  induction l' generalizing l catchAll with
  | nil =>
      rw [List.append_nil]
      exact h
  | cons t l' ih =>
      have hnext := ih (catchAlls_meet h t)
      rw [List.append_assoc] at hnext
      exact hnext

/-- The catch-alls of a template. -/
theorem catchAlls_names (template : Text) :
    CatchAlls (tokens template) (pathParamCatchAll [template]) := by
  have hempty : CatchAlls [] (Dict.empty : Dict Text Bool) := by
    refine ⟨fun name => ?_, fun name wide h => ?_⟩
    · rw [Dict.get?_empty]
      exact ⟨fun h => absurd h Bool.false_ne_true,
        fun ⟨t, ht, _⟩ => absurd ht List.not_mem_nil⟩
    · exact absurd h (by simp only [Dict.get?_empty, reduceCtorEq, not_false_eq_true])
  have hall : CatchAlls ([] ++ tokens template) ((tokens template).foldl meet Dict.empty) :=
    catchAlls_foldl hempty
  unfold pathParamCatchAll
  rw [List.flatMap_singleton]
  exact hall

end CatchAlls

/-! ## Matches -/

/-- What the piece of a placeholder matches. -/
def bodyOf (catchAll : Dict Text Bool) (t : Text) : Pattern.Body :=
  if (catchAll.get? (paramName t)).getD (splitParamToken t).2 then anySegments else oneSegment

/-- Values for the placeholders of some parts, each with its own, and the text
    they make. -/
inductive Fills (catchAll : Dict Text Bool) : List Part → List (Text × Text) → Text → Prop
  | nil : Fills catchAll [] [] []
  | text {parts us p} (s : Text) (h : Fills catchAll parts us p) :
      Fills catchAll (.text s :: parts) us (s ++ p)
  | token {parts us p} (t v : Text) (hv : (bodyOf catchAll t).Takes v)
      (h : Fills catchAll parts us p) :
      Fills catchAll (.token t :: parts) ((t, v) :: us) (v ++ p)

/-- Placeholders of one group have one value. -/
def Tied (names : Dict Text Text) (us : List (Text × Text)) : Prop :=
  ∀ x ∈ us, ∀ y ∈ us, ∀ g, names.get? (paramName x.1) = some g →
    names.get? (paramName y.1) = some g → x.2 = y.2

section Matches

variable {names : Dict Text Text} {catchAll : Dict Text Bool}

theorem tied_of_cons {x : Text × Text} {us : List (Text × Text)} (h : Tied names (x :: us)) :
    Tied names us :=
  fun x hx y hy => h x (List.mem_cons_of_mem _ hx) y (List.mem_cons_of_mem _ hy)

theorem tied_cons {t v g : Text} {us : List (Text × Text)}
    (hname : names.get? (paramName t) = some g) (h : Tied names us)
    (hsame : ∀ x ∈ us, names.get? (paramName x.1) = some g → x.2 = v) :
    Tied names ((t, v) :: us) := by
  intro x hx y hy g' hgx hgy
  rcases List.mem_cons.mp hx with rfl | hx <;> rcases List.mem_cons.mp hy with rfl | hy
  · rfl
  · rw [hname, Option.some.injEq] at hgx
    rw [← hgx] at hgy
    exact (hsame y hy hgy).symm
  · rw [hname, Option.some.injEq] at hgy
    rw [← hgy] at hgx
    exact hsame x hx hgx
  · exact h x hx y hy g' hgx hgy

theorem pathPieces_token (seen : List Text) (t : Text) (parts : List Part) :
    pathPieces names catchAll seen (.token t :: parts) =
      (pathParamGroup t names seen catchAll).1 ::
        pathPieces names catchAll (pathParamGroup t names seen catchAll).2 parts := rfl

theorem pathParamGroup_none {t : Text} (h : names.get? (paramName t) = none) (seen : List Text) :
    pathParamGroup t names seen catchAll = (.plain (bodyOf catchAll t), seen) := by
  unfold paramName at h
  unfold pathParamGroup
  dsimp only
  rw [h]
  rfl

theorem pathParamGroup_back {t g : Text} {seen : List Text}
    (h : names.get? (paramName t) = some g) (hg : g ∈ seen) :
    pathParamGroup t names seen catchAll = (.back g, seen) := by
  unfold paramName at h
  unfold pathParamGroup
  dsimp only
  rw [h]
  exact if_pos hg

theorem pathParamGroup_group {t g : Text} {seen : List Text}
    (h : names.get? (paramName t) = some g) (hg : g ∉ seen) :
    pathParamGroup t names seen catchAll = (.group g (bodyOf catchAll t), g :: seen) := by
  unfold paramName at h
  unfold pathParamGroup
  dsimp only
  rw [h]
  exact if_neg hg

/-- The pieces compile if each new group has a name it may have. -/
theorem compiles_pathPieces (seen : List Text) (parts : List Part) :
    Pattern.compiles seen (pathPieces names catchAll seen parts) = true ↔
      ∀ t ∈ parts.filterMap Part.token?, ∀ g, names.get? (paramName t) = some g → g ∉ seen →
        Pattern.isName g = true := by
  induction parts generalizing seen with
  | nil => exact iff_of_true rfl fun t ht => absurd ht List.not_mem_nil
  | cons part parts ih =>
      cases part with
      | text s => exact ih seen
      | token t =>
          rw [pathPieces_token,
            List.filterMap_cons_some (show Part.token? (.token t) = some t from rfl),
            List.forall_mem_cons]
          cases hname : names.get? (paramName t) with
          | none =>
              rw [pathParamGroup_none hname]
              exact (ih seen).trans (and_iff_right fun g hg => absurd hg
                (by simp only [reduceCtorEq, not_false_eq_true])).symm
          | some g =>
              by_cases hseen : g ∈ seen
              · rw [pathParamGroup_back hname hseen, Pattern.compiles, decide_eq_true hseen,
                  Bool.true_and, ih seen]
                refine (and_iff_right fun g' hg' hnot => ?_).symm
                exact absurd (Option.some.inj hg' ▸ hseen) hnot
              · rw [pathParamGroup_group hname hseen, Pattern.compiles, decide_eq_true hseen,
                  Bool.and_true, Bool.and_eq_true, ih (g :: seen)]
                constructor
                · rintro ⟨hg, hrest⟩
                  refine ⟨fun g' hg' _ => Option.some.inj hg' ▸ hg, fun t' ht' g' hg' hnot => ?_⟩
                  by_cases heq : g' = g
                  · exact heq ▸ hg
                  · exact hrest t' ht' g' hg' fun hc => (List.mem_cons.mp hc).elim heq hnot
                · rintro ⟨hg, hrest⟩
                  exact ⟨hg g rfl hseen, fun t' ht' g' hg' hnot =>
                    hrest t' ht' g' hg' fun hc => hnot (List.mem_cons_of_mem g hc)⟩

/-- The matches of the pieces, by a value for each placeholder. -/
theorem mem_fullMatches_pathPieces
    (hbody : ∀ t t' g, names.get? (paramName t) = some g → names.get? (paramName t') = some g →
      bodyOf catchAll t = bodyOf catchAll t')
    {parts : List Part} {seen : List Text} {env : Pattern.Env} {p : Text}
    (henv : ∀ g ∈ seen, ∀ t, names.get? (paramName t) = some g →
      ∀ v, env.lookup g = some v → (bodyOf catchAll t).Takes v) :
    (∃ env', env' ∈ Pattern.fullMatches (· == ·) (pathPieces names catchAll seen parts) env p) ↔
      ∃ us, Fills catchAll parts us p ∧ Tied names us ∧
        ∀ x ∈ us, ∀ g ∈ seen, names.get? (paramName x.1) = some g → env.lookup g = some x.2 := by
  induction parts generalizing seen env p with
  | nil =>
      rw [pathPieces]
      constructor
      · rintro ⟨env', h⟩
        rw [(Pattern.mem_fullMatches_nil.mp h).1]
        exact ⟨[], .nil, fun x hx => absurd hx List.not_mem_nil,
          fun x hx => absurd hx List.not_mem_nil⟩
      · rintro ⟨us, hfills, _⟩
        cases hfills
        exact ⟨env, Pattern.mem_fullMatches_nil.mpr ⟨rfl, rfl⟩⟩
  | cons part parts ih =>
      cases part with
      | text s =>
          rw [pathPieces]
          simp only [Pattern.mem_fullMatches_plain]
          constructor
          · rintro ⟨env', v, rest, rfl, rfl, h⟩
            rcases (ih henv).mp ⟨env', h⟩ with ⟨us, hfills, hrest⟩
            exact ⟨us, .text v hfills, hrest⟩
          · rintro ⟨us, hfills, hrest⟩
            cases hfills with
            | text _ hfills =>
                rcases (ih henv).mpr ⟨us, hfills, hrest⟩ with ⟨env', h⟩
                exact ⟨env', s, _, rfl, rfl, h⟩
      | token t =>
          rw [pathPieces_token]
          cases hname : names.get? (paramName t) with
          | none =>
              rw [pathParamGroup_none hname]
              simp only [Pattern.mem_fullMatches_plain]
              have hnone : ∀ {x : Text × Text} {g : Text}, x.1 = t →
                  ¬ names.get? (paramName x.1) = some g := by
                intro x g hx hc
                rw [hx, hname] at hc
                exact absurd hc (by simp only [reduceCtorEq, not_false_eq_true])
              constructor
              · rintro ⟨env', v, rest, htakes, rfl, h⟩
                rcases (ih henv).mp ⟨env', h⟩ with ⟨us, hfills, htied, hrecalls⟩
                refine ⟨(t, v) :: us, .token t v htakes hfills, ?_, ?_⟩
                · intro x hx y hy g hgx hgy
                  rcases List.mem_cons.mp hx with rfl | hx
                  · exact absurd hgx (hnone rfl)
                  · rcases List.mem_cons.mp hy with rfl | hy
                    · exact absurd hgy (hnone rfl)
                    · exact htied x hx y hy g hgx hgy
                · intro x hx g hg hgx
                  rcases List.mem_cons.mp hx with rfl | hx
                  · exact absurd hgx (hnone rfl)
                  · exact hrecalls x hx g hg hgx
              · rintro ⟨us, hfills, htied, hrecalls⟩
                cases hfills with
                | token _ v htakes hfills =>
                    rcases (ih henv).mpr ⟨_, hfills,
                      tied_of_cons htied,
                        fun x hx => hrecalls x (List.mem_cons_of_mem _ hx)⟩ with ⟨env', h⟩
                    exact ⟨env', v, _, htakes, rfl, h⟩
          | some g =>
              by_cases hseen : g ∈ seen
              · rw [pathParamGroup_back hname hseen]
                simp only [Pattern.mem_fullMatches_back]
                constructor
                · rintro ⟨env', v, rest, hlookup, rfl, h⟩
                  rcases (ih henv).mp ⟨env', h⟩ with ⟨us, hfills, htied, hrecalls⟩
                  -- A value that is recalled is that of the group before it.
                  have hsame : ∀ x ∈ us, names.get? (paramName x.1) = some g → x.2 = v := by
                    intro x hx hgx
                    have hrecalled := hrecalls x hx g hseen hgx
                    rw [hlookup] at hrecalled
                    exact (Option.some.inj hrecalled).symm
                  refine ⟨(t, v) :: us, .token t v (henv g hseen t hname v hlookup) hfills,
                    tied_cons hname htied hsame, ?_⟩
                  · intro x hx g' hg' hgx
                    rcases List.mem_cons.mp hx with rfl | hx
                    · rw [hname, Option.some.injEq] at hgx
                      rw [← hgx]
                      exact hlookup
                    · exact hrecalls x hx g' hg' hgx
                · rintro ⟨us, hfills, htied, hrecalls⟩
                  cases hfills with
                  | token _ v htakes hfills =>
                      rcases (ih henv).mpr ⟨_, hfills,
                        tied_of_cons htied,
                        fun x hx => hrecalls x (List.mem_cons_of_mem _ hx)⟩ with ⟨env', h⟩
                      exact ⟨env', v, _, hrecalls _ List.mem_cons_self g hseen hname, rfl, h⟩
              · rw [pathParamGroup_group hname hseen]
                simp only [Pattern.mem_fullMatches_group]
                have hlookup : ∀ (v g' : Text),
                    ((g, v) :: env).lookup g' = if g' = g then some v else env.lookup g' := by
                  intro v g'
                  rw [List.lookup_cons]
                  by_cases heq : g' = g
                  · rw [if_pos heq, heq, beq_self_eq_true]
                  · rw [if_neg heq, beq_false_of_ne heq]
                have henv' : ∀ v, (bodyOf catchAll t).Takes v → ∀ g' ∈ g :: seen, ∀ t',
                    names.get? (paramName t') = some g' →
                    ∀ v', ((g, v) :: env).lookup g' = some v' → (bodyOf catchAll t').Takes v' := by
                  intro v htakes g' hg' t' ht' v' hv'
                  rw [hlookup] at hv'
                  by_cases heq : g' = g
                  · rw [if_pos heq, Option.some.injEq] at hv'
                    rw [heq] at ht'
                    rw [← hv', hbody t' t g ht' hname]
                    exact htakes
                  · rw [if_neg heq] at hv'
                    exact henv g' ((List.mem_cons.mp hg').resolve_left heq) t' ht' v' hv'
                constructor
                · rintro ⟨env', v, rest, htakes, rfl, h⟩
                  rcases (ih (henv' v htakes)).mp ⟨env', h⟩ with ⟨us, hfills, htied, hrecalls⟩
                  have hsame : ∀ x ∈ us, names.get? (paramName x.1) = some g → x.2 = v := by
                    intro x hx hgx
                    have hrecalled := hrecalls x hx g List.mem_cons_self hgx
                    rw [hlookup, if_pos rfl] at hrecalled
                    exact (Option.some.inj hrecalled).symm
                  refine ⟨(t, v) :: us, .token t v htakes hfills, tied_cons hname htied hsame, ?_⟩
                  · intro x hx g' hg' hgx
                    rcases List.mem_cons.mp hx with rfl | hx
                    · rw [hname, Option.some.injEq] at hgx
                      exact absurd (hgx ▸ hg') hseen
                    · have hrecalled := hrecalls x hx g' (List.mem_cons_of_mem g hg') hgx
                      rw [hlookup, if_neg (fun hc : g' = g => hseen (hc ▸ hg'))] at hrecalled
                      exact hrecalled
                · rintro ⟨us, hfills, htied, hrecalls⟩
                  cases hfills with
                  | token _ v htakes hfills =>
                      rename_i us p
                      have hrecalls' : ∀ x ∈ us, ∀ g' ∈ g :: seen,
                          names.get? (paramName x.1) = some g' →
                          ((g, v) :: env).lookup g' = some x.2 := by
                        intro x hx g' hg' hgx
                        rw [hlookup]
                        by_cases heq : g' = g
                        · rw [if_pos heq]
                          rw [heq] at hgx
                          exact congrArg some (htied _ List.mem_cons_self x
                            (List.mem_cons_of_mem _ hx) g hname hgx)
                        · rw [if_neg heq]
                          exact hrecalls x (List.mem_cons_of_mem _ hx) g'
                            ((List.mem_cons.mp hg').resolve_left heq) hgx
                      rcases (ih (henv' v htakes)).mpr ⟨us, hfills,
tied_of_cons htied,
                        hrecalls'⟩ with ⟨env', h⟩
                      exact ⟨env', v, _, htakes, rfl, h⟩

end Matches

/-! ## Filling in values -/

section Filling

variable {catchAll : Dict Text Bool} {parts : List Part} {us : List (Text × Text)} {p : Text}

theorem fills_tokens (h : Fills catchAll parts us p) :
    us.map Prod.fst = parts.filterMap Part.token? := by
  induction h with
  | nil => rfl
  | text s _ ih => exact ih
  | token t v _ _ ih => exact congrArg (t :: ·) ih

theorem fills_takes (h : Fills catchAll parts us p) :
    ∀ x ∈ us, (bodyOf catchAll x.1).Takes x.2 := by
  induction h with
  | nil => exact fun x hx => absurd hx List.not_mem_nil
  | text s _ ih => exact ih
  | token t v hv _ ih => exact List.forall_mem_cons.mpr ⟨hv, ih⟩

theorem fills_of_takes (htokens : us.map Prod.fst = parts.filterMap Part.token?)
    (htakes : ∀ x ∈ us, (bodyOf catchAll x.1).Takes x.2) : ∃ p, Fills catchAll parts us p := by
  induction parts generalizing us with
  | nil =>
      rw [List.map_eq_nil_iff.mp htokens]
      exact ⟨[], .nil⟩
  | cons part parts ih =>
      cases part with
      | text s =>
          rcases ih htokens htakes with ⟨p, hp⟩
          exact ⟨s ++ p, .text s hp⟩
      | token t =>
          cases us with
          | nil =>
              have hnil : [] = t :: parts.filterMap Part.token? := htokens
              exact absurd hnil.symm (List.cons_ne_nil t _)
          | cons x us =>
              rcases x with ⟨t', v⟩
              rcases List.cons.inj htokens with ⟨rfl, hrest⟩
              rw [List.forall_mem_cons] at htakes
              rcases ih hrest htakes.2 with ⟨p, hp⟩
              exact ⟨v ++ p, .token t' v htakes.1 hp⟩

/-- What the values of the names make, where they are the values. -/
theorem filled_of_fills (h : Fills catchAll parts us p) {value : Text → Text}
    (hvalue : ∀ x ∈ us, value (paramName x.1) = x.2) : filled value parts = p := by
  induction h with
  | nil => rfl
  | text s _ ih => exact congrArg (s ++ ·) (ih hvalue)
  | token t v _ _ ih =>
      rw [List.forall_mem_cons] at hvalue
      change value (paramName t) ++ filled value _ = _
      rw [hvalue.1, ih hvalue.2]

theorem mem_of_fills (h : Fills catchAll parts us p) {c : Char} :
    c ∈ p ↔ (∃ s, .text s ∈ parts ∧ c ∈ s) ∨ ∃ x ∈ us, c ∈ x.2 := by
  induction h with
  | nil => simp only [List.not_mem_nil, false_and, exists_false, or_self]
  | text s _ ih =>
      rw [List.mem_append, ih, ← or_assoc]
      refine or_congr_left ⟨?_, ?_⟩
      · rintro (hs | ⟨s', hs', hc⟩)
        · exact ⟨s, List.mem_cons_self, hs⟩
        · exact ⟨s', List.mem_cons_of_mem _ hs', hc⟩
      · rintro ⟨s', hs', hc⟩
        rcases List.mem_cons.mp hs' with heq | hs'
        · rw [← Part.text.inj heq]
          exact Or.inl hc
        · exact Or.inr ⟨s', hs', hc⟩
  | token t v _ _ ih =>
      rw [List.mem_append, ih, or_left_comm]
      refine or_congr ?_ ?_
      · simp only [List.mem_cons, reduceCtorEq, false_or]
      · simp only [List.mem_cons, exists_eq_or_imp]

/-- Values of one character are the values of the names, when these are not
    empty. -/
theorem value_of_fills {value : Text → Text} (h : Fills catchAll parts us p)
    (hone : ∀ x ∈ us, x.2.length = 1) (hvalue : ∀ x ∈ us, value (paramName x.1) ≠ []) :
    p.length ≤ (filled value parts).length ∧
      (filled value parts = p → ∀ x ∈ us, value (paramName x.1) = x.2) := by
  induction h with
  | nil => exact ⟨Nat.le_refl _, fun _ x hx => absurd hx List.not_mem_nil⟩
  | text s _ ih =>
      rcases ih hone hvalue with ⟨hle, hsame⟩
      change _ ≤ (s ++ filled value _).length ∧ (s ++ filled value _ = _ → _)
      rw [List.length_append, List.length_append]
      exact ⟨Nat.add_le_add_left hle _, fun heq => hsame (List.append_cancel_left heq)⟩
  | @token parts us p t v _ _ ih =>
      rw [List.forall_mem_cons] at hone hvalue
      rcases ih hone.2 hvalue.2 with ⟨hle, hsame⟩
      have hpos := List.length_pos_iff.mpr hvalue.1
      have hv : v.length = 1 := hone.1
      change _ ≤ (value (paramName t) ++ filled value parts).length ∧
        (value (paramName t) ++ filled value parts = _ → _)
      rw [List.length_append, List.length_append]
      dsimp only at hpos
      refine ⟨by omega, fun heq => ?_⟩
      -- A longer value leaves too little for the rest.
      have hlen := congrArg List.length heq
      rw [List.length_append, List.length_append] at hlen
      rcases List.append_inj heq (by omega) with ⟨hfirst, hrest⟩
      exact List.forall_mem_cons.mpr ⟨hfirst, hsame hrest⟩

theorem takes_run {t v : Text} (hne : v ≠ []) (hline : '\n' ∉ v) (hslash : '/' ∉ v) :
    (bodyOf catchAll t).Takes v := by
  unfold bodyOf
  split
  · exact ⟨hne, fun c hc hmem => hline (List.mem_singleton.mp hmem ▸ hc)⟩
  · exact ⟨hne, fun c hc hmem => hslash (List.mem_singleton.mp hmem ▸ hc)⟩

end Filling

/-! ## The expression of a template -/

section Template

variable {template : Text} {t : Text}

/-- A placeholder for a server variable is its own name. -/
theorem paramName_server (h : isServerToken t = true) : paramName t = t := by
  unfold isServerToken svTokenPrefix at h
  cases t with
  | nil => exact absurd h Bool.false_ne_true
  | cons c cs =>
      rw [List.isPrefixOf_cons_cons, Bool.and_eq_true, beq_iff_eq] at h
      unfold paramName splitParamToken
      rw [← h.1]
      rfl

theorem head_server (h : isServerToken t = true) : t.head? = some '~' := by
  unfold isServerToken svTokenPrefix at h
  cases t with
  | nil => exact absurd h Bool.false_ne_true
  | cons c cs =>
      rw [List.isPrefixOf_cons_cons, Bool.and_eq_true, beq_iff_eq] at h
      rw [← h.1]
      rfl

theorem nameable_server (h : isServerToken t = true) : Nameable (paramName t) := by
  rw [paramName_server h]
  have hhead := head_server h
  refine ⟨fun hnil => ?_, ?_⟩
  · rw [hnil] at hhead
    exact absurd hhead (by simp only [List.head?_nil, reduceCtorEq, not_false_eq_true])
  · rw [hhead]
    rfl

/-- Another placeholder of the name of a server variable is none itself. -/
theorem not_server_of_ne {t' : Text} (hne : t' ≠ t) (hname : paramName t' = t) :
    isServerToken t' = false := by
  rw [← Bool.not_eq_true]
  intro h
  exact hne ((paramName_server h).symm.trans hname)

theorem buildPathPieces_eq (template : Text) :
    buildPathPieces template none = pathPieces (pathParamGroupNames [template])
      (pathParamCatchAll [template]) [] (split template) := rfl

/-- The expression compiles if every name can be made a group of. -/
theorem buildPathRegex_isSome :
    (buildPathRegex template).isSome ↔ ∀ t ∈ tokens template, Nameable (paramName t) := by
  have hgroups := groups_names template
  have hcompiles : (buildPathRegex template).isSome ↔
      Pattern.compiles [] (buildPathPieces template none) = true := by
    unfold buildPathRegex Pattern.compile
    split
    · rename_i h
      exact iff_of_true rfl h
    · rename_i h
      exact iff_of_false Bool.false_ne_true h
  rw [hcompiles, buildPathPieces_eq, compiles_pathPieces]
  constructor
  · intro h t ht
    by_cases hsv : isServerToken t = true
    · exact nameable_server hsv
    · rcases Option.isSome_iff_exists.mp ((hgroups.named (paramName t)).mpr
        ⟨t, ht, Bool.eq_false_iff.mpr hsv, rfl⟩) with ⟨g, hg⟩
      exact (isName_iff (hgroups.shape _ g hg)).mp (h t ht g hg List.not_mem_nil)
  · intro h t ht g hg _
    exact (isName_iff (hgroups.shape _ g hg)).mpr (h t ht)

/-- The expression accepts what values for the placeholders make, those of one
    name the same. -/
theorem fullmatch_iff_fills {r : Pattern.Regex} (h : buildPathRegex template = some r)
    (path : Text) : (r.fullmatch (· == ·) path).isSome ↔
      ∃ us, Fills (pathParamCatchAll [template]) (split template) us path ∧
        Tied (pathParamGroupNames [template]) us := by
  have hgroups := groups_names template
  have hcatch := catchAlls_names template
  have hbody : ∀ t t' g, (pathParamGroupNames [template]).get? (paramName t) = some g →
      (pathParamGroupNames [template]).get? (paramName t') = some g →
      bodyOf (pathParamCatchAll [template]) t = bodyOf (pathParamCatchAll [template]) t' := by
    intro t t' g hg hg'
    have hname := hgroups.apart _ _ g hg hg'
    have hsome := (hcatch.named (paramName t')).mpr
      ((hgroups.named (paramName t')).mp (Option.isSome_iff_exists.mpr ⟨g, hg'⟩))
    rcases Option.isSome_iff_exists.mp hsome with ⟨wide, hwide⟩
    unfold bodyOf
    rw [hname, hwide]
    rfl
  rw [Pattern.fullmatch_isSome, Pattern.compile_eq_some h, buildPathPieces_eq,
    mem_fullMatches_pathPieces hbody (fun g hg => absurd hg List.not_mem_nil)]
  refine exists_congr fun us => and_congr_right fun _ => and_iff_left ?_
  exact fun x _ g hg => absurd hg List.not_mem_nil

/-- Two placeholders of one name have one value, where no server variable is tied
    to another. -/
theorem same_of_tied (h : Proper template)
    (hline : ∀ s, .text s ∈ split template → '\n' ∉ s) {us : List (Text × Text)} {path : Text}
    (hfills : Fills (pathParamCatchAll [template]) (split template) us path)
    (htied : Tied (pathParamGroupNames [template]) us) :
    ∀ x ∈ us, ∀ y ∈ us, paramName x.1 = paramName y.1 → x.2 = y.2 := by
  intro x hx y hy hname
  have htokens : us.map Prod.fst = tokens template := fills_tokens hfills
  have hmem : ∀ z ∈ us, z.1 ∈ tokens template := fun z hz =>
    htokens ▸ List.mem_map.mpr ⟨z, hz, rfl⟩
  cases hget : (pathParamGroupNames [template]).get? (paramName x.1) with
  | some g => exact htied x hx y hy g hget (hname ▸ hget)
  | none =>
      -- Without a group, both are the one placeholder of a server variable.
      have hserver : ∀ z ∈ us, paramName z.1 = paramName x.1 → isServerToken z.1 = true := by
        intro z hz hzname
        by_contra hc
        have hsome := ((groups_names template).named (paramName x.1)).mpr
          ⟨z.1, hmem z hz, Bool.eq_false_iff.mpr hc, hzname⟩
        rw [hget] at hsome
        exact absurd hsome Bool.false_ne_true
      have hsx := hserver x hx rfl
      have hxname := paramName_server hsx
      have hyx : y.1 = x.1 := by
        rw [← hxname, hname, paramName_server (hserver y hy hname.symm)]
      rcases h.server hline x.1 (hmem x hx) hsx with ⟨t', ht', hne, ht'name, _⟩ | ⟨_, hcount⟩
      · have hsome := ((groups_names template).named (paramName x.1)).mpr
          ⟨t', ht', not_server_of_ne hne ht'name, ht'name.trans hxname.symm⟩
        rw [hget] at hsome
        exact absurd hsome Bool.false_ne_true
      · rw [← htokens, List.count, List.countP_map, List.countP_eq_length_filter,
          List.length_eq_one_iff] at hcount
        rcases hcount with ⟨z, hz⟩
        have hone : ∀ u ∈ us, u.1 = x.1 → u = z := by
          intro u hu hux
          have hfilter : u ∈ us.filter ((fun a => a == x.1) ∘ Prod.fst) :=
            List.mem_filter.mpr ⟨hu, beq_iff_eq.mpr hux⟩
          rw [hz] at hfilter
          exact List.mem_singleton.mp hfilter
        rw [hone x hx rfl, hone y hy hyx]

/-- A placeholder that is no catch-all takes one segment. -/
theorem bodyOf_segment (h : Proper template)
    (hline : ∀ s, .text s ∈ split template → '\n' ∉ s) (ht : t ∈ tokens template)
    (hplus : t.head? ≠ some '+') : bodyOf (pathParamCatchAll [template]) t = oneSegment := by
  have hcatch := catchAlls_names template
  unfold bodyOf
  cases hget : (pathParamCatchAll [template]).get? (paramName t) with
  | none =>
      refine if_neg ?_
      rw [Option.getD_none, splitParamToken, decide_eq_true_eq]
      exact hplus
  | some wide =>
      refine if_neg ?_
      rw [Option.getD_some]
      intro hwide
      have hall := (hcatch.all _ wide hget).mp hwide
      by_cases hsv : isServerToken t = true
      · have hname := paramName_server hsv
        rcases h.server hline t ht hsv with ⟨t', ht', hne, ht'name, hnot⟩ | ⟨honly, _⟩
        · exact hnot (hall t' ht' (not_server_of_ne hne ht'name) (ht'name.trans hname.symm))
        · rcases (hcatch.named (paramName t)).mp (Option.isSome_iff_exists.mpr ⟨wide, hget⟩) with
            ⟨t', ht', hsv', ht'name⟩
          rw [honly t' ht' (ht'name.trans hname), hsv] at hsv'
          exact absurd hsv' (Ne.symm Bool.false_ne_true)
      · exact hplus (hall t ht (Bool.eq_false_iff.mpr hsv) rfl)

/-- Values for the names that make a path are values for the placeholders. -/
theorem fills_of_assigns {value : Text → Text} (h : Assigns template value)
    (hline : '\n' ∉ instantiate value template) :
    ∃ us, Fills (pathParamCatchAll [template]) (split template) us (instantiate value template) ∧
      Tied (pathParamGroupNames [template]) us := by
  have hcatch := catchAlls_names template
  have htakes : ∀ x ∈ (tokens template).map (fun t => (t, value (paramName t))),
      (bodyOf (pathParamCatchAll [template]) x.1).Takes x.2 := by
    intro x hx
    rcases List.mem_map.mp hx with ⟨t, ht, rfl⟩
    have hne := h.nonempty t ht
    unfold bodyOf
    dsimp only
    split
    · refine ⟨hne, fun c hc hmem => hline ?_⟩
      rw [List.mem_singleton.mp hmem] at hc
      rcases List.mem_filterMap.mp ht with ⟨part, hpart, hsome⟩
      cases part with
      | text s => exact absurd hsome (by simp only [Part.token?, reduceCtorEq, not_false_eq_true])
      | token t' =>
          rw [← Option.some.inj hsome] at hc
          exact List.mem_flatMap.mpr ⟨_, hpart, hc⟩
    · rename_i hnot
      refine ⟨hne, fun c hc hmem => ?_⟩
      rw [List.mem_singleton.mp hmem] at hc
      -- Some placeholder of the name is no catch-all.
      cases hget : (pathParamCatchAll [template]).get? (paramName t) with
      | none =>
          rw [hget, Option.getD_none, splitParamToken, decide_eq_true_eq] at hnot
          exact h.segment t ht hnot hc
      | some wide =>
          rw [hget, Option.getD_some, hcatch.all _ wide hget] at hnot
          simp only [not_forall] at hnot
          rcases hnot with ⟨t', ht', _, hname, hplus⟩
          exact h.segment t' ht' hplus (hname ▸ hc)
  rcases @fills_of_takes _ (split template) _ (by
    rw [List.map_map]
    exact List.map_id _) htakes with ⟨p, hfills⟩
  have hfilled : instantiate value template = p := by
    refine filled_of_fills hfills fun x hx => ?_
    rcases List.mem_map.mp hx with ⟨t, _, rfl⟩
    rfl
  refine ⟨_, hfilled ▸ hfills, fun x hx y hy g hgx hgy => ?_⟩
  rcases List.mem_map.mp hx with ⟨t, _, rfl⟩
  rcases List.mem_map.mp hy with ⟨t', _, rfl⟩
  exact congrArg value ((groups_names template).apart _ _ g hgx hgy)

/-- Values for the placeholders that make a path are values for the names. -/
theorem assigns_of_fills (h : Proper template) {us : List (Text × Text)} {path : Text}
    (hfills : Fills (pathParamCatchAll [template]) (split template) us path)
    (htied : Tied (pathParamGroupNames [template]) us) (hpath : '\n' ∉ path) :
    ∃ value, Assigns template value ∧ instantiate value template = path := by
  have hline : ∀ s, .text s ∈ split template → '\n' ∉ s := fun s hs hc =>
    hpath ((mem_of_fills hfills).mpr (Or.inl ⟨s, hs, hc⟩))
  have hsame := same_of_tied h hline hfills htied
  have htokens : us.map Prod.fst = tokens template := fills_tokens hfills
  refine ⟨fun name => ((us.find? fun x => paramName x.1 = name).map Prod.snd).getD [], ?_⟩
  have hvalue : ∀ x ∈ us,
      ((us.find? fun y => paramName y.1 = paramName x.1).map Prod.snd).getD [] = x.2 := by
    intro x hx
    cases hfind : us.find? fun y => paramName y.1 = paramName x.1 with
    | none =>
        have hnone := List.find?_eq_none.mp hfind x hx
        rw [decide_eq_true_eq] at hnone
        exact absurd rfl hnone
    | some y =>
        have hy := List.find?_some hfind
        rw [decide_eq_true_eq] at hy
        exact hsame y (List.mem_of_find?_eq_some hfind) x hx hy
  have hmem : ∀ t ∈ tokens template, ∃ x ∈ us, x.1 = t := fun t ht =>
    List.mem_map.mp (htokens ▸ ht)
  refine ⟨⟨fun t ht => ?_, fun t ht hplus => ?_⟩, filled_of_fills hfills hvalue⟩
  · rcases hmem t ht with ⟨x, hx, rfl⟩
    have htakes := fills_takes hfills x hx
    rw [hvalue x hx]
    unfold bodyOf at htakes
    split at htakes
    · exact htakes.1
    · exact htakes.1
  · rcases hmem t ht with ⟨x, hx, rfl⟩
    have htakes := fills_takes hfills x hx
    rw [bodyOf_segment h hline ht hplus] at htakes
    rw [hvalue x hx]
    exact fun hc => htakes.2 '/' hc (List.mem_singleton_self '/')

theorem exactRegex_of_proper (h : Proper template) : ExactRegex template := by
  refine ⟨buildPathRegex_isSome.mpr h.named, fun r hr path hpath => ?_,
    (groups_names template).apart⟩
  rw [fullmatch_iff_fills hr]
  constructor
  · rintro ⟨us, hfills, htied⟩
    exact assigns_of_fills h hfills htied hpath
  · rintro ⟨value, hassigns, rfl⟩
    exact fills_of_assigns hassigns hpath

/-- Values of one character, tied where they have to be, are the values of the
    names, if the expression is that of the instances. -/
theorem value_of_exactRegex (h : ExactRegex template)
    (hline : ∀ s, .text s ∈ split template → '\n' ∉ s) {us : List (Text × Text)}
    (htokens : us.map Prod.fst = tokens template)
    (htakes : ∀ x ∈ us, (bodyOf (pathParamCatchAll [template]) x.1).Takes x.2)
    (htied : Tied (pathParamGroupNames [template]) us)
    (hone : ∀ x ∈ us, x.2.length = 1 ∧ '\n' ∉ x.2) :
    ∃ value, Assigns template value ∧ ∀ x ∈ us, value (paramName x.1) = x.2 := by
  rcases fills_of_takes htokens htakes with ⟨p, hfills⟩
  rcases Option.isSome_iff_exists.mp h.compiles with ⟨r, hr⟩
  have hp : '\n' ∉ p := by
    intro hc
    rcases (mem_of_fills hfills).mp hc with ⟨s, hs, hcs⟩ | ⟨x, hx, hcx⟩
    · exact hline s hs hcs
    · exact (hone x hx).2 hcx
  rcases (h.accepts r hr p hp).mp ((fullmatch_iff_fills hr p).mpr ⟨us, hfills, htied⟩) with
    ⟨value, hassigns, hvalue⟩
  refine ⟨value, hassigns, (value_of_fills hfills (fun x hx => (hone x hx).1) fun x hx => ?_).2
    hvalue⟩
  exact hassigns.nonempty x.1 (htokens ▸ List.mem_map.mpr ⟨x, hx, rfl⟩)

/-- A name that only server variables and catch-alls have would take a slash. -/
theorem not_catchAll_of_exactRegex (h : ExactRegex template)
    (hline : ∀ s, .text s ∈ split template → '\n' ∉ s) (ht : t ∈ tokens template)
    (hsv : isServerToken t = true) {t' : Text} (ht' : t' ∈ tokens template) (hne : t' ≠ t)
    (hname : paramName t' = t) :
    ∃ t' ∈ tokens template, t' ≠ t ∧ paramName t' = t ∧ t'.head? ≠ some '+' := by
  by_contra hc
  have hcatch := catchAlls_names template
  have hwide : ∀ s, paramName s = t → bodyOf (pathParamCatchAll [template]) s = anySegments := by
    intro s hs
    rcases Option.isSome_iff_exists.mp ((hcatch.named t).mpr
      ⟨t', ht', not_server_of_ne hne hname, hname⟩) with ⟨wide, hget⟩
    have htrue : wide = true := (hcatch.all t wide hget).mpr fun u hu husv huname => by
      by_contra hplus
      refine hc ⟨u, hu, fun heq => ?_, huname, hplus⟩
      rw [heq, hsv] at husv
      exact absurd husv (Ne.symm Bool.false_ne_true)
    unfold bodyOf
    rw [hs, hget, htrue]
    rfl
  have htakes : ∀ x ∈ (tokens template).map
      (fun s => (s, if paramName s = t then ['/'] else ['a'])),
      (bodyOf (pathParamCatchAll [template]) x.1).Takes x.2 := by
    intro x hx
    rcases List.mem_map.mp hx with ⟨s, _, rfl⟩
    by_cases hs : paramName s = t
    · dsimp only
      rw [if_pos hs, hwide s hs]
      refine ⟨List.cons_ne_nil _ _, fun c hc => ?_⟩
      rw [List.mem_singleton.mp hc]
      decide
    · dsimp only
      rw [if_neg hs]
      exact takes_run (List.cons_ne_nil _ _) (by decide) (by decide)
  rcases value_of_exactRegex h hline (by
      rw [List.map_map]
      exact List.map_id _) htakes (fun x hx y hy g hgx hgy => by
      rcases List.mem_map.mp hx with ⟨s, _, rfl⟩
      rcases List.mem_map.mp hy with ⟨s', _, rfl⟩
      dsimp only at hgx hgy ⊢
      rw [(groups_names template).apart _ _ g hgx hgy]) (fun x hx => by
      rcases List.mem_map.mp hx with ⟨s, _, rfl⟩
      dsimp only
      split <;> decide) with ⟨value, hassigns, hvalue⟩
  have htname := paramName_server hsv
  have hslash := hvalue _ (List.mem_map.mpr ⟨t, ht, rfl⟩)
  dsimp only at hslash
  rw [if_pos htname] at hslash
  refine hassigns.segment t ht ?_ (hslash ▸ List.mem_singleton_self '/')
  rw [head_server hsv]
  decide

/-- A server variable of a name of its own, twice, would take two values. -/
theorem count_of_exactRegex (h : ExactRegex template)
    (hline : ∀ s, .text s ∈ split template → '\n' ∉ s) (ht : t ∈ tokens template)
    (hsv : isServerToken t = true) (honly : ∀ t' ∈ tokens template, paramName t' = t → t' = t) :
    (tokens template).count t = 1 := by
  have htname := paramName_server hsv
  rcases List.append_of_mem ht with ⟨before, after, htokens⟩
  rw [htokens, List.count_append, List.count_cons_self]
  by_contra hcount
  have hagain : t ∈ before ∨ t ∈ after := by
    by_contra hc
    rw [not_or] at hc
    rw [List.count_eq_zero_of_not_mem hc.1, List.count_eq_zero_of_not_mem hc.2] at hcount
    exact hcount rfl
  have hungrouped : (pathParamGroupNames [template]).get? (paramName t) = none := by
    rw [← Option.not_isSome_iff_eq_none, (groups_names template).named]
    rintro ⟨t', ht', hsv', hname⟩
    rw [honly t' ht' (hname.trans htname), hsv] at hsv'
    exact absurd hsv' (Ne.symm Bool.false_ne_true)
  have hchars : ('\n' ∉ ['b'] ∧ '/' ∉ ['b']) ∧ '\n' ∉ ['a'] ∧ '/' ∉ ['a'] := by decide
  -- One occurrence gets another value than all the rest.
  have hus : ∀ x ∈ before.map (fun s => (s, ['a'])) ++
      (t, ['b']) :: after.map (fun s => (s, ['a'])), x = (t, ['b']) ∨ x.2 = ['a'] := by
    intro x hx
    rcases List.mem_append.mp hx with hx | hx
    · rcases List.mem_map.mp hx with ⟨s, _, rfl⟩
      exact Or.inr rfl
    · rcases List.mem_cons.mp hx with rfl | hx
      · exact Or.inl rfl
      · rcases List.mem_map.mp hx with ⟨s, _, rfl⟩
        exact Or.inr rfl
  have hungrouped' : ∀ {g : Text},
      ¬ (pathParamGroupNames [template]).get? (paramName t) = some g := by
    intro g hc
    rw [hungrouped] at hc
    exact absurd hc (by simp only [reduceCtorEq, not_false_eq_true])
  rcases @value_of_exactRegex template h hline (before.map (fun s => (s, ['a'])) ++
      (t, ['b']) :: after.map (fun s => (s, ['a']))) (by
      rw [htokens, List.map_append, List.map_cons, List.map_map, List.map_map]
      exact congrArg₂ (· ++ ·) (List.map_id _) (congrArg (t :: ·) (List.map_id _)))
    (fun x hx => by
      rcases hus x hx with rfl | hx
      · exact takes_run (List.cons_ne_nil _ _) hchars.1.1 hchars.1.2
      · rw [hx]
        exact takes_run (List.cons_ne_nil _ _) hchars.2.1 hchars.2.2)
    (fun x hx y hy g hgx hgy => by
      rcases hus x hx with rfl | hx
      · exact absurd hgx hungrouped'
      · rcases hus y hy with rfl | hy
        · exact absurd hgy hungrouped'
        · rw [hx, hy])
    (fun x hx => by
      rcases hus x hx with rfl | hx
      · exact ⟨rfl, hchars.1.1⟩
      · rw [hx]
        exact ⟨rfl, hchars.2.1⟩) with ⟨value, _, hvalue⟩
  have hb := hvalue (t, ['b']) (List.mem_append_right _ List.mem_cons_self)
  have ha : value (paramName t) = ['a'] := by
    rcases hagain with hmem | hmem
    · exact hvalue (t, ['a']) (List.mem_append_left _ (List.mem_map.mpr ⟨t, hmem, rfl⟩))
    · exact hvalue (t, ['a']) (List.mem_append_right _
        (List.mem_cons_of_mem _ (List.mem_map.mpr ⟨t, hmem, rfl⟩)))
  have hdiffer : (['a'] : Text) ≠ ['b'] := by decide
  exact hdiffer (ha.symm.trans hb)

theorem proper_of_exactRegex (h : ExactRegex template) : Proper template := by
  refine ⟨buildPathRegex_isSome.mp h.compiles, fun hline t ht hsv => ?_⟩
  by_cases honly : ∀ t' ∈ tokens template, paramName t' = t → t' = t
  · exact Or.inr ⟨honly, count_of_exactRegex h hline ht hsv honly⟩
  · simp only [not_forall] at honly
    rcases honly with ⟨t', ht', hname, hne⟩
    exact Or.inl (not_catchAll_of_exactRegex h hline ht hsv ht' hne hname)

end Template

/-- The regular expression of a template is that of its instances exactly if the
    template is proper. -/
theorem exactRegex_iff (template : Text) : ExactRegex template ↔ Proper template :=
  ⟨proper_of_exactRegex, exactRegex_of_proper⟩

/-- A name that begins with a digit makes no group. -/
theorem digit_name_refused : ¬ ∀ template, ExactRegex template := by
  intro hclaim
  have hcompiles := (hclaim "/orders/{1st}".toList).compiles
  exact absurd hcompiles (by decide +kernel)

end Registry

end JenticOne
