import JenticOne.Registry.UrlIndex

/-!
# Combinations of Bindings

What holds of the combinations the builder makes an entry for: each binds the
declared variables that occur in the server URL, every one once, so that the
variables with a position have different capture groups.

## Theorems

* `usedVariables_nodup`: The names of the variables are distinct.
* `map_fst_of_mem_combos`: A combination binds the variables that are used.
* `captured_tokenize`, `fixedGroups_tokenize`: What becomes of a combination.
* `svGroupName_inj`: The group of a variable has its name.
-/

namespace JenticOne

namespace Registry

variable {lib : Stdlib} {serverUrl : Text} {declared : Json}

/-! ## Names -/

theorem serverVariableSpecs_nodup (lib : Stdlib) (declared : Json) :
    ((serverVariableSpecs lib declared).map ServerVariableSpec.name).Nodup := by
  rw [serverVariableSpecs]
  generalize variableItems lib declared = items
  suffices h : ∀ specs : List ServerVariableSpec, (specs.map ServerVariableSpec.name).Nodup →
      ((items.foldl (addSpec lib) specs).map ServerVariableSpec.name).Nodup from h [] List.nodup_nil
  induction items with
  | nil => exact fun specs h => h
  | cons item items ih =>
      intro specs h
      rw [List.foldl_cons]
      refine ih _ ?_
      rw [addSpec]
      by_cases hseen : item.1 ∈ specs.map ServerVariableSpec.name
      · rw [if_pos hseen]
        exact h
      · rw [if_neg hseen, List.map_append, List.map_singleton, List.nodup_append]
        refine ⟨h, List.nodup_singleton _, fun a ha b hb => ?_⟩
        rw [List.mem_singleton] at hb
        exact fun heq => hseen (by rw [heq, hb] at ha; exact ha)

theorem usedVariables_nodup (lib : Stdlib) (serverUrl : Text) (declared : Json) :
    ((usedVariables lib serverUrl declared).map ServerVariableSpec.name).Nodup :=
  (serverVariableSpecs_nodup lib declared).sublist (List.filter_sublist.map _)

/-! ## Combinations -/

/-- A combination binds the variables that are used, in their order. -/
theorem map_fst_of_mem_combos {used : List ServerVariableSpec} {combo : Combo}
    (h : combo ∈ (combos serverUrl used).1) : combo.map Prod.fst = used := by
  rw [combos] at h
  split at h
  · next hnil =>
      rw [List.mem_singleton.mp h, hnil]
      rfl
  · split at h
    · rw [fallbackBindings] at h
      dsimp only at h
      have hmap : ∀ f : ServerVariableSpec → Binding,
          (used.map fun s => (s, f s)).map Prod.fst = used := by
        intro f
        rw [List.map_map]
        exact List.map_id _
      split at h
      · rcases List.mem_cons.mp h with rfl | h
        · exact hmap _
        · rw [List.mem_singleton.mp h]
          exact hmap _
      · rw [List.mem_singleton.mp h]
        exact hmap _
    · obtain ⟨bindings, hb, rfl⟩ := List.mem_map.mp h
      have hlength := (Lists.mem_product.mp hb).length_eq
      rw [List.length_map] at hlength
      exact List.map_fst_zip (by rw [hlength])

/-- The variables of a combination have distinct names. -/
theorem names_nodup_of_mem_combos {combo : Combo}
    (h : combo ∈ (combos serverUrl (usedVariables lib serverUrl declared)).1) :
    (combo.map fun x => x.1.name).Nodup := by
  have hnames := usedVariables_nodup lib serverUrl declared
  rw [← map_fst_of_mem_combos h, List.map_map] at hnames
  exact hnames

/-! ## What becomes of a combination -/

theorem captured_foldl (combo : Combo) (s : Tokenized) :
    (combo.foldl Tokenized.bind s).captured =
      s.captured ++ combo.filter (fun x => x.2 ≠ .value []) := by
  induction combo generalizing s with
  | nil => rw [List.foldl_nil, List.filter_nil, List.append_nil]
  | cons x combo ih =>
      rw [List.foldl_cons, ih, Tokenized.bind]
      by_cases hx : x.2 = .value []
      · rw [if_pos hx, List.filter_cons_of_neg (by rw [hx]; decide)]
      · rw [if_neg hx, List.filter_cons_of_pos (by rw [decide_eq_true_eq]; exact hx),
          List.append_assoc]
        rfl

/-- The variables that have a position: all but the empty ones. -/
theorem captured_tokenize (serverUrl : Text) (combo : Combo) :
    (tokenize serverUrl combo).captured = combo.filter (fun x => x.2 ≠ .value []) := by
  rw [tokenize, captured_foldl]
  rfl

theorem fixedGroups_foldl (combo : Combo) (s : Tokenized) :
    (combo.foldl Tokenized.bind s).fixedGroups =
      s.fixedGroups ++ (combo.filter (fun x => x.2 = .value [])).map
        (fun x => fixedValueGroup x.1.name []) := by
  induction combo generalizing s with
  | nil => rw [List.foldl_nil, List.filter_nil, List.map_nil, List.append_nil]
  | cons x combo ih =>
      rw [List.foldl_cons, ih, Tokenized.bind]
      by_cases hx : x.2 = .value []
      · rw [if_pos hx, List.filter_cons_of_pos (by rw [hx]; decide), List.map_cons,
          List.append_assoc]
        rfl
      · rw [if_neg hx, List.filter_cons_of_neg (by rw [decide_eq_true_eq]; exact hx)]

/-- The groups of the empty variables. -/
theorem fixedGroups_tokenize (serverUrl : Text) (combo : Combo) :
    (tokenize serverUrl combo).fixedGroups =
      (combo.filter (fun x => x.2 = .value [])).map (fun x => fixedValueGroup x.1.name []) := by
  rw [tokenize, fixedGroups_foldl]
  rfl

theorem names_nodup_captured {combo : Combo} (h : (combo.map fun x => x.1.name).Nodup) :
    ((tokenize serverUrl combo).captured.map fun x => x.1.name).Nodup := by
  rw [captured_tokenize]
  exact h.sublist (List.filter_sublist.map _)

/-- What a placeholder of the index stands for is a variable that has a position. -/
theorem mem_of_serverVariable {captured : Combo} {t : Text} {x : ServerVariableSpec × Binding}
    (h : serverVariable lib captured t = some (some x)) : x ∈ captured := by
  rw [serverVariable] at h
  split at h
  · obtain ⟨n, -, hn⟩ := Option.map_eq_some_iff.mp h
    exact List.mem_of_getElem? hn
  · exact absurd h (by simp only [Option.some.injEq, reduceCtorEq, not_false_eq_true])

/-! ## Groups -/

theorem not_mem_utf8Hex (s : Text) : '_' ∉ s.utf8Hex := fun h =>
  absurd (Text.mem_utf8Hex h) (by decide)

theorem takeWhile_utf8Hex (s rest : Text) (h : rest = [] ∨ rest.head? = some '_') :
    (s.utf8Hex ++ rest).takeWhile (· ≠ '_') = s.utf8Hex := by
  have hall : ∀ c ∈ s.utf8Hex, decide (c ≠ '_') = true := by
    intro c hc
    rw [decide_eq_true_eq]
    exact fun he => not_mem_utf8Hex s (he ▸ hc)
  rw [List.takeWhile_append_of_pos hall]
  rcases h with rfl | h
  · rw [List.takeWhile_nil, List.append_nil]
  · cases rest with
    | nil => rw [List.takeWhile_nil, List.append_nil]
    | cons c cs =>
        rw [List.head?_cons, Option.some.injEq] at h
        rw [h, List.takeWhile_cons_of_neg (by decide), List.append_nil]

/-- The spelling of the name in the group of a variable. -/
theorem svGroupName_name (spec : ServerVariableSpec) :
    ((svGroupName spec).drop svGroupPrefix.length).takeWhile (· ≠ '_') = spec.name.utf8Hex := by
  rw [svGroupName]
  cases spec.default with
  | none =>
      rw [List.drop_left]
      have h := takeWhile_utf8Hex spec.name [] (.inl rfl)
      rw [List.append_nil] at h
      exact h
  | some default =>
      dsimp only
      rw [List.append_assoc, List.drop_left]
      exact takeWhile_utf8Hex spec.name _ (.inr rfl)

/-- Variables with one group have one name. -/
theorem svGroupName_inj {spec spec' : ServerVariableSpec}
    (h : svGroupName spec = svGroupName spec') : spec.name = spec'.name := by
  apply Text.utf8Hex_injective
  rw [← svGroupName_name spec, ← svGroupName_name spec', h]

end Registry

end JenticOne
