import JenticOne.Library.Substitution
import JenticOne.Registry.Encoding
import JenticOne.Registry.Template

/-!
# Server Variables in a URL

`apply_server_variables` puts the values of server variables into a URL
template, one name after another: first those it is given, then the defaults.
A value goes in percent-encoded, every character of it that could end a path
segment included. A placeholder is `{name}`, or its percent-encoded form.

What the passes come to is `simultaneous`, the placeholders of the original URL
replaced in one go, wherever no pass finds a placeholder that was not there.
One may be there where a value is itself spelt like a placeholder: `{b}` goes in
as `%7Bb%7D`, which is the percent-encoded placeholder of `b`, and a later pass
for `b` replaces it. Whether there is a later pass depends on the order of the
dictionary.

`expand_server_variables`, which the registry reads server URLs with, puts the
defaults in as they are. The two give the same URL for the same texts, so they
give the same URL for defaults that percent-encoding leaves alone.

## Main definitions

* `quote`: Percent-encoding.
* `serverVarPlaceholder`: The placeholder of a name.
* `applyServerVariables`, `expandServerVariables`: The two substitutions.
* `simultaneous`: All values at once.
* `Undisturbed`: In no order does a pass find a placeholder that was not there.
* `hostAndPath`: Where a request for a URL goes.

## Theorems

* `undisturbed_of_clean`: Values without an opening brace, in a URL without
  stray braces and percent signs.
* `substitution_is_simultaneous`: The law.
* `brace_value_rewritten`: A value that is spelt like a placeholder.
-/

namespace JenticOne

namespace Registry

open Substitution

/-! ## The model -/

def upperHexDigits : Text :=
  ['0', '1', '2', '3', '4', '5', '6', '7', '8', '9', 'A', 'B', 'C', 'D', 'E', 'F']

def upperHexDigit (n : Nat) : Char := (upperHexDigits[n]?).getD '0'

def percentByte (b : UInt8) : Text :=
  ['%', upperHexDigit (b.toNat / 16), upperHexDigit (b.toNat % 16)]

/-- The characters that percent-encoding leaves alone. -/
def unreserved (c : Char) : Bool := c.isAlphanum || ['_', '.', '-', '~'].contains c

def quoteChar (c : Char) : Text :=
  if unreserved c then [c] else (String.utf8EncodeChar c).flatMap percentByte

/-- `quote(value, safe="")`. -/
def quote (value : Text) : Text := value.flatMap quoteChar

/-- What follows an opening brace, as it is or percent-encoded. -/
def afterOpen : Text → Option Text
  | '{' :: cs => some cs
  | '%' :: '7' :: c :: cs => if c = 'B' ∨ c = 'b' then some cs else none
  | _ => none

/-- What follows a closing brace. -/
def afterClose : Text → Option Text
  | '}' :: cs => some cs
  | '%' :: '7' :: c :: cs => if c = 'D' ∨ c = 'd' then some cs else none
  | _ => none

/-- What follows a text. -/
def afterText (t : Text) : Marker Char := fun s =>
  if t.isPrefixOf s then some (s.drop t.length) else none

/-- `_server_var_placeholder`: what follows the placeholder of a name. -/
def serverVarPlaceholder (name : Text) : Marker Char := fun s =>
  (afterOpen s).bind fun s => (afterText name s).bind afterClose

/-- One pass of `apply_server_variables`. -/
def substituteVariable (result : Text) (item : Text × Text) : Text :=
  replaceFrom (serverVarPlaceholder item.1) (quote item.2) 0 result

/-- `apply_server_variables`, with the items of both dictionaries in their
    order. -/
def applyServerVariables (url : Text) (vars defaults : List (Text × Text)) : Text :=
  [vars, defaults].foldl (fun result source => source.foldl substituteVariable result) url

/-- `expand_server_variables`, with the default of each variable, if it has
    one. -/
def expandServerVariables (urlTemplate : Text) (vars : List (Text × Option Text)) : Text :=
  vars.foldl (fun result var => var.2.elim result (result.replace (braced var.1) ·))
    urlTemplate

/-- The characters of a variable's name. -/
def nameChar (c : Char) : Bool := c ≠ '{' && c ≠ '}' && c ≠ '%'

/-- A name that can be told from the braces around it. -/
def PlainName (name : Text) : Prop := ∀ c ∈ name, nameChar c = true

/-- The placeholder a text begins with: its name, and what follows it. -/
def anyPlaceholder (s : Text) : Option (Text × Text) :=
  (afterOpen s).bind fun cs =>
    (afterClose (cs.dropWhile nameChar)).map fun rest => (cs.takeWhile nameChar, rest)

/-- The placeholders of a URL, and the characters between them. -/
def pieces (url : Text) : List (Substitution.Piece Char Text) := parseFrom anyPlaceholder 0 url

/-- Every placeholder of the URL replaced by its value, the given one before the
    default, and no other text changed. -/
def simultaneous (url : Text) (vars defaults : Dict Text Text) : Text :=
  render (fun name => ((vars.get? name).or (defaults.get? name)).map quote) (pieces url)

/-- The values as they go in. -/
def encoded (items : List (Text × Text)) : List (Text × Text) :=
  items.map fun x => (x.1, quote x.2)

/-- In no order of the two dictionaries does a pass find a placeholder of its
    name that the URL did not have: whichever values have been put in at once,
    the placeholders of the next name are those that are left. -/
def Undisturbed (url : Text) (vars defaults : Dict Text Text) : Prop :=
  ∀ vs ds, vs.Perm vars.items → ds.Perm defaults.items →
    Quiet serverVarPlaceholder (pieces url) (encoded (vs ++ ds))

/-- The result is the simultaneous one in every order of the dictionaries. -/
def SubstitutesAtOnce (url : Text) (vars defaults : Dict Text Text) : Prop :=
  ∀ vs ds, vs.Perm vars.items → ds.Perm defaults.items →
    applyServerVariables url vs ds = simultaneous url vars defaults

/-- The host and the normalised path a request for a URL is for. -/
def hostAndPath (lib : Stdlib) (url : Text) : Option (Text × Text) :=
  (parseServerUrl lib url).map fun parsed => (parsed.host, parsed.path)

/-- The declared variables with defaults spelt in some way. -/
def withDefaults (spell : Text → Text) (declared : Dict Text Text) : List (Text × Option Text) :=
  declared.items.map fun x => (x.1, some (spell x.2))

/-- The placeholders of a URL are all spelt with braces. -/
def Braced (url : Text) : Prop :=
  ∀ name spelt, Substitution.Piece.mark name spelt ∈ pieces url → spelt = braced name

/-! ## Placeholders -/

theorem afterOpen_spec {s cs : Text} (h : afterOpen s = some cs) :
    ∃ o, o ≠ [] ∧ s = o ++ cs ∧ ∀ x, afterOpen (o ++ x) = some x := by
  unfold afterOpen at h
  split at h
  · rw [Option.some.injEq] at h
    exact ⟨['{'], List.cons_ne_nil _ _, by rw [h]; rfl, fun _ => rfl⟩
  · rename_i c cs'
    split at h
    · rename_i hc
      rw [Option.some.injEq] at h
      exact ⟨['%', '7', c], List.cons_ne_nil _ _, by rw [h]; rfl, fun _ => if_pos hc⟩
    · exact absurd h (by simp only [reduceCtorEq, not_false_eq_true])
  · exact absurd h (by simp only [reduceCtorEq, not_false_eq_true])

theorem afterClose_spec {s cs : Text} (h : afterClose s = some cs) :
    ∃ o, o ≠ [] ∧ s = o ++ cs ∧ (∀ x, afterClose (o ++ x) = some x) ∧
      ∃ c rest, o = c :: rest ∧ nameChar c = false := by
  unfold afterClose at h
  split at h
  · rw [Option.some.injEq] at h
    exact ⟨['}'], List.cons_ne_nil _ _, by rw [h]; rfl, fun _ => rfl, '}', [], rfl, rfl⟩
  · rename_i c cs'
    split at h
    · rename_i hc
      rw [Option.some.injEq] at h
      exact ⟨['%', '7', c], List.cons_ne_nil _ _, by rw [h]; rfl, fun _ => if_pos hc, '%',
        ['7', c], rfl, rfl⟩
    · exact absurd h (by simp only [reduceCtorEq, not_false_eq_true])
  · exact absurd h (by simp only [reduceCtorEq, not_false_eq_true])

theorem afterText_append (t x : Text) : afterText t (t ++ x) = some x := by
  unfold afterText
  rw [if_pos (by rw [List.isPrefixOf_iff_prefix]; exact List.prefix_append t x), List.drop_left]

/-- What is read as a placeholder is one of its name, whatever follows. -/
theorem reads_anyPlaceholder : Reads serverVarPlaceholder anyPlaceholder := by
  intro s n rest h
  unfold anyPlaceholder at h
  rw [Option.bind_eq_some_iff] at h
  rcases h with ⟨cs, hopen, h⟩
  rw [Option.map_eq_some_iff] at h
  rcases h with ⟨rest', hclose, h⟩
  rw [Prod.mk.injEq] at h
  rcases afterOpen_spec hopen with ⟨o, hne, hs, hafter⟩
  rcases afterClose_spec hclose with ⟨c, _, hcs, hafter', _⟩
  rw [h.2] at hcs
  refine ⟨o ++ (n ++ c), fun hc => hne (List.append_eq_nil_iff.mp hc).1, ?_, fun x => ?_⟩
  · rw [hs, List.append_assoc, List.append_assoc, ← hcs, ← h.1, List.takeWhile_append_dropWhile]
  · unfold serverVarPlaceholder
    rw [List.append_assoc, hafter, Option.bind_some, List.append_assoc, afterText_append,
      Option.bind_some, hafter']

theorem pieces_spec (url : Text) :
    render (fun _ => none) (pieces url) = url ∧ Local serverVarPlaceholder (pieces url) :=
  ⟨(parseFrom_spec reads_anyPlaceholder url).1, (parseFrom_spec reads_anyPlaceholder url).2.1⟩

/-! ## Passes -/

theorem applyServerVariables_eq (url : Text) (vars defaults : List (Text × Text)) :
    applyServerVariables url vars defaults =
      (encoded (vars ++ defaults)).foldl
        (fun s x => replaceFrom (serverVarPlaceholder x.1) x.2 0 s) url := by
  unfold applyServerVariables encoded
  rw [List.foldl_map, List.foldl_append]
  rfl

/-- A dictionary's items may be looked up in any order. -/
theorem find_of_perm {d : Dict Text Text} {l : List (Text × Text)} (h : l.Perm d.items)
    (name : Text) : (l.find? (fun x => x.1 = name)).map Prod.snd = d.get? name := by
  have hnodup : (l.map Prod.fst).Nodup := (h.map Prod.fst).nodup_iff.mpr d.nodup
  change (Dict.mk l hnodup).get? name = d.get? name
  apply Option.ext
  intro v
  rw [Dict.get?_eq_some_iff, Dict.get?_eq_some_iff]
  exact h.mem_iff

theorem valueOf_encoded (items : List (Text × Text)) (name : Text) :
    valueOf (encoded items) name =
      ((items.find? (fun x => x.1 = name)).map Prod.snd).map quote := by
  unfold valueOf encoded
  rw [List.find?_map]
  change Option.map Prod.snd (Option.map (fun x : Text × Text => (x.1, quote x.2))
    (items.find? (fun x => x.1 = name))) = _
  cases items.find? (fun x => x.1 = name) <;> rfl

theorem valueOf_encoded_append {vars defaults : Dict Text Text} {vs ds : List (Text × Text)}
    (hvs : vs.Perm vars.items) (hds : ds.Perm defaults.items) :
    valueOf (encoded (vs ++ ds)) =
      fun name => ((vars.get? name).or (defaults.get? name)).map quote := by
  funext name
  have hsplit : encoded (vs ++ ds) = encoded vs ++ encoded ds := List.map_append
  rw [hsplit, valueOf_append, valueOf_encoded, valueOf_encoded, find_of_perm hvs,
    find_of_perm hds]
  cases vars.get? name <;> rfl

theorem substitutesAtOnce_of_undisturbed {url : Text} {vars defaults : Dict Text Text}
    (h : Undisturbed url vars defaults) : SubstitutesAtOnce url vars defaults := by
  intro vs ds hvs hds
  rcases pieces_spec url with ⟨hrender, hlocal⟩
  rw [applyServerVariables_eq]
  conv_lhs => rw [← hrender]
  rw [foldl_replace hlocal (h vs ds hvs hds), valueOf_encoded_append hvs hds]
  rfl

/-! ## The defaults as they are -/

/-- A replacement of texts is a pass over the markers that are that text. -/
theorem replaceFrom_text {old : Text} (hold : old ≠ []) (new : Text) (skip : Nat) (s : Text) :
    Text.replaceFrom old new skip s = replaceFrom (afterText old) new skip s := by
  induction s generalizing skip with
  | nil => cases skip <;> rfl
  | cons c cs ih =>
      cases skip with
      | succ skip => exact ih skip
      | zero =>
          unfold Text.replaceFrom replaceFrom afterText
          by_cases hprefix : old.isPrefixOf (c :: cs) = true
          · have hle := (List.isPrefixOf_iff_prefix.mp hprefix).length_le
            have hpos := List.length_pos_iff.mpr hold
            rw [if_pos hprefix, if_pos hprefix]
            dsimp only
            rw [ih, List.length_drop, show cs.length - ((c :: cs).length - old.length) =
              old.length - 1 by rw [List.length_cons] at hle ⊢; omega]
            rfl
          · rw [if_neg hprefix, if_neg hprefix]
            dsimp only
            rw [ih]
            rfl

theorem expandServerVariables_eq (url : Text) (spell : Text → Text) (items : List (Text × Text)) :
    expandServerVariables url (items.map fun x => (x.1, some (spell x.2))) =
      (items.map fun x => (x.1, spell x.2)).foldl
        (fun s x => replaceFrom (afterText (braced x.1)) x.2 0 s) url := by
  unfold expandServerVariables
  rw [List.foldl_map, List.foldl_map]
  refine congrArg (fun f => items.foldl f url) (funext fun s => funext fun x => ?_)
  exact replaceFrom_text (List.cons_ne_nil _ _) _ 0 s

/-- A placeholder spelt with braces is a placeholder. -/
theorem placeholder_of_braced (name s : Text) (h : (afterText (braced name) s).isSome = true) :
    (serverVarPlaceholder name s).isSome = true := by
  unfold afterText at h
  split at h
  · rename_i hprefix
    rcases List.isPrefixOf_iff_prefix.mp hprefix with ⟨rest, rfl⟩
    unfold braced serverVarPlaceholder
    rw [List.cons_append, List.append_assoc]
    change ((afterText name (name ++ (['}'] ++ rest))).bind afterClose).isSome = true
    rw [afterText_append]
    rfl
  · exact absurd h (by decide)

/-- Where all placeholders have braces, the two substitutions of the same texts
    give the same URL. -/
theorem apply_eq_expand {url : Text} {declared : Dict Text Text} (hbraced : Braced url)
    (h : Undisturbed url Dict.empty declared) :
    applyServerVariables url [] declared.items =
      expandServerVariables url (withDefaults quote declared) := by
  rcases pieces_spec url with ⟨hrender, hlocal⟩
  have hlocal' : Local (fun name => afterText (braced name)) (pieces url) := by
    intro name spelt hmem
    rw [hbraced name spelt hmem]
    exact ⟨List.cons_ne_nil _ _, fun x => afterText_append _ x⟩
  have hquiet : Quiet serverVarPlaceholder (pieces url) (encoded declared.items) :=
    h [] declared.items (List.Perm.refl _) (List.Perm.refl _)
  have hquiet' : Quiet (fun name => afterText (braced name)) (pieces url)
      (encoded declared.items) := by
    intro done name new todo hsplit
    refine le_antisymm ?_ (left_le_starts hlocal' _ name)
    rw [← hquiet done name new todo hsplit]
    exact starts_mono (placeholder_of_braced name) _
  rw [applyServerVariables_eq, List.nil_append]
  unfold withDefaults
  rw [expandServerVariables_eq]
  conv_lhs => rw [← hrender]
  conv_rhs => rw [← hrender]
  rw [foldl_replace hlocal hquiet]
  exact (foldl_replace hlocal' hquiet').symm

/-- Percent-encoding leaves a text of unreserved characters alone. -/
theorem quote_of_unreserved {value : Text} (h : ∀ c ∈ value, unreserved c = true) :
    quote value = value := by
  induction value with
  | nil => rfl
  | cons c cs ih =>
      unfold quote at ih ⊢
      rw [List.flatMap_cons, ih (fun c' hc' => h c' (List.mem_cons_of_mem c hc'))]
      unfold quoteChar
      rw [if_pos (h c List.mem_cons_self)]
      rfl

theorem withDefaults_of_unreserved {declared : Dict Text Text}
    (h : ∀ x ∈ declared.items, ∀ c ∈ x.2, unreserved c = true) :
    withDefaults quote declared = withDefaults id declared := by
  unfold withDefaults
  refine List.map_congr_left fun x hx => ?_
  rw [quote_of_unreserved (h x hx)]
  rfl

/-! ## Where no placeholder comes about -/

/-- A text in which no placeholder begins, whatever follows it. -/
def Shut (t : Text) : Prop :=
  ∀ name s, starts (serverVarPlaceholder name) (t ++ s) = starts (serverVarPlaceholder name) s

theorem shut_append {t u : Text} (ht : Shut t) (hu : Shut u) : Shut (t ++ u) := by
  intro name s
  rw [List.append_assoc, ht, hu]

theorem shut_flatMap {β : Type} {f : β → Text} {l : List β} (h : ∀ b ∈ l, Shut (f b)) :
    Shut (l.flatMap f) := by
  induction l with
  | nil => exact fun _ _ => rfl
  | cons b l ih =>
      rw [List.flatMap_cons]
      exact shut_append (h b List.mem_cons_self)
        (ih fun b' hb' => h b' (List.mem_cons_of_mem b hb'))

/-- No placeholder begins where no opening brace does. -/
theorem starts_cons_of_closed {c : Char} {s : Text} (h : afterOpen (c :: s) = none)
    (name : Text) : starts (serverVarPlaceholder name) (c :: s) =
      starts (serverVarPlaceholder name) s := by
  have hnone : serverVarPlaceholder name (c :: s) = none := by
    unfold serverVarPlaceholder
    rw [h]
    rfl
  rw [starts_cons, hnone, Option.isSome_none, if_neg (by decide), Nat.zero_add]

theorem afterOpen_of_ne {c : Char} (h : c ≠ '{') (h' : c ≠ '%') (s : Text) :
    afterOpen (c :: s) = none := by
  unfold afterOpen
  split
  · rename_i heq
    rw [List.cons.injEq] at heq
    exact absurd heq.1 h
  · rename_i heq
    rw [List.cons.injEq] at heq
    exact absurd heq.1 h'
  · rfl

theorem shut_char {c : Char} (h : c ≠ '{') (h' : c ≠ '%') : Shut [c] :=
  fun name s => starts_cons_of_closed (afterOpen_of_ne h h' s) name

theorem shut_chars {t : Text} (h : ∀ c ∈ t, c ≠ '{' ∧ c ≠ '%') : Shut t := by
  have hflat : t.flatMap (fun c => [c]) = t := List.flatMap_singleton' t
  rw [← hflat]
  exact shut_flatMap fun c hc => shut_char (h c hc).1 (h c hc).2

/-- A percent-encoded byte other than that of an opening brace. -/
theorem shut_percent {a b : Char} (ha : a ≠ '{' ∧ a ≠ '%') (hb : b ≠ '{' ∧ b ≠ '%')
    (h : ¬ (a = '7' ∧ (b = 'B' ∨ b = 'b'))) : Shut ['%', a, b] := by
  intro name s
  have hclosed : afterOpen ('%' :: a :: b :: s) = none := by
    unfold afterOpen
    split
    · rename_i heq
      rw [List.cons.injEq] at heq
      exact absurd heq.1 (by decide)
    · rename_i heq
      rw [List.cons.injEq, List.cons.injEq, List.cons.injEq] at heq
      rw [← heq.2.2.1]
      exact if_neg (fun hc => h ⟨heq.2.1, hc⟩)
    · rfl
  change starts (serverVarPlaceholder name) ('%' :: a :: b :: s) = _
  rw [starts_cons_of_closed hclosed]
  exact shut_append (shut_char ha.1 ha.2) (shut_char hb.1 hb.2) name s

theorem upperHexDigit_ne (n : Nat) : upperHexDigit n ≠ '{' ∧ upperHexDigit n ≠ '%' := by
  have hmem : upperHexDigit n ∈ upperHexDigits := by
    unfold upperHexDigit
    cases hget : upperHexDigits[n]? with
    | none => exact List.mem_cons_self
    | some c => exact List.mem_of_getElem? hget
  have hall : upperHexDigits.all Char.isAlphanum = true := rfl
  have halnum := List.all_eq_true.mp hall _ hmem
  constructor <;> intro he <;> rw [he] at halnum <;> exact absurd halnum (by decide)

theorem upperHexDigit_seven : ∀ n < 16, upperHexDigit n = '7' → n = 7 := by
  decide

theorem upperHexDigit_letter :
    ∀ n < 16, (upperHexDigit n = 'B' ∨ upperHexDigit n = 'b') → n = 11 := by
  decide

/-- The bytes of a character that is not an opening brace. -/
theorem byte_ne_brace {c : Char} (hc : c ≠ '{') {b : UInt8} (hb : b ∈ String.utf8EncodeChar c) :
    b.toNat ≠ 0x7B := by
  by_cases hascii : c.toNat < 128
  · have hv : c.val.toNat ≤ 127 := Nat.le_of_lt_succ hascii
    rw [String.utf8EncodeChar] at hb
    rw [if_pos hv, List.mem_singleton] at hb
    rw [hb, UInt8.toNat_ofNat', Nat.mod_eq_of_lt (by omega)]
    intro hbrace
    refine hc ?_
    rw [← Char.ofNat_toNat c, show c.toNat = 0x7B from hbrace]
  · have hge := byte_ge (Nat.le_of_not_lt hascii) hb
    omega

/-- A value without an opening brace, as it goes in. -/
theorem shut_quote {value : Text} (h : '{' ∉ value) : Shut (quote value) := by
  refine shut_flatMap fun c hc => ?_
  have hne : c ≠ '{' := fun he => h (by rw [← he]; exact hc)
  unfold quoteChar
  split
  · rename_i hkept
    exact shut_char hne (fun he => by rw [he] at hkept; exact absurd hkept (by decide))
  · refine shut_flatMap fun b hb => shut_percent (upperHexDigit_ne _) (upperHexDigit_ne _) ?_
    rintro ⟨hhigh, hlow⟩
    have hlt := UInt8.toNat_lt b
    have hseven := upperHexDigit_seven _ (by omega) hhigh
    have heleven := upperHexDigit_letter _ (by omega) hlow
    exact byte_ne_brace hne hb (by omega)

theorem shut_tail_of_open {s cs : Text} (h : afterOpen s = some cs) :
    ∃ a o, s = a :: o ++ cs ∧ Shut o := by
  unfold afterOpen at h
  split at h
  · rw [Option.some.injEq] at h
    exact ⟨'{', [], by rw [h]; rfl, fun _ _ => rfl⟩
  · rename_i c cs'
    split at h
    · rename_i hc
      rw [Option.some.injEq] at h
      refine ⟨'%', ['7', c], by rw [h]; rfl, shut_chars fun x hx => ?_⟩
      rcases List.mem_cons.mp hx with rfl | hx
      · exact ⟨by decide, by decide⟩
      · rw [List.mem_singleton.mp hx]
        rcases hc with rfl | rfl <;> exact ⟨by decide, by decide⟩
    · exact absurd h (by simp only [reduceCtorEq, not_false_eq_true])
  · exact absurd h (by simp only [reduceCtorEq, not_false_eq_true])

theorem shut_of_close {s cs : Text} (h : afterClose s = some cs) :
    ∃ c, s = c ++ cs ∧ Shut c := by
  unfold afterClose at h
  split at h
  · rw [Option.some.injEq] at h
    exact ⟨['}'], by rw [h]; rfl, shut_char (by decide) (by decide)⟩
  · rename_i c cs'
    split at h
    · rename_i hc
      rw [Option.some.injEq] at h
      refine ⟨['%', '7', c], by rw [h]; rfl, ?_⟩
      rcases hc with rfl | rfl <;>
        exact shut_percent ⟨by decide, by decide⟩ ⟨by decide, by decide⟩ (by decide)
    · exact absurd h (by simp only [reduceCtorEq, not_false_eq_true])
  · exact absurd h (by simp only [reduceCtorEq, not_false_eq_true])

theorem nameChar_ne {c : Char} (h : nameChar c = true) : c ≠ '{' ∧ c ≠ '%' := by
  constructor <;> intro he <;> rw [he] at h <;> exact absurd h (by decide)

/-- A plain name that is followed by a closing brace is all that comes before
    the brace. -/
theorem takeWhile_of_afterText {name s cs rest : Text} (hname : PlainName name)
    (h : afterText name s = some cs) (hclose : afterClose cs = some rest) :
    s.takeWhile nameChar = name := by
  unfold afterText at h
  split at h
  · rename_i hprefix
    rcases List.isPrefixOf_iff_prefix.mp hprefix with ⟨t, rfl⟩
    rw [List.drop_left, Option.some.injEq] at h
    rcases afterClose_spec hclose with ⟨o, _, hcs, _, c, tail, ho, hc⟩
    rw [h, hcs, ho, List.cons_append, List.takeWhile_append_of_pos hname,
      List.takeWhile_cons_of_neg (by rw [hc]; decide), List.append_nil]
  · exact absurd h (by simp only [reduceCtorEq, not_false_eq_true])

/-- Where a placeholder of one name begins, so does one of a plain name just if
    it is that name, and none begins further on in it. -/
theorem starts_placeholder {k spelt rest : Text} (hne : spelt ≠ [])
    (hread : anyPlaceholder (spelt ++ rest) = some (k, rest))
    (hmark : ∀ x, serverVarPlaceholder k (spelt ++ x) = some x) {name : Text}
    (hname : PlainName name) (s : Text) :
    starts (serverVarPlaceholder name) (spelt ++ s) =
      (if k = name then 1 else 0) + starts (serverVarPlaceholder name) s := by
  unfold anyPlaceholder at hread
  rw [Option.bind_eq_some_iff] at hread
  rcases hread with ⟨cs, hopen, hread⟩
  rw [Option.map_eq_some_iff] at hread
  rcases hread with ⟨rest', hclose, hread⟩
  rw [Prod.mk.injEq] at hread
  rw [hread.2] at hclose
  rcases shut_tail_of_open hopen with ⟨a, o, hsplit, hshut⟩
  rcases shut_of_close hclose with ⟨c, hcs, hshut'⟩
  have hk : PlainName k := by
    intro x hx
    rw [← hread.1] at hx
    exact List.mem_takeWhile_imp hx
  have hspelt : spelt = a :: (o ++ (k ++ c)) := by
    have hcs' : cs = k ++ (c ++ rest) := by
      rw [← hcs, ← hread.1, List.takeWhile_append_dropWhile]
    rw [hcs', ← List.append_assoc k, ← List.append_assoc (a :: o)] at hsplit
    exact (List.append_left_inj rest).mp hsplit
  have hinner : Shut (o ++ (k ++ c)) :=
    shut_append hshut (shut_append (shut_chars fun x hx => nameChar_ne (hk x hx)) hshut')
  have hhead : (serverVarPlaceholder name (spelt ++ s)).isSome = true ↔ k = name := by
    constructor
    · intro h
      rcases Option.isSome_iff_exists.mp h with ⟨x, hx⟩
      have hk' := hmark s
      unfold serverVarPlaceholder at hx hk'
      rw [Option.bind_eq_some_iff] at hx hk'
      rcases hx with ⟨cs1, hopen1, hx⟩
      rcases hk' with ⟨cs2, hopen2, hk'⟩
      rw [hopen1, Option.some.injEq] at hopen2
      rw [← hopen2, Option.bind_eq_some_iff] at hk'
      rw [Option.bind_eq_some_iff] at hx
      rcases hx with ⟨t1, htext1, hclose1⟩
      rcases hk' with ⟨t2, htext2, hclose2⟩
      rw [← takeWhile_of_afterText hk htext2 hclose2,
        takeWhile_of_afterText hname htext1 hclose1]
    · intro h
      rw [← h, hmark s]
      rfl
  rw [hspelt] at hhead ⊢
  rw [List.cons_append] at hhead ⊢
  rw [starts_cons, hinner name s]
  by_cases hkn : k = name
  · rw [if_pos (hhead.mpr hkn), if_pos hkn]
  · rw [if_neg (fun h => hkn (hhead.mp h)), if_neg hkn]

/-- The characters of a URL outside its placeholders are none that a placeholder
    can begin with. -/
def CleanUrl (url : Text) : Prop :=
  ∀ c, Substitution.Piece.plain c ∈ pieces url → c ≠ '{' ∧ c ≠ '%'

/-- Variables have plain names, and values without an opening brace. -/
def CleanItems (items : List (Text × Text)) : Prop :=
  ∀ x ∈ items, PlainName x.1 ∧ '{' ∉ x.2

/-- Where values without an opening brace have been put in, the placeholders of
    a plain name are those that are left. -/
theorem starts_eq_left {f : Text → Option Text} (hf : ∀ k v, f k = some v → Shut v)
    {name : Text} (hname : PlainName name) {ps : List (Substitution.Piece Char Text)}
    (hplain : ∀ c, Substitution.Piece.plain c ∈ ps → c ≠ '{' ∧ c ≠ '%')
    (hmarks : ∀ k spelt, Substitution.Piece.mark k spelt ∈ ps → spelt ≠ [] ∧
      (∃ rest, anyPlaceholder (spelt ++ rest) = some (k, rest)) ∧
      ∀ x, serverVarPlaceholder k (spelt ++ x) = some x) :
    starts (serverVarPlaceholder name) (render f ps) = Substitution.left f name ps := by
  induction ps with
  | nil =>
      unfold Substitution.left count
      split <;> rfl
  | cons p ps ih =>
      have ih := ih (fun c hc => hplain c (List.mem_cons_of_mem p hc))
        (fun k spelt hmem => hmarks k spelt (List.mem_cons_of_mem p hmem))
      change starts (serverVarPlaceholder name) (p.render f ++ render f ps) =
        Substitution.left f name (p :: ps)
      cases p with
      | plain c =>
          have hc := hplain c List.mem_cons_self
          rw [left_cons_plain, ← ih]
          exact shut_char hc.1 hc.2 name (render f ps)
      | mark k spelt =>
          rcases hmarks k spelt List.mem_cons_self with ⟨hne, ⟨rest, hread⟩, hmark⟩
          rw [left_cons_mark, Piece.render_mark]
          cases hfk : f k with
          | some v =>
              rw [Option.getD_some, hf k v hfk name (render f ps), ih, if_neg, Nat.zero_add]
              rintro ⟨rfl, hnone⟩
              rw [hfk] at hnone
              exact absurd hnone (by simp only [reduceCtorEq, not_false_eq_true])
          | none =>
              rw [Option.getD_none, starts_placeholder hne hread hmark hname, ih]
              by_cases hk : k = name
              · rw [if_pos hk, if_pos ⟨hk, by rw [← hk]; exact hfk⟩]
              · rw [if_neg hk, if_neg (fun hc => hk hc.1)]

/-- Values without an opening brace, in a URL whose braces and percent signs are
    those of its placeholders. -/
theorem undisturbed_of_clean {url : Text} {vars defaults : Dict Text Text} (hurl : CleanUrl url)
    (hvars : CleanItems vars.items) (hdefaults : CleanItems defaults.items) :
    Undisturbed url vars defaults := by
  intro vs ds hvs hds done name new todo hsplit
  rcases parseFrom_spec reads_anyPlaceholder url with ⟨_, hlocal, hread⟩
  -- Every pass is that of a variable.
  have hitem : ∀ x ∈ encoded (vs ++ ds), PlainName x.1 ∧ Shut x.2 := by
    intro x hx
    rcases List.mem_map.mp hx with ⟨y, hy, rfl⟩
    have hy' : PlainName y.1 ∧ '{' ∉ y.2 := by
      rcases List.mem_append.mp hy with hy | hy
      · exact hvars y (hvs.mem_iff.mp hy)
      · exact hdefaults y (hds.mem_iff.mp hy)
    exact ⟨hy'.1, shut_quote hy'.2⟩
  rw [hsplit] at hitem
  refine starts_eq_left (fun k v hv => ?_)
    (hitem _ (List.mem_append_right done List.mem_cons_self)).1 hurl
    (fun k spelt hmem => ⟨(hlocal k spelt hmem).1, hread k spelt hmem, (hlocal k spelt hmem).2⟩)
  unfold valueOf at hv
  rcases Option.map_eq_some_iff.mp hv with ⟨x, hx, rfl⟩
  exact (hitem x (List.mem_append_left _ (List.mem_of_find?_eq_some hx))).2

/-! ## The law -/

/-- A server URL with its declared defaults put in goes where the registry
    expands it to with the same defaults percent-encoded, and to the very URL
    the registry expands where percent-encoding leaves the defaults alone. -/
def AgreesWithIndex (lib : Stdlib) (url : Text) (declared : Dict Text Text) : Prop :=
  hostAndPath lib (applyServerVariables url [] declared.items) =
      hostAndPath lib (expandServerVariables url (withDefaults quote declared)) ∧
    ((∀ x ∈ declared.items, ∀ c ∈ x.2, unreserved c = true) →
      applyServerVariables url [] declared.items =
        expandServerVariables url (withDefaults id declared))

/-- Where no pass finds a placeholder that was not there, the placeholders of
    the original URL are replaced at once, in every order of the dictionaries;
    with values that have no opening brace none does. For a server URL and its
    declared defaults the result is the one of the registry for the defaults
    percent-encoded. -/
theorem substitution_is_simultaneous (lib : Stdlib) (url : Text) (vars defaults : Dict Text Text) :
    (Undisturbed url vars defaults → SubstitutesAtOnce url vars defaults) ∧
      (CleanUrl url → CleanItems vars.items → CleanItems defaults.items →
        Undisturbed url vars defaults) ∧
      (Braced url → Undisturbed url Dict.empty defaults → AgreesWithIndex lib url defaults) := by
  refine ⟨substitutesAtOnce_of_undisturbed, undisturbed_of_clean, fun hbraced h => ⟨?_, ?_⟩⟩
  · rw [apply_eq_expand hbraced h]
  · intro hkept
    rw [apply_eq_expand hbraced h, withDefaults_of_unreserved hkept]

def regionVars : Dict Text Text := ⟨[("r".toList, "e/u".toList)], by decide⟩

def regionDefaults : Dict Text Text :=
  ⟨[("r".toList, "us".toList), ("v".toList, "v1".toList)], by decide⟩

def regionUrl : Text := "{r}/{v}".toList

theorem regionUrl_pieces : pieces regionUrl =
    [.mark "r".toList "{r}".toList, .plain '/', .mark "v".toList "{v}".toList] := rfl

theorem substitution_is_simultaneous_region :
    SubstitutesAtOnce regionUrl regionVars regionDefaults ∧
      simultaneous regionUrl regionVars regionDefaults = "e%2Fu/v1".toList ∧
      AgreesWithIndex Stdlib.ascii regionUrl regionDefaults ∧
      applyServerVariables regionUrl [] regionDefaults.items = "us/v1".toList := by
  have hurl : CleanUrl regionUrl := by
    intro c hc
    rw [regionUrl_pieces] at hc
    simp only [List.mem_cons, Substitution.Piece.plain.injEq, reduceCtorEq, List.not_mem_nil,
      false_or, or_false] at hc
    rw [hc]
    decide
  have hbraced : Braced regionUrl := by
    intro name spelt hmem
    rw [regionUrl_pieces] at hmem
    simp only [List.mem_cons, Substitution.Piece.mark.injEq, reduceCtorEq, List.not_mem_nil,
      false_or, or_false] at hmem
    rcases hmem with ⟨rfl, rfl⟩ | ⟨rfl, rfl⟩ <;> decide
  have hitems : CleanItems regionVars.items ∧ CleanItems regionDefaults.items := by
    constructor <;> intro x hx <;> simp only [regionVars, regionDefaults, List.mem_cons,
      List.not_mem_nil, or_false] at hx
    · rw [hx]
      exact ⟨List.all_eq_true.mp rfl, by decide⟩
    · rcases hx with rfl | rfl <;> exact ⟨List.all_eq_true.mp rfl, by decide⟩
  rcases substitution_is_simultaneous Stdlib.ascii regionUrl regionVars regionDefaults with
    ⟨hat, hclean, _⟩
  rcases substitution_is_simultaneous Stdlib.ascii regionUrl Dict.empty regionDefaults with
    ⟨_, hclean', hagree⟩
  refine ⟨hat (hclean hurl hitems.1 hitems.2), by decide, hagree hbraced (hclean' hurl ?_ hitems.2),
    by decide⟩
  exact fun _ hmem => absurd hmem List.not_mem_nil

def bracedVars : Dict Text Text :=
  ⟨[("a".toList, "{b}".toList), ("b".toList, "x".toList)], by decide⟩

/-- A value that is spelt like a placeholder goes in as the percent-encoded
    placeholder, which the pass of that name replaces, if it comes later. And a
    default that percent-encoding changes leads to another path than the one of
    the registry. -/
theorem brace_value_rewritten :
    ¬ SubstitutesAtOnce "{a}".toList bracedVars Dict.empty ∧
      applyServerVariables "{a}".toList bracedVars.items [] = "x".toList ∧
      applyServerVariables "{a}".toList bracedVars.items.reverse [] = "%7Bb%7D".toList ∧
      hostAndPath Stdlib.ascii
          (applyServerVariables "https://h/{p}".toList [] [("p".toList, "a/b".toList)]) =
        some ("h".toList, "/a%2Fb".toList) ∧
      hostAndPath Stdlib.ascii
          (expandServerVariables "https://h/{p}".toList [("p".toList, some "a/b".toList)]) =
        some ("h".toList, "/a/b".toList) := by
  refine ⟨fun h => ?_, by decide, by decide, by decide +kernel, by decide +kernel⟩
  have hforward := h bracedVars.items [] (List.Perm.refl _) (List.Perm.refl _)
  have hbackward := h bracedVars.items.reverse [] (List.reverse_perm _) (List.Perm.refl _)
  exact absurd (hforward.trans hbackward.symm) (by decide)

end Registry

end JenticOne
