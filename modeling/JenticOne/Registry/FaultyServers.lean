import JenticOne.Registry.RelativeServers

/-!
# Servers That Are Not Sound

A server that reaches one of the defects breaks a document that has no other
server: it is kept without a host, or it ends the walk with an error, or it is
resolved to a network location of its own. So the servers that every document can
have are the sound ones.

The last two come from a template whose network location is hidden, by a tab or a
line end between its slashes or a control character before them. What is read of
such a template up to its first placeholder is read of the URL it comes to as
well, so a server that comes to a URL without a host hides a placeholder there.

## Main definitions

* `single`: A document with one server.

## Theorems

* `cleaned_shown`: What is read before the first placeholder.
* `hidden_placeholder`: The network location of a template that is joined to it.
* `sound_of_meets`: A server that is not sound breaks a document.
* `resolveRelativeServers_exact`: The documents and the servers that are as they
  are to be.
-/

namespace JenticOne

namespace Registry

namespace ServerUrls

open Urllib

/-- A document with one server. -/
def single (url : Text) (declared : Json) : Members :=
  [("servers", .arr [.obj [("url", .str (String.ofList url)), ("variables", declared)]])]

variable {lib : Stdlib} {contentHosts : List Text} {base : DocumentBase} {url : Text}
  {declared : Json}

/-! ## Reading a template -/

/-- Before the first character that is read there are only control characters. -/
theorem exists_junk {s rest : Text} {c : Char} (h : cleaned s = c :: rest) :
    ∃ junk tail, s = junk ++ c :: tail ∧ (∀ x ∈ junk, x.toNat ≤ 32) ∧ 32 < c.toNat := by
  have hsplit := List.takeWhile_append_dropWhile (p := fun x : Char => x.toNat ≤ 32) (l := s)
  have hjunk : ∀ x ∈ s.takeWhile (fun x => x.toNat ≤ 32), x.toNat ≤ 32 := by
    intro x hx
    have hle := List.mem_takeWhile_imp hx
    rwa [decide_eq_true_eq] at hle
  rw [cleaned] at h
  have hhead := Margins.head?_dropWhile (p := fun x : Char => x.toNat ≤ 32) s
  generalize s.dropWhile (fun x => x.toNat ≤ 32) = visible at h hsplit hhead
  cases visible with
  | nil => exact absurd h.symm (List.cons_ne_nil c rest)
  | cons d tail =>
      have hd : 32 < d.toNat := by
        have hlow := hhead d rfl
        rw [decide_eq_false_iff_not] at hlow
        omega
      have hsafe : decide (d ∉ unsafeChars) = true := by
        rw [decide_eq_true_eq]
        intro hmem
        have hsmall : ∀ x ∈ unsafeChars, x.toNat ≤ 32 := by
          intro x hx
          fin_cases hx <;> exact Nat.le_of_ble_eq_true rfl
        have := hsmall d hmem
        omega
      rw [List.filter_cons_of_pos (p := fun x => x ∉ unsafeChars) hsafe, List.cons.injEq] at h
      rw [← h.1]
      exact ⟨_, tail, hsplit.symm, hjunk, hd⟩

/-- A text that begins with visible characters, and what is read of it. -/
theorem cleaned_junk {junk s : Text} (hjunk : ∀ x ∈ junk, x.toNat ≤ 32)
    (hvisible : ∀ c ∈ s.head?, 32 < c.toNat) :
    cleaned (junk ++ s) = s.filter (· ∉ unsafeChars) := by
  have hdrop : s.dropWhile (fun c => c.toNat ≤ 32) = s :=
    Margins.dropWhile_eq_self fun c hc => by
      rw [decide_eq_false_iff_not]
      have := hvisible c hc
      omega
  rw [cleaned, List.dropWhile_append_of_pos fun x hx => decide_eq_true (hjunk x hx), hdrop]

theorem expand_of_not_mem {s : Text} (h : '{' ∉ s) (declared : Json) :
    expandVariableDefaults lib s declared = s := by
  have happend := @expand_append lib _ h [] declared
  rwa [List.append_nil, show expandVariableDefaults lib [] declared = [] from rfl,
    List.append_nil] at happend

variable (lib declared) in
/-- What is read of a template up to a visible character before its first placeholder
is read of the URL it comes to, which begins with the same character. -/
theorem cleaned_shown {q k : Text} {d : Char} (h : cleaned (strip url) = q ++ d :: k)
    (hq : '{' ∉ q) (hbrace : d ≠ '{') (hspace : Margins.isspace d = false) :
    (∃ k', cleaned (shown lib url declared) = q ++ d :: k') ∧
      (shown lib url declared).head? = (strip url).head? := by
  have hne : ∃ c rest, q ++ d :: k = c :: rest ∧ c ∈ q ++ [d] := by
    cases q with
    | nil => exact ⟨d, k, rfl, List.mem_singleton_self d⟩
    | cons c q => exact ⟨c, q ++ d :: k, rfl, List.mem_cons_self⟩
  rcases hne with ⟨c, rest, hc, hmem⟩
  rcases exists_junk (h.trans hc) with ⟨junk, tail, hsplit, hjunk, hvisible⟩
  -- The visible part falls into what is read as `q`, what is read as `d`, and a rest.
  rw [hsplit, cleaned_junk hjunk fun x hx => by
    rw [List.head?_cons, Option.mem_def, Option.some.injEq] at hx; exact hx ▸ hvisible] at h
  rcases List.filter_eq_append_iff.mp h with ⟨l, m, hlm, hl, hm⟩
  rcases List.filter_eq_cons_iff.mp hm with ⟨skipped, after, hskip, hunsafe, hsafe, _⟩
  have hfront : '{' ∉ junk ++ (l ++ (skipped ++ [d])) := by
    intro hmem
    rcases List.mem_append.mp hmem with hmem | hmem
    · exact absurd (hjunk '{' hmem) (by decide)
    · rcases List.mem_append.mp hmem with hmem | hmem
      · refine hq ?_
        rw [← hl, List.mem_filter]
        exact ⟨hmem, by decide⟩
      · rcases List.mem_append.mp hmem with hmem | hmem
        · exact hunsafe '{' hmem (by decide)
        · exact hbrace (List.mem_singleton.mp hmem).symm
  generalize hread : l ++ (skipped ++ [d]) = read at hfront
  have hvisibly : c :: tail = read ++ after := by
    rw [hlm, hskip, ← hread, List.append_assoc, List.append_assoc]
    rfl
  have hhead : read.head? = some c := by
    cases read with
    | nil =>
        have hnil : l ++ (skipped ++ [d]) ≠ [] := fun hc =>
          List.cons_ne_nil d [] (List.append_eq_nil_iff.mp (List.append_eq_nil_iff.mp hc).2).2
        exact absurd hread hnil
    | cons e read =>
        rw [List.cons_append, List.cons.injEq] at hvisibly
        rw [List.head?_cons, hvisibly.1]
  have hwhole : strip url = junk ++ read ++ after := by
    rw [hsplit, hvisibly, List.append_assoc]
  have hlast : (junk ++ read).getLast? = some d := by
    rw [← hread, ← List.append_assoc, ← List.append_assoc, List.getLast?_concat]
  have hfirst : ∃ e, (junk ++ read).head? = some e ∧ Margins.isspace e = false := by
    have hbare := (Margins.trim_bare (p := Margins.isspace) url).head
    change ∀ e ∈ (strip url).head?, Margins.isspace e = false at hbare
    rw [hwhole, List.head?_append] at hbare
    cases hfirst : (junk ++ read).head? with
    | none =>
        rw [List.head?_append, hhead, Option.or_some] at hfirst
        exact absurd hfirst (by simp only [reduceCtorEq, not_false_eq_true])
    | some e =>
        rw [hfirst, Option.some_or] at hbare
        exact ⟨e, rfl, hbare e rfl⟩
  rcases hfirst with ⟨e, hfirst, hspace'⟩
  have hshown : shown lib url declared =
      junk ++ read ++ (expandVariableDefaults lib after declared).rdropWhile Margins.isspace := by
    rw [shown, hwhole, expand_append hfront, strip_append hfirst hlast hspace' hspace]
  have hheads : ∀ s : Text, (junk ++ read ++ s).head? = some e := by
    intro s
    rw [List.head?_append, hfirst, Option.some_or]
  constructor
  · refine ⟨((expandVariableDefaults lib after declared).rdropWhile Margins.isspace).filter
      (· ∉ unsafeChars), ?_⟩
    rw [hshown, List.append_assoc, cleaned_junk hjunk, ← hread, List.filter_append,
      List.filter_append, List.filter_append, hl, List.filter_eq_nil_iff.mpr hunsafe,
      List.nil_append, List.filter_cons_of_pos (p := fun x => x ∉ unsafeChars) hsafe,
      List.append_assoc]
    · rfl
    · intro x hx
      rw [List.head?_append, hhead, Option.some_or, Option.mem_def, Option.some.injEq] at hx
      exact hx ▸ hvisible
  · rw [hshown, hwhole, hheads, hheads]

/-- A text has a scheme that stays there whatever follows its colon, or it has none. -/
theorem splitScheme_cases (s : Text) :
    splitScheme s = ([], s) ∨ ∃ scheme rest, s = scheme ++ ':' :: rest ∧ '{' ∉ scheme ∧
      ∀ rest', ∃ c name, splitScheme (scheme ++ ':' :: rest') = (c :: name, rest') := by
  rw [splitScheme]
  by_cases hcolon : ':' ∈ s
  · rcases List.eq_append_cons_of_mem hcolon with ⟨scheme, rest, hs, hfree⟩
    rw [hs, Text.partition_append hfree]
    dsimp only
    by_cases hspelt : (true && (scheme ++ ':' :: rest).head?.any Char.isAlpha &&
        scheme.all isSchemeChar) = true
    · rw [Bool.true_and, Bool.and_eq_true] at hspelt
      refine Or.inr ⟨scheme, rest, rfl, ?_, fun rest' => ?_⟩
      · intro hbrace
        exact absurd (List.all_eq_true.mp hspelt.2 '{' hbrace) (by decide)
      · cases scheme with
        | nil => exact absurd hspelt.1 (Bool.eq_false_iff.mp rfl)
        | cons c name =>
            have halpha : ((c :: name ++ ':' :: rest').head?.any Char.isAlpha &&
                (c :: name).all isSchemeChar) = true := by
              rw [Bool.and_eq_true]
              exact ⟨hspelt.1, hspelt.2⟩
            refine ⟨c.toLower, name.map Char.toLower, ?_⟩
            rw [splitScheme, Text.partition_append hfree]
            dsimp only
            rw [Bool.true_and, if_pos halpha]
            rfl
    · exact Or.inl (if_neg hspelt)
  · rw [Text.partition_of_not_mem hcolon]
    exact Or.inl rfl

/-- A server whose template has a scheme comes to a URL with a scheme. -/
theorem splitScheme_of_shown {parts : SplitResult}
    (hshown : urlsplit lib (shown lib url declared) = some parts) (hscheme : parts.scheme = []) :
    splitScheme (cleaned (strip url)) = ([], cleaned (strip url)) := by
  rcases splitScheme_cases (cleaned (strip url)) with hnone | ⟨scheme, rest, hs, hbrace, hspelt⟩
  · exact hnone
  · rcases (cleaned_shown lib declared hs hbrace (by decide) rfl).1 with
      ⟨rest', hrest⟩
    rcases hspelt rest' with ⟨c, name, hsplit⟩
    rw [urlsplit_eq, hrest, hsplit] at hshown
    dsimp only at hshown
    split at hshown
    · rw [Option.some.injEq] at hshown
      rw [← hshown] at hscheme
      exact absurd hscheme (List.cons_ne_nil c name)
    · exact absurd hshown (by simp only [reduceCtorEq, not_false_eq_true])

theorem accepts_nil : accepts lib [] = true := by
  rw [accepts, netlocOk]
  rfl

/-- What a network location is read of, if there is one. -/
theorem splitNetloc_cases (s : Text) :
    (splitNetloc s).1 = [] ∨ ∃ netloc rest, s = '/' :: '/' :: (netloc ++ rest) ∧ netloc ≠ [] ∧
      Rest rest ∧ (∀ c ∈ netloc, c ∉ ['/', '?', '#']) ∧ (splitNetloc s).1 = netloc := by
  rw [splitNetloc]
  by_cases hslash : "//".toList.isPrefixOf s = true
  · rw [if_pos hslash]
    rcases isPrefixOf_slashes hslash with ⟨m, rfl⟩
    have hdrop : ('/' :: '/' :: m).drop 2 = m := rfl
    rw [hdrop]
    dsimp only
    by_cases hempty : m.takeWhile (fun c => c ∉ ['/', '?', '#']) = []
    · exact Or.inl hempty
    · refine Or.inr ⟨_, m.dropWhile fun c => c ∉ ['/', '?', '#'], ?_, hempty, ?_, ?_, rfl⟩
      · rw [List.takeWhile_append_dropWhile]
      · intro c hc
        have hstop := Margins.head?_dropWhile (p := fun c => c ∉ ['/', '?', '#']) m c hc
        rwa [decide_eq_false_iff_not, not_not] at hstop
      · intro c hc
        have hfree := List.mem_takeWhile_imp hc
        rwa [decide_eq_true_eq] at hfree
  · rw [if_neg hslash]
    exact Or.inl rfl

/-- A server that comes to a URL without a host and without a scheme, and whose template
is not read as one without a host, hides a placeholder in the network location of its
template. -/
theorem hidden_placeholder (hlib : lib.Lawful) {parts : SplitResult}
    (hshown : urlsplit lib (shown lib url declared) = some parts) (hscheme : parts.scheme = [])
    (hnetloc : parts.netloc = [])
    (hbad : ¬ ∃ own, urlsplit lib (strip url) = some own ∧ hostname lib own = []) :
    ∃ netloc rest, cleaned (strip url) = '/' :: '/' :: (netloc ++ rest) ∧ '{' ∈ netloc ∧
      netloc ≠ [] ∧ Clean netloc ∧ Rest rest := by
  have hnone := splitScheme_of_shown hshown hscheme
  have hsplit := urlsplit_eq lib (strip url)
  rw [hnone] at hsplit
  dsimp only at hsplit
  have hsafe : ∀ c ∈ cleaned (strip url), c ∉ unsafeChars := by
    intro c hc
    rw [cleaned, List.mem_filter, decide_eq_true_eq] at hc
    exact hc.2
  rcases splitNetloc_cases (cleaned (strip url)) with hempty | ⟨netloc, rest, hread, hne, hrest, hfree, hfst⟩
  · -- Without a network location the template is read, and has no host.
    rw [hempty, if_pos accepts_nil] at hsplit
    exact absurd ⟨_, hsplit, hostname_nil hlib rfl⟩ hbad
  · have hclean : Clean netloc := by
      intro c hc
      refine ⟨hfree c hc, hsafe c ?_⟩
      rw [hread]
      exact List.mem_cons_of_mem _ (List.mem_cons_of_mem _ (List.mem_append_left rest hc))
    refine ⟨netloc, rest, hread, ?_, hne, hclean, hrest⟩
    -- Otherwise the URL it comes to has the same network location.
    by_contra hbrace
    have hread' : ∀ rest', cleaned (shown lib url declared) = '/' :: '/' :: (netloc ++ rest') →
        Rest rest' → False := by
      intro rest' hread' hrest'
      rw [urlsplit_eq, hread', splitScheme_slashes] at hshown
      dsimp only at hshown
      rw [splitNetloc_relative hclean hrest'] at hshown
      split at hshown
      · rw [Option.some.injEq] at hshown
        rw [← hshown] at hnetloc
        exact hne hnetloc
      · exact absurd hshown (by simp only [reduceCtorEq, not_false_eq_true])
    cases rest with
    | nil =>
        -- There is no placeholder at all, so the template is the URL it comes to.
        have hno : '{' ∉ strip url := by
          intro hmem
          have hvisible : ∃ c k, cleaned (strip url) = c :: k := ⟨'/', _, hread⟩
          rcases hvisible with ⟨c, k, hk⟩
          rcases exists_junk hk with ⟨junk, tail, hs, hjunk, hc⟩
          have hin : '{' ∈ c :: tail := by
            rw [hs] at hmem
            rcases List.mem_append.mp hmem with hmem | hmem
            · exact absurd (hjunk '{' hmem) (by decide)
            · exact hmem
          have hkept : '{' ∈ cleaned (strip url) := by
            rw [hs, cleaned_junk hjunk fun x hx => by
              rw [List.head?_cons, Option.mem_def, Option.some.injEq] at hx; exact hx ▸ hc,
              List.mem_filter]
            exact ⟨hin, by decide⟩
          rw [hread, List.append_nil] at hkept
          rcases List.mem_cons.mp hkept with h | hkept
          · exact absurd h (by decide)
          · rcases List.mem_cons.mp hkept with h | hkept
            · exact absurd h (by decide)
            · exact hbrace hkept
        have hself : shown lib url declared = strip url := by
          rw [shown, expand_of_not_mem hno]
          exact Margins.trim_trim url
        exact hread' [] (by rw [hself]; exact hread) hrest
    | cons d rest =>
        have hd : d ∈ ['/', '?', '#'] := hrest d rfl
        have hfront : '{' ∉ '/' :: '/' :: netloc := by
          simp only [List.mem_cons, hbrace, Char.reduceEq, or_self, not_false_eq_true]
        have hvisible : d ≠ '{' ∧ Margins.isspace d = false := by
          fin_cases hd <;> exact ⟨by decide, rfl⟩
        have hread'' : cleaned (strip url) = '/' :: '/' :: netloc ++ d :: rest := hread
        rcases (cleaned_shown lib declared hread'' hfront hvisible.1
          hvisible.2).1 with ⟨rest', hrest'⟩
        refine hread' (d :: rest') hrest' fun c hc => ?_
        rw [List.head?_cons, Option.mem_def, Option.some.injEq] at hc
        exact hc ▸ hd

/-! ## Hidden network locations -/

theorem ignoreCase_small : ∀ n ≤ 32, ignoreCase (Char.ofNat n) ≠ 'l' := by decide

/-- A text that is shaped like a host has a visible character. -/
theorem visible_of_bareHost {t : Text} (h : (bareHost lib).Spells t) : ∃ c ∈ t, 32 < c.toNat := by
  have hport : ∀ {t : Text}, (portRe lib).Spells t → ':' ∈ t := by
    intro t ht
    rcases Re.spells_text_seq.mp ht with ⟨b, _, rfl⟩
    exact List.mem_cons_self
  rw [bareHost, Re.spells_alt, Re.spells_alt, Re.spells_alt, Re.spells_alt] at h
  rcases h with h | h | h | h | h
  · -- A name has a dot after its first label.
    rcases Re.spells_seq.mp h with ⟨labels, _, hlabels, _, rfl⟩
    rcases Re.spells_seq.mp hlabels with ⟨label, _, hlabel, _, rfl⟩
    rcases Re.spells_seq.mp hlabel with ⟨_, more, _, hmore, rfl⟩
    rcases Re.spells_seq.mp hmore with ⟨_, dot, _, hdot, rfl⟩
    rcases Re.spells_text_seq.mp hdot with ⟨_, _, rfl⟩
    refine ⟨'.', ?_, by decide⟩
    simp only [List.mem_append, List.mem_cons, true_or, or_true]
  · rcases Re.spells_seq.mp h with ⟨first, _, hfirst, _, rfl⟩
    rcases Re.spells_set.mp hfirst with ⟨c, hc, rfl⟩
    refine ⟨c, List.mem_cons_self, ?_⟩
    rw [decide_eq_true_eq] at hc
    by_contra hsmall
    have hno := ignoreCase_small c.toNat (by omega)
    rw [Char.ofNat_toNat] at hno
    exact hno hc
  · rcases Re.spells_seq.mp h with ⟨_, octets, _, hoctets, rfl⟩
    rcases Re.spells_seq.mp hoctets with ⟨dotted, _, hdotted, _, rfl⟩
    rw [Re.rep] at hdotted
    rcases Re.spells_seq.mp hdotted with ⟨one, _, hone, _, rfl⟩
    rcases Re.spells_text_seq.mp hone with ⟨_, _, rfl⟩
    refine ⟨'.', ?_, by decide⟩
    simp only [List.mem_append, List.mem_cons, true_or, or_true]
  · rcases Re.spells_text_seq.mp h with ⟨_, _, rfl⟩
    exact ⟨'[', List.mem_cons_self, by decide⟩
  · rcases Re.spells_seq.mp h with ⟨_, port, _, hp, rfl⟩
    exact ⟨':', List.mem_append_right _ (hport hp), by decide⟩

theorem not_bareHost {t : Text} (h : ∀ c ∈ t, c.toNat ≤ 32) : (bareHost lib).matchLine t = false := by
  have hno : ∀ t : Text, (∀ c ∈ t, c.toNat ≤ 32) → (bareHost lib).fullmatch t = false := by
    intro t ht
    rw [Bool.eq_false_iff]
    intro hmatch
    rcases visible_of_bareHost (Re.fullmatch_iff.mp hmatch) with ⟨c, hc, hvisible⟩
    have := ht c hc
    omega
  rw [Re.matchLine, hno t h, hno _ fun c hc => h c (List.mem_of_mem_dropLast hc), Bool.and_false]
  rfl

/-- A template whose network location is hidden is not refused before it is joined. -/
theorem refusal_of_hidden {m : Text} (hread : cleaned (strip url) = '/' :: '/' :: m)
    {parts : SplitResult} (hshown : urlsplit lib (shown lib url declared) = some parts)
    (hscheme : parts.scheme = []) :
    refusal lib (strip url) (shown lib url declared) = none := by
  rcases cleaned_shown lib declared (q := []) hread List.not_mem_nil
    (by decide) rfl with ⟨⟨k, hk⟩, hhead⟩
  -- Both begin with control characters, and then comes the first slash.
  have hfirst : ∀ {s k : Text}, cleaned s = '/' :: k →
      (∀ c ∈ s.head?, c.toNat ≤ 32 ∨ c = '/') ∧ ∀ c ∈ s.takeWhile (· ≠ '/'), c.toNat ≤ 32 := by
    intro s k hs
    rcases exists_junk hs with ⟨junk, tail, rfl, hjunk, _⟩
    have hother : ∀ c ∈ junk, decide (c ≠ '/') = true := by
      intro c hc
      rw [decide_eq_true_eq]
      rintro rfl
      exact absurd (hjunk '/' hc) (by decide)
    constructor
    · intro c hc
      cases junk with
      | nil =>
          rw [List.nil_append, List.head?_cons, Option.mem_def, Option.some.injEq] at hc
          exact Or.inr hc.symm
      | cons d junk =>
          rw [List.cons_append, List.head?_cons, Option.mem_def, Option.some.injEq] at hc
          exact Or.inl (hjunk c (hc ▸ List.mem_cons_self))
    · rw [List.takeWhile_append_of_pos hother, List.takeWhile_cons_of_neg (by decide),
        List.append_nil]
      exact hjunk
  rcases hfirst hk with ⟨hstart, hsegment⟩
  have hnot : ∀ c : Char, 32 < c.toNat → c ≠ '/' → (shown lib url declared).head? ≠ some c := by
    intro c hc hne h
    rcases hstart c h with hle | heq
    · omega
    · exact hne heq
  rw [refusal, if_neg fun h => h.elim (hnot '?' (by decide) (by decide))
      (hnot '#' (by decide) (by decide)), not_bareHost hsegment, if_neg Bool.false_ne_true,
    if_neg (hhead ▸ hnot '{' (by decide) (by decide)), hshown, Option.all_some, hscheme]
  rfl

/-- A template whose network location is hidden ends the walk, or is joined to that
location. -/
theorem joinTo_hidden {scheme netloc baseUrl : Text}
    (hbase : WebBase lib contentHosts base scheme netloc) (hurl : OnBase scheme netloc baseUrl)
    {own rest : Text} (hread : cleaned (strip url) = '/' :: '/' :: (own ++ rest))
    (hclean : Clean own) (hne : own ≠ []) (hrest : Rest rest)
    (hbad : ¬ ∃ parts, urlsplit lib (strip url) = some parts ∧ hostname lib parts = []) :
    joinTo lib baseUrl (strip url) = none ∨ ∃ resolved parts,
      joinTo lib baseUrl (strip url) = some (.absolute resolved) ∧
        urlsplit lib resolved = some parts ∧ parts.netloc = own := by
  have htemplate : strip url ≠ [] := by
    intro h
    rw [h] at hread
    exact absurd hread.symm (List.cons_ne_nil _ _)
  have hsplit := urlsplit_eq lib (strip url)
  rw [hread, splitScheme_slashes] at hsplit
  dsimp only at hsplit
  rw [splitNetloc_relative hclean hrest] at hsplit
  dsimp only at hsplit
  rcases hurl with ⟨baseRest, hslash, rfl⟩
  rcases urlparse_web lib hbase.web hbase.clean hbase.accepted hslash with
    ⟨b, hparse, hbscheme, _, _⟩
  rw [joinTo, if_neg htemplate]
  by_cases haccepts : accepts lib own = true
  · rw [if_pos haccepts] at hsplit
    rcases urljoin_spec hbase.web hbase.clean hbase.accepted hbase.nonempty hslash htemplate hsplit
      with ⟨joined, hjoin, hjoined⟩
    rw [if_pos (Or.inl rfl)] at hjoined
    rcases hjoined with ⟨rest', hrest', _, hjoined⟩
    rw [if_neg hne] at hjoined
    rcases urlsplit_web lib hbase.web hclean hrest' with
      ⟨path', query', fragment', _, hagain⟩
    rw [if_pos haccepts, ← hjoined] at hagain
    have hhost : hasHost lib joined = true := by
      refine hasHost_iff.mpr ⟨_, hagain, fun hc => hbad ⟨_, hsplit, ?_⟩⟩
      exact (hostname_congr rfl).trans hc
    refine Or.inr ⟨joined, _, ?_, hagain, rfl⟩
    rw [hjoin, Option.bind_some, hagain, Option.map_some, if_neg fun hc =>
      hc.elim (fun h => h hbase.web) fun h => Bool.false_ne_true (h.symm.trans hhost)]
  · rw [if_neg haccepts] at hsplit
    left
    have hbne : web scheme netloc baseRest ≠ [] := by
      have hhead := head_webScheme hbase.web (':' :: '/' :: '/' :: (netloc ++ baseRest))
      intro h
      rw [web] at h
      rw [h] at hhead
      exact absurd hhead (by simp only [List.head?_nil, reduceCtorEq, not_false_eq_true])
    rw [urljoin, if_neg hbne, if_neg htemplate, hparse, Option.bind_some, urlparseFrom, hsplit]
    rfl

/-! ## Documents with one server -/

section Single

/-- The server of a document with one server. -/
abbrev oneServer (url : Text) (declared : Json) : Json :=
  .obj [("url", .str (String.ofList url)), ("variables", declared)]

theorem urlOf_server : urlOf (oneServer url declared) = some url :=
  congrArg some String.toList_ofList

theorem variablesOf_server : variablesOf (oneServer url declared) = declared := rfl

theorem serversOf_single : serversOf (single url declared) = [oneServer url declared] := rfl

/-- The walk over a document with one server, by what becomes of the server. -/
theorem resolveList_single (outcome : Option Outcome)
    (h : classify lib url declared base = outcome) :
    resolveList lib base true (single url declared) {} =
      outcome.map fun outcome =>
        settle true (single url declared) {} (Tally.add {} (oneServer url declared) url outcome) := by
  have hloop : [oneServer url declared].foldlM (tallyServer lib base) {} =
      outcome.map (Tally.add {} (oneServer url declared) url) := by
    rw [List.foldlM_cons, tallyServer, urlOf_server]
    dsimp only
    rw [variablesOf_server, h]
    cases outcome with
    | none => rfl
    | some outcome => rfl
  rw [resolveList, serversOf_single, if_neg (List.cons_ne_nil _ _), hloop, Option.map_map]
  rfl

/-- A server that ends the walk breaks the document. -/
theorem not_meets_of_none (h : classify lib url declared base = none) :
    ¬ Meets lib contentHosts base (single url declared) := by
  have hrun : resolveRelativeServers lib (single url declared) base true = .error .valueError := by
    rw [resolveRelativeServers, resolveList_single none h]
    rfl
  rw [Meets, hrun]
  exact id

/-- The list of a document with one server that is kept or resolved. -/
theorem listMeets_of_meets {outcome : Outcome} {server' : Json}
    (h : classify lib url declared base = some outcome)
    (hkept : (Tally.add {} (oneServer url declared) url outcome).kept = [server'])
    (hmeets : Meets lib contentHosts base (single url declared)) :
    ListMeets lib contentHosts base [oneServer url declared] [server'] := by
  have hrun : ∃ content result, resolveRelativeServers lib (single url declared) base true =
      .ok (content, result) ∧ serverLists content = [[server']] := by
    rw [resolveRelativeServers, resolveList_single (some outcome) h]
    cases outcome with
    | keep =>
        refine ⟨_, _, rfl, ?_⟩
        rw [Tally.add] at hkept
        dsimp only [List.nil_append] at hkept
        rw [← hkept]
        rfl
    | problem problem => exact absurd hkept.symm (List.cons_ne_nil _ _)
    | absolute absolute =>
        refine ⟨_, _, rfl, ?_⟩
        rw [Tally.add] at hkept
        dsimp only [List.nil_append] at hkept
        rw [← hkept]
        rfl
  rcases hrun with ⟨content, result, hrun, hlists⟩
  rw [Meets, hrun] at hmeets
  have hall := hmeets.1
  rw [hlists] at hall
  cases hall with
  | cons hlist _ => exact hlist

/-- The server names its host, or it was resolved. -/
theorem named_or_resolved {server' : Json}
    (h : ListMeets lib contentHosts base [oneServer url declared] [server']) :
    NamesHost lib url declared ∨ ∃ resolved, server' = withUrl resolved (oneServer url declared) ∧
      ResolvedTo lib contentHosts base url declared resolved := by
  rcases h with ⟨kept, hsub, hservers, _, hhost⟩
  have hurl : ∃ s ∈ [oneServer url declared], (urlOf s).isSome = true :=
    ⟨_, List.mem_singleton_self _, by rw [urlOf_server]; rfl⟩
  rcases hhost hurl with ⟨x, hx, hfate⟩
  have hfst : x.1 = oneServer url declared :=
    List.mem_singleton.mp (hsub.subset (List.mem_map_of_mem hx))
  have hsnd : x.2 = server' := by
    have hmem : x.2 ∈ kept.map Prod.snd := List.mem_map_of_mem hx
    rw [← hservers] at hmem
    exact List.mem_singleton.mp hmem
  rcases hfate with ⟨url', resolved, hurl', hserver', hto⟩ | ⟨_, url', hurl', hnames⟩
  · rw [hfst, urlOf_server, Option.some.injEq] at hurl'
    rw [hfst, ← hurl', variablesOf_server] at hto
    rw [hsnd, hfst] at hserver'
    exact Or.inr ⟨resolved, hserver', hto⟩
  · rw [hfst, urlOf_server, Option.some.injEq] at hurl'
    rw [hfst, ← hurl', variablesOf_server] at hnames
    exact Or.inl hnames

theorem withUrl_injective {resolved resolved' : Text}
    (h : withUrl resolved (oneServer url declared) = withUrl resolved' (oneServer url declared)) :
    resolved = resolved' := by
  have hread := congrArg urlOf h
  rw [(withUrl_spec urlOf_server resolved).1, (withUrl_spec urlOf_server resolved').1,
    Option.some.injEq] at hread
  exact hread

end Single

/-- A server that is kept, or resolved to what it is not meant to be, breaks the
document. -/
theorem sound_of_meets (hlib : lib.Lawful)
    (hbase : base.url = none ∧ base.scheme = none ∨
      ∃ scheme netloc, WebBase lib contentHosts base scheme netloc)
    (hbrace : ∀ baseUrl ∈ base.url, ∀ parts, urlsplit lib baseUrl = some parts →
      '{' ∉ parts.netloc)
    (hmeets : Meets lib contentHosts base (single url declared)) : Sound lib base url declared := by
  have hcase : ∀ outcome server', classify lib url declared base = some outcome →
      (Tally.add {} (oneServer url declared) url outcome).kept = [server'] →
        NamesHost lib url declared ∨ ∃ resolved,
          server' = withUrl resolved (oneServer url declared) ∧
            ResolvedTo lib contentHosts base url declared resolved :=
    fun outcome server' h hkept => named_or_resolved (listMeets_of_meets h hkept hmeets)
  rw [Sound]
  by_cases hslash : ['/', '/'].isPrefixOf (strip url) = true
  · rw [if_pos hslash]
    intro hhost
    have hclassify : ∀ outcome, classifyNetworkPath lib (strip url) declared base = outcome →
        classify lib url declared base = some outcome := by
      intro outcome h
      rw [classify, if_pos hslash, h]
    rw [classifyNetworkPath, if_pos hhost] at hclassify
    have hfate : NamesHost lib url declared ∨ ∃ resolved,
        ResolvedTo lib contentHosts base url declared resolved := by
      cases hscheme : base.scheme with
      | none =>
          rw [hscheme] at hclassify
          rcases hcase .keep _ (hclassify .keep rfl) rfl with h | ⟨resolved, _, h⟩
          · exact Or.inl h
          · exact Or.inr ⟨resolved, h⟩
      | some scheme =>
          rw [hscheme] at hclassify
          rcases hcase (.absolute (scheme ++ ':' :: strip url)) _ (hclassify _ rfl) rfl with
            h | ⟨resolved, _, h⟩
          · exact Or.inl h
          · exact Or.inr ⟨resolved, h⟩
    rcases hfate with (h | h) | ⟨resolved, h⟩
    · exact h
    · rcases shown_relative lib declared hslash with ⟨t, hshown, _⟩
      rw [hshown, variableAt_of_ne (by decide)] at h
      exact absurd h Bool.false_ne_true
    · rw [ResolvedTo, if_pos hslash] at h
      rcases h with ⟨_, own, _, _, hown, hname, _⟩
      exact hasHost_iff.mpr ⟨own, hown, hname⟩
  · rw [if_neg hslash]
    by_cases hhostless : isHostlessServerUrl lib (strip url) declared = true
    · rw [if_pos hhostless]
      rintro baseUrl hbaseUrl ⟨parts, hshown, hscheme⟩
      rcases hbase with hnone | ⟨scheme, netloc, hbase⟩
      · rw [hnone.1] at hbaseUrl
        exact absurd hbaseUrl (by simp only [Option.mem_def, reduceCtorEq, not_false_eq_true])
      rcases hbase.url with ⟨baseUrl', hbaseUrl', hon⟩
      rw [hbaseUrl', Option.mem_def, Option.some.injEq] at hbaseUrl
      rw [← hbaseUrl]
      rcases urlsplit_onBase lib hbase.web hbase.clean hon with
        ⟨path, query, fragment, hbsplit⟩
      rw [if_pos hbase.accepted] at hbsplit
      have hfree := hbrace baseUrl' hbaseUrl' _ hbsplit
      refine ⟨?_, _, hbsplit, hfree⟩
      have hempty : parts.netloc = [] ∧ (shown lib url declared).head? ≠ some '{' := by
        rw [isHostlessServerUrl, Bool.and_eq_true, decide_eq_true_eq] at hhostless
        have hany := hhostless.2
        change (urlsplit lib (shown lib url declared)).any _ = true at hany
        rw [hshown, Option.any_some, decide_eq_true_eq] at hany
        exact ⟨hany, hhostless.1⟩
      -- A hidden network location would end the walk or be the one of the result.
      by_contra hbad
      rcases hidden_placeholder hlib hshown hscheme hempty.1 hbad with
        ⟨own, rest, hread, hplaceholder, hne, hclean, hrest⟩
      have hjoin : classify lib url declared base = joinTo lib baseUrl' (strip url) := by
        rw [classify, if_neg hslash, if_pos hhostless, classifyHostless]
        change (refusal lib (strip url) (shown lib url declared)).elim _ _ = _
        rw [refusal_of_hidden hread hshown hscheme, Option.elim_none, hbaseUrl', Option.elim_some]
      rcases joinTo_hidden hbase hon hread hclean hne hrest hbad with
        hend | ⟨resolved, rparts, habsolute, hrsplit, hrnetloc⟩
      · exact not_meets_of_none (hjoin.trans hend) hmeets
      · rcases hcase _ _ (hjoin.trans habsolute) rfl with (h | h) | ⟨resolved', hsame, h⟩
        · rw [hasHost_false hshown (hostname_nil hlib hempty.1)] at h
          exact Bool.false_ne_true h
        · cases hs : shown lib url declared with
          | nil =>
              rw [hs] at h
              exact Bool.false_ne_true h
          | cons c tail =>
              have hc : c ≠ '{' := fun hc => hempty.2 (by rw [hs, hc]; rfl)
              rw [hs, variableAt_of_ne hc] at h
              exact Bool.false_ne_true h
        · rw [ResolvedTo, if_neg hslash] at h
          rcases h with ⟨_, baseUrl'', bparts, hbaseUrl'', hbparts, _, hstands, _⟩
          rw [hbaseUrl', Option.some.injEq] at hbaseUrl''
          rw [← hbaseUrl'', hbsplit, Option.some.injEq] at hbparts
          rcases hstands with ⟨rparts', hrsplit', _, hrnetloc', _⟩
          rw [← withUrl_injective hsame, hrsplit, Option.some.injEq] at hrsplit'
          rw [← hrsplit', hrnetloc, ← hbparts] at hrnetloc'
          rw [hrnetloc'] at hplaceholder
          exact hfree hplaceholder
    · rw [if_neg hhostless]
      have hkeep : classify lib url declared base = some .keep := by
        rw [classify, if_neg hslash, if_neg hhostless]
      rcases hcase .keep _ hkeep rfl with h | ⟨resolved, _, h⟩
      · exact h
      · rw [ResolvedTo, if_neg hslash] at h
        exact absurd h.1 hhostless

/-! ## Documents and servers -/

/-- The documents of sound servers are as they are to be, over every base; and over a
base whose network location has no placeholder the sound servers are those that are
as they are to be in a document of their own. -/
theorem resolveRelativeServers_exact (hlib : lib.Lawful) {sourceUrl retrievalUrl : Option Text}
    (hbase : documentBase lib sourceUrl retrievalUrl contentHosts = some base) :
    (∀ content, (∀ servers ∈ serverLists content, ∀ server ∈ servers,
      SoundServer lib base server) → Meets lib contentHosts base content) ∧
    ((∀ baseUrl ∈ base.url, ∀ parts, urlsplit lib baseUrl = some parts → '{' ∉ parts.netloc) →
      ∀ url declared,
        Meets lib contentHosts base (single url declared) ↔ Sound lib base url declared) := by
  have hspec := documentBase_spec hlib hbase
  refine ⟨fun content hsound => resolveRelativeServers_meets hlib hspec hsound,
    fun hbrace url declared => ⟨sound_of_meets hlib hspec hbrace, fun hsound => ?_⟩⟩
  refine resolveRelativeServers_meets hlib hspec fun servers hservers server hserver => ?_
  have hlists : serverLists (single url declared) = [[oneServer url declared]] := rfl
  rw [hlists, List.mem_singleton] at hservers
  rw [hservers, List.mem_singleton] at hserver
  intro url' hurl'
  rw [hserver, urlOf_server, Option.mem_def, Option.some.injEq] at hurl'
  rw [hserver, variablesOf_server, ← hurl']
  exact hsound

/-- A document beside which a path is resolved, and a server without a host that is kept
as if it had one. -/
theorem resolveRelativeServers_exact_api :
    ∃ base, documentBase .ascii (some "https://api.example.com/openapi.json".toList) none [] =
        some base ∧
      Meets .ascii [] base (single "/v1".toList .null) ∧
        ¬ Meets .ascii [] base (single "https://:8443/v1".toList .null) := by
  have hbase : documentBase .ascii (some "https://api.example.com/openapi.json".toList) none [] =
      some ⟨some "https://api.example.com/openapi.json".toList, none, some "https".toList⟩ := by
    decide
  have hfree : (urlsplit .ascii "https://api.example.com/openapi.json".toList).any
      (fun parts => '{' ∉ parts.netloc) = true := by
    decide
  have hread : (urlsplit .ascii (strip "/v1".toList)).any
      (fun parts => hostname .ascii parts = []) = true := by
    decide
  have hexact := (resolveRelativeServers_exact Stdlib.ascii_lawful hbase).2 (by
    intro baseUrl hbaseUrl parts hparts
    rw [Option.mem_def, Option.some.injEq] at hbaseUrl
    rw [← hbaseUrl] at hparts
    rw [hparts, Option.any_some, decide_eq_true_eq] at hfree
    exact hfree)
  refine ⟨_, hbase, (hexact "/v1".toList .null).mpr ?_, fun hmeets => ?_⟩
  · rw [Sound, if_neg (by decide), if_pos (by decide)]
    intro baseUrl hbaseUrl _
    rw [Option.mem_def, Option.some.injEq] at hbaseUrl
    rw [← hbaseUrl]
    rcases (Option.any_eq_true _ _).mp hread with ⟨parts, hparts, hname⟩
    rcases (Option.any_eq_true _ _).mp hfree with ⟨baseParts, hbaseParts, hbrace⟩
    exact ⟨⟨parts, hparts, of_decide_eq_true hname⟩, baseParts, hbaseParts,
      of_decide_eq_true hbrace⟩
  · have hsound := (hexact "https://:8443/v1".toList .null).mp hmeets
    rw [Sound, if_neg (by decide), if_neg (by decide)] at hsound
    rcases hsound with hhost | hvariable
    · exact absurd hhost (by decide)
    · exact absurd hvariable (by decide)

end ServerUrls

end Registry

end JenticOne
