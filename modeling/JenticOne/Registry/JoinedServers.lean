import JenticOne.Registry.ServerUrls

/-!
# Servers Joined to a Base

What becomes of one server, over all bases that documents have. A base is a web
scheme and a network location that is no host of files. A server that is joined
to it stands at the same scheme and network location, as it is written and once
its variables take their defaults, and so it is kept when it is classified again.

Three defects stand against this, and a server is `Sound` when it reaches none of
them. A default of white space is a host to the check of a reference with two
slashes, which does not strip it. A server is kept although the URL it comes to
has no host, or is no URL. And a template whose slashes are separated by a tab is
joined to a network location of its own, which is empty or refused.

## Main definitions

* `NamesHost`, `ResolvedTo`: What a kept and what a resolved server is to be.
* `Sound`: A server that reaches no defect.
* `WebBase`: What a base consists of.

## Theorems

* `documentBase_spec`: Every base with a URL is a `WebBase`.
* `classify_spec`: What becomes of a sound server.
-/

namespace JenticOne

namespace Registry

namespace ServerUrls

open Urllib

variable (lib : Stdlib)

/-! ## What a server is to be -/

/-- The URL a server comes to when its variables take their defaults. -/
def shown (url : Text) (declared : Json) : Text :=
  strip (expandVariableDefaults lib (strip url) declared)

/-- The server names its own host, literally or through a variable. -/
def NamesHost (url : Text) (declared : Json) : Prop :=
  hasHost lib (shown lib url declared) = true ∨ (variableAt (shown lib url declared)).isSome = true

/-- The URL has this scheme and network location, and so this host and port. -/
def StandsAt (url : Text) (parts : SplitResult) : Prop :=
  ∃ own, urlsplit lib url = some own ∧ own.scheme = parts.scheme ∧ own.netloc = parts.netloc ∧
    hostname lib own = hostname lib parts ∧ port own = port parts

/-- The server was scheme-relative and has its own host with the scheme of the
base, or it was host-less and has the scheme and the network location of the base,
which is no host of files. -/
def ResolvedTo (contentHosts : List Text) (base : DocumentBase) (url : Text) (declared : Json)
    (resolved : Text) : Prop :=
  if ['/', '/'].isPrefixOf (strip url) then
    ∃ scheme own, base.scheme = some scheme ∧ resolved = scheme ++ ':' :: strip url ∧
      urlsplit lib (shown lib url declared) = some own ∧ hostname lib own ≠ [] ∧
      StandsAt lib (shown lib resolved declared) { own with scheme }
  else
    isHostlessServerUrl lib (strip url) declared = true ∧
      ∃ baseUrl parts, base.url = some baseUrl ∧ urlsplit lib baseUrl = some parts ∧
        isStaticContentHost lib (hostname lib parts) contentHosts = false ∧
        StandsAt lib resolved parts ∧ StandsAt lib (shown lib resolved declared) parts

/-- The template is read as a reference without a network location, and no
placeholder begins in the one of the base. -/
def Joins (baseUrl template : Text) : Prop :=
  (∃ parts, urlsplit lib template = some parts ∧ hostname lib parts = []) ∧
    ∃ parts, urlsplit lib baseUrl = some parts ∧ '{' ∉ parts.netloc

/-- A server that reaches no defect. -/
def Sound (base : DocumentBase) (url : Text) (declared : Json) : Prop :=
  if ['/', '/'].isPrefixOf (strip url) then
    hasHost lib ("https:".toList ++ expandVariableDefaults lib (strip url) declared) = true →
      hasHost lib (shown lib url declared) = true
  else if isHostlessServerUrl lib (strip url) declared then
    ∀ baseUrl ∈ base.url,
      (∃ parts, urlsplit lib (shown lib url declared) = some parts ∧ parts.scheme = []) →
        Joins lib baseUrl (strip url)
  else NamesHost lib url declared

/-! ## Bases -/

/-- A URL at a scheme and a network location. -/
def OnBase (scheme netloc url : Text) : Prop :=
  ∃ rest, rest.head? = some '/' ∧ url = web scheme netloc rest

/-- A base with a URL: a web scheme and a network location that is no host of
files. -/
structure WebBase (contentHosts : List Text) (base : DocumentBase) (scheme netloc : Text) :
    Prop where
  url : ∃ baseUrl, base.url = some baseUrl ∧ OnBase scheme netloc baseUrl
  scheme_eq : base.scheme = some scheme
  web : scheme ∈ webSchemes
  clean : Clean netloc
  accepted : accepts lib netloc = true
  nonempty : netloc ≠ []
  notStatic : ∀ split : SplitResult, split.netloc = netloc →
    isStaticContentHost lib (hostname lib split) contentHosts = false

variable {lib}

theorem mem_authority {host : Text} {port : Option Nat} {c : Char} (h : c ∈ authority host port) :
    c ∈ host ∨ c ∈ ['[', ']', ':'] ∨ c.isDigit = true := by
  have hhost : c ∈ (if ':' ∈ host then '[' :: (host ++ [']']) else host) →
      c ∈ host ∨ c ∈ ['[', ']', ':'] ∨ c.isDigit = true := by
    intro h
    split at h
    · rcases List.mem_cons.mp h with rfl | h
      · exact Or.inr (Or.inl (by decide))
      · rcases List.mem_append.mp h with h | h
        · exact Or.inl h
        · rw [List.mem_singleton.mp h]
          exact Or.inr (Or.inl (by decide))
    · exact Or.inl h
  rw [authority] at h
  cases port with
  | none => exact hhost h
  | some port =>
      rcases List.mem_append.mp h with h | h
      · exact hhost h
      · rcases List.mem_cons.mp h with rfl | h
        · exact Or.inr (Or.inl (by decide))
        · exact Or.inr (Or.inr (Text.isDigit_of_mem_ofNat h))

theorem authority_ne_nil {host : Text} (h : host ≠ []) (port : Option Nat) :
    authority host port ≠ [] := by
  have hhost : (if ':' ∈ host then '[' :: (host ++ [']']) else host) ≠ [] := by
    split
    · exact List.cons_ne_nil _ _
    · exact h
  rw [authority]
  cases port with
  | none => exact hhost
  | some port => exact fun hc => hhost (List.append_eq_nil_iff.mp hc).1

/-- The host of a network location that was written from a host and a port. -/
theorem hostInfo_authority {host : Text} {port : Option Nat} (hat : '@' ∉ host)
    (hclose : ':' ∈ host → ']' ∉ host) (hopen : ':' ∉ host → '[' ∉ authority host port) :
    (hostInfo (authority host port)).1 = host := by
  have hnoAt : '@' ∉ authority host port := by
    intro h
    rcases mem_authority h with h | h | h
    · exact hat h
    · exact absurd h (by decide)
    · exact absurd h (by decide)
  rw [hostInfo, Text.rpartition_of_not_mem hnoAt]
  dsimp only
  by_cases hcolon : ':' ∈ host
  · -- The host stands in brackets, and has none itself.
    have hspelt : ∃ after, authority host port = [] ++ '[' :: (host ++ ']' :: after) := by
      rw [authority, if_pos hcolon]
      cases port with
      | none => exact ⟨[], rfl⟩
      | some port =>
          refine ⟨':' :: Text.ofNat port, ?_⟩
          dsimp only [Option.elim_some]
          rw [List.cons_append, List.append_assoc]
          rfl
    rcases hspelt with ⟨after, hspelt⟩
    rw [hspelt, Text.partition_append List.not_mem_nil]
    dsimp only
    rw [if_pos rfl, Text.partition_append (hclose hcolon)]
  · rw [Text.partition_of_not_mem (hopen hcolon)]
    dsimp only
    rw [if_neg Bool.false_ne_true, authority, if_neg hcolon]
    cases port with
    | none =>
        dsimp only [Option.elim_none]
        rw [Text.partition_of_not_mem hcolon]
    | some port =>
        dsimp only [Option.elim_some]
        rw [Text.partition_append hcolon]

/-- Brackets stand in pairs in a network location that passes the checks. -/
theorem brackets_of_accepts (hlib : lib.Lawful) {netloc : Text} (h : accepts lib netloc = true) :
    ('[' ∈ netloc → ']' ∈ netloc) ∧ (']' ∈ netloc → '[' ∈ netloc) := by
  rw [accepts, Bool.and_eq_true, Bool.not_eq_true', Bool.and_eq_false_iff] at h
  rcases h.1 with hnone | hok
  · rw [Bool.or_eq_false_iff] at hnone
    refine ⟨fun hc => ?_, fun hc => ?_⟩
    · exact absurd (List.contains_iff_mem.mpr hc) (Bool.eq_false_iff.mp hnone.1)
    · exact absurd (List.contains_iff_mem.mpr hc) (Bool.eq_false_iff.mp hnone.2)
  · rw [Bool.not_eq_false'] at hok
    have hboth := hlib.brackets netloc hok
    exact ⟨fun _ => hboth.2, fun _ => hboth.1⟩

/-- The base of a URL has the host of the URL. -/
theorem baseOf_spec (hlib : lib.Lawful) {url base : Text} {parts : SplitResult}
    (hparts : urlsplit lib url = some parts) (h : baseOf lib parts = some base) :
    ∃ netloc, parts.scheme ∈ webSchemes ∧ OnBase parts.scheme netloc base ∧ Clean netloc ∧
      netloc ≠ [] ∧ (accepts lib netloc = true →
        ∀ split : SplitResult, split.netloc = netloc → hostname lib split = hostname lib parts) := by
  rw [baseOf, Option.bind_eq_some_iff] at h
  rcases h with ⟨port, _, h⟩
  by_cases hbad : parts.scheme ∉ webSchemes ∨ hostname lib parts = []
  · rw [if_pos hbad] at h
    exact absurd h (by simp only [reduceCtorEq, not_false_eq_true])
  · rw [if_neg hbad, Option.some.injEq] at h
    rw [not_or, not_not] at hbad
    have hraw := hostInfo_spec parts.netloc
    have hclean := (clean_of_urlsplit hparts).1
    -- What a host is free of as it is spelt, it is free of in lower case.
    have hfree : ∀ c ∈ hostname lib parts, c.toNat < 128 → c.isAlpha = false →
        c ∈ (hostInfo parts.netloc).1 := fun c hc => mem_hostname hlib hc
    have hnetloc := authority_ne_nil hbad.2 port
    rcases urlunsplit_web ⟨parts.scheme, authority (hostname lib parts) port,
      if parts.path = [] then ['/'] else parts.path, [], []⟩ hbad.1 hnetloc with
      ⟨rest, _, hslash, hurl⟩
    have hpath : (if parts.path = [] then ['/'] else parts.path) ≠ [] := by
      split
      · exact List.cons_ne_nil '/' []
      · assumption
    refine ⟨authority (hostname lib parts) port, hbad.1, ⟨rest, hslash hpath, h ▸ hurl⟩, ?_,
      hnetloc, ?_⟩
    · have hkinds : ∀ c : Char, c ∈ ['/', '?', '#'] ∨ c ∈ unsafeChars →
          c.toNat < 128 ∧ c.isAlpha = false ∧ c ∉ ['[', ']', ':'] ∧ c.isDigit = false := by
        intro c hc
        have hall : c ∈ ['/', '?', '#', '\t', '\r', '\n'] := by
          rcases hc with hc | hc
          · exact List.mem_append_left ['\t', '\r', '\n'] hc
          · exact List.mem_append_right ['/', '?', '#'] hc
        fin_cases hall <;> decide
      have hnone : ∀ c : Char, c ∈ ['/', '?', '#'] ∨ c ∈ unsafeChars →
          c ∉ authority (hostname lib parts) port := by
        intro c hc hmem
        rcases hkinds c hc with ⟨hascii, halpha, hbracket, hdigit⟩
        rcases mem_authority hmem with h | h | h
        · have hin := hclean c (hraw.2.1 c (hfree c h hascii halpha))
          exact hc.elim hin.1 hin.2
        · exact hbracket h
        · exact absurd h (Bool.eq_false_iff.mp hdigit)
      exact fun c hc => ⟨fun h => hnone c (Or.inl h) hc, fun h => hnone c (Or.inr h) hc⟩
    · intro haccepts split hsplit
      refine hostname_eq_of_hostInfo hlib ?_
      rw [hsplit]
      have hnot : ∀ c : Char, c.toNat < 128 → c.isAlpha = false →
          c ∉ (hostInfo parts.netloc).1 → c ∉ hostname lib parts :=
        fun c hascii halpha hc h => hc (hfree c h hascii halpha)
      refine hostInfo_authority (hnot '@' (by decide) (by decide) hraw.1) ?_ ?_
      · intro hcolon
        rcases hraw.2.2 with hclose | hno
        · exact hnot ']' (by decide) (by decide) hclose
        · exact absurd (hfree ':' hcolon (by decide) (by decide)) hno.1
      · -- A bracket in the authority of a host without a colon would be one of the host.
        intro hcolon hopen
        have hhost : ∀ c ∈ ['[', ']'], c ∈ authority (hostname lib parts) port →
            c ∈ hostname lib parts := by
          intro c hc h
          rw [authority, if_neg hcolon] at h
          cases port with
          | none => exact h
          | some port =>
              rcases List.mem_append.mp h with h | h
              · exact h
              · rcases List.mem_cons.mp h with rfl | h
                · exact absurd hc (by decide)
                · have hdigit := Text.isDigit_of_mem_ofNat h
                  fin_cases hc <;> exact absurd hdigit (by decide)
        have hclose := (brackets_of_accepts hlib haccepts).1 hopen
        have hopen' := hfree '[' (hhost '[' (by decide) hopen) (by decide) (by decide)
        have hclose' := hfree ']' (hhost ']' (by decide) hclose) (by decide) (by decide)
        rcases hraw.2.2 with hno | hno
        · exact hno hclose'
        · exact hno.2 hopen'

theorem serverBaseUrl_spec (hlib : lib.Lawful) {url : Option Text} {base : Text}
    (h : serverBaseUrl lib url = some base) :
    ∃ scheme netloc, scheme ∈ webSchemes ∧ OnBase scheme netloc base ∧ Clean netloc ∧
      netloc ≠ [] ∧ (accepts lib netloc = true →
        ∀ split : SplitResult, split.netloc = netloc → hostname lib split = urlHost lib url) := by
  cases url with
  | none => exact absurd h (by simp only [serverBaseUrl, reduceCtorEq, not_false_eq_true])
  | some url =>
      rw [serverBaseUrl] at h
      split at h
      · exact absurd h (by simp only [reduceCtorEq, not_false_eq_true])
      · rw [Option.bind_eq_some_iff] at h
        rcases h with ⟨parts, hparts, h⟩
        rcases baseOf_spec hlib hparts h with ⟨netloc, hscheme, hbase, hclean, hne, hhost⟩
        refine ⟨parts.scheme, netloc, hscheme, hbase, hclean, hne, fun haccepts split hsplit => ?_⟩
        rw [hhost haccepts split hsplit, urlHost, hparts]
        rfl

variable (lib) in
/-- The URL of a base is split into its scheme and its network location. -/
theorem urlsplit_onBase {scheme netloc url : Text} (hscheme : scheme ∈ webSchemes)
    (hclean : Clean netloc) (h : OnBase scheme netloc url) :
    ∃ path query fragment, urlsplit lib url =
      if accepts lib netloc then some ⟨scheme, netloc, path, query, fragment⟩ else none := by
  rcases h with ⟨rest, hslash, rfl⟩
  rcases urlsplit_web lib hscheme hclean (rest_of_slash hslash) with
    ⟨path, query, fragment, _, hsplit⟩
  exact ⟨path, query, fragment, hsplit⟩

theorem accepts_of_urlsplit {scheme netloc url : Text} {parts : SplitResult}
    (hscheme : scheme ∈ webSchemes) (hclean : Clean netloc) (h : OnBase scheme netloc url)
    (hparts : urlsplit lib url = some parts) :
    accepts lib netloc = true ∧ parts.scheme = scheme ∧ parts.netloc = netloc := by
  rcases urlsplit_onBase lib hscheme hclean h with ⟨path, query, fragment, hsplit⟩
  rw [hsplit] at hparts
  split at hparts
  · rename_i haccepts
    rw [Option.some.injEq] at hparts
    rw [← hparts]
    exact ⟨haccepts, rfl, rfl⟩
  · exact absurd hparts (by simp only [reduceCtorEq, not_false_eq_true])

/-- Every base that documents have has no URL and no scheme, or it is a web scheme
and a network location that is no host of files. -/
theorem documentBase_spec (hlib : lib.Lawful) {sourceUrl retrievalUrl : Option Text}
    {contentHosts : List Text} {base : DocumentBase}
    (h : documentBase lib sourceUrl retrievalUrl contentHosts = some base) :
    base.url = none ∧ base.scheme = none ∨
      ∃ scheme netloc, WebBase lib contentHosts base scheme netloc := by
  rw [documentBase] at h
  generalize hfinal : finalUrl sourceUrl retrievalUrl = final at h
  cases hserver : serverBaseUrl lib final with
  | none =>
      rw [hserver, Option.elim_none, Option.some.injEq] at h
      rw [← h]
      exact Or.inl ⟨rfl, rfl⟩
  | some url =>
      rw [hserver, Option.elim_some, Option.bind_eq_some_iff] at h
      rcases h with ⟨parts, hparts, h⟩
      rcases serverBaseUrl_spec hlib hserver with ⟨scheme, netloc, hscheme, hbase, hclean, hne, hhost⟩
      rcases accepts_of_urlsplit hscheme hclean hbase hparts with ⟨haccepts, hpscheme, _⟩
      rw [baseAt] at h
      by_cases hstatic : ([sourceUrl, final].any fun url => isStaticContentUrl lib url contentHosts) =
          true
      · rw [if_pos hstatic, Option.some.injEq] at h
        rw [← h]
        exact Or.inl ⟨rfl, rfl⟩
      · rw [if_neg hstatic, Option.map_eq_some_iff] at h
        rcases h with ⟨requested, _, h⟩
        by_cases hplain : requested = some "https".toList ∧ parts.scheme = "http".toList
        · rw [if_pos hplain] at h
          rw [← h]
          exact Or.inl ⟨rfl, rfl⟩
        · rw [if_neg hplain] at h
          refine Or.inr ⟨scheme, netloc, ⟨⟨url, by rw [← h], hbase⟩, by rw [← h, hpscheme], hscheme,
            hclean, haccepts, hne, fun split hsplit => ?_⟩⟩
          -- The host of the base is the host of the URL, which was looked up.
          rw [hhost haccepts split hsplit]
          rw [List.any_cons, List.any_cons, List.any_nil, Bool.or_false, Bool.or_eq_true,
            not_or] at hstatic
          have hno := Bool.eq_false_iff.mpr hstatic.2
          rw [isStaticContentUrl, Bool.or_eq_false_iff] at hno
          exact hno.1

/-! ## Defaults and margins -/

theorem variableAt_of_ne {c : Char} (h : c ≠ '{') (cs : Text) : variableAt (c :: cs) = none := by
  unfold variableAt
  split
  · rename_i hc
    rw [List.cons.injEq] at hc
    exact absurd hc.1 h
  · rfl

/-- No placeholder begins before the first opening brace. -/
theorem expand_append {a : Text} (h : '{' ∉ a) (s : Text) (declared : Json) :
    expandVariableDefaults lib (a ++ s) declared = a ++ expandVariableDefaults lib s declared := by
  induction a with
  | nil => rfl
  | cons c cs ih =>
      rw [List.mem_cons, not_or] at h
      have hnone := variableAt_of_ne (Ne.symm h.1) (cs ++ s)
      rw [List.cons_append, List.cons_append, ← ih h.2, expandVariableDefaults,
        Substitution.parseFrom_of_none hnone]
      rfl

/-- Only the right margin of what follows is cut. -/
theorem strip_append {x : Text} {c d : Char} (hhead : x.head? = some c)
    (hlast : x.getLast? = some d) (hc : Margins.isspace c = false)
    (hd : Margins.isspace d = false) (y : Text) :
    strip (x ++ y) = x ++ y.rdropWhile Margins.isspace := by
  have hfirst : ∀ e ∈ (x ++ y).head?, Margins.isspace e = false := by
    intro e he
    rw [List.head?_append, hhead, Option.some_or, Option.mem_def, Option.some.injEq] at he
    rw [← he]
    exact hc
  have hend : ∀ e ∈ x.getLast?, Margins.isspace e = false := by
    intro e he
    rw [hlast, Option.mem_def, Option.some.injEq] at he
    rw [← he]
    exact hd
  rw [strip, Margins.trim, Margins.dropWhile_eq_self hfirst, Margins.rdropWhile_append_right hend]

/-- The text in front of the path of a URL at a base. -/
theorem web_eq (scheme netloc rest : Text) :
    web scheme netloc ('/' :: rest) = scheme ++ ':' :: '/' :: '/' :: (netloc ++ ['/']) ++ rest := by
  rw [web, List.append_assoc, List.cons_append, List.cons_append, List.cons_append,
    List.append_assoc]
  rfl

theorem exists_slash {rest : Text} (h : rest.head? = some '/') : ∃ tail, rest = '/' :: tail := by
  cases rest with
  | nil => exact absurd h (by simp only [List.head?_nil, reduceCtorEq, not_false_eq_true])
  | cons c tail =>
      rw [List.head?_cons, Option.some.injEq] at h
      exact ⟨tail, by rw [h]⟩

theorem head_webScheme {scheme : Text} (h : scheme ∈ webSchemes) (s : Text) :
    (scheme ++ s).head? = some 'h' := by
  fin_cases h <;> rfl

theorem onBase_strip {scheme netloc url : Text} (hscheme : scheme ∈ webSchemes)
    (h : OnBase scheme netloc url) : OnBase scheme netloc (strip url) := by
  rcases h with ⟨rest, hslash, rfl⟩
  rcases exists_slash hslash with ⟨tail, rfl⟩
  refine ⟨'/' :: tail.rdropWhile Margins.isspace, rfl, ?_⟩
  have hlast : (scheme ++ ':' :: '/' :: '/' :: (netloc ++ ['/'])).getLast? = some '/' := by
    rw [← List.cons_append, ← List.cons_append, ← List.cons_append, ← List.append_assoc,
      List.getLast?_concat]
  rw [web_eq, web_eq, strip_append (head_webScheme hscheme _) hlast rfl rfl]

theorem onBase_expand {scheme netloc url : Text} (hscheme : scheme ∈ webSchemes)
    (hbrace : '{' ∉ netloc) (h : OnBase scheme netloc url) (declared : Json) :
    OnBase scheme netloc (expandVariableDefaults lib url declared) := by
  rcases h with ⟨rest, hslash, rfl⟩
  rcases exists_slash hslash with ⟨tail, rfl⟩
  have hnone : '{' ∉ scheme ++ ':' :: '/' :: '/' :: (netloc ++ ['/']) := by
    have hweb : '{' ∉ scheme := by fin_cases hscheme <;> decide
    simp only [List.mem_append, List.mem_cons, List.not_mem_nil, hweb, hbrace, Char.reduceEq,
      or_self, not_false_eq_true]
  exact ⟨'/' :: expandVariableDefaults lib tail declared, rfl, by
    rw [web_eq, web_eq, expand_append hnone]⟩

variable (lib) in
theorem onBase_shown {scheme netloc url : Text} (hscheme : scheme ∈ webSchemes)
    (hbrace : '{' ∉ netloc) (h : OnBase scheme netloc url) (declared : Json) :
    OnBase scheme netloc (shown lib url declared) :=
  onBase_strip hscheme (onBase_expand hscheme hbrace (onBase_strip hscheme h) declared)

theorem isPrefixOf_slashes {s : Text} (h : ['/', '/'].isPrefixOf s = true) :
    ∃ t, s = '/' :: '/' :: t := by
  rw [List.isPrefixOf_iff_prefix] at h
  rcases h with ⟨t, ht⟩
  exact ⟨t, ht.symm⟩

variable (lib) in
/-- A reference with two slashes begins with them when its variables take their
defaults, and a scheme in front of it stays there. -/
theorem shown_relative {url : Text} (declared : Json)
    (h : ['/', '/'].isPrefixOf (strip url) = true) :
    ∃ t, shown lib url declared = '/' :: '/' :: t ∧
      ∀ scheme ∈ webSchemes, strip (scheme ++ ':' :: strip url) = scheme ++ ':' :: strip url ∧
        shown lib (scheme ++ ':' :: strip url) declared = scheme ++ ':' :: '/' :: '/' :: t := by
  rcases isPrefixOf_slashes h with ⟨t, ht⟩
  have hexpand : expandVariableDefaults lib (strip url) declared =
      ['/', '/'] ++ expandVariableDefaults lib t declared := by
    rw [ht]
    exact expand_append (a := ['/', '/']) (by decide) t declared
  have hbare : ∀ s : Text, strip (['/', '/'] ++ s) = ['/', '/'] ++ s.rdropWhile Margins.isspace :=
    strip_append rfl rfl rfl rfl
  refine ⟨(expandVariableDefaults lib t declared).rdropWhile Margins.isspace, ?_, ?_⟩
  · rw [shown, hexpand, hbare]
    rfl
  · intro scheme hscheme
    have hfront : ∀ s : Text, strip (scheme ++ ':' :: '/' :: '/' :: s) =
        scheme ++ ':' :: '/' :: '/' :: s.rdropWhile Margins.isspace := by
      intro s
      have hsplit : ∀ s : Text, scheme ++ ':' :: '/' :: '/' :: s = scheme ++ [':', '/', '/'] ++ s := by
        intro s
        rw [List.append_assoc]
        rfl
      have hlast : (scheme ++ [':', '/', '/']).getLast? = some '/' :=
        List.getLast?_append_of_ne_nil scheme (List.cons_ne_nil _ _)
      rw [hsplit, strip_append (head_webScheme hscheme _) hlast rfl rfl, ← hsplit]
    have hstable : strip (scheme ++ ':' :: strip url) = scheme ++ ':' :: strip url := by
      -- The template has no right margin any more.
      have htwice : strip (['/', '/'] ++ t) = ['/', '/'] ++ t := by
        have hstrip : strip (strip url) = strip url := Margins.trim_trim url
        rwa [ht] at hstrip
      have htail : t.rdropWhile Margins.isspace = t := by
        rw [hbare] at htwice
        exact List.append_cancel_left htwice
      rw [ht, hfront, htail]
    refine ⟨hstable, ?_⟩
    have hcolon : '{' ∉ scheme ++ [':'] := by
      fin_cases hscheme <;> decide
    have hmove : ∀ s : Text, scheme ++ ':' :: s = scheme ++ [':'] ++ s := by
      intro s
      rw [List.append_assoc]
      rfl
    rw [shown, hstable, hmove, expand_append hcolon, hexpand, ← hmove]
    exact hfront _

/-! ## One server -/

/-- What is meant to become of a server, and that it is then kept. -/
def Meant (lib : Stdlib) (contentHosts : List Text) (base : DocumentBase) (url : Text)
    (declared : Json) : Outcome → Prop
  | .keep => NamesHost lib url declared
  | .problem _ => True
  | .absolute resolved =>
      ResolvedTo lib contentHosts base url declared resolved ∧
        classify lib resolved declared base = some .keep

theorem hasHost_iff {url : Text} :
    hasHost lib url = true ↔ ∃ parts, urlsplit lib url = some parts ∧ hostname lib parts ≠ [] := by
  rw [hasHost, Option.any_eq_true]
  exact exists_congr fun parts => and_congr_right fun _ => decide_eq_true_iff

theorem hasHost_false {url : Text} {parts : SplitResult} (hparts : urlsplit lib url = some parts)
    (h : hostname lib parts = []) : hasHost lib url = false := by
  rw [hasHost, hparts, Option.any_some, h]
  rfl

/-- A server that comes to a URL with a network location is kept. -/
theorem classify_of_netloc {url : Text} {declared : Json} {base : DocumentBase}
    {own : SplitResult} (hslash : ['/', '/'].isPrefixOf (strip url) = false)
    (hown : urlsplit lib (shown lib url declared) = some own) (hne : own.netloc ≠ []) :
    classify lib url declared base = some .keep := by
  have hhostless : isHostlessServerUrl lib (strip url) declared = false := by
    rw [shown] at hown
    rw [isHostlessServerUrl]
    rw [hown, Option.any_some, decide_eq_false hne, Bool.and_false]
  rw [classify]
  rw [if_neg (by rw [hslash]; exact Bool.false_ne_true),
    if_neg (by rw [hhostless]; exact Bool.false_ne_true)]

theorem not_isPrefixOf_web {scheme : Text} (hscheme : scheme ∈ webSchemes) (s : Text) :
    ['/', '/'].isPrefixOf (scheme ++ s) = false := by
  fin_cases hscheme <;> rfl

/-- The URL of a base with the same scheme and network location stands there. -/
theorem standsAt_onBase {scheme netloc url : Text} {parts : SplitResult}
    (hscheme : scheme ∈ webSchemes) (hclean : Clean netloc) (haccepts : accepts lib netloc = true)
    (h : OnBase scheme netloc url) (hpscheme : parts.scheme = scheme)
    (hpnetloc : parts.netloc = netloc) : StandsAt lib url parts := by
  rcases urlsplit_onBase lib hscheme hclean h with ⟨path, query, fragment, hsplit⟩
  rw [if_pos haccepts] at hsplit
  refine ⟨_, hsplit, hpscheme.symm, hpnetloc.symm, hostname_congr hpnetloc.symm, ?_⟩
  rw [port, port, hpnetloc]

/-- A reference with two slashes is kept, refused, or gets the scheme of the base. -/
theorem classifyNetworkPath_spec (hlib : lib.Lawful) {contentHosts : List Text}
    {base : DocumentBase} {url : Text} {declared : Json}
    (hscheme : ∀ scheme ∈ base.scheme, scheme ∈ webSchemes)
    (hslash : ['/', '/'].isPrefixOf (strip url) = true) (hsound : Sound lib base url declared) :
    Meant lib contentHosts base url declared
      (classifyNetworkPath lib (strip url) declared base) := by
  rw [Sound, if_pos hslash] at hsound
  rw [classifyNetworkPath]
  by_cases hhost : hasHost lib
      ("https:".toList ++ expandVariableDefaults lib (strip url) declared) = true
  · rw [if_pos hhost]
    cases hbase : base.scheme with
    | none => exact Or.inl (hsound hhost)
    | some scheme =>
        have hweb := hscheme scheme hbase
        rcases shown_relative lib declared hslash with ⟨t, hshown, hfront⟩
        rcases hfront scheme hweb with ⟨hstable, hresolved⟩
        rcases hasHost_iff.mp (hsound hhost) with ⟨own, hown, hname⟩
        have hsplit : urlsplit lib (shown lib (scheme ++ ':' :: strip url) declared) =
            some { own with scheme } := by
          rw [hresolved, urlsplit_relative hweb, ← hshown, hown]
          rfl
        have hne : own.netloc ≠ [] := fun h => hname (hostname_nil hlib h)
        refine ⟨?_, ?_⟩
        · rw [ResolvedTo, if_pos hslash]
          exact ⟨scheme, own, hbase, rfl, hown, hname, _, hsplit, rfl, rfl, rfl, rfl⟩
        · refine classify_of_netloc ?_ hsplit hne
          rw [hstable]
          exact not_isPrefixOf_web hweb _
  · rw [if_neg hhost]
    exact True.intro

/-- What is joined to a base stands at its scheme and network location, or it has no
host and is refused. -/
theorem joinTo_spec (hlib : lib.Lawful) {contentHosts : List Text} {base : DocumentBase}
    {scheme netloc baseUrl template : Text} (hbase : WebBase lib contentHosts base scheme netloc)
    (hurl : OnBase scheme netloc baseUrl) {parts : SplitResult}
    (hparts : urlsplit lib template = some parts) (hnone : hostname lib parts = []) :
    joinTo lib baseUrl template = some (.problem .unsupportedScheme) ∨
      ∃ resolved, joinTo lib baseUrl template = some (.absolute resolved) ∧
        OnBase scheme netloc resolved := by
  have hreference : ∃ split, urlsplit lib (if template = [] then ['/'] else template) =
      some split ∧ hostname lib split = [] := by
    by_cases hempty : template = []
    · rw [if_pos hempty]
      refine ⟨⟨[], [], ['/'], [], []⟩, ?_, hostname_nil hlib rfl⟩
      rw [urlsplit_eq]
      rfl
    · rw [if_neg hempty]
      exact ⟨parts, hparts, hnone⟩
  have hne : (if template = [] then ['/'] else template) ≠ [] := by
    split
    · exact List.cons_ne_nil '/' []
    · assumption
  rcases hreference with ⟨split, hsplit, hname⟩
  rcases hurl with ⟨rest, hslash, rfl⟩
  rcases urljoin_spec hbase.web hbase.clean hbase.accepted hbase.nonempty hslash hne hsplit with
    ⟨joined, hjoin, hjoined⟩
  -- What has no host is refused, whatever its scheme is.
  have hrefused : ∀ split : SplitResult, urlsplit lib joined = some split →
      hostname lib split = [] → joinTo lib (web scheme netloc rest) template =
        some (.problem .unsupportedScheme) := by
    intro split hsplit hname
    rw [joinTo, hjoin, Option.bind_some, hsplit, Option.map_some,
      if_pos (Or.inr (hasHost_false hsplit hname))]
  by_cases hsame : split.scheme = [] ∨ split.scheme = scheme
  · rw [if_pos hsame] at hjoined
    rcases hjoined with ⟨rest', hrest', hslash', hjoined⟩
    by_cases hown : split.netloc = []
    · rw [if_pos hown] at hjoined
      have hon : OnBase scheme netloc joined := ⟨rest', hslash' hown, hjoined⟩
      rcases urlsplit_onBase lib hbase.web hbase.clean hon with
        ⟨path, query, fragment, hagain⟩
      rw [if_pos hbase.accepted] at hagain
      by_cases hhost : hasHost lib joined = false
      · left
        rw [joinTo, hjoin, Option.bind_some, hagain, Option.map_some, if_pos (Or.inr hhost)]
      · right
        refine ⟨joined, ?_, hon⟩
        rw [joinTo, hjoin, Option.bind_some, hagain, Option.map_some,
          if_neg fun hc => hc.elim (fun h => h hbase.web) hhost]
    · rw [if_neg hown] at hjoined
      rcases clean_of_urlsplit hsplit with ⟨hclean, haccepts⟩
      rcases urlsplit_web lib hbase.web hclean hrest' with ⟨path, query, fragment, _, hagain⟩
      rw [if_pos haccepts, ← hjoined] at hagain
      exact Or.inl (hrefused _ hagain ((hostname_congr rfl).trans hname))
  · rw [if_neg hsame] at hjoined
    exact Or.inl (hrefused split (hjoined ▸ hsplit) hname)

/-- A server that is not refused before it is joined comes to a URL without a scheme. -/
theorem scheme_of_refusal {template expanded : Text} (h : refusal lib template expanded = none) :
    ∃ parts, urlsplit lib expanded = some parts ∧ parts.scheme = [] := by
  rw [refusal] at h
  split at h
  · exact absurd h (by simp only [reduceCtorEq, not_false_eq_true])
  · split at h
    · exact absurd h (by simp only [reduceCtorEq, not_false_eq_true])
    · split at h
      · exact absurd h (by simp only [reduceCtorEq, not_false_eq_true])
      · split at h
        · exact absurd h (by simp only [reduceCtorEq, not_false_eq_true])
        · rename_i hscheme
          cases hparts : urlsplit lib expanded with
          | none =>
              rw [hparts] at hscheme
              exact absurd rfl hscheme
          | some parts =>
              rw [hparts, Option.all_some, decide_eq_true_eq, not_not] at hscheme
              exact ⟨parts, rfl, hscheme⟩

/-- What becomes of a sound server: it names its own host and is kept, it is refused,
or it is resolved and then kept. -/
theorem classify_spec (hlib : lib.Lawful) {contentHosts : List Text} {base : DocumentBase}
    (hbase : base.url = none ∧ base.scheme = none ∨
      ∃ scheme netloc, WebBase lib contentHosts base scheme netloc)
    {url : Text} {declared : Json} (hsound : Sound lib base url declared) :
    ∃ outcome, classify lib url declared base = some outcome ∧
      Meant lib contentHosts base url declared outcome := by
  rw [classify]
  by_cases hslash : ['/', '/'].isPrefixOf (strip url) = true
  · rw [if_pos hslash]
    refine ⟨_, rfl, classifyNetworkPath_spec hlib ?_ hslash hsound⟩
    rintro scheme hscheme
    rcases hbase with hnone | ⟨scheme', netloc, hbase⟩
    · rw [hnone.2] at hscheme
      exact absurd hscheme (by simp only [Option.mem_def, reduceCtorEq, not_false_eq_true])
    · rw [hbase.scheme_eq, Option.mem_def, Option.some.injEq] at hscheme
      rw [← hscheme]
      exact hbase.web
  · rw [if_neg hslash]
    rw [Sound, if_neg hslash] at hsound
    by_cases hhostless : isHostlessServerUrl lib (strip url) declared = true
    · rw [if_pos hhostless] at hsound ⊢
      rw [classifyHostless]
      cases hrefusal : refusal lib (strip url)
          (strip (expandVariableDefaults lib (strip url) declared)) with
      | some problem => exact ⟨_, rfl, True.intro⟩
      | none =>
          rw [Option.elim_none]
          rcases hbase with hnone | ⟨scheme, netloc, hbase⟩
          · rw [hnone.1]
            exact ⟨_, rfl, True.intro⟩
          · rcases hbase.url with ⟨baseUrl, hbaseUrl, hon⟩
            rw [hbaseUrl, Option.elim_some]
            rcases hsound baseUrl hbaseUrl (scheme_of_refusal hrefusal) with
              ⟨⟨parts, hparts, hnone⟩, bparts, hbparts, hbrace⟩
            rcases accepts_of_urlsplit hbase.web hbase.clean hon hbparts with
              ⟨_, hbscheme, hbnetloc⟩
            rw [hbnetloc] at hbrace
            rcases joinTo_spec hlib hbase hon hparts hnone with hjoin | ⟨resolved, hjoin, hresolved⟩
            · exact ⟨_, hjoin, True.intro⟩
            · have hagain := onBase_shown lib hbase.web hbrace hresolved declared
              have hstands : ∀ u, OnBase scheme netloc u → StandsAt lib u bparts := fun u hu =>
                standsAt_onBase hbase.web hbase.clean hbase.accepted hu hbscheme hbnetloc
              refine ⟨_, hjoin, ?_, ?_⟩
              · rw [ResolvedTo, if_neg hslash]
                exact ⟨hhostless, baseUrl, bparts, hbaseUrl, hbparts, hbase.notStatic _ hbnetloc,
                  hstands resolved hresolved, hstands _ hagain⟩
              · rcases hstands _ hagain with ⟨own, hown, _, hnetloc, _⟩
                refine classify_of_netloc ?_ hown ?_
                · rcases onBase_strip hbase.web hresolved with ⟨rest, _, hrest⟩
                  rw [hrest]
                  exact not_isPrefixOf_web hbase.web _
                · rw [hnetloc, hbnetloc]
                  exact hbase.nonempty
    · rw [if_neg hhostless] at hsound ⊢
      exact ⟨_, rfl, hsound⟩

end ServerUrls

end Registry

end JenticOne
