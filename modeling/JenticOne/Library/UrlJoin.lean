import JenticOne.Library.Urllib

/-!
# URL Joining

`urlunsplit` and `urljoin`: a URL put together from its parts, and a reference
resolved against the URL of a document. What is put together with a web scheme
and a network location is split into the same two again, and so is what is
joined: the network location is the one of the reference, or else the one of
the document.

## Main definitions

* `urlunsplit`, `urlunparse`: A URL put together from its parts.
* `urljoin`: A reference, resolved against a base.
* `web`: A URL with a scheme, a network location and a rest.
* `accepts`: A network location that `urlsplit` does not refuse.

## Theorems

* `urlsplit_web`: The scheme and the network location of such a URL.
* `urlsplit_relative`: A reference that begins with two slashes, after a scheme.
* `clean_of_urlsplit`: The characters of a network location.
* `urljoin_spec`: What a reference is joined to.
-/

namespace Urllib

variable (lib : Stdlib)

/-- The schemes whose URLs may be relative. -/
def usesRelative : List Text :=
  ["", "ftp", "http", "gopher", "nntp", "imap", "wais", "file", "https", "shttp", "mms",
    "prospero", "rtsp", "rtsps", "rtspu", "sftp", "svn", "svn+ssh", "ws", "wss"].map String.toList

/-- The schemes whose URLs have a network location. -/
def usesNetloc : List Text :=
  ["", "ftp", "http", "gopher", "nntp", "telnet", "imap", "wais", "file", "mms", "https", "shttp",
    "snews", "prospero", "rtsp", "rtsps", "rtspu", "rsync", "svn", "svn+ssh", "sftp", "nfs", "git",
    "git+ssh", "ws", "wss"].map String.toList

/-- The network location and the path; the slashes stand for an empty location
where the path would be read otherwise. -/
def hierarchy (scheme netloc path : Text) : Text :=
  if netloc ≠ [] then
    "//".toList ++ (netloc ++ if path ≠ [] ∧ path.head? ≠ some '/' then '/' :: path else path)
  else if "//".toList.isPrefixOf path then "//".toList ++ path
  else if scheme ≠ [] ∧ scheme ∈ usesNetloc ∧ (path = [] ∨ path.head? = some '/') then
    "//".toList ++ path
  else path

def urlunsplit (split : SplitResult) : Text :=
  (if split.scheme ≠ [] then split.scheme ++ [':'] else []) ++
    (hierarchy split.scheme split.netloc split.path ++
      ((if split.query ≠ [] then '?' :: split.query else []) ++
        if split.fragment ≠ [] then '#' :: split.fragment else []))

def urlunparse (parsed : ParseResult) : Text :=
  urlunsplit { parsed.toSplitResult with
    path := if parsed.params ≠ [] then parsed.path ++ ';' :: parsed.params else parsed.path }

/-- `urlparse` of a URL that has the given scheme when it names none. -/
def urlparseFrom (scheme url : Text) : Option ParseResult :=
  (urlsplit lib url).map fun split =>
    let split := { split with scheme := if split.scheme = [] then scheme else split.scheme }
    if split.scheme ∈ usesParams then
      { split with path := (splitParams split.path).1, params := (splitParams split.path).2 }
    else { split with params := [] }

/-- The segments without the empty ones between the first and the last. -/
def squeeze : List Text → List Text
  | [] => []
  | [segment] => [segment]
  | first :: segment :: rest =>
      first :: ((segment :: rest).dropLast.filter (· ≠ []) ++
        [(segment :: rest).getLast (List.cons_ne_nil segment rest)])

/-- One segment carried out on those before it. -/
def takeSegment (resolved : List Text) (segment : Text) : List Text :=
  if segment = ['.', '.'] then resolved.dropLast
  else if segment = ['.'] then resolved
  else resolved ++ [segment]

/-- The segments of the directory of a path. -/
def directory (path : Text) : List Text :=
  if (path.splitOn '/').getLast? ≠ some [] then (path.splitOn '/').dropLast else path.splitOn '/'

/-- The segments of a reference's path in the directory of the base. -/
def joinSegments (base path : Text) : List Text :=
  if path.head? = some '/' then path.splitOn '/'
  else squeeze (directory base ++ path.splitOn '/')

/-- The path of a reference, resolved against the path of the base. -/
def joinPath (base path : Text) : Text :=
  let segments := joinSegments base path
  let resolved := segments.foldl takeSegment []
  let resolved :=
    if segments.getLast? = some ['.'] ∨ segments.getLast? = some ['.', '.'] then resolved ++ [[]]
    else resolved
  let path := ['/'].intercalate resolved
  if path = [] then ['/'] else path

/-- The URL `url`, which has the parts `u`, resolved against the parts of the
base. -/
def joinParsed (url : Text) (b u : ParseResult) : Text :=
  if u.scheme ≠ b.scheme ∨ u.scheme ∉ usesRelative then url
  else if u.scheme ∈ usesNetloc ∧ u.netloc ≠ [] then urlunparse u
  else
    let netloc := if u.scheme ∈ usesNetloc then b.netloc else u.netloc
    if u.path = [] ∧ u.params = [] then
      urlunparse { u with
        netloc, path := b.path, params := b.params
        query := if u.query = [] then b.query else u.query }
    else urlunparse { u with netloc, path := joinPath b.path u.path }

def urljoin (base url : Text) : Option Text :=
  if base = [] then some url
  else if url = [] then some base
  else
    (urlparse lib base).bind fun b =>
      (urlparseFrom lib b.scheme url).map fun u => joinParsed url b u

/-! ## Network locations -/

def webSchemes : List Text := ["http".toList, "https".toList]

/-- A URL with a scheme and a network location. -/
def web (scheme netloc rest : Text) : Text := scheme ++ ':' :: '/' :: '/' :: (netloc ++ rest)

/-- What a network location may consist of. -/
def Clean (netloc : Text) : Prop := ∀ c ∈ netloc, c ∉ ['/', '?', '#'] ∧ c ∉ unsafeChars

/-- What may follow a network location. -/
def Rest (rest : Text) : Prop := ∀ c ∈ rest.head?, c ∈ ['/', '?', '#']

/-- The network location passes the checks. -/
def accepts (netloc : Text) : Bool :=
  !((netloc.contains '[' || netloc.contains ']') && !lib.bracketsOk netloc) && netlocOk lib netloc

variable {lib}

variable (lib) in
theorem urlsplit_eq (url : Text) :
    urlsplit lib url =
      let split := splitNetloc (splitScheme (cleaned url)).2
      if accepts lib split.1 then
        some ⟨(splitScheme (cleaned url)).1, split.1,
          ((split.2.partition '#').1.partition '?').1,
          ((split.2.partition '#').1.partition '?').2.2, (split.2.partition '#').2.2⟩
      else none := by
  rw [urlsplit]
  dsimp only
  generalize splitNetloc (splitScheme (cleaned url)).2 = split
  rw [accepts]
  by_cases hbrackets : ((split.1.contains '[' || split.1.contains ']') &&
      !lib.bracketsOk split.1) = true
  · rw [if_pos hbrackets, hbrackets]
    rfl
  · rw [if_neg hbrackets, Bool.eq_false_iff.mpr hbrackets]
    rfl

theorem splitNetloc_relative {netloc rest : Text} (hclean : Clean netloc) (hrest : Rest rest) :
    splitNetloc ('/' :: '/' :: (netloc ++ rest)) = (netloc, rest) := by
  have hfree : ∀ c ∈ netloc, decide (c ∉ ['/', '?', '#']) = true :=
    fun c hc => decide_eq_true (hclean c hc).1
  have hdrop : ('/' :: '/' :: (netloc ++ rest)).drop 2 = netloc ++ rest := rfl
  rw [splitNetloc, if_pos (by rfl), hdrop, List.takeWhile_append_of_pos hfree,
    List.dropWhile_append_of_pos hfree]
  cases rest with
  | nil => rw [List.takeWhile_nil, List.dropWhile_nil, List.append_nil]
  | cons c rest =>
      have hstop : ¬ decide (c ∉ ['/', '?', '#']) = true := by
        rw [decide_eq_true_eq]
        exact fun h => h (hrest c rfl)
      rw [List.takeWhile_cons_of_neg (p := fun x => x ∉ ['/', '?', '#']) hstop,
        List.dropWhile_cons_of_neg (p := fun x => x ∉ ['/', '?', '#']) hstop, List.append_nil]

/-- What begins with a visible character is only freed of tabs and line ends. -/
theorem cleaned_cons {c : Char} (hc : 32 < c.toNat) (s : Text) :
    cleaned (c :: s) = (c :: s).filter (· ∉ unsafeChars) := by
  rw [cleaned, List.dropWhile_cons_of_neg]
  rw [decide_eq_true_eq]
  omega

theorem filter_clean {netloc : Text} (h : Clean netloc) :
    netloc.filter (· ∉ unsafeChars) = netloc :=
  List.filter_eq_self.mpr fun c hc => decide_eq_true (h c hc).2

theorem rest_filter {rest : Text} (h : Rest rest) : Rest (rest.filter (· ∉ unsafeChars)) := by
  cases rest with
  | nil => exact h
  | cons c rest =>
      have hc : c ∈ ['/', '?', '#'] := h c rfl
      have hkept : decide (c ∉ unsafeChars) = true := by
        fin_cases hc <;> rfl
      rw [List.filter_cons_of_pos (p := fun x => x ∉ unsafeChars) hkept]
      exact fun x hx => h x hx

theorem cleaned_web {scheme netloc : Text} (hscheme : scheme ∈ webSchemes) (hclean : Clean netloc)
    (rest : Text) :
    cleaned (web scheme netloc rest) = web scheme netloc (rest.filter (· ∉ unsafeChars)) := by
  have htail : (netloc ++ rest).filter (· ∉ unsafeChars) =
      netloc ++ rest.filter (· ∉ unsafeChars) := by
    rw [List.filter_append, filter_clean hclean]
  have hslashes : ∀ s : Text, (':' :: '/' :: '/' :: s).filter (· ∉ unsafeChars) =
      ':' :: '/' :: '/' :: s.filter (· ∉ unsafeChars) := fun _ => rfl
  have hkept : scheme.filter (· ∉ unsafeChars) = scheme := by
    fin_cases hscheme <;> rfl
  have hvisible : ∃ c s, web scheme netloc rest = c :: s ∧ 32 < c.toNat := by
    fin_cases hscheme
    · exact ⟨'h', _, rfl, by decide⟩
    · exact ⟨'h', _, rfl, by decide⟩
  rcases hvisible with ⟨c, s, hs, hc⟩
  rw [hs, cleaned_cons hc, ← hs, web, List.filter_append, hkept, hslashes, htail]
  rfl

theorem splitScheme_web {scheme : Text} (hscheme : scheme ∈ webSchemes) (rest : Text) :
    splitScheme (scheme ++ ':' :: rest) = (scheme, rest) := by
  have hcolon : ':' ∉ scheme := by
    fin_cases hscheme <;> decide
  have hspelt : ((scheme ++ ':' :: rest).head?.any Char.isAlpha && scheme.all isSchemeChar) =
      true := by
    fin_cases hscheme <;> rfl
  have hlower : scheme.map Char.toLower = scheme := by
    fin_cases hscheme <;> rfl
  rw [splitScheme, Text.partition_append hcolon]
  dsimp only
  rw [Bool.true_and, if_pos hspelt, hlower]

/-- A reference that begins with two slashes has no scheme. -/
theorem splitScheme_slashes (s : Text) :
    splitScheme ('/' :: '/' :: s) = ([], '/' :: '/' :: s) := by
  have halpha : ('/' :: '/' :: s).head?.any Char.isAlpha = false := rfl
  rw [splitScheme]
  dsimp only
  rw [halpha, Bool.and_false, Bool.false_and]
  rfl

variable (lib) in
/-- A URL with a web scheme and a network location is split into these two; a
slash after them begins the path. -/
theorem urlsplit_web {scheme netloc rest : Text} (hscheme : scheme ∈ webSchemes)
    (hclean : Clean netloc) (hrest : Rest rest) :
    ∃ path query fragment, (rest.head? = some '/' → path.head? = some '/') ∧
      urlsplit lib (web scheme netloc rest) =
        if accepts lib netloc then some ⟨scheme, netloc, path, query, fragment⟩ else none := by
  refine ⟨_, _, _, ?_, by
    rw [urlsplit_eq, cleaned_web hscheme hclean, web, splitScheme_web hscheme]
    dsimp only
    rw [splitNetloc_relative hclean (rest_filter hrest)]⟩
  cases rest with
  | nil => exact fun h => absurd h (by simp only [List.head?_nil, reduceCtorEq, not_false_eq_true])
  | cons c rest =>
      intro h
      rw [List.head?_cons, Option.some.injEq] at h
      rw [h]
      rfl

/-- A reference that begins with two slashes has the same network location after
a scheme. -/
theorem urlsplit_relative {scheme : Text} (hscheme : scheme ∈ webSchemes) (s : Text) :
    urlsplit lib (scheme ++ ':' :: '/' :: '/' :: s) =
      (urlsplit lib ('/' :: '/' :: s)).map fun split => { split with scheme } := by
  have hkept : scheme.filter (· ∉ unsafeChars) = scheme := by
    fin_cases hscheme <;> rfl
  have hslashes : ('/' :: '/' :: s).filter (· ∉ unsafeChars) =
      '/' :: '/' :: s.filter (· ∉ unsafeChars) := rfl
  have hvisible : ∃ c t, scheme ++ ':' :: '/' :: '/' :: s = c :: t ∧ 32 < c.toNat := by
    fin_cases hscheme
    · exact ⟨'h', _, rfl, by decide⟩
    · exact ⟨'h', _, rfl, by decide⟩
  have habsolute : cleaned (scheme ++ ':' :: '/' :: '/' :: s) =
      scheme ++ ':' :: '/' :: '/' :: s.filter (· ∉ unsafeChars) := by
    rcases hvisible with ⟨c, t, ht, hc⟩
    rw [ht, cleaned_cons hc, ← ht, List.filter_append, hkept]
    rfl
  have hrelative : cleaned ('/' :: '/' :: s) = '/' :: '/' :: s.filter (· ∉ unsafeChars) := by
    rw [cleaned_cons (by decide), hslashes]
  rw [urlsplit_eq, urlsplit_eq, habsolute, hrelative, splitScheme_web hscheme,
    splitScheme_slashes]
  dsimp only
  split <;> rfl

/-- The network location of a URL has no character that ends one, and passes the
checks. -/
theorem clean_of_urlsplit {url : Text} {split : SplitResult} (h : urlsplit lib url = some split) :
    Clean split.netloc ∧ accepts lib split.netloc = true := by
  rw [urlsplit_eq] at h
  dsimp only at h
  split at h
  · rename_i haccepts
    rw [Option.some.injEq] at h
    rw [← h]
    refine ⟨?_, haccepts⟩
    have hsafe : ∀ c ∈ (splitScheme (cleaned url)).2, c ∉ unsafeChars := by
      intro c hc
      have hmem : c ∈ cleaned url := by
        rw [splitScheme] at hc
        dsimp only at hc
        split at hc
        · exact (List.dropWhile_sublist _).subset (List.mem_of_mem_tail hc)
        · exact hc
      rw [cleaned, List.mem_filter, decide_eq_true_eq] at hmem
      exact hmem.2
    intro c hc
    dsimp only at hc
    rw [splitNetloc] at hc
    split at hc
    · have hend := List.mem_takeWhile_imp hc
      rw [decide_eq_true_eq] at hend
      exact ⟨hend, hsafe c (List.mem_of_mem_drop ((List.takeWhile_sublist _).subset hc))⟩
    · exact absurd hc List.not_mem_nil
  · exact absurd h (by simp only [reduceCtorEq, not_false_eq_true])

/-! ## Joining -/

theorem rest_of_slash {rest : Text} (h : rest.head? = some '/') : Rest rest := by
  intro c hc
  rw [h, Option.mem_def, Option.some.injEq] at hc
  rw [← hc]
  exact List.mem_cons_self

/-- What is put together with a scheme and a network location. -/
theorem urlunsplit_web (split : SplitResult) (hscheme : split.scheme ∈ webSchemes)
    (hnetloc : split.netloc ≠ []) :
    ∃ rest, Rest rest ∧ (split.path ≠ [] → rest.head? = some '/') ∧
      urlunsplit split = web split.scheme split.netloc rest := by
  have hne : split.scheme ≠ [] := by
    intro h
    rw [h] at hscheme
    exact absurd hscheme (by decide)
  rw [urlunsplit, hierarchy, if_pos hne, if_pos hnetloc]
  generalize hquery : (if split.query ≠ [] then '?' :: split.query else []) = query
  generalize hfragment : (if split.fragment ≠ [] then '#' :: split.fragment else []) = fragment
  generalize hpath : (if split.path ≠ [] ∧ split.path.head? ≠ some '/' then '/' :: split.path
    else split.path) = path
  have hslash : split.path ≠ [] → path.head? = some '/' := by
    intro h
    by_cases hhead : split.path.head? = some '/'
    · rw [← hpath, if_neg fun hc => hc.2 hhead]
      exact hhead
    · rw [← hpath, if_pos ⟨h, hhead⟩]
      rfl
  have hslash' : split.path ≠ [] → (path ++ (query ++ fragment)).head? = some '/' := by
    intro h
    rw [List.head?_append, hslash h]
    rfl
  refine ⟨path ++ (query ++ fragment), ?_, hslash', ?_⟩
  · by_cases hempty : split.path = []
    · -- Without a path the query or the fragment comes first, if there is one.
      have hnil : path = [] := by
        rw [← hpath, if_neg fun hc => hc.1 hempty, hempty]
      rw [hnil, List.nil_append, ← hquery, ← hfragment]
      intro c hc
      split at hc
      · rw [List.cons_append, List.head?_cons, Option.mem_def, Option.some.injEq] at hc
        rw [← hc]
        decide
      · split at hc
        · rw [List.nil_append, List.head?_cons, Option.mem_def, Option.some.injEq] at hc
          rw [← hc]
          decide
        · exact absurd hc (by simp)
    · exact rest_of_slash (hslash' hempty)
  · rw [web, List.append_assoc, List.append_assoc, List.append_assoc]
    rfl

theorem urlunparse_web (parsed : ParseResult) (hscheme : parsed.scheme ∈ webSchemes)
    (hnetloc : parsed.netloc ≠ []) :
    ∃ rest, Rest rest ∧ (parsed.path ≠ [] → rest.head? = some '/') ∧
      urlunparse parsed = web parsed.scheme parsed.netloc rest := by
  rcases urlunsplit_web ({ parsed.toSplitResult with
    path := if parsed.params ≠ [] then parsed.path ++ ';' :: parsed.params else parsed.path })
    hscheme hnetloc with ⟨rest, hrest, hslash, hurl⟩
  refine ⟨rest, hrest, fun hpath => hslash ?_, hurl⟩
  split
  · exact fun hc => hpath (List.append_eq_nil_iff.mp hc).1
  · exact hpath

theorem joinPath_ne_nil (base path : Text) : joinPath base path ≠ [] := by
  have hroot : ∀ text : Text, (if text = [] then ['/'] else text) ≠ [] := by
    intro text
    by_cases h : text = []
    · rw [if_pos h]
      exact List.cons_ne_nil '/' []
    · rw [if_neg h]
      exact h
  exact hroot _

/-- A path with a slash is still there without its parameters. -/
theorem splitParams_ne_nil {path : Text} (h : path.head? = some '/') :
    (splitParams path).1 ≠ [] := by
  have hmem : '/' ∈ path := List.mem_of_mem_head? h
  have hdir : (lastSegment path).1 ≠ [] := by
    intro hc
    have hall := List.rdropWhile_eq_nil_iff.mp hc '/' hmem
    rw [decide_eq_true_eq] at hall
    exact hall rfl
  rw [splitParams]
  exact fun hc => hdir (List.append_eq_nil_iff.mp hc).1

variable (lib) in
/-- The parts of a base with a scheme, a network location and a path. -/
theorem urlparse_web {scheme netloc rest : Text} (hscheme : scheme ∈ webSchemes)
    (hclean : Clean netloc) (haccepts : accepts lib netloc = true)
    (hslash : rest.head? = some '/') :
    ∃ b, urlparse lib (web scheme netloc rest) = some b ∧ b.scheme = scheme ∧
      b.netloc = netloc ∧ b.path ≠ [] := by
  rcases urlsplit_web lib hscheme hclean (rest_of_slash hslash) with
    ⟨path, query, fragment, hpath, hsplit⟩
  rw [if_pos haccepts] at hsplit
  have hparams : scheme ∈ usesParams := by
    fin_cases hscheme <;> decide
  refine ⟨⟨⟨scheme, netloc, (splitParams path).1, query, fragment⟩, (splitParams path).2⟩, ?_, rfl,
    rfl, splitParams_ne_nil (hpath hslash)⟩
  rw [urlparse, hsplit]
  exact if_pos hparams

/-- A reference that names no scheme, or the one of the base, is joined to the
base, at its own network location if it has one. Any other reference is left as
it is. -/
theorem urljoin_spec {scheme netloc rest url : Text} (hscheme : scheme ∈ webSchemes)
    (hclean : Clean netloc) (haccepts : accepts lib netloc = true) (hne : netloc ≠ [])
    (hslash : rest.head? = some '/') (hurl : url ≠ []) {split : SplitResult}
    (hsplit : urlsplit lib url = some split) :
    ∃ joined, urljoin lib (web scheme netloc rest) url = some joined ∧
      if split.scheme = [] ∨ split.scheme = scheme then
        ∃ rest', Rest rest' ∧ (split.netloc = [] → rest'.head? = some '/') ∧
          joined = web scheme (if split.netloc = [] then netloc else split.netloc) rest'
      else joined = url := by
  rcases urlparse_web lib hscheme hclean haccepts hslash with
    ⟨b, hbase, hbscheme, hbnetloc, hbpath⟩
  have hparsed : ∃ u, urlparseFrom lib scheme url = some u ∧ u.netloc = split.netloc ∧
      u.scheme = if split.scheme = [] then scheme else split.scheme := by
    rw [urlparseFrom, hsplit, Option.map_some]
    dsimp only
    generalize (if split.scheme = [] then scheme else split.scheme) = named
    by_cases hparams : named ∈ usesParams
    · rw [if_pos hparams]
      exact ⟨_, rfl, rfl, rfl⟩
    · rw [if_neg hparams]
      exact ⟨_, rfl, rfl, rfl⟩
  rcases hparsed with ⟨u, hu, hunetloc, huscheme⟩
  have hbne : web scheme netloc rest ≠ [] := by
    fin_cases hscheme <;> exact List.cons_ne_nil _ _
  refine ⟨joinParsed url b u, ?_, ?_⟩
  · rw [urljoin, if_neg hbne, if_neg hurl, hbase, Option.bind_some, hbscheme, hu, Option.map_some]
  · by_cases hsame : split.scheme = [] ∨ split.scheme = scheme
    · have hus : u.scheme = scheme := by
        rw [huscheme]
        split
        · rfl
        · exact hsame.resolve_left ‹_›
      have huses : scheme ∈ usesRelative ∧ scheme ∈ usesNetloc := by
        fin_cases hscheme <;> decide
      rw [if_pos hsame, joinParsed, hus, hbscheme, if_neg fun hc =>
        hc.elim (fun h => h rfl) fun h => h huses.1, hunetloc, hbnetloc]
      by_cases hown : split.netloc = []
      · rw [if_neg fun hc => hc.2 hown, if_pos huses.2, if_pos hown]
        dsimp only
        -- The reference has no network location: its path may be empty or not.
        by_cases hempty : u.path = [] ∧ u.params = []
        · rw [if_pos hempty]
          rcases urlunparse_web ({ u with
            scheme, netloc, path := b.path, params := b.params
            query := if u.query = [] then b.query else u.query }) hscheme hne with
            ⟨rest', hrest', hslash', hjoined⟩
          exact ⟨rest', hrest', fun _ => hslash' hbpath, hjoined⟩
        · rw [if_neg hempty]
          rcases urlunparse_web ({ u with
            scheme, netloc, path := joinPath b.path u.path }) hscheme hne with
            ⟨rest', hrest', hslash', hjoined⟩
          exact ⟨rest', hrest', fun _ => hslash' (joinPath_ne_nil _ _), hjoined⟩
      · rw [if_pos ⟨huses.2, hown⟩, if_neg hown]
        rcases urlunparse_web u (hus ▸ hscheme) (hunetloc ▸ hown) with
          ⟨rest', hrest', _, hjoined⟩
        exact ⟨rest', hrest', fun h => absurd h hown, by rw [hjoined, hus, hunetloc]⟩
    · have hother : u.scheme ≠ b.scheme := by
        rw [huscheme, hbscheme, if_neg fun h => hsame (Or.inl h)]
        exact fun h => hsame (Or.inr h)
      rw [if_neg hsame, joinParsed, if_pos (Or.inl hother)]

end Urllib
