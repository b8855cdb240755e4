import JenticOne.Library.Json
import JenticOne.Library.Text

/-!
# URL Splitting

`urlsplit`, `urlparse` and the host and the port of what they return, as the
standard library of Python computes them: the leading control characters and
the tabs and line ends are removed, the scheme is what stands before the first
colon when it is spelt like one, the network location ends at the first of
`/?#`, and `urlparse` cuts the parameters off the last segment of the path.

What rests on the Unicode database, and the check of an address in brackets, is
a parameter. `none` is a `ValueError`.

## Main definitions

* `Stdlib`: The parameters; `Stdlib.ascii` is them on ASCII texts, and
  `Stdlib.Lawful` what is documented of them.
* `Stdlib.int?`: `int` of a text.
* `urlsplit`, `urlparse`: The parts of a URL.
* `hostname`, `port`: The parts of a network location.

## Theorems

* `splitParams_fst`: The path `urlparse` leaves.
* `mem_hostname`, `hostInfo_spec`: The characters of a host.
* `hostname_eq_of_hostInfo`: A host is the host of a network location that spells
  it.
-/

/-- What the text methods of the language take from the Unicode database, the
check of a host in brackets, and `str` of a list or a mapping. -/
structure Stdlib where
  lower : Text → Text
  casefold : Text → Text
  isdigit : Char → Bool
  /-- The value of a decimal digit. -/
  decimal : Char → Option Nat
  isspace : Char → Bool
  nfkc : Text → Text
  /-- The network location has brackets only around an address. -/
  bracketsOk : Text → Bool
  repr : Json → Text

namespace Stdlib

/-- The functions on ASCII texts. No address is accepted in brackets, and no
list or mapping has a spelling. -/
def ascii : Stdlib where
  lower s := s.map Char.toLower
  casefold s := s.map Char.toLower
  isdigit := Char.isDigit
  decimal c := if c.isDigit then some (c.toNat - '0'.toNat) else none
  isspace c := c = ' ' || (9 ≤ c.toNat && c.toNat ≤ 13) || (28 ≤ c.toNat && c.toNat ≤ 31)
  nfkc s := s
  bracketsOk _ := false
  repr _ := []

/-- What is documented of the methods: lower case is in lower case already, it makes
no character of ASCII but letters, and brackets come in pairs. -/
structure Lawful (lib : Stdlib) : Prop where
  lower_nil : lib.lower [] = []
  lower_lower : ∀ s, lib.lower (lib.lower s) = lib.lower s
  mem_lower : ∀ s, ∀ c ∈ lib.lower s, c.toNat < 128 → c.isAlpha = false → c ∈ s
  brackets : ∀ s, lib.bracketsOk s = true → '[' ∈ s ∧ ']' ∈ s

theorem ascii_lawful : ascii.Lawful where
  lower_nil := rfl
  lower_lower s := by
    have hmap : (s.map Char.toLower).map Char.toLower = s.map Char.toLower := by
      rw [List.map_map]
      exact List.map_congr_left fun c _ => Char.toLower_toLower_eq_toLower c
    exact hmap
  mem_lower s c hc _ hletter := by
    rcases List.mem_map.mp hc with ⟨d, hd, rfl⟩
    rw [Char.isAlpha_toLower_eq_isAlpha] at hletter
    have hupper : ¬ d.isUpper = true := by
      intro h
      rw [Char.isAlpha, h] at hletter
      exact Bool.noConfusion hletter
    rw [Char.toLower_eq_of_not_isUpper hupper]
    exact hd
  brackets _ h := absurd h Bool.false_ne_true

variable (lib : Stdlib)

/-- The number spelt by decimal digits. -/
def digits? (s : Text) : Option Nat :=
  s.foldl (fun n c => do return 10 * (← n) + (← lib.decimal c)) (some 0)

/-- `int`: white space around it, a sign, digits with single underscores. -/
def int? (s : Text) : Option Int :=
  let body := (s.dropWhile lib.isspace).rdropWhile lib.isspace
  let unsigned := if body.head? = some '-' || body.head? = some '+' then body.tail else body
  let parts := unsigned.splitOn '_'
  if parts.any (· = []) then none
  else do
    let n ← lib.digits? parts.flatten
    return if body.head? = some '-' then -n else n

/-- `str` of a value that was read from a document. -/
def str : Json → Text
  | .null => "None".toList
  | .bool true => "True".toList
  | .bool false => "False".toList
  | .int n => Json.intText n
  | .float text => text.val
  | .str s => s.toList
  | j => lib.repr j

end Stdlib

/-- The truth value of a document's value. -/
def Json.truthy : Json → Bool
  | .null => false
  | .bool b => b
  | .int n => n ≠ 0
  | .float text => (text.val.takeWhile (· ∉ ['e', 'E'])).any (fun c => '1' ≤ c && c ≤ '9')
  | .str s => !s.toList.isEmpty
  | .arr items => !items.isEmpty
  | .obj members => !members.isEmpty

namespace Urllib

variable (lib : Stdlib)

structure SplitResult where
  scheme : Text
  netloc : Text
  path : Text
  query : Text
  fragment : Text
deriving DecidableEq

/-- The schemes whose last path segment has parameters. -/
def usesParams : List Text :=
  ["", "ftp", "hdl", "prospero", "http", "https", "shttp", "rtsp", "rtsps", "rtspu", "sip",
    "sips", "mms", "sftp", "tel"].map String.toList

/-- The characters the standard removes from a URL. -/
def unsafeChars : List Char := ['\t', '\r', '\n']

def isSchemeChar (c : Char) : Bool := c.isAlphanum || c ∈ ['+', '-', '.']

/-- The scheme before the first colon, if it is spelt like one, and the rest. -/
def splitScheme (url : Text) : Text × Text :=
  let (scheme, found, rest) := url.partition ':'
  if found && url.head?.any Char.isAlpha && scheme.all isSchemeChar then
    (scheme.map Char.toLower, rest)
  else ([], url)

/-- The network location after `//`, and the rest. -/
def splitNetloc (url : Text) : Text × Text :=
  if "//".toList.isPrefixOf url then
    ((url.drop 2).takeWhile (· ∉ ['/', '?', '#']), (url.drop 2).dropWhile (· ∉ ['/', '?', '#']))
  else ([], url)

/-- No character of the network location becomes a delimiter under NFKC. -/
def netlocOk (netloc : Text) : Bool :=
  let n := netloc.filter (· ∉ ['@', ':', '#', '?'])
  netloc.all (fun c => c.toNat < 128) || n = lib.nfkc n ||
    (lib.nfkc n).all (· ∉ ['/', '?', '#', '@', ':'])

/-- The URL as it is split: leading controls and spaces, tabs and line ends removed. -/
def cleaned (url : Text) : Text :=
  (url.dropWhile (fun c => c.toNat ≤ 32)).filter (· ∉ unsafeChars)

def urlsplit (url : Text) : Option SplitResult :=
  let (scheme, url) := splitScheme (cleaned url)
  let (netloc, url) := splitNetloc url
  if (netloc.contains '[' || netloc.contains ']') && !lib.bracketsOk netloc then none
  else
    let (url, _, fragment) := url.partition '#'
    let (path, _, query) := url.partition '?'
    if netlocOk lib netloc then some ⟨scheme, netloc, path, query, fragment⟩ else none

/-- The path up to its last segment, and that segment. -/
def lastSegment (path : Text) : Text × Text :=
  (path.rdropWhile (· ≠ '/'), path.rtakeWhile (· ≠ '/'))

/-- The path without the parameters of its last segment, and these. -/
def splitParams (path : Text) : Text × Text :=
  let (dir, segment) := lastSegment path
  let (kept, _, params) := segment.partition ';'
  (dir ++ kept, params)

structure ParseResult extends SplitResult where
  params : Text
deriving DecidableEq

def urlparse (url : Text) : Option ParseResult := do
  let split ← urlsplit lib url
  if split.scheme ∈ usesParams then
    let (path, params) := splitParams split.path
    return { split with path, params }
  else return { split with params := [] }

/-- The host and the port of a network location, as they are spelt. -/
def hostInfo (netloc : Text) : Text × Text :=
  let (_, _, info) := netloc.rpartition '@'
  let (_, bracket, bracketed) := info.partition '['
  if bracket then
    let (host, _, after) := bracketed.partition ']'
    let (_, _, port) := after.partition ':'
    (host, port)
  else
    let (host, _, port) := info.partition ':'
    (host, port)

/-- The host in lower case, except for the zone of an address; empty when there
is none. -/
def hostname (split : SplitResult) : Text :=
  let (name, percent, zone) := (hostInfo split.netloc).1.partition '%'
  lib.lower name ++ (if percent then ['%'] else []) ++ zone

/-- The port, if one is spelt; the outer `none` is a port that is no number or
out of range. -/
def port (split : SplitResult) : Option (Option Nat) :=
  match (hostInfo split.netloc).2 with
  | [] => some none
  | text =>
      if text.all Char.isDigit then
        let n := text.foldl (fun n c => 10 * n + (c.toNat - '0'.toNat)) 0
        if n ≤ 65535 then some (some n) else none
      else none

theorem lastSegment_append (path : Text) :
    (lastSegment path).1 ++ (lastSegment path).2 = path :=
  List.rdropWhile_append_rtakeWhile

/-- A path without parameters in its last segment is left as it is. -/
theorem splitParams_fst {path : Text} (h : ';' ∉ (lastSegment path).2) :
    (splitParams path).1 = path := by
  have htake : (lastSegment path).2.takeWhile (· ≠ ';') = (lastSegment path).2 := by
    rw [List.takeWhile_eq_self_iff]
    intro c hc
    rw [decide_eq_true_eq]
    exact fun he => h (he ▸ hc)
  calc (splitParams path).1
      = (lastSegment path).1 ++ (lastSegment path).2.takeWhile (· ≠ ';') := rfl
    _ = (lastSegment path).1 ++ (lastSegment path).2 := by rw [htake]
    _ = path := lastSegment_append path

/-! ## Hosts -/

theorem mem_of_mem_partition {c d : Char} {s : Text} (h : c ∈ (s.partition d).1) : c ∈ s :=
  (List.takeWhile_sublist _).subset h

theorem not_mem_partition (d : Char) (s : Text) : d ∉ (s.partition d).1 := by
  intro h
  have hd := List.mem_takeWhile_imp h
  rw [decide_eq_true_eq] at hd
  exact hd rfl

theorem mem_of_mem_partition_rest {c d : Char} {s : Text} (h : c ∈ (s.partition d).2.2) : c ∈ s :=
  (List.dropWhile_sublist _).subset (List.mem_of_mem_tail h)

/-- The host as it is spelt has no at sign, and no brackets that could be taken
for the brackets around it. -/
theorem hostInfo_spec (netloc : Text) :
    '@' ∉ (hostInfo netloc).1 ∧ (∀ c ∈ (hostInfo netloc).1, c ∈ netloc) ∧
      (']' ∉ (hostInfo netloc).1 ∨ ':' ∉ (hostInfo netloc).1 ∧ '[' ∉ (hostInfo netloc).1) := by
  have hinfo : '@' ∉ (netloc.rpartition '@').2.2 ∧ ∀ c ∈ (netloc.rpartition '@').2.2, c ∈ netloc := by
    by_cases hat : '@' ∈ netloc
    · rcases Text.rpartition_of_mem hat with ⟨a, b, hsplit, hb, hparts⟩
      rw [hparts]
      exact ⟨hb, fun c hc => hsplit ▸ List.mem_append_right a (List.mem_cons_of_mem '@' hc)⟩
    · rw [Text.rpartition_of_not_mem hat]
      exact ⟨hat, fun c hc => hc⟩
  rw [hostInfo]
  dsimp only
  generalize (netloc.rpartition '@').2.2 = info at hinfo
  by_cases hbracket : '[' ∈ info
  · have hfound : (info.partition '[').2.1 = true := List.contains_iff_mem.mpr hbracket
    rw [if_pos hfound]
    have hmem : ∀ c ∈ ((info.partition '[').2.2.partition ']').1, c ∈ info :=
      fun c hc => mem_of_mem_partition_rest (mem_of_mem_partition hc)
    exact ⟨fun h => hinfo.1 (hmem _ h), fun c hc => hinfo.2 c (hmem c hc),
      Or.inl (not_mem_partition ']' _)⟩
  · have hfound : ¬ (info.partition '[').2.1 = true :=
      fun h => hbracket (List.contains_iff_mem.mp h)
    rw [if_neg hfound]
    have hmem : ∀ c ∈ (info.partition ':').1, c ∈ info := fun c hc => mem_of_mem_partition hc
    exact ⟨fun h => hinfo.1 (hmem _ h), fun c hc => hinfo.2 c (hmem c hc),
      Or.inr ⟨not_mem_partition ':' info, fun h => hbracket (hmem _ h)⟩⟩

variable {lib}

theorem hostname_congr {split split' : SplitResult} (h : split.netloc = split'.netloc) :
    hostname lib split = hostname lib split' := by
  rw [hostname, hostname, h]

/-- A character of a host that is no letter stands in the host as it is spelt. -/
theorem mem_hostname (hlib : lib.Lawful) {split : SplitResult} {c : Char}
    (h : c ∈ hostname lib split) (hascii : c.toNat < 128) (hletter : c.isAlpha = false) :
    c ∈ (hostInfo split.netloc).1 := by
  rw [hostname] at h
  dsimp only at h
  generalize (hostInfo split.netloc).1 = host at h ⊢
  rcases List.mem_append.mp h with h | h
  · rcases List.mem_append.mp h with h | h
    · exact mem_of_mem_partition (hlib.mem_lower _ c h hascii hletter)
    · split at h
      · rename_i hpercent
        rw [List.mem_singleton.mp h]
        exact List.contains_iff_mem.mp hpercent
      · exact absurd h List.not_mem_nil
  · exact mem_of_mem_partition_rest h

theorem hostname_nil (hlib : lib.Lawful) {split : SplitResult} (h : split.netloc = []) :
    hostname lib split = [] := by
  have hempty : hostInfo [] = ([], []) := rfl
  rw [hostname, h, hempty]
  exact (List.append_nil _).trans ((List.append_nil _).trans hlib.lower_nil)

/-- A host is in lower case already. -/
theorem hostname_eq_of_hostInfo (hlib : lib.Lawful) {split split' : SplitResult}
    (h : (hostInfo split'.netloc).1 = hostname lib split) :
    hostname lib split' = hostname lib split := by
  have hpart : ∀ host : Text, '%' ∉ lib.lower (host.partition '%').1 := by
    intro host hc
    exact not_mem_partition '%' host (hlib.mem_lower _ '%' hc (by decide) (by decide))
  conv_lhs => rw [hostname, h]
  rw [hostname]
  dsimp only
  generalize (hostInfo split.netloc).1 = host
  have hname := hpart host
  by_cases hpercent : '%' ∈ host
  · have hfound : (host.partition '%').2.1 = true := List.contains_iff_mem.mpr hpercent
    have hsplit : lib.lower (host.partition '%').1 ++ ['%'] ++ (host.partition '%').2.2 =
        lib.lower (host.partition '%').1 ++ '%' :: (host.partition '%').2.2 := by
      rw [List.append_assoc]
      rfl
    rw [if_pos hfound, hsplit, Text.partition_append hname]
    dsimp only
    rw [hlib.lower_lower, if_pos rfl, hsplit]
  · rw [Text.partition_of_not_mem hpercent] at hname ⊢
    dsimp only at hname ⊢
    rw [if_neg Bool.false_ne_true, List.append_nil, List.append_nil,
      Text.partition_of_not_mem hname]
    dsimp only
    rw [hlib.lower_lower, if_neg Bool.false_ne_true, List.append_nil, List.append_nil]

end Urllib
