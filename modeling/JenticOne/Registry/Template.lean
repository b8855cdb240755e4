import JenticOne.Library.Dict
import JenticOne.Library.Pattern
import JenticOne.Library.Segments
import JenticOne.Library.Urllib
import JenticOne.Registry.UrlPath

/-!
# Path Templates

A path template with placeholders `{name}`: how it is split, normalised beside
the request paths, and made into a regular expression.

A placeholder may carry an operator of one character before its name. The name
decides its capture group: two names that sanitise alike get different groups,
and a name that occurs again is a back-reference to its group.

## Main definitions

* `Part`, `split`: The texts and the placeholders of a template.
* `normalizePathTemplate`: The normal form of a template.
* `pathParamGroupNames`, `pathParamCatchAll`: The groups of the names, and the
  names that match across slashes.
* `buildPathRegex`, `buildHostRegex`: The regular expressions.
* `countSegments`: The number of segments, −1 for a catch-all.

## Theorems

* `split_join`: The parts put together are the template.
* `token_of_catchAll`: A name is a catch-all only if each of its placeholders is.
-/

namespace JenticOne

namespace Registry

/-! ## Splitting -/

/-- What `PATH_PARAM_RE` splits a template into. -/
inductive Part
  | text (s : Text)
  | token (t : Text)
deriving DecidableEq

/-- A brace before this text opens a placeholder: a character that is not the
closing brace follows, and there is a closing brace. -/
def opens (cs : Text) : Bool := cs.head? ≠ some '}' && cs.contains '}'

/-- The parts of a template, inside a placeholder or not, after the characters
`acc` of the part that is being read, the last one first. -/
def splitFrom : Bool → Text → Text → List Part
  | false, acc, [] => [.text acc.reverse]
  | true, acc, [] => [.token acc.reverse]
  | false, acc, c :: cs =>
      if c = '{' && opens cs then .text acc.reverse :: splitFrom true [] cs
      else splitFrom false (c :: acc) cs
  | true, acc, c :: cs =>
      if c = '}' then .token acc.reverse :: splitFrom false [] cs
      else splitFrom true (c :: acc) cs

/-- `PATH_PARAM_RE.split`. -/
def split (template : Text) : List Part := splitFrom false [] template

def Part.token? : Part → Option Text
  | .text _ => none
  | .token t => some t

/-- `PATH_PARAM_RE.findall`. -/
def tokens (template : Text) : List Text := (split template).filterMap Part.token?

/-- A placeholder as it is written. -/
def braced (t : Text) : Text := '{' :: (t ++ ['}'])

def Part.shown : Part → Text
  | .text s => s
  | .token t => braced t

/-- A part being read comes to its characters and the rest of the template. -/
theorem shown_splitFrom (inside : Bool) (acc s : Text) (h : inside = true → '}' ∈ s) :
    (splitFrom inside acc s).flatMap Part.shown =
      (if inside then ['{'] else []) ++ (acc.reverse ++ s) := by
  induction s generalizing inside acc with
  | nil =>
      cases inside with
      | false => rw [splitFrom]; simp [Part.shown]
      | true => exact absurd (h rfl) List.not_mem_nil
  | cons c cs ih =>
      cases inside with
      | false =>
          rw [splitFrom]
          split
          · next hopen =>
              rw [Bool.and_eq_true, decide_eq_true_eq] at hopen
              have hclosed : '}' ∈ cs := by
                have hc := hopen.2
                rw [opens, Bool.and_eq_true, List.contains_iff_mem] at hc
                exact hc.2
              rw [List.flatMap_cons, ih true [] (fun _ => hclosed), hopen.1]
              simp [Part.shown]
          · rw [ih false (c :: acc) (fun hf => absurd hf Bool.false_ne_true)]
            simp
      | true =>
          rw [splitFrom]
          split
          · next hc =>
              rw [List.flatMap_cons, ih false [] (fun hf => absurd hf Bool.false_ne_true), hc]
              simp [Part.shown, braced]
          · next hc =>
              have hclosed : '}' ∈ cs := by
                rcases List.mem_cons.mp (h rfl) with he | hm
                · exact absurd he.symm hc
                · exact hm
              rw [ih true (c :: acc) (fun _ => hclosed)]
              simp

/-- A brace opens a placeholder before its name and the closing brace. -/
theorem opens_iff {cs : Text} :
    opens cs = true ↔ ∃ name rest, cs = name ++ '}' :: rest ∧ name ≠ [] ∧ '}' ∉ name := by
  rw [opens, Bool.and_eq_true, decide_eq_true_eq, List.contains_iff_mem]
  constructor
  · rintro ⟨hhead, hclosed⟩
    rcases List.eq_append_cons_of_mem hclosed with ⟨name, rest, rfl, hbrace⟩
    refine ⟨name, rest, rfl, ?_, hbrace⟩
    rintro rfl
    exact hhead rfl
  · rintro ⟨name, rest, rfl, hne, hbrace⟩
    refine ⟨?_, List.mem_append_right _ List.mem_cons_self⟩
    cases name with
    | nil => exact absurd rfl hne
    | cons c name =>
        rw [List.cons_append, List.head?_cons, ne_eq, Option.some.injEq]
        rintro rfl
        exact hbrace List.mem_cons_self

/-- Inside a placeholder the rest up to the brace belongs to it. -/
theorem splitFrom_name {name : Text} (hbrace : '}' ∉ name) (acc rest : Text) :
    splitFrom true acc (name ++ '}' :: rest) =
      .token (acc.reverse ++ name) :: splitFrom false [] rest := by
  induction name generalizing acc with
  | nil => rw [List.nil_append, splitFrom, if_pos rfl, List.append_nil]
  | cons c cs ih =>
      rw [List.mem_cons, not_or] at hbrace
      rw [List.cons_append, splitFrom, if_neg fun hc => hbrace.1 hc.symm, ih hbrace.2,
        List.reverse_cons, List.append_assoc, List.singleton_append]

/-- The parts put together are the template. -/
theorem split_join (template : Text) : (split template).flatMap Part.shown = template := by
  rw [split, shown_splitFrom false [] template (fun hf => absurd hf Bool.false_ne_true)]
  rfl

/-! ## Normal form -/

/-- What stands for the placeholder `k` while a template is normalised. -/
def sentinel (k : Nat) : Text := '\x00' :: (Text.ofNat k ++ ['\x00'])

/-- The parts with a sentinel for each placeholder, the next one being `k`. -/
def shield : Nat → List Part → Text
  | _, [] => []
  | k, .text s :: parts => s ++ shield k parts
  | k, .token _ :: parts => sentinel k ++ shield (k + 1) parts

/-- The placeholders put back, the next one being `k`. -/
def unshield : Nat → List Text → Text → Text
  | _, [], s => s
  | k, t :: ts, s => unshield (k + 1) ts (s.replace (sentinel k) (braced t))

def normalizePathTemplate (template : Text) : Text :=
  unshield 0 (tokens template) (normalizePath (shield 0 (split template)))

/-! ## Hosts -/

def schemeDefaultPorts : List (Text × Int) :=
  [("http".toList, 80), ("https".toList, 443), ("ftp".toList, 21)]

/-- The host in lower case, without the default port of the scheme. -/
def normaliseHost (lib : Stdlib) (host scheme : Text) : Text :=
  let host := lib.lower host
  let (hostname, colon, portStr) := host.rpartition ':'
  if colon then
    match lib.int? portStr with
    | none => host
    | some port => if schemeDefaultPorts.lookup scheme = some port then hostname else host
  else host

/-- The runs a placeholder stands for. -/
def hostLabels : Pattern.Body := .run [':', '/']

def oneSegment : Pattern.Body := .run ['/']

def anySegments : Pattern.Body := .run ['\n']

def buildHostRegex (host : Text) : Option Pattern.Regex :=
  Pattern.compile ((split host).map fun
    | .text s => .plain (.text s)
    | .token _ => .plain hostLabels)

structure ParsedServerURL where
  scheme : Text
  host : Text
  port : Option Nat
  path : Text
  original : Text

/-- A host with its port; a port of zero counts as none. -/
def withPort (host : Text) (port : Option Nat) : Text :=
  match port.filter (· ≠ 0) with
  | some n => host ++ ':' :: Text.ofNat n
  | none => host

/-- The parts of a server URL; `none` is a `ValueError`. -/
def parseServerUrl (lib : Stdlib) (url : Text) : Option ParsedServerURL := do
  let parsed ← Urllib.urlparse lib url
  let scheme := if parsed.scheme = [] then "https".toList else parsed.scheme
  let host := Urllib.hostname lib parsed.toSplitResult
  let port ← Urllib.port parsed.toSplitResult
  let path := if parsed.path = [] then ['/'] else parsed.path
  let port := port.filter (fun n => n = 0 || schemeDefaultPorts.lookup scheme ≠ some (Int.ofNat n))
  return { scheme, host := normaliseHost lib (withPort host port) scheme, port,
           path := normalizePath path, original := url }

/-- A base and an operation path joined by one slash. -/
def mergePaths (base operation : Text) : Text :=
  base.rstrip '/' ++ if operation.head? = some '/' then operation else '/' :: operation

/-! ## Names and groups -/

/-- The prefix of the placeholders the index itself puts into a template. -/
def svTokenPrefix : Text := ['~', 's', 'v']

def safeParamName (name : Text) : Text :=
  name.map (fun c => if c.isAlphanum || c = '_' then c else '_')

def rfc6570Operators : List Char := ['+', '#', '.', '/', ';', '?', '&']

/-- The name of a placeholder, and whether its operator makes it a catch-all. -/
def splitParamToken (token : Text) : Text × Bool :=
  (if token.head?.any (· ∈ rfc6570Operators) then token.tail else token, token.head? = some '+')

/-- The first group `base`, `base__2`, `base__3`, … that is not taken; there is
one among as many as are taken and one more. -/
def freeGroup (base : Text) (taken : List Text) : Text :=
  let candidates := base :: (List.range taken.length).map
    (fun n => base ++ ['_', '_'] ++ Text.ofNat (n + 2))
  (candidates.find? (· ∉ taken)).getD base

/-- The groups after one more placeholder. -/
def allocate (groups : Dict Text Text) (token : Text) : Dict Text Text :=
  if svTokenPrefix.isPrefixOf token then groups
  else
    let name := (splitParamToken token).1
    match groups.get? name with
    | some _ => groups
    | none => groups.set name (freeGroup (safeParamName name) (groups.items.map Prod.snd))

def pathParamGroupNames (templates : List Text) : Dict Text Text :=
  (templates.flatMap tokens).foldl allocate Dict.empty

/-- The catch-alls after one more placeholder. -/
def meet (catchAll : Dict Text Bool) (token : Text) : Dict Text Bool :=
  if svTokenPrefix.isPrefixOf token then catchAll
  else
    let (name, isCatchAll) := splitParamToken token
    catchAll.set name ((catchAll.get? name).getD true && isCatchAll)

def pathParamCatchAll (templates : List Text) : Dict Text Bool :=
  (templates.flatMap tokens).foldl meet Dict.empty

/-- A name that is a catch-all after some placeholders was none that is not one
before, and each placeholder of that name among them is written as one. -/
theorem catchAll_foldl {l : List Text} {catchAll : Dict Text Bool} {name : Text}
    (h : (l.foldl meet catchAll).get? name = some true) :
    (catchAll.get? name).getD true = true ∧
      ∀ t ∈ l, svTokenPrefix.isPrefixOf t = false → (splitParamToken t).1 = name →
        t.head? = some '+' := by
  induction l generalizing catchAll with
  | nil =>
      rw [List.foldl_nil] at h
      exact ⟨by rw [h]; rfl, fun t ht => absurd ht List.not_mem_nil⟩
  | cons t l ih =>
      rw [List.foldl_cons] at h
      obtain ⟨hnow, hrest⟩ := ih h
      cases hsv : svTokenPrefix.isPrefixOf t with
      | true =>
          rw [meet, if_pos hsv] at hnow
          refine ⟨hnow, fun t' ht' hn => ?_⟩
          rcases List.mem_cons.mp ht' with rfl | ht'
          · exact absurd (hsv.symm.trans hn) (Ne.symm Bool.false_ne_true)
          · exact hrest t' ht' hn
      | false =>
          rw [meet, if_neg (by rw [hsv]; exact Bool.false_ne_true)] at hnow
          dsimp only at hnow
          rw [Dict.get?_set] at hnow
          by_cases hname : (splitParamToken t).1 = name
          · rw [if_pos hname, Option.getD_some, Bool.and_eq_true] at hnow
            refine ⟨hname ▸ hnow.1, fun t' ht' hn => ?_⟩
            rcases List.mem_cons.mp ht' with rfl | ht'
            · intro _
              have hplus := hnow.2
              rw [splitParamToken, decide_eq_true_eq] at hplus
              exact hplus
            · exact hrest t' ht' hn
          · rw [if_neg hname] at hnow
            refine ⟨hnow, fun t' ht' hn heq => ?_⟩
            rcases List.mem_cons.mp ht' with rfl | ht'
            · exact absurd heq hname
            · exact hrest t' ht' hn heq

/-- A name is a catch-all only if each of its placeholders is written as one. -/
theorem token_of_catchAll {templates : List Text} {t : Text}
    (h : (pathParamCatchAll templates).get? (splitParamToken t).1 = some true)
    (ht : t ∈ templates.flatMap tokens) (hsv : svTokenPrefix.isPrefixOf t = false) :
    t.head? = some '+' :=
  (catchAll_foldl h).2 t ht hsv rfl

/-- The piece for one placeholder after the groups in `seen`, and the groups
after it. -/
def pathParamGroup (token : Text) (names : Dict Text Text) (seen : List Text)
    (catchAll : Dict Text Bool) : Pattern.Piece × List Text :=
  let (name, own) := splitParamToken token
  let body := if (catchAll.get? name).getD own then anySegments else oneSegment
  match names.get? name with
  | none => (.plain body, seen)
  | some group =>
      if group ∈ seen then (.back group, seen) else (.group group body, group :: seen)

/-- The pieces of a template after the groups in `seen`. -/
def pathPieces (names : Dict Text Text) (catchAll : Dict Text Bool) :
    List Text → List Part → List Pattern.Piece
  | _, [] => []
  | seen, .text s :: parts => .plain (.text s) :: pathPieces names catchAll seen parts
  | seen, .token t :: parts =>
      let (piece, seen) := pathParamGroup t names seen catchAll
      piece :: pathPieces names catchAll seen parts

/-- The pieces of the regular expression of a path template whose groups are
named after `operationPath` first, when that is given. -/
def buildPathPieces (template : Text) (operationPath : Option Text) : List Pattern.Piece :=
  let templates := operationPath.toList ++ [template]
  pathPieces (pathParamGroupNames templates) (pathParamCatchAll templates) [] (split template)

def extractParamNames (template : Text) : List Text :=
  (tokens template).map (fun t => (splitParamToken t).1)

/-- The path has a text that marks a catch-all. -/
def special (path : Text) : Bool := ['*', '*'] <:+: path || ['{', '+'] <:+: path

/-- The number of segments, −1 for a catch-all. -/
def countSegments (path : Text) : Int :=
  if special path then -1
  else if path.strip '/' = [] then 0
  else ((path.strip '/').splitOn '/').length

theorem countSegments_of_not_special {path : Text} (h : special path = false) :
    countSegments path = Segments.segments '/' path := by
  rw [countSegments, h, Segments.segments]
  simp only [Bool.false_eq_true, if_false]
  split <;> rfl

theorem countSegments_of_special {path : Text} (h : special path = true) :
    countSegments path = -1 := by
  rw [countSegments, if_pos h]

end Registry

end JenticOne
