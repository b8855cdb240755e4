import JenticOne.Library.Regex
import JenticOne.Library.Substitution
import JenticOne.Library.UrlJoin
import JenticOne.Registry.ServerHosts

/-!
# Relative Server URLs

`server_urls`: the URL a document's relative servers are resolved against, what
becomes of one server, and the walk over the servers of a document, of its paths
and of its operations.

A server stands in a list as a member `url` with its `variables`. The code
rewrites the document in place; here the walk returns the document, and carries
what was resolved, dropped and refused from list to list. `none` is a
`ValueError` that nothing catches.

## Main definitions

* `expandVariableDefaults`, `isHostlessServerUrl`: A URL whose variables take
  their defaults.
* `DocumentBase`, `documentBase`: Where relative servers resolve.
* `classify`: What becomes of one server.
* `resolveList`: One list of servers.
* `resolveRelativeServers`: All lists of a document.
-/

namespace JenticOne

namespace Registry

namespace ServerUrls

open Urllib

variable (lib : Stdlib)

/-- `str.strip`. -/
def strip (s : Text) : Text := Margins.trim Margins.isspace s

/-! ## Variables -/

/-- The variable a text begins with: its name, and what follows it. -/
def variableAt : Text → Option (Text × Text)
  | '{' :: cs => (ServerHosts.nameAfter cs).map fun name => (name, cs.drop (name.length + 1))
  | _ => none

/-- The default of a variable, as a text; a default that is null is none. -/
def defaultText : Option Json → Option Text
  | none => none
  | some .null => none
  | some value => some (lib.str value)

/-- `defaults.get(name)`. -/
def defaultOf (declared : Json) (name : Text) : Option Text :=
  defaultText lib ((declared.get? (String.ofList name)).bind (Json.get? "default"))

/-- `expand_variable_defaults`. -/
def expandVariableDefaults (url : Text) (declared : Json) : Text :=
  Substitution.render (defaultOf lib declared) (Substitution.parseFrom variableAt 0 url)

/-- `is_hostless_server_url`. -/
def isHostlessServerUrl (url : Text) (declared : Json) : Bool :=
  let expanded := strip (expandVariableDefaults lib url declared)
  expanded.head? ≠ some '{' && (urlsplit lib expanded).any fun parts => parts.netloc = []

/-! ## Hosts of files -/

def staticContentHosts : List Text :=
  ["github.com", "gist.github.com", "raw.github.com", "codeload.github.com", "gitlab.com",
    "bitbucket.org", "app.swaggerhub.com", "api.swaggerhub.com", "unpkg.com",
    "storage.googleapis.com", "storage.cloud.google.com", "firebasestorage.googleapis.com",
    "dropbox.com"].map String.toList

def staticContentHostSuffixes : List Text :=
  [".githubusercontent.com", ".githack.com", ".jsdelivr.net", ".github.io", ".gitlab.io",
    ".storage.googleapis.com", ".appspot.com", ".dropbox.com",
    ".dropboxusercontent.com"].map String.toList

/-- `.*` before a pattern that is searched for. -/
def anything : Re := .star (.set fun _ => true)

/-- `[a-z0-9-]` -/
def isHostChar (c : Char) : Bool := ('a' ≤ c && c ≤ 'z') || c.isDigit || c = '-'

/-- `(?:^|\.)s3(?:[.-][a-z0-9-]+)*\.amazonaws\.com(?:\.cn)?$` -/
def s3Pattern : Re :=
  .concat [.alt .eps (.seq anything (.text ['.'])), .text "s3".toList,
    .star (.seq (.set (· ∈ ['.', '-'])) (.plus (.set isHostChar))),
    .text ".amazonaws.com".toList, .opt (.text ".cn".toList)]

/-- `\.(?:blob|dfs|web)\.core\.(?:windows\.net|chinacloudapi\.cn|usgovcloudapi\.net)$` -/
def azurePattern : Re :=
  .concat [anything, .text ['.'], .oneOf (["blob", "dfs", "web"].map String.toList),
    .text ".core.".toList,
    .oneOf (["windows.net", "chinacloudapi.cn", "usgovcloudapi.net"].map String.toList)]

/-- `host.lower().rstrip(".")` -/
def plainHost (host : Text) : Text := (lib.lower host).rstrip '.'

/-- `is_static_content_host`; the host that is not there is empty. -/
def isStaticContentHost (host : Text) (extra : List Text) : Bool :=
  host ≠ [] &&
    (staticContentHosts.contains (plainHost lib host) ||
      (extra.map (plainHost lib)).contains (plainHost lib host) ||
      staticContentHostSuffixes.any (fun suffix => suffix.isSuffixOf (plainHost lib host)) ||
      [s3Pattern, azurePattern].any fun pattern => pattern.matchLine (plainHost lib host))

/-- `url_host`, empty when there is none. -/
def urlHost : Option Text → Text
  | none => []
  | some url => (urlsplit lib (strip url)).elim [] (hostname lib)

/-- The path that `is_static_content_url` looks at. -/
def urlPath : Option Text → Text
  | none => []
  | some url => (urlsplit lib (strip url)).elim [] (·.path)

/-- `_STATIC_CONTENT_PATH.search` -/
def isRawPath (path : Text) : Bool :=
  ["/-/raw/", "/-/blob/"].any fun mark => (Text.after? mark.toList path).isSome

def isStaticContentUrl (url : Option Text) (extra : List Text) : Bool :=
  isStaticContentHost lib (urlHost lib url) extra || isRawPath (urlPath lib url)

/-! ## The base -/

inductive ServerUrlProblem
  | noBase
  | contentHost
  | insecureRedirect
  | missingScheme
  | unsupportedScheme
  | leadingVariable
  | noPath
  | emptyHost
  | fileName
deriving DecidableEq

structure DocumentBase where
  url : Option Text
  problem : Option ServerUrlProblem
  scheme : Option Text
deriving DecidableEq

/-- `host[:port]`, with brackets around a host that has a colon. -/
def authority (host : Text) (port : Option Nat) : Text :=
  let host := if ':' ∈ host then '[' :: (host ++ [']']) else host
  port.elim host fun port => host ++ ':' :: Text.ofNat port

/-- The URL of a document without userinfo, query and fragment. -/
def baseOf (parts : SplitResult) : Option Text :=
  (port parts).bind fun port =>
    if parts.scheme ∉ webSchemes ∨ hostname lib parts = [] then none
    else some (urlunsplit ⟨parts.scheme, authority (hostname lib parts) port,
      if parts.path = [] then ['/'] else parts.path, [], []⟩)

/-- `server_base_url` -/
def serverBaseUrl : Option Text → Option Text
  | none => none
  | some sourceUrl =>
      if sourceUrl = [] then none
      else (urlsplit lib (strip sourceUrl)).bind (baseOf lib)

/-- `retrieval_url or source_url` -/
def finalUrl (sourceUrl retrievalUrl : Option Text) : Option Text :=
  (retrievalUrl.filter (· ≠ [])).or sourceUrl

/-- The scheme of the URL a document was requested at, if that is a base. The
outer `none` is a `ValueError`. -/
def requestedScheme (sourceUrl : Option Text) : Option (Option Text) :=
  (serverBaseUrl lib sourceUrl).elim (some none) fun requested =>
    (urlsplit lib requested).map fun parts => some parts.scheme

/-- The base that a URL with a scheme is, unless the document comes from a host
of files or was redirected to plaintext. -/
def baseAt (sourceUrl final : Option Text) (contentHosts : List Text) (base scheme : Text) :
    Option DocumentBase :=
  if [sourceUrl, final].any fun url => isStaticContentUrl lib url contentHosts then
    some ⟨none, some .contentHost, none⟩
  else
    (requestedScheme lib sourceUrl).map fun requested =>
      if requested = some "https".toList ∧ scheme = "http".toList then
        ⟨none, some .insecureRedirect, none⟩
      else ⟨some base, none, some scheme⟩

/-- `document_base` -/
def documentBase (sourceUrl retrievalUrl : Option Text) (contentHosts : List Text) :
    Option DocumentBase :=
  let final := finalUrl sourceUrl retrievalUrl
  (serverBaseUrl lib final).elim (some ⟨none, some .noBase, none⟩) fun base =>
    (urlsplit lib base).bind fun parts => baseAt lib sourceUrl final contentHosts base parts.scheme

/-! ## One server -/

/-- The small letter that matches a character when the case is ignored. Four
letters outside ASCII match one of ASCII. -/
def ignoreCase (c : Char) : Char :=
  if c.toNat = 0x130 ∨ c.toNat = 0x131 then 'i'
  else if c.toNat = 0x17F then 's'
  else if c.toNat = 0x212A then 'k'
  else c.toLower

/-- `[a-z]`, ignoring case. -/
def isLetter (c : Char) : Bool := 'a' ≤ ignoreCase c && ignoreCase c ≤ 'z'

/-- `[a-z0-9]`, ignoring case. -/
def isLabelEnd (c : Char) : Bool := isLetter c || c.isDigit

/-- `\d` -/
def isDecimal (c : Char) : Bool := (lib.decimal c).isSome

/-- `[0-9a-f:.]`, ignoring case. -/
def isAddressChar (c : Char) : Bool :=
  c.isDigit || ('a' ≤ c.toLower && c.toLower ≤ 'f') || c = ':' || c = '.'

/-- `:\d+` -/
def portRe : Re := .seq (.text [':']) (.plus (.set (isDecimal lib)))

/-- `[a-z0-9](?:[a-z0-9-]*[a-z0-9])?\.` -/
def labelRe : Re :=
  .concat [.set isLabelEnd,
    .opt (.seq (.star (.set fun c => isLabelEnd c || c = '-')) (.set isLabelEnd)), .text ['.']]

/-- `\d{1,3}` -/
def octetRe : Re := .seq (.set (isDecimal lib)) (.upTo 2 (.set (isDecimal lib)))

/-- `_BARE_HOST`, without its anchors. -/
def bareHost : Re :=
  .alt (.concat [.plus labelRe, .rep 2 (.set isLetter), .upTo 61 (.set isLetter),
    .opt (portRe lib)])
  (.alt (.concat (("localhost".toList.map fun l => .set fun c => ignoreCase c = l) ++
    [.opt (portRe lib)]))
  (.alt (.concat [octetRe lib, .rep 3 (.seq (.text ['.']) (octetRe lib)), .opt (portRe lib)])
  (.alt (.concat [.text ['['], .plus (.set isAddressChar), .text [']'], .opt (portRe lib)])
    (.seq (.plus (.set fun c => isLabelEnd c || c = '.' || c = '-')) (portRe lib)))))

def fileExtensions : List Text :=
  ["php", "html", "htm", "json", "yaml", "yml", "xml", "asp", "aspx", "ashx", "jsp", "cgi",
    "txt"].map String.toList

/-- `first.rsplit(":", 1)[0]`, nothing of an address in brackets. -/
def labelOf (first : Text) : Text :=
  if first.head? = some '[' then []
  else
    let (before, found, whole) := first.rpartition ':'
    if found then before else whole

/-- What a first segment that is shaped like a host is refused as. -/
def bareHostProblem (first : Text) : ServerUrlProblem :=
  if lib.lower ((labelOf first).rpartition '.').2.2 ∈ fileExtensions then .fileName
  else .missingScheme

/-- `_has_host` -/
def hasHost (url : Text) : Bool := (urlsplit lib url).any fun parts => hostname lib parts ≠ []

/-- What becomes of a server: it is kept as it is, it has no absolute form, or it
is given one. -/
inductive Outcome
  | keep
  | problem (problem : ServerUrlProblem)
  | absolute (url : Text)
deriving DecidableEq

/-- A reference that begins with two slashes. -/
def classifyNetworkPath (template : Text) (declared : Json) (base : DocumentBase) : Outcome :=
  if hasHost lib ("https:".toList ++ expandVariableDefaults lib template declared) then
    base.scheme.elim .keep fun scheme => .absolute (scheme ++ ':' :: template)
  else .problem .emptyHost

/-- Why a host-less server is not joined to a base, by its template and by what
that is when the variables take their defaults. -/
def refusal (template expanded : Text) : Option ServerUrlProblem :=
  if expanded.head? = some '?' ∨ expanded.head? = some '#' then some .noPath
  else if (bareHost lib).matchLine (expanded.takeWhile (· ≠ '/')) then
    some (bareHostProblem lib (expanded.takeWhile (· ≠ '/')))
  else if template.head? = some '{' then some .leadingVariable
  else if (urlsplit lib expanded).all fun parts => parts.scheme ≠ [] then some .unsupportedScheme
  else none

/-- A host-less server, joined to the URL of the base. -/
def joinTo (base template : Text) : Option Outcome :=
  (urljoin lib base (if template = [] then ['/'] else template)).bind fun absolute =>
    (urlsplit lib absolute).map fun parts =>
      if parts.scheme ∉ webSchemes ∨ hasHost lib absolute = false then .problem .unsupportedScheme
      else .absolute absolute

/-- A host-less server. -/
def classifyHostless (template : Text) (declared : Json) (base : DocumentBase) : Option Outcome :=
  let expanded := strip (expandVariableDefaults lib template declared)
  (refusal lib template expanded).elim
    (base.url.elim (some (.problem (base.problem.getD .noBase))) fun url => joinTo lib url template)
    fun problem => some (.problem problem)

/-- `_classify` -/
def classify (url : Text) (declared : Json) (base : DocumentBase) : Option Outcome :=
  let template := strip url
  if ['/', '/'].isPrefixOf template then some (classifyNetworkPath lib template declared base)
  else if isHostlessServerUrl lib template declared then classifyHostless lib template declared base
  else some .keep

/-! ## Lists of servers -/

/-- The members of an object. -/
abbrev Members := List (String × Json)

/-- The URL of a server, if it is a text. -/
def urlOf (server : Json) : Option Text :=
  match server.get? "url" with
  | some (.str url) => some url.toList
  | _ => none

/-- `server.get("variables")`. -/
def variablesOf (server : Json) : Json := (server.get? "variables").getD .null

/-- `{**server, "url": url}` -/
def withUrl (url : Text) : Json → Json
  | .obj members => .obj (Json.replaceMember "url" (.str (String.ofList url)) members)
  | server => server

structure ServerResolution where
  resolved : List (Text × Text) := []
  dropped : List Text := []
  unresolved : List Text := []
deriving DecidableEq

/-- What the loop over a list has collected. -/
structure Tally where
  kept : List Json := []
  problems : List (Text × ServerUrlProblem) := []
  resolved : List (Text × Text) := []
  absoluteLeft : Bool := false

/-- One server with a URL, by what becomes of it. -/
def Tally.add (tally : Tally) (server : Json) (url : Text) : Outcome → Tally
  | .keep => { tally with kept := tally.kept ++ [server], absoluteLeft := true }
  | .problem problem => { tally with problems := tally.problems ++ [(url, problem)] }
  | .absolute absolute =>
      { tally with
        kept := tally.kept ++ [withUrl absolute server]
        resolved := tally.resolved ++ [(url, absolute)]
        absoluteLeft := true }

/-- One turn of the loop. -/
def tallyServer (base : DocumentBase) (tally : Tally) (server : Json) : Option Tally :=
  match urlOf server with
  | none => some { tally with kept := tally.kept ++ [server] }
  | some url => (classify lib url (variablesOf server) base).map (tally.add server url)

/-- What is carried from list to list. -/
structure Carried where
  result : ServerResolution := {}
  refused : List (Text × ServerUrlProblem) := []

/-- The list and what is carried on, by what the loop has collected. -/
def settle (strict : Bool) (holder : Members) (carried : Carried) (tally : Tally) :
    Members × Carried :=
  if tally.problems ≠ [] ∧ tally.absoluteLeft = false then
    if strict then (holder, { carried with refused := carried.refused ++ tally.problems })
    else
      (holder, { carried with
        result := { carried.result with
          unresolved := carried.result.unresolved ++ tally.problems.map Prod.fst } })
  else if tally.problems = [] ∧ tally.resolved = [] then (holder, carried)
  else
    (Json.replaceMember "servers" (.arr tally.kept) holder, { carried with
      result := { carried.result with
        resolved := carried.result.resolved ++ tally.resolved
        dropped := carried.result.dropped ++ tally.problems.map Prod.fst } })

/-- The servers of a holder, none if they are no list. -/
def serversOf (holder : Members) : List Json :=
  match (Json.obj holder).get? "servers" with
  | some (.arr servers) => servers
  | _ => []

/-- `_resolve_list` -/
def resolveList (base : DocumentBase) (strict : Bool) (holder : Members) (carried : Carried) :
    Option (Members × Carried) :=
  if serversOf holder = [] then some (holder, carried)
  else ((serversOf holder).foldlM (tallyServer lib base) {}).map (settle strict holder carried)

/-! ## Documents -/

def httpMethods : List String :=
  ["get", "put", "post", "delete", "options", "head", "patch", "trace"]

/-- A step on each member of an object, in their order. -/
def eachMember (step : String → Json → Carried → Option (Json × Carried)) :
    Members → Carried → Option (Members × Carried)
  | [], carried => some ([], carried)
  | (key, value) :: rest, carried =>
      (step key value carried).bind fun stepped =>
        (eachMember step rest stepped.2).map fun done => ((key, stepped.1) :: done.1, done.2)

/-- A member of a path item. -/
def resolveOperation (base : DocumentBase) (strict : Bool) (method : String) (operation : Json)
    (carried : Carried) : Option (Json × Carried) :=
  match operation with
  | .obj holder =>
      if method ∈ httpMethods then
        (resolveList lib base strict holder carried).map fun done => (.obj done.1, done.2)
      else some (operation, carried)
  | _ => some (operation, carried)

/-- A path item. -/
def resolvePathItem (base : DocumentBase) (strict : Bool) (_path : String) (item : Json)
    (carried : Carried) : Option (Json × Carried) :=
  match item with
  | .obj holder =>
      (resolveList lib base strict holder carried).bind fun own =>
        (eachMember (resolveOperation lib base strict) own.1 own.2).map fun done =>
          (.obj done.1, done.2)
  | _ => some (item, carried)

/-- The document after its own servers: those of its paths. -/
def resolvePaths (base : DocumentBase) (strict : Bool) (content : Members) (carried : Carried) :
    Option (Members × Carried) :=
  match (Json.obj content).get? "paths" with
  | some (.obj paths) =>
      (eachMember (resolvePathItem lib base strict) paths carried).map fun done =>
        (Json.replaceMember "paths" (.obj done.1) content, done.2)
  | _ => some (content, carried)

/-- What ends the walk without a document. -/
inductive Failure
  | valueError
  | relativeServerUrl (urls : List Text) (problem : ServerUrlProblem)
deriving DecidableEq

/-- The document, or the refused URLs with the problem of the first. -/
def conclude (content : Members) (carried : Carried) :
    Except Failure (Members × ServerResolution) :=
  match carried.refused with
  | [] => .ok (content, carried.result)
  | (url, problem) :: rest =>
      .error (.relativeServerUrl (((url, problem) :: rest).map Prod.fst).eraseDups problem)

/-- `resolve_relative_servers` -/
def resolveRelativeServers (content : Members) (base : DocumentBase) (strict : Bool) :
    Except Failure (Members × ServerResolution) :=
  ((resolveList lib base strict content {}).bind fun own =>
    resolvePaths lib base strict own.1 own.2).elim (.error .valueError) fun done =>
      conclude done.1 done.2

end ServerUrls

end Registry

end JenticOne
