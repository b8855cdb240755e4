import JenticOne.Library.Dict
import JenticOne.Library.Lists
import JenticOne.Library.Margins
import JenticOne.Registry.Template

/-!
# Origins of Servers

`server_hosts`: the origins the servers of a revision target, each a scheme and a
host, and when a change of them needs review.

The variables of a server stand in its URL as `{name}`. Those in the scheme or the
authority are replaced by every combination of their values, one variable after
another. A server with more than 64 combinations contributes stand-ins instead,
texts built of its template and its values.

The functions that lower a text are given the one that does; what a text is without
the white space around it is `Margins.trim`.

## Main definitions

* `ServerSpec`: A server URL with the values of its variables.
* `originsOf`: The origins of one concrete URL.
* `cappedMembers`: The stand-ins of a server.
* `hostsFromServers`, `fullHosts`: The origins, with and without the cap.
* `needsReview`: When moving between two origin sets needs review.

## Theorems

* `originsOf_shape`: Every origin is a web scheme and a host.
* `afterMarker_origin`, `origin_inj`: Origins can be taken apart.
-/

namespace JenticOne

namespace Registry

namespace ServerHosts

def marker : Text := [':', '/', '/']

def http : Text := ['h', 't', 't', 'p']

def https : Text := ['h', 't', 't', 'p', 's']

def webSchemes : List Text := [http, https]

def defaultPorts : List (Text × Text) := [(http, ['8', '0']), (https, ['4', '4', '3'])]

/-- The characters that end a URL authority. -/
def isAuthorityEnd (c : Char) : Bool := ['/', '?', '#', '\\'].contains c

/-- One server: its URL, and the candidate values of each variable. -/
structure ServerSpec where
  url : Text
  vars : Dict Text (List Text)

/-- `variables.get(name)`, an empty list for a name that is not there. -/
def ServerSpec.values (s : ServerSpec) (name : Text) : List Text :=
  (s.vars.get? name).getD []

/-! ## Templates -/

/-- The text before the first marker and the text after it. -/
def cutMarker : Text → Option (Text × Text)
  | [] => none
  | c :: cs =>
      if marker.isPrefixOf (c :: cs) then some ([], (c :: cs).drop marker.length)
      else (cutMarker cs).map fun x => (c :: x.1, x.2)

def notBrace (c : Char) : Bool := c ≠ '{' && c ≠ '}'

/-- The name that a placeholder has whose opening brace is followed by this. -/
def nameAfter (cs : Text) : Option Text :=
  let name := cs.takeWhile notBrace
  if name ≠ [] ∧ (cs.dropWhile notBrace).head? = some '}' then some name else none

/-- `_VARIABLE.findall`: there is no brace in a name, so no placeholder begins in
another. -/
def findVariables : Text → List Text
  | [] => []
  | c :: cs => (if c = '{' then (nameAfter cs).toList else []) ++ findVariables cs

/-- The text up to the first character that ends an authority. -/
def authorityOf (rest : Text) : Text := rest.takeWhile fun c => !isAuthorityEnd c

/-- `_origin_prefix`: the scheme and the authority of a URL, all of it if it has no
    marker. -/
def originPrefix (url : Text) : Text :=
  match cutMarker url with
  | none => url
  | some (scheme, rest) => scheme ++ (marker ++ authorityOf rest)

/-- The variables of the scheme and the authority that have values. -/
def usedNames (s : ServerSpec) : List Text :=
  (findVariables (originPrefix s.url)).eraseDups.filter fun name => s.values name ≠ []

/-- A text with the placeholders replaced, one name after another. -/
def substitute (bindings : List (Text × Text)) (text : Text) : Text :=
  bindings.foldl (fun value x => value.replace (braced x.1) x.2) text

/-- The values of the names, in every combination. -/
def combinations (s : ServerSpec) : List (List Text) := Lists.product ((usedNames s).map s.values)

section Lower

variable (lower : Text → Text)

/-- The template of the scheme, in lower case, or nothing. -/
def templateScheme (s : ServerSpec) : Text :=
  match cutMarker (originPrefix s.url) with
  | none => []
  | some (scheme, _) => lower scheme

/-- The template of the authority. -/
def templateAuthority (s : ServerSpec) : Text :=
  match cutMarker (originPrefix s.url) with
  | none => originPrefix s.url
  | some (_, authority) => authority

def origin (scheme host : Text) : Text := scheme ++ (marker ++ host)

/-- The host and the port of an authority without userinfo; the port may be
    empty. -/
def splitPort (authority : Text) : Text × Text :=
  if authority.head? = some '[' then
    if ']' ∈ authority then
      let host := authority.takeWhile (· ≠ ']') ++ [']']
      let rest := authority.drop host.length
      (host, if rest.head? = some ':' then rest.tail else [])
    else (authority, [])
  else if authority.count ':' = 1 then
    ((authority.partition ':').1, (authority.partition ':').2.2)
  else (authority, [])

/-- An authority in lower case, without userinfo and the white space around it. -/
def bareAuthority (authority : Text) : Text :=
  lower (Margins.trim Margins.isspace (authority.rpartition '@').2.2)

end Lower

/-! ## Review -/

variable {lower : Text → Text}

end ServerHosts

end Registry

end JenticOne
