import JenticOne.Library.Lists
import JenticOne.Registry.Template

/-!
# The URL Index

The entries by which a URL is resolved to an operation: for one server URL and
one operation path, an entry for each combination of the options of the declared
server variables.

A variable's position is a placeholder `{~svK}` while the server URL is parsed
and joined with the operation path, and a capture group named after the variable
in the regular expressions. An empty value has no position, so that its group
matches the empty text at the head of the path.

A dictionary from the names of the variables to their bindings is the list of
the variables with their bindings here, since the names are distinct.

## Main definitions

* `serverVariableSpecs`: The declared variables.
* `renderServerTemplate`: The pattern and the regular expression of a host or a
  path.
* `entryForBindings`: The entry for one combination.
* `buildServerIndexEntries`: All of them, or the capped ones, or the one of the
  defaults when a variable stands where a URL cannot be parsed.
-/

namespace JenticOne

namespace Registry

/-- An exception of the builder: a `ValueError`, or a regular expression that
does not compile. -/
inductive Failure
  | valueError
  | reError
deriving DecidableEq

/-- A result that raises a failure when there is none. -/
def raising {α : Type} (failure : Failure) : Option α → Except Failure α
  | some a => .ok a
  | none => .error failure

structure URLIndexEntry where
  hostPattern : Text
  hostRegex : Pattern.Regex
  pathPattern : Text
  pathRegex : Pattern.Regex
  segmentCount : Int
  paramNames : List Text

/-- The entry of a host and a path template without server variables. -/
def buildIndexEntry (lib : Stdlib) (host template scheme operationPath : Text) :
    Except Failure URLIndexEntry := do
  let normalizedHost := normaliseHost lib host scheme
  let normalized := normalizePathTemplate template
  let hostRegex ← raising .reError (buildHostRegex normalizedHost)
  let pathRegex ← raising .reError
    (Pattern.compile (buildPathPieces normalized (some (normalizePathTemplate operationPath))))
  return { hostPattern := normalizedHost, hostRegex, pathPattern := normalized, pathRegex,
           segmentCount := countSegments normalized, paramNames := extractParamNames normalized }

theorem raising_eq_ok {α : Type} {failure : Failure} {x : Option α} {a : α}
    (h : raising failure x = .ok a) : x = some a := by
  cases x with
  | none => exact absurd h (by simp only [raising, reduceCtorEq, not_false_eq_true])
  | some b => exact congrArg some (Except.ok.inj h)

theorem raising_eq_error {α : Type} {failure failure' : Failure} {x : Option α}
    (h : raising failure x = .error failure') : x = none ∧ failure = failure' := by
  cases x with
  | none => exact ⟨rfl, Except.error.inj h⟩
  | some b => exact absurd h (by simp only [raising, reduceCtorEq, not_false_eq_true])

/-! ## Server variables -/

def maxServerVariableExpansions : Nat := 32

def svGroupPrefix : Text := ['s', 'v', '_', '_']

def svFixedGroupPrefix : Text := ['s', 'v', 'k', '_', '_']

structure ServerVariableSpec where
  name : Text
  default : Option Text
  enum : List Text
deriving DecidableEq

/-- A concrete value, any value of one path segment, or the placeholder itself. -/
inductive Binding
  | value (v : Text)
  | free
  | template
deriving DecidableEq

structure ServerIndexExpansion where
  entries : List URLIndexEntry
  capped : Bool

def scalarStr (lib : Stdlib) : Json → Option Text
  | .str s => some s.toList
  | .int n => some (lib.str (.int n))
  | .float text => some (lib.str (.float text))
  | _ => none

/-- The name, the default and the enumeration of each declared variable: of a
mapping by name, or of a list of objects. -/
def variableItems (lib : Stdlib) : Json → List (Text × Json × Json)
  | .obj members => members.map fun (name, spec) =>
      (name.toList, (spec.get? "default").getD .null, (spec.get? "enum").getD .null)
  | .arr vars => vars.filterMap fun var =>
      let name := (var.get? "name").getD .null
      let default := (var.get? "default_value").getD ((var.get? "default").getD .null)
      if name.truthy then some (lib.str name, default, (var.get? "enum").getD .null) else none
  | _ => []

/-- The scalar members of an enumeration, each once. -/
def enumMembers (lib : Stdlib) : Json → List Text
  | .arr members => members.foldl
      (fun acc m => match scalarStr lib m with
        | some text => if text ∈ acc then acc else acc ++ [text]
        | none => acc) []
  | _ => []

/-- One more declared variable, unless one of its name was seen. -/
def addSpec (lib : Stdlib) (specs : List ServerVariableSpec) (item : Text × Json × Json) :
    List ServerVariableSpec :=
  if item.1 ∈ specs.map ServerVariableSpec.name then specs
  else specs ++ [{ name := item.1
                   default := scalarStr lib item.2.1
                   enum := enumMembers lib item.2.2 }]

/-- The declared variables, the first of each name. -/
def serverVariableSpecs (lib : Stdlib) (declared : Json) : List ServerVariableSpec :=
  (variableItems lib declared).foldl (addSpec lib) []

def svGroupName (spec : ServerVariableSpec) : Text :=
  match spec.default with
  | none => svGroupPrefix ++ spec.name.utf8Hex
  | some default => svGroupPrefix ++ spec.name.utf8Hex ++ '_' :: default.utf8Hex

/-- The empty group that pins a variable to a value. -/
def fixedValueGroup (name value : Text) : Pattern.Piece :=
  .group (svFixedGroupPrefix ++ name.utf8Hex ++ '_' :: value.utf8Hex) (.text [])

def rawHost (serverUrl : Text) : Text :=
  ((Text.after? "://".toList serverUrl).map (·.takeWhile (· ≠ '/'))).getD []

def variableOptions (spec : ServerVariableSpec) (inHost : Bool) : List Binding :=
  if spec.enum ≠ [] then
    let members := match spec.default with
      | some default => if default ∈ spec.enum then spec.enum else spec.enum ++ [default]
      | none => spec.enum
    members.map .value ++ [.template]
  else
    (spec.default.map Binding.value).toList ++ [if inHost then .template else .free]

/-- A combination of bindings, in the order of the variables. -/
abbrev Combo := List (ServerVariableSpec × Binding)

/-- The capped expansion: all defaults, and the templated one. -/
def fallbackBindings (used : List ServerVariableSpec) (hostTemplate : Text) : List Combo :=
  let pattern (spec : ServerVariableSpec) : Binding :=
    if spec.enum ≠ [] || braced spec.name <:+: hostTemplate then .template else .free
  let defaults := used.map fun s => (s, (s.default.map Binding.value).getD (pattern s))
  let templated := used.map fun s => (s, pattern s)
  if defaults ≠ templated then [defaults, templated] else [defaults]

/-! ## Rendering -/

/-- What a variable's position shows in the stored pattern. -/
def shownAs (lib : Stdlib) (inHost : Bool) (spec : ServerVariableSpec) : Binding → Text
  | .value v => if inHost then lib.lower v else v
  | .template | .free => braced spec.name

/-- What a variable's position matches. -/
def matcher (lib : Stdlib) (inHost : Bool) (spec : ServerVariableSpec) : Binding → Pattern.Body
  | .free => oneSegment
  | binding => .text (shownAs lib inHost spec binding)

/-- The variable a placeholder stands for, if it is one of the index's own; the
outer `none` is a `ValueError`, of a digit that is not decimal. -/
def serverVariable (lib : Stdlib) (captured : Combo) (token : Text) :
    Option (Option (ServerVariableSpec × Binding)) :=
  let idxText := token.drop svTokenPrefix.length
  if svTokenPrefix.isPrefixOf token && idxText ≠ [] && idxText.all lib.isdigit then
    (lib.int? idxText).map (fun n => captured[n.toNat]?)
  else some none

/-- The stored pattern and the pieces of a host or a path, after the groups in
`seen`. -/
def renderServerTemplate (lib : Stdlib) (captured : Combo) (inHost : Bool)
    (names : Dict Text Text) (catchAll : Dict Text Bool) :
    List Text → List Part → Except Failure (Text × List Pattern.Piece)
  | _, [] => .ok ([], [])
  | seen, .text s :: parts => do
      let (display, regex) ← renderServerTemplate lib captured inHost names catchAll seen parts
      return (s ++ display, .plain (.text s) :: regex)
  | seen, .token t :: parts =>
      match serverVariable lib captured t with
      | none => .error .valueError
      | some (some (spec, binding)) => do
          let group := svGroupName spec
          let piece : Pattern.Piece :=
            if group ∈ seen then .back group else .group group (matcher lib inHost spec binding)
          let (display, regex) ← renderServerTemplate lib captured inHost names catchAll
            (if group ∈ seen then seen else group :: seen) parts
          return (shownAs lib inHost spec binding ++ display, piece :: regex)
      | some none => do
          let (piece, seen) :=
            if inHost then (.plain hostLabels, seen) else pathParamGroup t names seen catchAll
          let (display, regex) ← renderServerTemplate lib captured inHost names catchAll seen parts
          return (braced t ++ display, piece :: regex)

/-! ## Entries -/

/-- A server URL with placeholders of the index for its variables: the URL, the
variables that have a position, and the groups of the empty ones. -/
structure Tokenized where
  url : Text
  captured : Combo
  fixedGroups : List Pattern.Piece

def Tokenized.bind (s : Tokenized) (x : ServerVariableSpec × Binding) : Tokenized :=
  if x.2 = .value [] then
    { s with url := s.url.replace (braced x.1.name) []
             fixedGroups := s.fixedGroups ++ [fixedValueGroup x.1.name []] }
  else
    { s with url := s.url.replace (braced x.1.name)
               (braced (svTokenPrefix ++ Text.ofNat s.captured.length))
             captured := s.captured ++ [x] }

def tokenize (serverUrl : Text) (combo : Combo) : Tokenized :=
  combo.foldl Tokenized.bind ⟨serverUrl, [], []⟩

/-- The templates whose placeholders the groups of a path are named after. -/
def groupTemplates (operationPath fullPath : Text) : List Text :=
  [normalizePathTemplate operationPath, fullPath]

/-- The path template of the entries of a parsed server: its path joined with
the operation's. -/
def fullPath (base operationPath : Text) : Text :=
  normalizePathTemplate (mergePaths base operationPath)

def entryForBindings (lib : Stdlib) (serverUrl : Text) (combo : Combo) (operationPath : Text) :
    Except Failure URLIndexEntry := do
  let tokenized := tokenize serverUrl combo
  let parsed ← raising .valueError (parseServerUrl lib tokenized.url)
  let full := fullPath parsed.path operationPath
  let (hostDisplay, hostPieces) ← renderServerTemplate lib tokenized.captured true Dict.empty
    Dict.empty [] (split parsed.host)
  let templates := groupTemplates operationPath full
  let (pathDisplay, pathPieces) ← renderServerTemplate lib tokenized.captured false
    (pathParamGroupNames templates) (pathParamCatchAll templates) [] (split full)
  let hostRegex ← raising .reError (Pattern.compile hostPieces)
  let pathRegex ← raising .reError (Pattern.compile (tokenized.fixedGroups ++ pathPieces))
  return { hostPattern := hostDisplay, hostRegex, pathPattern := pathDisplay, pathRegex,
           segmentCount := countSegments pathDisplay, paramNames := extractParamNames pathDisplay }

/-- A variable replaced by its default, if it has one, and the group that pins it. -/
def pinDefault (s : Text × List Pattern.Piece) (spec : ServerVariableSpec) :
    Text × List Pattern.Piece :=
  match spec.default with
  | some default =>
      (s.1.replace (braced spec.name) default, s.2 ++ [fixedValueGroup spec.name default])
  | none => s

/-- The server URL with the defaults in it, and the groups that pin them. -/
def expandDefaults (serverUrl : Text) (used : List ServerVariableSpec) :
    Text × List Pattern.Piece :=
  used.foldl pinDefault (serverUrl, [])

/-- The entry of the URL with the defaults in it. -/
def defaultEntry (lib : Stdlib) (serverUrl : Text) (used : List ServerVariableSpec)
    (operationPath : Text) : Except Failure URLIndexEntry := do
  let (expanded, fixed) := expandDefaults serverUrl used
  let parsed ← raising .valueError (parseServerUrl lib expanded)
  let entry ← buildIndexEntry lib parsed.host (mergePaths parsed.path operationPath) parsed.scheme
    operationPath
  let pathRegex ← raising .reError (Pattern.compile (fixed ++ entry.pathRegex.pieces))
  return { entry with pathRegex }

/-- The declared variables that occur in the server URL. -/
def usedVariables (lib : Stdlib) (serverUrl : Text) (declared : Json) :
    List ServerVariableSpec :=
  (serverVariableSpecs lib declared).filter (fun s => braced s.name <:+: serverUrl)

/-- The combinations of bindings an entry is built for, and whether they were
capped. -/
def combos (serverUrl : Text) (used : List ServerVariableSpec) : List Combo × Bool :=
  let hostTemplate := rawHost serverUrl
  let optionLists := used.map fun s => variableOptions s (braced s.name <:+: hostTemplate)
  if used = [] then ([[]], false)
  else if (optionLists.map List.length).prod > maxServerVariableExpansions then
    (fallbackBindings used hostTemplate, true)
  else ((Lists.product optionLists).map used.zip, false)

def buildServerIndexEntries (lib : Stdlib) (serverUrl : Text) (declared : Json)
    (operationPath : Text) : Except Failure ServerIndexExpansion :=
  let used := usedVariables lib serverUrl declared
  let (combos, capped) := combos serverUrl used
  match combos.mapM (fun combo => entryForBindings lib serverUrl combo operationPath) with
  | .ok entries => .ok ⟨entries, capped⟩
  | .error .reError => .error .reError
  | .error .valueError => do
      -- A variable in an unparseable position: the default-expanded URL.
      let entry ← defaultEntry lib serverUrl used operationPath
      return ⟨[entry], capped⟩

end Registry

end JenticOne
