import JenticOne.Registry.UrlIndex

/-!
# Ranking the Rows of a Request

A lookup matches the rows it has read against the request and takes the most
specific one. A row is specific when its template has no placeholder, then by the
number of its segments that begin with text, then by how far to the left the first
of them stands, then by how far to the right the last one stands. Rows that are
equally specific keep their order, and two of them in one revision are an error.

The groups of a row that are named after server variables are no parameters: they
give the variables their values. A row that gives one variable two values is
skipped.

## Main definitions

* `resolveServerVariableGroups`: The parameters and the server variables.
* `specificityKey`: How specific a row is.
* `matchAndRank`: The most specific row.

## Theorems

* `matchAndRank_pair`: What is taken when two rows of a revision match.
-/

namespace JenticOne

namespace Registry

namespace Ranking

/-! ## Groups of server variables -/

/-- `bytes.fromhex`. -/
def fromHex : Text → Option (List UInt8)
  | [] => some []
  | [_] => none
  | a :: b :: cs => do
      let high ← hexValue a
      let low ← hexValue b
      let rest ← fromHex cs
      return UInt8.ofNat (16 * high + low) :: rest

/-- The text whose bytes in UTF-8 are spelt in hexadecimal. -/
def decodeHex (s : Text) : Option Text :=
  (fromHex s).bind fun bytes => (String.fromUTF8? ⟨bytes.toArray⟩).map String.toList

/-- The name and the default of the variable a group captures. -/
def decodeSvGroupName (group : Text) : Option (Text × Option Text) :=
  if svGroupPrefix.isPrefixOf group then
    let (nameHex, _, defaultHex) := Text.partition '_' (group.drop svGroupPrefix.length)
    if defaultHex = [] then (decodeHex nameHex).map fun name => (name, none)
    else do
      let name ← decodeHex nameHex
      let default ← decodeHex defaultHex
      return (name, some default)
  else none

/-- The name and the value of the variable a group pins. -/
def decodeFixedGroupName (group : Text) : Option (Text × Text) :=
  if svFixedGroupPrefix.isPrefixOf group then do
    let (nameHex, _, valueHex) := Text.partition '_' (group.drop svFixedGroupPrefix.length)
    let name ← decodeHex nameHex
    let value ← decodeHex valueHex
    return (name, value)
  else none

/-- The parameters, the values of the variables and the defaults of those that
    the request has left as they are. -/
structure ServerVariableMatch where
  pathParams : Dict Text Text
  values : Dict Text Text
  defaults : Dict Text Text

/-- One more value, unless the variable has another one. -/
def ServerVariableMatch.record (lib : Stdlib) (m : ServerVariableMatch) (name value : Text) :
    Option ServerVariableMatch :=
  match m.values.get? name with
  | some existing =>
      if lib.casefold existing ≠ lib.casefold value then none
      else some { m with values := m.values.set name value }
  | none => some { m with values := m.values.set name value }

/-- One more group with what it has captured. -/
def ServerVariableMatch.add (lib : Stdlib) (m : ServerVariableMatch) (x : Text × Text) :
    Option ServerVariableMatch :=
  match decodeFixedGroupName x.1 with
  | some (name, value) => m.record lib name value
  | none =>
      match decodeSvGroupName x.1 with
      | none => some { m with pathParams := m.pathParams.set x.1 x.2 }
      | some (name, default) =>
          if x.2 = braced name then
            match default with
            | some default => some { m with defaults := m.defaults.set name default }
            | none => some m
          else m.record lib name x.2

/-- The parameters and the server variables of the groups of a host and a path;
    `none` when one variable has two values. -/
def resolveServerVariableGroups (lib : Stdlib) (groups : List (Text × Text)) :
    Option ServerVariableMatch := do
  let m ← groups.foldlM (ServerVariableMatch.add lib) ⟨Dict.empty, Dict.empty, Dict.empty⟩
  return { m with defaults := m.defaults.filter fun name _ => (m.values.get? name).isNone }

/-! ## Rows -/

/-- A row of the index with the operation it routes to. -/
structure UrlIndexCandidate where
  operationId : Text
  revisionId : Nat
  hostRegex : Option Pattern.Regex
  pathTemplate : Text
  pathRegex : Pattern.Regex
  paramNames : List Text

/-- A segment that does not begin with a brace. -/
def isLiteral (part : Text) : Bool := part.head? ≠ some '{'

def templateParts (template : Text) : List Text := (template.strip '/').splitOn '/'

def literalCount (parts : List Text) : Nat := parts.countP isLiteral

/-- The place of the first literal segment, or the number of segments. -/
def firstLiteralPos (parts : List Text) : Nat := parts.findIdx isLiteral

/-- The place of the last literal segment, or −1. -/
def lastLiteralPos (parts : List Text) : Int :=
  parts.length - 1 - parts.reverse.findIdx isLiteral

structure SpecificityKey where
  isParameterized : Bool
  negLiteralCount : Int
  firstLiteralPos : Nat
  negLastLiteralPos : Int
deriving DecidableEq

/-- The order of the keys, component by component. -/
def SpecificityKey.Before (k k' : SpecificityKey) : Prop :=
  (k.isParameterized = false ∧ k'.isParameterized = true) ∨
    k.isParameterized = k'.isParameterized ∧
      (k.negLiteralCount < k'.negLiteralCount ∨ k.negLiteralCount = k'.negLiteralCount ∧
        (k.firstLiteralPos < k'.firstLiteralPos ∨ k.firstLiteralPos = k'.firstLiteralPos ∧
          k.negLastLiteralPos < k'.negLastLiteralPos))

instance (k k' : SpecificityKey) : Decidable (k.Before k') :=
  inferInstanceAs (Decidable (_ ∨ _))

def specificityKey (row : UrlIndexCandidate) : SpecificityKey where
  isParameterized := row.paramNames ≠ []
  negLiteralCount := -literalCount (templateParts row.pathTemplate)
  firstLiteralPos := firstLiteralPos (templateParts row.pathTemplate)
  negLastLiteralPos := -lastLiteralPos (templateParts row.pathTemplate)

structure RankedMatch where
  operationId : Text
  revisionId : Nat
  pathParams : Dict Text Text
  specificityKey : SpecificityKey
  serverVariables : Dict Text Text
  serverVariableDefaults : Dict Text Text
  candidate : UrlIndexCandidate

/-- The groups of the host of a row, the first one first; none without a host. -/
def hostGroups (lib : Stdlib) (row : UrlIndexCandidate) (host : Text) : List (Text × Text) :=
  if host = [] then []
  else
    match row.hostRegex with
    | none => []
    | some r => ((r.fullmatch (fun c d => lib.lower [c] = lib.lower [d]) host).getD []).reverse

/-- The row, if its path matches and no server variable has two values. -/
def rankedMatch (lib : Stdlib) (path host : Text) (row : UrlIndexCandidate) :
    Option RankedMatch := do
  let groups ← row.pathRegex.fullmatch (· == ·) path
  let resolved ← resolveServerVariableGroups lib (hostGroups lib row host ++ groups.reverse)
  return { operationId := row.operationId
           revisionId := row.revisionId
           pathParams := resolved.pathParams
           specificityKey := specificityKey row
           serverVariables := resolved.values
           serverVariableDefaults := resolved.defaults
           candidate := row }

/-- So many rows of one revision match and are equally specific. -/
structure AmbiguousMatchError where
  candidateCount : Nat
deriving DecidableEq

/-- The most specific row that matches. -/
def matchAndRank (lib : Stdlib) (candidates : List UrlIndexCandidate) (path host : Text) :
    Except AmbiguousMatchError (Option RankedMatch) :=
  let found := candidates.filterMap (rankedMatch lib path host)
  match found.insertionSort (fun m m' => ¬ m'.specificityKey.Before m.specificityKey) with
  | [] => .ok none
  | best :: rest =>
      let tied := (best :: rest).filter fun m =>
        m.specificityKey = best.specificityKey && m.revisionId = best.revisionId
      if 1 < tied.length then .error ⟨tied.length⟩ else .ok (some best)

/-! ## Two rows -/

theorem before_irrefl (k : SpecificityKey) : ¬ k.Before k := by
  rintro (⟨hfalse, htrue⟩ | ⟨_, hlt | ⟨_, hlt | ⟨_, hlt⟩⟩⟩)
  · rw [hfalse] at htrue
    exact absurd htrue Bool.false_ne_true
  · omega
  · omega
  · omega

/-- Of two keys one is before the other, or they are the same. -/
theorem before_trichotomy (k k' : SpecificityKey) : k.Before k' ∨ k = k' ∨ k'.Before k := by
  rcases k with ⟨p, n, i, j⟩
  rcases k' with ⟨p', n', i', j'⟩
  simp only [SpecificityKey.Before, SpecificityKey.mk.injEq]
  cases p <;> cases p' <;> simp only [Bool.false_eq_true, reduceCtorEq, and_false, and_true,
    false_or, true_and, false_and, or_true, true_or, and_self] <;> omega

theorem before_asymm {k k' : SpecificityKey} (h : k.Before k') : ¬ k'.Before k := by
  rcases k with ⟨p, n, i, j⟩
  rcases k' with ⟨p', n', i', j'⟩
  simp only [SpecificityKey.Before] at h ⊢
  cases p <;> cases p' <;> simp only [Bool.false_eq_true, reduceCtorEq, and_false, and_true,
    false_or, true_and, false_and, or_true, true_or, and_self, not_false_eq_true] at h ⊢ <;> omega

theorem perm_pair {α : Type} {l : List α} {x y : α} (h : l.Perm [x, y]) :
    l = [x, y] ∨ l = [y, x] := by
  match l, h.length_eq with
  | [u, v], _ =>
      have hu : u ∈ [x, y] := h.subset List.mem_cons_self
      rcases List.mem_cons.mp hu with rfl | hu
      · have hv := List.perm_singleton.mp ((List.perm_cons u).mp h)
        exact Or.inl (by rw [hv])
      · rw [List.mem_singleton] at hu
        subst hu
        have hv := List.perm_singleton.mp ((List.perm_cons u).mp (h.trans (List.Perm.swap u x [])))
        exact Or.inr (by rw [hv])

section Pair

variable {lib : Stdlib} {candidates : List UrlIndexCandidate} {path host : Text}
  {m m' : RankedMatch}

/-- What is taken is a row that matches. -/
theorem matchAndRank_mem (h : matchAndRank lib candidates path host = .ok (some m)) :
    m ∈ candidates.filterMap (rankedMatch lib path host) := by
  have hsorted := List.perm_insertionSort
    (fun m m' : RankedMatch => ¬ m'.specificityKey.Before m.specificityKey)
    (candidates.filterMap (rankedMatch lib path host))
  unfold matchAndRank at h
  dsimp only at h
  cases hlist : (candidates.filterMap (rankedMatch lib path host)).insertionSort
      (fun m m' => ¬ m'.specificityKey.Before m.specificityKey) with
  | nil =>
      rw [hlist] at h
      exact absurd h (by simp only [Except.ok.injEq, reduceCtorEq, not_false_eq_true])
  | cons best rest =>
      rw [hlist] at h hsorted
      dsimp only at h
      split at h
      · exact absurd h (by simp only [reduceCtorEq, not_false_eq_true])
      · rw [Except.ok.injEq, Option.some.injEq] at h
        rw [← h]
        exact hsorted.subset List.mem_cons_self

/-- The only row that matches is taken. -/
theorem matchAndRank_single
    (hfound : candidates.filterMap (rankedMatch lib path host) = [m]) :
    matchAndRank lib candidates path host = .ok (some m) := by
  unfold matchAndRank
  dsimp only
  rw [hfound, List.insertionSort_cons, List.insertionSort_nil, List.orderedInsert_nil]
  have htied : [m].filter (fun x => decide (x.specificityKey = m.specificityKey) &&
      decide (x.revisionId = m.revisionId)) = [m] := by
    rw [List.filter_cons_of_pos (by rw [decide_eq_true rfl, decide_eq_true rfl]; rfl),
      List.filter_nil]
  dsimp only
  rw [htied]
  exact if_neg (Nat.lt_irrefl 1)

/-- Of two rows of one revision that match, the more specific one is taken. -/
theorem matchAndRank_of_before
    (hfound : (candidates.filterMap (rankedMatch lib path host)).Perm [m, m'])
    (hbefore : m.specificityKey.Before m'.specificityKey) :
    matchAndRank lib candidates path host = .ok (some m) := by
  have hasymm := before_asymm hbefore
  have hsorted : (candidates.filterMap (rankedMatch lib path host)).insertionSort
      (fun m m' => ¬ m'.specificityKey.Before m.specificityKey) = [m, m'] := by
    rcases perm_pair hfound with hfound | hfound
    · rw [hfound, List.insertionSort_cons, List.insertionSort_cons, List.insertionSort_nil,
        List.orderedInsert_nil, List.orderedInsert_cons, if_pos hasymm]
    · rw [hfound, List.insertionSort_cons, List.insertionSort_cons, List.insertionSort_nil,
        List.orderedInsert_nil, List.orderedInsert_cons, if_neg (not_not.mpr hbefore),
        List.orderedInsert_nil]
  have hother : m'.specificityKey ≠ m.specificityKey := by
    intro hc
    rw [hc] at hbefore
    exact before_irrefl _ hbefore
  unfold matchAndRank
  dsimp only
  rw [hsorted]
  have htied : [m, m'].filter (fun x => decide (x.specificityKey = m.specificityKey) &&
      decide (x.revisionId = m.revisionId)) = [m] := by
    rw [List.filter_cons_of_pos (by rw [decide_eq_true rfl, decide_eq_true rfl]; rfl),
      List.filter_cons_of_neg (by rw [decide_eq_false hother]; exact Bool.false_ne_true),
      List.filter_nil]
  dsimp only
  rw [htied]
  exact if_neg (Nat.lt_irrefl 1)

/-- Two rows of one revision that match and are equally specific are an error. -/
theorem matchAndRank_of_tie
    (hfound : (candidates.filterMap (rankedMatch lib path host)).Perm [m, m'])
    (hrevision : m.revisionId = m'.revisionId) (htie : m.specificityKey = m'.specificityKey) :
    matchAndRank lib candidates path host = .error ⟨2⟩ := by
  have hsorted : ∃ x y, (candidates.filterMap (rankedMatch lib path host)).insertionSort
      (fun m m' => ¬ m'.specificityKey.Before m.specificityKey) = [x, y] ∧
        y.specificityKey = x.specificityKey ∧ y.revisionId = x.revisionId := by
    have hnot : ¬ m.specificityKey.Before m'.specificityKey := htie ▸ before_irrefl _
    have hnot' : ¬ m'.specificityKey.Before m.specificityKey := htie ▸ before_irrefl _
    rcases perm_pair hfound with hfound | hfound
    · refine ⟨m, m', ?_, htie.symm, hrevision.symm⟩
      rw [hfound, List.insertionSort_cons, List.insertionSort_cons, List.insertionSort_nil,
        List.orderedInsert_nil, List.orderedInsert_cons, if_pos hnot']
    · refine ⟨m', m, ?_, htie, hrevision⟩
      rw [hfound, List.insertionSort_cons, List.insertionSort_cons, List.insertionSort_nil,
        List.orderedInsert_nil, List.orderedInsert_cons, if_pos hnot]
  rcases hsorted with ⟨x, y, hsorted, hkey, hrev⟩
  unfold matchAndRank
  dsimp only
  rw [hsorted]
  have htied : [x, y].filter (fun z => decide (z.specificityKey = x.specificityKey) &&
      decide (z.revisionId = x.revisionId)) = [x, y] := by
    rw [List.filter_cons_of_pos (by rw [decide_eq_true rfl, decide_eq_true rfl]; rfl),
      List.filter_cons_of_pos (by rw [decide_eq_true hkey, decide_eq_true hrev]; rfl),
      List.filter_nil]
  dsimp only
  rw [htied]
  exact if_pos Nat.one_lt_two

/-- What is taken when two rows of one revision match. -/
theorem matchAndRank_pair
    (hfound : (candidates.filterMap (rankedMatch lib path host)).Perm [m, m'])
    (hrevision : m.revisionId = m'.revisionId) (hne : m ≠ m') :
    matchAndRank lib candidates path host = .ok (some m) ↔
      m.specificityKey.Before m'.specificityKey := by
  constructor
  · intro hresult
    rcases before_trichotomy m.specificityKey m'.specificityKey with hbefore | htie | hafter
    · exact hbefore
    · rw [matchAndRank_of_tie hfound hrevision htie] at hresult
      exact absurd hresult (by simp only [reduceCtorEq, not_false_eq_true])
    · rw [matchAndRank_of_before (hfound.trans (List.Perm.swap m' m [])) hafter,
        Except.ok.injEq, Option.some.injEq] at hresult
      exact absurd hresult.symm hne
  · exact matchAndRank_of_before hfound

end Pair

end Ranking

end Registry

end JenticOne
