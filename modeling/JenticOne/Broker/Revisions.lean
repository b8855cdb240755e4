import JenticOne.Library.Dict
import JenticOne.Library.Regex
import JenticOne.Library.Uuid

/-!
# Revision Pins

The header that pins an API to one of its revisions: values apart by commas, each of
the form `vendor:name:version=revision`, where the revision is a UUID with hyphens or
the label made of its digits. The parser keeps the last spelling of every API's
revision and compares a new value only with that one.

The outcome does not depend on which one it is. Whatever was kept spells the UUID
that every earlier value of the API spells, so that comparing labels with it is
comparing with all of them, and the header is accepted just when its values are pins
and those of one API spell one UUID.

## Main definitions

* `parseRevisions`, `revLabel`: The parser, and the one form of a revision.
* `Names`: A text spells a UUID.
* `Pinned`: The parts of a value.
* `Consistent`: Values that pin every API to one UUID.
* `Holds`: A map of the values seen.

## Theorems

* `pin_iff`: What the pattern takes apart.
* `revLabel_of_names`: The label of what spells a UUID.
* `accept_cases`: What one value does.
* `foldlM_accept`: What the values of a header do.
* `parseRevisions_consistent`: The map says the same of every value, in any order.
-/

namespace JenticOne

namespace Broker

namespace Revisions

open Hex Margins Uuid

/-! ## The parser -/

/-- What the parser needs of the standard library besides: the quoted form of a text. -/
structure Python extends HexInt where
  repr : Text → Text

/-- `InvalidRevisionPinError` with its detail, or another exception. -/
inductive Raised
  | invalidRevisionPin (detail : Text)
  | valueError

variable (py : Python)

/-- `REV_LABEL_PREFIX`. -/
def revLabelPrefix : Text := ['r', 'e', 'v', '_']

/-- `encode_rev_label`. -/
def encodeRevLabel (revisionId : UUID) : Text := revLabelPrefix ++ revisionId.hex

/-- `decode_rev_label`. -/
def decodeRevLabel (label : Text) : Except Raised (Option UUID) :=
  if !revLabelPrefix.isPrefixOf label then .ok none
  else if !(Re.rep 32 (.set isHex)).fullmatch (label.drop revLabelPrefix.length) then .ok none
  else (uuid py.toHexInt (label.drop revLabelPrefix.length)).elim (.error .valueError) (.ok ∘ some)

/-- `rev_label`. -/
def revLabel (revision : Text) : Except Raised Text :=
  if revLabelPrefix.isPrefixOf revision then
    (decodeRevLabel py revision).map fun decoded => decoded.elim revision encodeRevLabel
  else .ok ((uuid py.toHexInt revision).elim revision encodeRevLabel)

/-- The class `[a-z0-9-]`. -/
def vendorChar (c : Char) : Bool := ('a' ≤ c && c ≤ 'z') || ('0' ≤ c && c ≤ '9') || c = '-'

/-- The class `[^=:]`. -/
def nameChar (c : Char) : Bool := c ≠ '=' && c ≠ ':'

/-- The class `[^=]`. -/
def versionChar (c : Char) : Bool := c ≠ '='

/-- `[0-9A-Fa-f]{n}`. -/
def hexRun (n : Nat) : Re := Re.rep n (.set isHex)

/-- The revision in `_PIN`. -/
def revisionRe : Re :=
  .alt (.seq (Re.text revLabelPrefix) (hexRun 32))
    (.seq (hexRun 8) (.seq (Re.text ['-']) (.seq (hexRun 4) (.seq (Re.text ['-'])
      (.seq (hexRun 4) (.seq (Re.text ['-']) (.seq (hexRun 4) (.seq (Re.text ['-'])
        (hexRun 12)))))))))

/-- `_PIN`, whose `$` is also before a line break at the end. -/
def pin : Re :=
  .seq (Re.plus (.set vendorChar)) (.seq (Re.text [':']) (.seq (Re.plus (.set nameChar))
    (.seq (Re.text [':']) (.seq (Re.plus (.set versionChar)) (.seq (Re.text ['='])
      (.seq revisionRe (Re.opt (Re.text ['\n']))))))))

/-- A vendor, a name and a version. -/
abbrev Key := Text × Text × Text

abbrev Pins := Dict Key Text

/-- `split` at a separator, with at most that many splits. -/
def splitMax (sep : Char) : Nat → Text → List Text
  | 0, s => [s]
  | n + 1, s =>
      if sep ∈ s then s.takeWhile (· ≠ sep) :: splitMax sep n (s.dropWhile (· ≠ sep)).tail
      else [s]

/-- The three variables that `api.split(":", 2)` is assigned to. -/
def splitKey (api : Text) : Except Raised Key :=
  match splitMax ':' 2 api with
  | [vendor, name, version] => .ok (vendor, name, version)
  | _ => .error .valueError

/-- `_EXPECTED_FORM`. -/
def expectedForm : Text :=
  ("expected vendor:name:version=<revision_id>, with the revision_id from " ++
    "GET /apis/{vendor}/{name}/{version}/revisions").toList

def malformedDetail (part : Text) : Text :=
  "Malformed Jentic-Revision value: ".toList ++ py.repr part ++ " (".toList ++ expectedForm ++
    ")".toList

def conflictDetail (api earlier revision : Text) : Text :=
  "Conflicting Jentic-Revision values for ".toList ++ api ++ ": ".toList ++ py.repr earlier ++
    " and ".toList ++ py.repr revision ++ " (pin each API to one revision)".toList

/-- The revision of an API goes to the map, unless the map has another one. -/
def record (out : Pins) (api : Text) (key : Key) (revision : Text) : Except Raised Pins :=
  (out.get? key).elim (.ok (out.set key revision)) fun earlier => do
    let a ← revLabel py earlier
    let b ← revLabel py revision
    if a ≠ b then .error (.invalidRevisionPin (conflictDetail py api earlier revision))
    else .ok (out.set key revision)

/-- The body of the loop, for a value that is not empty. -/
def accept (out : Pins) (part : Text) : Except Raised Pins :=
  if !pin.fullmatch part then .error (.invalidRevisionPin (malformedDetail py part))
  else do
    let key ← splitKey (part.partition '=').1
    record py out (part.partition '=').1 key (trim isspace (part.partition '=').2.2)

/-- The body of the loop. -/
def step (out : Pins) (raw : Text) : Except Raised Pins :=
  if trim isspace raw = [] then .ok out else accept py out (trim isspace raw)

/-- `parse_revisions`. -/
def parseRevisions (header : Option Text) : Except Raised Pins :=
  ((header.getD []).splitOn ',').foldlM (step py) Dict.empty

/-- The values of a header. -/
def values (header : Option Text) : List Text :=
  (((header.getD []).splitOn ',').map (trim isspace)).filter (· ≠ [])

/-! ## The two spellings of a UUID -/

/-- A text spells a UUID: as a label, or in five groups of digits. -/
inductive Names : Text → UUID → Prop
  | label {s : Text} {id : UUID} (hlen : s.length = 32) (hhex : ∀ x ∈ s, isHex x = true)
      (hvalue : value s = id.int) : Names (revLabelPrefix ++ s) id
  | groups {a b c d e : Text} {id : UUID} (ha : a.length = 8) (hb : b.length = 4)
      (hc : c.length = 4) (hd : d.length = 4) (he : e.length = 12)
      (hhex : ∀ x ∈ a ++ b ++ c ++ d ++ e, isHex x = true)
      (hvalue : value (a ++ b ++ c ++ d ++ e) = id.int) :
      Names (a ++ '-' :: (b ++ '-' :: (c ++ '-' :: (d ++ '-' :: e)))) id

variable {py : Python} {s t : Text} {id id' : UUID}

/-- What spells a UUID has the label of the UUID. -/
theorem revLabel_of_names (py : Python) (h : Names t id) :
    revLabel py t = .ok (encodeRevLabel id) := by
  cases h with
  | @label s _ hlen hhex hvalue =>
      have hstart : revLabelPrefix.isPrefixOf (revLabelPrefix ++ s) = true :=
        List.isPrefixOf_iff_prefix.mpr (List.prefix_append _ _)
      have hmatch : (Re.rep 32 (.set isHex)).fullmatch s = true :=
        Re.fullmatch_iff.mpr (Re.spells_rep_set.mpr ⟨hlen, hhex⟩)
      have hdigits : uuidDigits s = s := by
        rw [uuidDigits_of_marks fun c hc => Or.inl (hhex c hc), filter_hyphen hhex]
      rw [revLabel, if_pos hstart, decodeRevLabel, hstart, List.drop_left, hmatch,
        uuid_of_digits hdigits hlen hhex hvalue]
      rfl
  | @groups a b c d e _ ha hb hc hd he hhex hvalue =>
      simp only [List.mem_append] at hhex
      have hmarks : ∀ x ∈ a ++ '-' :: (b ++ '-' :: (c ++ '-' :: (d ++ '-' :: e))),
          isHex x = true ∨ x = '-' := by
        simp only [List.mem_append, List.mem_cons]
        grind
      have hdigits : uuidDigits (a ++ '-' :: (b ++ '-' :: (c ++ '-' :: (d ++ '-' :: e)))) =
          a ++ b ++ c ++ d ++ e := by
        have hhyphen : ¬ decide ('-' ≠ '-') = true := by decide
        rw [uuidDigits_of_marks hmarks]
        simp only [List.filter_append, List.filter_cons_of_neg (p := fun x => x ≠ '-') hhyphen,
          List.append_assoc]
        rw [filter_hyphen fun x hx => hhex x (by simp only [hx, true_or]),
          filter_hyphen fun x hx => hhex x (by simp only [hx, true_or, or_true]),
          filter_hyphen fun x hx => hhex x (by simp only [hx, true_or, or_true]),
          filter_hyphen fun x hx => hhex x (by simp only [hx, true_or, or_true]),
          filter_hyphen fun x hx => hhex x (by simp only [hx, or_true])]
      -- A group of digits does not begin as a label does.
      have hstart : revLabelPrefix.isPrefixOf
          (a ++ '-' :: (b ++ '-' :: (c ++ '-' :: (d ++ '-' :: e)))) = false := by
        cases a with
        | nil => exact absurd ha (by decide)
        | cons x a =>
            have hx := (isHex_facts (hhex x (by simp only [List.mem_cons, true_or]))).2.2.2.2.1
            rw [Bool.eq_false_iff, ne_eq, List.isPrefixOf_iff_prefix]
            rintro ⟨rest, hrest⟩
            exact hx (List.cons.inj hrest).1.symm
      have hlen : (a ++ b ++ c ++ d ++ e).length = 32 := by
        simp only [List.length_append, ha, hb, hc, hd, he]
      have hall : ∀ x ∈ a ++ b ++ c ++ d ++ e, isHex x = true := by
        simp only [List.mem_append]
        exact hhex
      rw [revLabel, if_neg (by rw [hstart]; exact Bool.false_ne_true),
        uuid_of_digits hdigits hlen hall hvalue]
      rfl

/-- The label determines the UUID. -/
theorem encodeRevLabel_inj (h : encodeRevLabel id = encodeRevLabel id') : id = id' :=
  UUID.ext (pad_inj id.lt id'.lt (List.append_cancel_left h))

/-- The library on texts of digits. -/
def Python.plain : Python := { HexInt.plain with repr := fun s => s }

theorem names_unique (h : Names t id) (h' : Names t id') : id = id' := by
  have hlabel : Except.ok (encodeRevLabel id) = Except.ok (encodeRevLabel id') :=
    (revLabel_of_names .plain h).symm.trans (revLabel_of_names .plain h')
  exact encodeRevLabel_inj (Except.ok.inj hlabel)

/-! ## The parts of a value -/

/-- A text is the value that pins an API to a revision. -/
structure Pinned (part : Text) (key : Key) (revision : Text) (id : UUID) : Prop where
  vendor : key.1 ≠ [] ∧ ∀ c ∈ key.1, vendorChar c = true
  name : key.2.1 ≠ [] ∧ ∀ c ∈ key.2.1, nameChar c = true
  version : key.2.2 ≠ [] ∧ ∀ c ∈ key.2.2, versionChar c = true
  names : Names revision id
  parts : part = key.1 ++ ':' :: (key.2.1 ++ ':' :: (key.2.2 ++ '=' :: revision))

theorem spells_revisionRe : Re.Spells revisionRe t ↔ ∃ id, Names t id := by
  simp only [revisionRe, hexRun, Re.spells_alt, Re.spells_text_seq, Re.spells_seq_text_seq,
    Re.spells_rep_set]
  constructor
  · rintro (⟨s, ⟨hlen, hhex⟩, rfl⟩ | ⟨a, _, ⟨ha, hahex⟩, ⟨b, _, ⟨hb, hbhex⟩, ⟨c, _, ⟨hc, hchex⟩,
      ⟨d, e, ⟨hd, hdhex⟩, ⟨he, hehex⟩, rfl⟩, rfl⟩, rfl⟩, rfl⟩)
    · exact ⟨⟨value s, hlen ▸ value_lt hhex⟩, .label hlen hhex rfl⟩
    · have hhex : ∀ x ∈ a ++ b ++ c ++ d ++ e, isHex x = true := by
        simp only [List.mem_append]
        rintro x ((((hx | hx) | hx) | hx) | hx)
        · exact hahex x hx
        · exact hbhex x hx
        · exact hchex x hx
        · exact hdhex x hx
        · exact hehex x hx
      have hlen : (a ++ b ++ c ++ d ++ e).length = 32 := by
        simp only [List.length_append, ha, hb, hc, hd, he]
      exact ⟨⟨value (a ++ b ++ c ++ d ++ e), hlen ▸ value_lt hhex⟩,
        .groups ha hb hc hd he hhex rfl⟩
  · rintro ⟨id, h⟩
    cases h with
    | @label s _ hlen hhex hvalue => exact Or.inl ⟨s, ⟨hlen, hhex⟩, rfl⟩
    | @groups a b c d e _ ha hb hc hd he hhex hvalue =>
        simp only [List.mem_append] at hhex
        refine Or.inr ⟨a, _, ⟨ha, fun x hx => hhex x ?_⟩, ⟨b, _, ⟨hb, fun x hx => hhex x ?_⟩,
          ⟨c, _, ⟨hc, fun x hx => hhex x ?_⟩, ⟨d, e, ⟨hd, fun x hx => hhex x ?_⟩,
            ⟨he, fun x hx => hhex x ?_⟩, rfl⟩, rfl⟩, rfl⟩, rfl⟩
        · simp only [hx, true_or]
        · simp only [hx, true_or, or_true]
        · simp only [hx, true_or, or_true]
        · simp only [hx, true_or, or_true]
        · simp only [hx, or_true]

/-- The pattern takes a value without margins apart. -/
theorem pin_iff {part : Text} (hbare : Bare isspace part) :
    pin.fullmatch part = true ↔ ∃ key revision id, Pinned part key revision id := by
  rw [Re.fullmatch_iff]
  simp only [pin, Re.spells_seq_text_seq, Re.spells_plus_set]
  constructor
  · rintro ⟨vendor, _, hvendor, ⟨name, _, hname, ⟨version, _, hversion, hlast, rfl⟩, rfl⟩, rfl⟩
    rcases Re.spells_seq.mp hlast with ⟨revision, nl, hrevision, hnl, rfl⟩
    rcases spells_revisionRe.mp hrevision with ⟨id, hid⟩
    rcases Re.spells_opt.mp hnl with hnl | rfl
    · -- A value without margins does not end in a line break.
      rw [Re.spells_text.mp hnl] at hbare
      have hlast := hbare.last '\n' (by
        simp only [← List.append_assoc, List.getLast?_append, List.getLast?_singleton,
          Option.some_or, Option.mem_def])
      exact absurd hlast (by decide)
    · refine ⟨(vendor, name, version), revision, id, hvendor, hname, hversion, hid, ?_⟩
      rw [List.append_nil]
      rfl
  · rintro ⟨⟨vendor, name, version⟩, revision, id, h⟩
    refine ⟨vendor, _, h.vendor, ⟨name, _, h.name, ⟨version, revision, h.version, ?_, rfl⟩, rfl⟩,
      h.parts⟩
    exact Re.spells_seq.mpr ⟨revision, [], spells_revisionRe.mpr ⟨id, h.names⟩,
      Re.spells_opt.mpr (Or.inr rfl), (List.append_nil _).symm⟩

/-- `vendor:name:version`. -/
def apiOf (key : Key) : Text := key.1 ++ ':' :: (key.2.1 ++ ':' :: key.2.2)

theorem splitMax_append {sep : Char} {a : Text} (ha : sep ∉ a) (b : Text) (n : Nat) :
    splitMax sep (n + 1) (a ++ sep :: b) = a :: splitMax sep n b := by
  have hmem : sep ∈ a ++ sep :: b := List.mem_append_right a List.mem_cons_self
  have hparts := Text.partition_append ha b
  rw [Text.partition, Prod.mk.injEq, Prod.mk.injEq] at hparts
  rw [splitMax, if_pos hmem, hparts.1, hparts.2.2]

theorem not_mem_of_class {p : Char → Bool} {a : Text} {c : Char} (h : ∀ x ∈ a, p x = true)
    (hc : p c = false) : c ∉ a := by
  intro hm
  rw [h c hm] at hc
  exact Bool.false_ne_true hc.symm

theorem isspace_of_names (h : Names t id) : ∀ c ∈ t, isspace c = false := by
  cases h with
  | @label s _ hlen hhex hvalue =>
      intro c hc
      rw [revLabelPrefix] at hc
      simp only [List.cons_append, List.nil_append, List.mem_cons] at hc
      rcases hc with rfl | rfl | rfl | rfl | hc
      · decide
      · decide
      · decide
      · decide
      · exact (isHex_facts (hhex c hc)).2.2.2.2.2
  | @groups a b c d e _ ha hb hc hd he hhex hvalue =>
      intro x hx
      simp only [List.mem_append, List.mem_cons] at hx hhex
      by_cases hhyphen : x = '-'
      · rw [hhyphen]
        decide
      · refine (isHex_facts (hhex x ?_)).2.2.2.2.2
        simpa only [hhyphen, false_or, or_assoc] using hx

variable {part revision revision' : Text} {key key' : Key}

/-- The API and the revision of a value. -/
theorem Pinned.partition (h : Pinned part key revision id) :
    part.partition '=' = (apiOf key, true, revision) := by
  have hvendor := not_mem_of_class (c := '=') h.vendor.2 (by decide)
  have hname := not_mem_of_class (c := '=') h.name.2 (by decide)
  have hversion := not_mem_of_class (c := '=') h.version.2 (by decide)
  have hapi : '=' ∉ apiOf key := by
    rw [apiOf]
    simp only [List.mem_append, List.mem_cons, hvendor, hname, hversion, or_false, false_or]
    decide
  have hparts : part = apiOf key ++ '=' :: revision := by
    rw [h.parts, apiOf]
    simp only [List.append_assoc, List.cons_append]
  rw [hparts, Text.partition_append hapi]

theorem Pinned.splitKey (h : Pinned part key revision id) : splitKey (apiOf key) = .ok key := by
  have hvendor := not_mem_of_class (c := ':') h.vendor.2 (by decide)
  have hname := not_mem_of_class (c := ':') h.name.2 (by decide)
  rw [Revisions.splitKey, apiOf, splitMax_append hvendor, splitMax_append hname]
  rfl

/-- A value pins one API to one revision. -/
theorem Pinned.unique (h : Pinned part key revision id) (h' : Pinned part key' revision' id') :
    key = key' ∧ revision = revision' ∧ id = id' := by
  have hparts := h.partition.symm.trans h'.partition
  rw [Prod.mk.injEq, Prod.mk.injEq] at hparts
  have hkey := h.splitKey
  rw [hparts.1, h'.splitKey] at hkey
  have hnames := h.names
  rw [hparts.2.2] at hnames
  exact ⟨(Except.ok.inj hkey).symm, hparts.2.2, names_unique hnames h'.names⟩

/-! ## The loop -/

variable {out : Pins}

theorem accept_of_pinned (hbare : Bare isspace part) (h : Pinned part key revision id) :
    accept py out part = record py out (apiOf key) key revision := by
  have hmatch := (pin_iff hbare).mpr ⟨key, revision, id, h⟩
  rw [accept, hmatch, h.partition, h.splitKey, trim_eq_self (isspace_of_names h.names)]
  rfl

theorem accept_of_not_pinned (hbare : Bare isspace part)
    (h : ¬ ∃ key revision id, Pinned part key revision id) :
    accept py out part = .error (.invalidRevisionPin (malformedDetail py part)) := by
  have hmatch : pin.fullmatch part = false :=
    Bool.eq_false_iff.mpr fun hm => h ((pin_iff hbare).mp hm)
  rw [accept, hmatch]
  rfl

theorem record_of_labels {api earlier a b : Text} (hget : out.get? key = some earlier)
    (ha : revLabel py earlier = .ok a) (hb : revLabel py revision = .ok b) :
    record py out api key revision =
      if a ≠ b then .error (.invalidRevisionPin (conflictDetail py api earlier revision))
      else .ok (out.set key revision) := by
  rw [record, hget, Option.elim_some, ha, hb]
  rfl

/-- Labels are compared as the UUIDs are. -/
theorem record_of_names (py : Python) (api : Text) {earlier : Text}
    (hget : out.get? key = some earlier)
    (he : Names earlier id) (hr : Names revision id') :
    (id = id' ∧ record py out api key revision = .ok (out.set key revision)) ∨
    (id ≠ id' ∧ record py out api key revision =
      .error (.invalidRevisionPin (conflictDetail py api earlier revision))) := by
  rw [record_of_labels hget (revLabel_of_names py he) (revLabel_of_names py hr)]
  by_cases hid : id = id'
  · rw [hid]
    exact Or.inl ⟨rfl, if_neg (not_not.mpr rfl)⟩
  · exact Or.inr ⟨hid, if_pos fun h => hid (encodeRevLabel_inj h)⟩

/-- The values are pins, and those of one API spell one UUID. -/
structure Consistent (parts : List Text) : Prop where
  pinned : ∀ part ∈ parts, ∃ key revision id, Pinned part key revision id
  agree : ∀ part ∈ parts, ∀ part' ∈ parts, ∀ key revision revision' id id',
    Pinned part key revision id → Pinned part' key revision' id' → id = id'

/-- A map of the values seen: it has the UUID of every one, and nothing else. -/
structure Holds (seen : List Text) (out : Pins) : Prop where
  pinned : ∀ part ∈ seen, ∃ key revision id, Pinned part key revision id
  kept : ∀ part ∈ seen, ∀ key revision id, Pinned part key revision id →
    ∃ r, out.get? key = some r ∧ Names r id
  only : ∀ key r, out.get? key = some r → ∃ part ∈ seen, ∃ id, Pinned part key r id

theorem consistent_of_holds {seen : List Text} (h : Holds seen out) : Consistent seen where
  pinned := h.pinned
  agree := by
    intro part hpart part' hpart' key revision revision' id id' hp hp'
    rcases h.kept part hpart key revision id hp with ⟨r, hr, hnames⟩
    rcases h.kept part' hpart' key revision' id' hp' with ⟨r', hr', hnames'⟩
    rw [hr, Option.some.injEq] at hr'
    exact names_unique hnames (hr' ▸ hnames')

theorem Consistent.mono {parts parts' : List Text} (hsub : ∀ part ∈ parts, part ∈ parts')
    (h : Consistent parts') : Consistent parts where
  pinned := fun part hpart => h.pinned part (hsub part hpart)
  agree := fun part hpart part' hpart' =>
    h.agree part (hsub part hpart) part' (hsub part' hpart')

/-- Storing the revision of a value, where the map has no other UUID for its API. -/
theorem holds_set {seen : List Text} (h : Holds seen out) (hp : Pinned part key revision id)
    (hsame : ∀ r, out.get? key = some r → Names r id) :
    Holds (seen ++ [part]) (out.set key revision) where
  pinned := by
    intro x hx
    rcases List.mem_append.mp hx with hx | hx
    · exact h.pinned x hx
    · exact ⟨key, revision, id, List.mem_singleton.mp hx ▸ hp⟩
  kept := by
    intro x hx k r i hpx
    rw [Dict.get?_set]
    rcases List.mem_append.mp hx with hx | hx
    · rcases h.kept x hx k r i hpx with ⟨kept, hkept, hnames⟩
      by_cases hk : key = k
      · -- The kept spelling is one of both UUIDs, so that the new one is too.
        have hi : i = id := names_unique hnames (hsame kept (hk ▸ hkept))
        rw [if_pos hk, hi]
        exact ⟨revision, rfl, hp.names⟩
      · rw [if_neg hk]
        exact ⟨kept, hkept, hnames⟩
    · rw [List.mem_singleton.mp hx] at hpx
      rcases hp.unique hpx with ⟨hk, -, hi⟩
      rw [if_pos hk, ← hi]
      exact ⟨revision, rfl, hp.names⟩
  only := by
    intro k r hr
    rw [Dict.get?_set] at hr
    by_cases hk : key = k
    · rw [if_pos hk, Option.some.injEq] at hr
      rw [← hk, ← hr]
      exact ⟨part, List.mem_append_right _ (List.mem_singleton.mpr rfl), id, hp⟩
    · rw [if_neg hk] at hr
      rcases h.only k r hr with ⟨x, hx, i, hpx⟩
      exact ⟨x, List.mem_append_left _ hx, i, hpx⟩

/-- What one value does: it goes to the map, or contradicts what has been seen. -/
theorem accept_cases (py : Python) {seen : List Text} (h : Holds seen out)
    (hbare : Bare isspace part) :
    (∃ out', accept py out part = .ok out' ∧ Holds (seen ++ [part]) out') ∨
    (∃ detail, accept py out part = .error (.invalidRevisionPin detail) ∧
      ¬ Consistent (seen ++ [part])) := by
  have hlast : part ∈ seen ++ [part] := List.mem_append_right _ (List.mem_singleton.mpr rfl)
  by_cases hpinned : ∃ key revision id, Pinned part key revision id
  · rcases hpinned with ⟨key, revision, id, hp⟩
    rw [accept_of_pinned hbare hp]
    cases hget : out.get? key with
    | none =>
        refine Or.inl ⟨out.set key revision, ?_, holds_set h hp fun r hr => ?_⟩
        · rw [record, hget, Option.elim_none]
        · rw [hget] at hr
          exact absurd hr (by simp only [reduceCtorEq, not_false_eq_true])
    | some earlier =>
        rcases h.only key earlier hget with ⟨x, hx, i, hpx⟩
        rcases record_of_names py (apiOf key) hget hpx.names hp.names with
          ⟨hid, hrecord⟩ | ⟨hid, hrecord⟩
        · refine Or.inl ⟨out.set key revision, hrecord, holds_set h hp fun r hr => ?_⟩
          rw [hget, Option.some.injEq] at hr
          rw [← hr, ← hid]
          exact hpx.names
        · refine Or.inr ⟨_, hrecord, fun hc => hid ?_⟩
          exact hc.agree x (List.mem_append_left _ hx) part hlast key earlier revision i id hpx hp
  · exact Or.inr ⟨_, accept_of_not_pinned hbare hpinned, fun hc => hpinned (hc.pinned part hlast)⟩

/-- What the values of a header do, one after another. -/
theorem foldlM_accept {seen parts : List Text} (h : Holds seen out)
    (hbare : ∀ part ∈ parts, Bare isspace part) :
    (∃ out', parts.foldlM (accept py) out = .ok out' ∧ Holds (seen ++ parts) out') ∨
    (∃ detail, parts.foldlM (accept py) out = .error (.invalidRevisionPin detail) ∧
      ¬ Consistent (seen ++ parts)) := by
  induction parts generalizing seen out with
  | nil =>
      rw [List.append_nil]
      exact Or.inl ⟨out, rfl, h⟩
  | cons part parts ih =>
      rw [List.forall_mem_cons] at hbare
      rw [List.foldlM_cons]
      rcases accept_cases py h hbare.1 with ⟨out', hok, hholds⟩ | ⟨detail, herr, hnot⟩
      · rw [hok]
        rw [← List.singleton_append, ← List.append_assoc]
        exact ih hholds hbare.2
      · rw [herr]
        refine Or.inr ⟨detail, rfl, fun hc => hnot (hc.mono fun x hx => ?_)⟩
        rw [← List.singleton_append, ← List.append_assoc]
        exact List.mem_append_left _ hx

/-- The parts that are empty do nothing. -/
theorem foldlM_step (raws : List Text) :
    raws.foldlM (step py) out =
      ((raws.map (trim isspace)).filter (· ≠ [])).foldlM (accept py) out := by
  induction raws generalizing out with
  | nil => rfl
  | cons raw raws ih =>
      rw [List.foldlM_cons, List.map_cons, List.filter_cons, step]
      by_cases hempty : trim isspace raw = []
      · have hdrop : ¬ decide (trim isspace raw ≠ []) = true := fun h => of_decide_eq_true h hempty
        rw [if_pos hempty, if_neg hdrop]
        exact ih
      · rw [if_neg hempty, if_pos (decide_eq_true hempty), List.foldlM_cons]
        exact congrArg _ (funext fun out' => ih)

/-- What a header does. -/
theorem parseRevisions_cases (py : Python) (header : Option Text) :
    (∃ out, parseRevisions py header = .ok out ∧ Holds (values header) out) ∨
    (∃ detail, parseRevisions py header = .error (.invalidRevisionPin detail) ∧
      ¬ Consistent (values header)) := by
  have hempty : Holds [] (Dict.empty : Pins) :=
    ⟨fun part hp => absurd hp List.not_mem_nil, fun part hp => absurd hp List.not_mem_nil,
      fun key r hr => absurd hr (by simp only [Dict.get?_empty, reduceCtorEq, not_false_eq_true])⟩
  have hbare : ∀ part ∈ values header, Bare isspace part := by
    intro part hpart
    rcases List.mem_map.mp (List.mem_filter.mp hpart).1 with ⟨raw, -, rfl⟩
    exact trim_bare raw
  rw [parseRevisions, foldlM_step]
  exact foldlM_accept hempty hbare

theorem parseRevisions_ok_iff {header : Option Text} :
    (∃ out, parseRevisions py header = .ok out) ↔ Consistent (values header) := by
  constructor
  · rintro ⟨out, hout⟩
    rcases parseRevisions_cases py header with ⟨out', -, hholds⟩ | ⟨detail, herr, -⟩
    · exact consistent_of_holds hholds
    · rw [hout] at herr
      exact absurd herr (by simp only [reduceCtorEq, not_false_eq_true])
  · intro hc
    rcases parseRevisions_cases py header with ⟨out, hout, -⟩ | ⟨detail, -, hnot⟩
    · exact ⟨out, hout⟩
    · exact absurd hc hnot

theorem holds_of_parseRevisions {header : Option Text} (h : parseRevisions py header = .ok out) :
    Holds (values header) out := by
  rcases parseRevisions_cases py header with ⟨out', hout, hholds⟩ | ⟨detail, herr, -⟩
  · rw [h, Except.ok.injEq] at hout
    exact hout ▸ hholds
  · rw [h] at herr
    exact absurd herr (by simp only [reduceCtorEq, not_false_eq_true])

/-- The label that the map has for an API, if it has one. -/
def labelOf (py : Python) (out : Pins) (key : Key) : Option (Except Raised Text) :=
  (out.get? key).map (revLabel py)

/-- The label of an API is the one of the values that pin it. -/
theorem labelOf_eq_some_iff {seen : List Text} (h : Holds seen out) {l : Except Raised Text} :
    labelOf py out key = some l ↔
      ∃ part ∈ seen, ∃ revision id, Pinned part key revision id ∧ l = .ok (encodeRevLabel id) := by
  rw [labelOf, Option.map_eq_some_iff]
  constructor
  · rintro ⟨r, hr, rfl⟩
    rcases h.only key r hr with ⟨part, hpart, id, hp⟩
    exact ⟨part, hpart, r, id, hp, revLabel_of_names py hp.names⟩
  · rintro ⟨part, hpart, revision, id, hp, rfl⟩
    rcases h.kept part hpart key revision id hp with ⟨r, hr, hnames⟩
    exact ⟨r, hr, revLabel_of_names py hnames⟩

theorem toLower_encodeRevLabel (id : UUID) :
    (encodeRevLabel id).map Char.toLower = encodeRevLabel id := by
  have hall : Text.hexDigits.all (fun c => c.toLower = c) = true := rfl
  have hhex : id.hex.map Char.toLower = id.hex.map fun c => c :=
    List.map_congr_left fun c hc => of_decide_eq_true (List.all_eq_true.mp hall c (mem_pad hc))
  rw [encodeRevLabel, List.map_append, hhex, List.map_id']
  rfl

/-- The parser returns a map or rejects the header, by the set of the values alone; a
    map has every value's API, with a revision of the value's label, and the values
    determine the labels. -/
theorem parseRevisions_consistent (py : Python) :
    (∀ header, (∃ out, parseRevisions py header = .ok out) ∨
      ∃ detail, parseRevisions py header = .error (.invalidRevisionPin detail)) ∧
    (∀ header out, parseRevisions py header = .ok out → ∀ part ∈ values header,
      ∃ key revision id r, Pinned part key revision id ∧ out.get? key = some r ∧ Names r id ∧
        revLabel py r = .ok (encodeRevLabel id) ∧
        revLabel py revision = .ok (encodeRevLabel id) ∧
        (encodeRevLabel id).map Char.toLower = encodeRevLabel id) ∧
    (∀ header header', (∀ part, part ∈ values header ↔ part ∈ values header') →
      ((∃ out, parseRevisions py header = .ok out) ↔
        ∃ out, parseRevisions py header' = .ok out) ∧
      ∀ out out', parseRevisions py header = .ok out → parseRevisions py header' = .ok out' →
        ∀ key, labelOf py out key = labelOf py out' key) := by
  refine ⟨fun header => ?_, fun header out hout part hpart => ?_, fun header header' hsame => ?_⟩
  · rcases parseRevisions_cases py header with ⟨out, hout, -⟩ | ⟨detail, herr, -⟩
    · exact Or.inl ⟨out, hout⟩
    · exact Or.inr ⟨detail, herr⟩
  · have hholds := holds_of_parseRevisions hout
    rcases hholds.pinned part hpart with ⟨key, revision, id, hp⟩
    rcases hholds.kept part hpart key revision id hp with ⟨r, hr, hnames⟩
    exact ⟨key, revision, id, r, hp, hr, hnames, revLabel_of_names py hnames,
      revLabel_of_names py hp.names, toLower_encodeRevLabel id⟩
  · refine ⟨?_, fun out out' hout hout' key => ?_⟩
    · rw [parseRevisions_ok_iff, parseRevisions_ok_iff]
      exact ⟨Consistent.mono fun part hp => (hsame part).mpr hp,
        Consistent.mono fun part hp => (hsame part).mp hp⟩
    · apply Option.ext
      intro l
      rw [labelOf_eq_some_iff (holds_of_parseRevisions hout),
        labelOf_eq_some_iff (holds_of_parseRevisions hout')]
      simp only [hsame]

/-- One UUID in both spellings, with white space and an empty value. -/
def bothSpellings : Option Text :=
  some (" acme:pay:1:2=rev_0123456789abcdef0123456789ABCDEF,, ".toList ++
    "acme:pay:1:2=01234567-89AB-cdef-0123-456789abcdef".toList)

/-- The same values in the other order, one of them twice. -/
def otherOrder : Option Text :=
  some ("acme:pay:1:2=01234567-89AB-cdef-0123-456789abcdef,".toList ++
    "acme:pay:1:2=rev_0123456789abcdef0123456789ABCDEF,".toList ++
    "acme:pay:1:2=01234567-89AB-cdef-0123-456789abcdef".toList)

/-- The theorem at both headers. -/
theorem parseRevisions_consistent_bothSpellings :
    (∃ out, parseRevisions .plain bothSpellings = .ok out ∧ ∀ part ∈ values bothSpellings,
      ∃ key revision id r, Pinned part key revision id ∧ out.get? key = some r ∧ Names r id) ∧
    ∃ out, parseRevisions .plain otherOrder = .ok out := by
  have hok : (parseRevisions .plain bothSpellings).toOption.isSome = true := by decide +kernel
  have hsame : ∀ part, part ∈ values bothSpellings ↔ part ∈ values otherOrder := by
    have hvalues : values bothSpellings =
        ["acme:pay:1:2=rev_0123456789abcdef0123456789ABCDEF".toList,
          "acme:pay:1:2=01234567-89AB-cdef-0123-456789abcdef".toList] := by decide +kernel
    have hvalues' : values otherOrder =
        ["acme:pay:1:2=01234567-89AB-cdef-0123-456789abcdef".toList,
          "acme:pay:1:2=rev_0123456789abcdef0123456789ABCDEF".toList,
          "acme:pay:1:2=01234567-89AB-cdef-0123-456789abcdef".toList] := by decide +kernel
    intro part
    rw [hvalues, hvalues']
    simp only [List.mem_cons, List.not_mem_nil, or_false]
    exact ⟨fun h => h.elim (fun h => .inr (.inl h)) .inl,
      fun h => h.elim .inr fun h => h.elim .inl .inr⟩
  have hall := parseRevisions_consistent .plain
  rcases hall.1 bothSpellings with ⟨out, hout⟩ | ⟨detail, herr⟩
  · refine ⟨⟨out, hout, fun part hpart => ?_⟩, (hall.2.2 _ _ hsame).1.mp ⟨out, hout⟩⟩
    rcases hall.2.1 _ out hout part hpart with ⟨key, revision, id, r, hp, hr, hnames, -⟩
    exact ⟨key, revision, id, r, hp, hr, hnames⟩
  · rw [herr] at hok
    exact absurd hok Bool.false_ne_true

end Revisions

end Broker

end JenticOne
