import JenticOne.Library.Base64
import JenticOne.Library.IsoTime
import JenticOne.Library.Json
import JenticOne.Library.Utf8
import JenticOne.Library.Uuid

/-!
# Pagination Cursors

The cursor of a page: a time and an id in a JSON object, in base64. A cursor comes back
from the caller, so that the reader takes any text, and turns every exception that reading
one can raise into the one error of a cursor.

The exceptions are spelt out, and so is what catches them: the reader is right when no
exception is left over, and when the cursor that was written is read as it was.

## Main definitions

* `encodeCursor`, `decodeCursor`: Writing and reading.
* `OfKind`: The ids of a listing.

## Theorems

* `decodeCursor_total`: The reader returns a cursor or raises its own error.
* `decodeCursor_encodeCursor`: The round trip.
* `length_encodeCursor`: A cursor with a short id is short.
-/

namespace JenticOne

namespace Pagination

open IsoTime (DateTime isoformat fromisoformat fromisoformat_isoformat)
open Uuid

/-! ## The codec -/

/-- The exceptions that reading a cursor meets. -/
inductive Raised
  | valueError
  | typeError
  | attributeError
  | recursionError
  | keyError
  | invalidCursor (message : Text)
deriving DecidableEq

/-- `InvalidCursorError("Invalid pagination cursor")`. -/
def invalidCursor : Raised := .invalidCursor "Invalid pagination cursor".toList

/-- `try` with an `except` clause for some exceptions, all turned into the error of a cursor. -/
def catching {α : Type} (caught : List Raised) : Except Raised α → Except Raised α
  | .ok a => .ok a
  | .error e => if e ∈ caught then .error invalidCursor else .error e

/-- The text that `json.dumps` writes for an object of strings. -/
def dumpsStrings (members : List (Text × Text)) : Text :=
  '{' :: ((", ".toList.intercalate (members.map fun kv =>
    Json.quote (String.ofList kv.1) ++ (": ".toList ++ Json.quote (String.ofList kv.2)))) ++ ['}'])

/-- What the reader takes from the standard library besides: the times that `isoformat`
    does not write, and the texts whose values are nested too deep for its stack. -/
structure Python extends HexInt where
  otherTimes : Text → Option DateTime
  deep : Text → Bool
  deep_flat : ∀ members, deep (dumpsStrings members) = false

/-- A keyset position. -/
structure Cursor where
  timestamp : DateTime
  id : Text

/-- The check that an id must pass. -/
inductive CursorIdKind
  | uuid
  | str
deriving DecidableEq

def maxCursorLength : Nat := 1024

/-- `encode_cursor`. -/
def encodeCursor (timestamp : DateTime) (id : Text) : Text :=
  Base64.encode (Utf8.encode
    (dumpsStrings [("t".toList, isoformat timestamp), ("id".toList, id)]))

/-- `b64decode`. -/
def b64decode (s : Text) : Except Raised (List UInt8) :=
  (Base64.decode s).elim (.error .valueError) .ok

/-- `bytes.decode`. -/
def decodeUtf8 (bs : List UInt8) : Except Raised Text :=
  if Utf8.encode (Utf8.decode bs) = bs then .ok (Utf8.decode bs) else .error .valueError

variable (py : Python)

/-- `json.loads`. -/
def loads (s : Text) : Except Raised Json :=
  if py.deep s then .error .recursionError else (Json.loads s).elim (.error .valueError) .ok

/-- A value that is an object. -/
def asDict : Json → Except Raised Json
  | .obj members => .ok (.obj members)
  | _ => .error invalidCursor

/-- `_load_cursor_payload`. -/
def loadCursorPayload (cursor : Text) : Except Raised Json :=
  if cursor.length > maxCursorLength then .error invalidCursor
  else
    catching [.valueError, .typeError, .attributeError, .recursionError]
      (b64decode cursor >>= decodeUtf8 >>= loads py) >>= asDict

/-- `payload[key]`. -/
def getItem (key : String) (payload : Json) : Except Raised Json :=
  (payload.get? key).elim (.error .keyError) .ok

/-- A value that is a string. -/
def asStr : Json → Except Raised Text
  | .str s => .ok s.toList
  | _ => .error .valueError

/-- `datetime.fromisoformat`. -/
def readTime (raw : Text) : Except Raised DateTime :=
  (fromisoformat py.otherTimes raw).elim (.error .valueError) .ok

/-- The check of the id. -/
def checkId (idKind : CursorIdKind) (rawId : Text) : Except Raised Unit :=
  if idKind = .uuid then (uuid py.toHexInt rawId).elim (.error .valueError) fun _ => .ok ()
  else .ok ()

/-- The fields of the payload. -/
def readFields (idKind : CursorIdKind) (payload : Json) : Except Raised Cursor := do
  let t ← getItem "t" payload
  let i ← getItem "id" payload
  let rawTs ← asStr t
  let rawId ← asStr i
  let ts ← readTime py rawTs
  checkId py idKind rawId
  .ok ⟨if ts.val.offset = none then ts.inUtc else ts, rawId⟩

/-- `decode_cursor`. -/
def decodeCursor (idKind : CursorIdKind) (cursor : Text) : Except Raised Cursor :=
  loadCursorPayload py cursor >>= fun payload =>
    catching [.valueError, .typeError, .keyError] (readFields py idKind payload)

/-! ## No other exception -/

section Exceptions

variable {α β : Type} {py : Python} {allowed caught : List Raised}

/-- The exceptions that a computation can raise. -/
def RaisesOnly (allowed : List Raised) (x : Except Raised α) : Prop :=
  ∀ e, x = .error e → e ∈ allowed

theorem raisesOnly_ok (a : α) : RaisesOnly allowed (.ok a : Except Raised α) := by
  intro e h
  exact absurd h (by simp only [reduceCtorEq, not_false_eq_true])

theorem raisesOnly_error {e : Raised} (h : e ∈ allowed) :
    RaisesOnly allowed (.error e : Except Raised α) := by
  intro e' he
  rw [← Except.error.inj he]
  exact h

theorem RaisesOnly.bind {x : Except Raised α} {f : α → Except Raised β}
    (hx : RaisesOnly allowed x) (hf : ∀ a, RaisesOnly allowed (f a)) :
    RaisesOnly allowed (x >>= f) := by
  cases x with
  | error e => exact raisesOnly_error (hx e rfl)
  | ok a => exact hf a

theorem raisesOnly_elim {o : Option α} {f : α → Except Raised β} {e : Raised} (h : e ∈ allowed)
    (hf : ∀ a, RaisesOnly allowed (f a)) : RaisesOnly allowed (o.elim (.error e) f) := by
  cases o with
  | none => exact raisesOnly_error h
  | some a => exact hf a

theorem raisesOnly_ite {p : Prop} [Decidable p] {x y : Except Raised α}
    (hx : RaisesOnly allowed x) (hy : RaisesOnly allowed y) :
    RaisesOnly allowed (if p then x else y) := by
  by_cases hp : p
  · rw [if_pos hp]
    exact hx
  · rw [if_neg hp]
    exact hy

/-- What is caught comes out as the error of a cursor. -/
theorem RaisesOnly.catching {x : Except Raised α} (h : RaisesOnly caught x) :
    RaisesOnly [invalidCursor] (catching caught x) := by
  cases x with
  | ok a => exact raisesOnly_ok a
  | error e =>
      rw [Pagination.catching, if_pos (h e rfl)]
      exact raisesOnly_error List.mem_cons_self

theorem raisesOnly_loadCursorPayload (cursor : Text) :
    RaisesOnly [invalidCursor] (loadCursorPayload py cursor) := by
  rw [loadCursorPayload]
  refine raisesOnly_ite (raisesOnly_error List.mem_cons_self) (RaisesOnly.bind ?_ fun j => ?_)
  · refine RaisesOnly.catching (RaisesOnly.bind (RaisesOnly.bind ?_ fun bs => ?_) fun s => ?_)
    · exact raisesOnly_elim (by decide) raisesOnly_ok
    · exact raisesOnly_ite (raisesOnly_ok _) (raisesOnly_error (by decide))
    · exact raisesOnly_ite (raisesOnly_error (by decide))
        (raisesOnly_elim (by decide) raisesOnly_ok)
  · cases j with
    | obj members => exact raisesOnly_ok _
    | null => exact raisesOnly_error List.mem_cons_self
    | bool b => exact raisesOnly_error List.mem_cons_self
    | int n => exact raisesOnly_error List.mem_cons_self
    | float text => exact raisesOnly_error List.mem_cons_self
    | str s => exact raisesOnly_error List.mem_cons_self
    | arr items => exact raisesOnly_error List.mem_cons_self

theorem raisesOnly_asStr (j : Json) :
    RaisesOnly [.valueError, .typeError, .keyError] (asStr j) := by
  cases j with
  | str s => exact raisesOnly_ok _
  | null => exact raisesOnly_error (by decide)
  | bool b => exact raisesOnly_error (by decide)
  | int n => exact raisesOnly_error (by decide)
  | float text => exact raisesOnly_error (by decide)
  | arr items => exact raisesOnly_error (by decide)
  | obj members => exact raisesOnly_error (by decide)

theorem raisesOnly_readFields (idKind : CursorIdKind) (payload : Json) :
    RaisesOnly [.valueError, .typeError, .keyError] (readFields py idKind payload) := by
  have hget : ∀ key, RaisesOnly [.valueError, .typeError, .keyError] (getItem key payload) :=
    fun key => raisesOnly_elim (by decide) raisesOnly_ok
  refine (hget "t").bind fun t => (hget "id").bind fun i => (raisesOnly_asStr t).bind fun rawTs =>
    (raisesOnly_asStr i).bind fun rawId => RaisesOnly.bind ?_ fun ts => RaisesOnly.bind ?_ fun _ =>
      raisesOnly_ok _
  · exact raisesOnly_elim (by decide) raisesOnly_ok
  · exact raisesOnly_ite (raisesOnly_elim (by decide) fun _ => raisesOnly_ok _) (raisesOnly_ok _)

/-- The reader returns a cursor or raises the error of a cursor. -/
theorem decodeCursor_total (py : Python) (idKind : CursorIdKind) (cursor : Text) :
    (∃ c, decodeCursor py idKind cursor = .ok c) ∨
      decodeCursor py idKind cursor = .error invalidCursor := by
  have hraises : RaisesOnly [invalidCursor] (decodeCursor py idKind cursor) :=
    (raisesOnly_loadCursorPayload cursor).bind fun payload =>
      (raisesOnly_readFields idKind payload).catching
  cases hdecode : decodeCursor py idKind cursor with
  | ok c => exact Or.inl ⟨c, rfl⟩
  | error e =>
      rw [List.mem_singleton.mp (hraises e hdecode)]
      exact Or.inr rfl

end Exceptions

/-! ## The round trip -/

section RoundTrip

open Json (quote members value skip)

theorem quote_cons (s : String) : ∃ cs, quote s = '"' :: cs := ⟨_, rfl⟩

theorem skip_quote (s : String) (rest : Text) : skip (quote s ++ rest) = quote s ++ rest := by
  rw [quote, List.cons_append, Json.skip_cons (by decide)]

theorem skip_space (cs : Text) : skip (' ' :: cs) = skip cs := by
  rw [skip, skip, List.dropWhile_cons_of_pos (by decide)]

/-- A string as a value. -/
theorem value_quote (n : Nat) (s : String) (rest : Text) :
    value (n + 1) (quote s ++ rest) = some (.str s, rest) := by
  have hhead : (quote s ++ rest).head? = some '"' := rfl
  rw [value, if_pos hhead, Json.string_quote]
  rfl

/-- The name and the value of a member, before the end of an object or another member. -/
theorem members_quote (n : Nat) (k v : String) (rest : Text) :
    members (n + 2) (quote k ++ ':' :: ' ' :: (quote v ++ rest)) =
      if (skip rest).head? = some '}' then some ([(k, .str v)], (skip rest).tail)
      else if (skip rest).head? = some ',' then
        (members (n + 1) (skip (skip rest).tail)).bind fun mr => some ((k, .str v) :: mr.1, mr.2)
      else none := by
  rw [members, Json.string_quote]
  have hcolon : ∀ cs : Text, skip (':' :: cs) = ':' :: cs := fun cs => Json.skip_cons (by decide) cs
  simp only [Option.bind_eq_bind, Option.bind_some, hcolon, List.head?_cons, if_true,
    List.tail_cons, skip_space, skip_quote, value_quote]

theorem dumpsStrings_two (k v k' v' : Text) :
    dumpsStrings [(k, v), (k', v')] =
      '{' :: (quote (String.ofList k) ++ ':' :: ' ' :: (quote (String.ofList v) ++
        ',' :: ' ' :: (quote (String.ofList k') ++ ':' :: ' ' :: (quote (String.ofList v') ++
          ['}'])))) := by
  rw [dumpsStrings, List.map_cons, List.map_cons, List.map_nil, List.intercalate_cons_cons,
    List.intercalate_singleton]
  simp only [List.append_assoc]
  rfl

/-- An object of two strings is read back. -/
theorem loads_dumpsStrings (k v k' v' : Text) :
    Json.loads (dumpsStrings [(k, v), (k', v')]) =
      some (.obj [(String.ofList k, .str (String.ofList v)),
        (String.ofList k', .str (String.ofList v'))]) := by
  rw [dumpsStrings_two]
  generalize hbody : quote (String.ofList k) ++ ':' :: ' ' :: (quote (String.ofList v) ++
    ',' :: ' ' :: (quote (String.ofList k') ++ ':' :: ' ' :: (quote (String.ofList v') ++
      ['}']))) = body
  have hlen : ∃ n, body.length = n + 2 := by
    refine ⟨body.length - 2, ?_⟩
    have hlong : 2 ≤ body.length := by
      rw [← hbody]
      simp only [List.length_append, List.length_cons]
      omega
    omega
  rcases hlen with ⟨n, hn⟩
  have hobject : ('{' :: body).head? = some '{' := rfl
  have hbrace : body.head? = some '"' := by
    rw [← hbody]
    rfl
  have hskip : skip body = body := by
    rw [← hbody]
    exact skip_quote _ _
  have hmembers : members (n + 2 + 1) body =
      some ([(String.ofList k, .str (String.ofList v)),
        (String.ofList k', .str (String.ofList v'))], []) := by
    have hcomma : ∀ cs : Text, skip (',' :: cs) = ',' :: cs := fun cs =>
      Json.skip_cons (by decide) cs
    have hclose : ∀ cs : Text, skip ('}' :: cs) = '}' :: cs := fun cs =>
      Json.skip_cons (by decide) cs
    have hne : ¬ some ',' = some '}' := by decide
    rw [← hbody, members_quote, hcomma, List.head?_cons, if_neg hne, if_pos rfl, List.tail_cons,
      skip_space, skip_quote, members_quote, hclose, List.head?_cons, if_pos rfl, List.tail_cons]
    rfl
  rw [Json.loads, Json.skip_cons (by decide), List.length_cons, hn, value]
  have hquote : ¬ ('{' :: body).head? = some '"' := by
    rw [List.head?_cons]
    decide
  have hopen : ¬ ('{' :: body).head? = some '[' := by
    rw [List.head?_cons]
    decide
  have hnotEmpty : ¬ body.head? = some '}' := by
    rw [hbrace]
    decide
  rw [if_neg hquote, if_neg hopen, if_pos hobject, List.tail_cons, hskip]
  simp only [if_neg hnotEmpty, hmembers]
  rfl

variable {py : Python}

/-- The text of a UUID, in five groups. -/
def uuidText (id : UUID) : Text :=
  id.hex.take 8 ++ '-' :: ((id.hex.drop 8).take 4 ++ '-' :: ((id.hex.drop 12).take 4 ++
    '-' :: ((id.hex.drop 16).take 4 ++ '-' :: id.hex.drop 20)))

/-- The ids of a listing: any string, or the texts of UUIDs. -/
def OfKind : CursorIdKind → Text → Prop
  | .str, _ => True
  | .uuid, id => ∃ u : UUID, id = uuidText u

theorem uuid_uuidText (u : UUID) : uuid py.toHexInt (uuidText u) = some u := by
  have hhex : ∀ c ∈ u.hex, Hex.isHex c = true := fun c hc => Hex.isHex_of_mem_pad hc
  have hsub : ∀ {l : Text}, l.Sublist u.hex → ∀ c ∈ l, Hex.isHex c = true := fun hl c hc =>
    hhex c (hl.subset hc)
  have hmarks : ∀ c ∈ uuidText u, Hex.isHex c = true ∨ c = '-' := by
    intro c hc
    simp only [uuidText, List.mem_append, List.mem_cons] at hc
    rcases hc with hc | hc | hc | hc | hc | hc | hc | hc | hc
    · exact Or.inl (hsub (List.take_sublist _ _) c hc)
    · exact Or.inr hc
    · exact Or.inl (hsub ((List.take_sublist _ _).trans (List.drop_sublist _ _)) c hc)
    · exact Or.inr hc
    · exact Or.inl (hsub ((List.take_sublist _ _).trans (List.drop_sublist _ _)) c hc)
    · exact Or.inr hc
    · exact Or.inl (hsub ((List.take_sublist _ _).trans (List.drop_sublist _ _)) c hc)
    · exact Or.inr hc
    · exact Or.inl (hsub (List.drop_sublist _ _) c hc)
  have hdigits : uuidDigits (uuidText u) = u.hex := by
    have hhyphen : ¬ decide ('-' ≠ '-') = true := by decide
    rw [uuidDigits_of_marks hmarks, uuidText]
    simp only [List.filter_append, List.filter_cons_of_neg (p := fun x => x ≠ '-') hhyphen]
    rw [filter_hyphen (hsub (List.take_sublist _ _)),
      filter_hyphen (hsub ((List.take_sublist _ _).trans (List.drop_sublist _ _))),
      filter_hyphen (hsub ((List.take_sublist _ _).trans (List.drop_sublist _ _))),
      filter_hyphen (hsub ((List.take_sublist _ _).trans (List.drop_sublist _ _))),
      filter_hyphen (hsub (List.drop_sublist _ _))]
    have hsplit : ∀ m n : Nat, u.hex.drop m = (u.hex.drop m).take n ++ u.hex.drop (m + n) := by
      intro m n
      rw [← List.drop_drop, List.take_append_drop]
    rw [← hsplit 16 4, ← hsplit 12 4, ← hsplit 8 4, List.take_append_drop]
  exact uuid_of_digits hdigits (Hex.length_pad 32 u.int) hhex (Hex.value_pad u.lt)

/-- A cursor that was written is read as it was. -/
theorem decodeCursor_encodeCursor (py : Python) {idKind : CursorIdKind} {t : DateTime} {id : Text}
    (haware : t.Aware) (hkind : OfKind idKind id)
    (hlen : (encodeCursor t id).length ≤ maxCursorLength) :
    decodeCursor py idKind (encodeCursor t id) = .ok ⟨t, id⟩ := by
  have hload : loadCursorPayload py (encodeCursor t id) =
      .ok (.obj [("t", .str (String.ofList (isoformat t))), ("id", .str (String.ofList id))]) := by
    rw [loadCursorPayload, if_neg (Nat.not_lt_of_ge hlen), encodeCursor, b64decode,
      Base64.decode_encode, Option.elim_some]
    simp only [bind, Except.bind]
    rw [decodeUtf8, Utf8.decode_encode, if_pos rfl]
    simp only []
    rw [loads, py.deep_flat, if_neg Bool.false_ne_true, loads_dumpsStrings]
    rfl
  have hoffset : ¬ t.val.offset = none := by
    intro hnone
    rw [DateTime.Aware, hnone] at haware
    exact absurd haware Bool.false_ne_true
  have hcheck : checkId py idKind id = .ok () := by
    rw [checkId]
    cases idKind with
    | str => rfl
    | uuid =>
        have hid : ∃ u : UUID, id = uuidText u := hkind
        rcases hid with ⟨u, hu⟩
        rw [if_pos rfl, hu, uuid_uuidText, Option.elim_some]
  have htime : readTime py (isoformat t) = .ok t := by
    rw [readTime, fromisoformat_isoformat]
    rfl
  have ht : getItem "t" (.obj [("t", .str (String.ofList (isoformat t))),
      ("id", .str (String.ofList id))]) = .ok (.str (String.ofList (isoformat t))) := by
    simp [getItem, Json.get?]
  have hid : getItem "id" (.obj [("t", .str (String.ofList (isoformat t))),
      ("id", .str (String.ofList id))]) = .ok (.str (String.ofList id)) := by
    simp [getItem, Json.get?]
  rw [decodeCursor, hload]
  simp only [bind, Except.bind]
  rw [readFields, ht, hid]
  simp only [bind, Except.bind, asStr, String.toList_ofList, htime, hcheck]
  rw [if_neg hoffset]
  rfl

/-- A character is escaped in at most twelve. -/
theorem length_escape (c : Char) : (Json.escape c).length ≤ 12 := by
  rw [Json.escape]
  cases Json.shortEscapes.lookup c with
  | some e => exact of_decide_eq_true rfl
  | none =>
      dsimp only
      split_ifs
      · exact of_decide_eq_true rfl
      · exact of_decide_eq_true rfl
      · exact of_decide_eq_true rfl

theorem length_quote (s : Text) : (quote (String.ofList s)).length ≤ 12 * s.length + 2 := by
  have hflat : (s.flatMap Json.escape).length ≤ 12 * s.length := by
    induction s with
    | nil => exact Nat.le_refl 0
    | cons c s ih =>
        have hc := length_escape c
        rw [List.flatMap_cons, List.length_append, List.length_cons]
        omega
  rw [quote, String.toList_ofList, List.length_cons, List.length_append, List.length_singleton]
  omega

theorem escape_plain {c : Char} (h : IsoTime.plainChar c = true) : (Json.escape c).length = 1 := by
  have hascii : c.toNat < 128 := by
    rw [IsoTime.plainChar, Bool.or_eq_true] at h
    rcases h with h | h
    · have hdigit : c.toNat ≤ 57 := by
        rw [Char.isDigit, Bool.and_eq_true, decide_eq_true_eq, decide_eq_true_eq] at h
        exact h.2
      omega
    · have hmem := of_decide_eq_true h
      simp only [List.mem_cons, List.not_mem_nil, or_false] at hmem
      rcases hmem with rfl | rfl | rfl | rfl | rfl
      · decide
      · decide
      · decide
      · decide
      · decide
  have htable : ∀ k < 128, IsoTime.plainChar (Char.ofNat k) = true →
      (Json.escape (Char.ofNat k)).length = 1 := by
    decide
  have hrow := htable c.toNat hascii
  rw [Char.ofNat_toNat] at hrow
  exact hrow h

theorem length_quote_isoformat (t : DateTime) :
    (quote (String.ofList (isoformat t))).length ≤ 44 := by
  have hflat : ∀ s : Text, (∀ c ∈ s, IsoTime.plainChar c = true) →
      (s.flatMap Json.escape).length = s.length := by
    intro s hs
    induction s with
    | nil => rfl
    | cons c s ih =>
        rw [List.forall_mem_cons] at hs
        rw [List.flatMap_cons, List.length_append, escape_plain hs.1, ih hs.2, List.length_cons,
          Nat.add_comm]
  have hlen := IsoTime.length_isoformat t
  rw [quote, String.toList_ofList, List.length_cons, List.length_append, List.length_singleton,
    hflat _ fun c hc => IsoTime.plainChar_of_mem_isoformat hc]
  omega

/-- The cursor of a short id is within the limit. -/
theorem length_encodeCursor (t : DateTime) {id : Text} (hid : id.length ≤ 30) :
    (encodeCursor t id).length ≤ maxCursorLength := by
  have hascii : ∀ c ∈ dumpsStrings [("t".toList, isoformat t), ("id".toList, id)],
      Utf8.Ascii c := by
    intro c hc
    rw [dumpsStrings_two] at hc
    simp only [List.mem_cons, List.mem_append, List.not_mem_nil, or_false] at hc
    have hquote : ∀ s, c ∈ quote s → Utf8.Ascii c := fun s h => Json.quote_ascii s c h
    rcases hc with rfl | hc | rfl | rfl | hc | rfl | rfl | hc | rfl | rfl | hc | rfl
    · exact of_decide_eq_true (p := ('{' : Char).toNat < 128) rfl
    · exact hquote _ hc
    · exact of_decide_eq_true (p := (':' : Char).toNat < 128) rfl
    · exact of_decide_eq_true (p := (' ' : Char).toNat < 128) rfl
    · exact hquote _ hc
    · exact of_decide_eq_true (p := (',' : Char).toNat < 128) rfl
    · exact of_decide_eq_true (p := (' ' : Char).toNat < 128) rfl
    · exact hquote _ hc
    · exact of_decide_eq_true (p := (':' : Char).toNat < 128) rfl
    · exact of_decide_eq_true (p := (' ' : Char).toNat < 128) rfl
    · exact hquote _ hc
    · exact of_decide_eq_true (p := ('}' : Char).toNat < 128) rfl
  have htime := length_quote_isoformat t
  have hidQuote := length_quote id
  have hname := length_quote "t".toList
  have hname' := length_quote "id".toList
  have hone : "t".toList.length = 1 := by decide
  have htwo : "id".toList.length = 2 := by decide
  rw [encodeCursor, Base64.length_encode, Utf8.length_encode_ascii hascii, dumpsStrings_two,
    maxCursorLength]
  simp only [List.length_cons, List.length_append, List.length_nil]
  omega

end RoundTrip

end Pagination

end JenticOne
