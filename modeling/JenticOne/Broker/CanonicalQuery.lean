import JenticOne.Library.Segments
import JenticOne.Registry.Quote
import JenticOne.Registry.ServerVariables

/-!
# The Canonical Query of a Signature

The query string that a request is signed with: its parameters decoded, encoded again
and sorted. The signer decodes escapes to text and encodes the text; the verifier's
canonical form decodes them to bytes and encodes the bytes.

On a query in ASCII, which is what goes on the wire, the decoder of the standard
library reads the bytes as UTF-8 and puts the replacement character for what is none.
The two forms are then compared byte by byte: encoding bytes loses nothing, and what
the signer encodes are always the bytes of a text.

## Main definitions

* `canonicalQuery`: What the signer computes.
* `awsCanonicalQuery`: The canonical form on bytes.
* `Valid`: Bytes that are UTF-8.

## Theorems

* `unquote_eq`: The decoder reads the decoded bytes as UTF-8.
* `quote_eq`: The encoder encodes the bytes of the text.
* `percentDecode_encodeBytes`: Encoded bytes are decoded to themselves.
* `canonicalQuery_perm`: The order of the parameters does not matter.
* `canonicalQuery_eq_iff`: The two forms agree where the bytes are UTF-8.
-/

namespace JenticOne

namespace Broker

namespace CanonicalQuery

open Registry (hexValue hexValue_toUpper quote quoteChar percentByte unreserved upperHexDigit
  Bare escape_induction unquote unquoteFrom unquoteFrom_escape unquoteFrom_char)

/-! ## The signer -/

/-- `_uri_encode`. -/
def uriEncode (value : Text) (isPath : Bool) : Text :=
  value.flatMap fun c => if isPath && c = '/' then [c] else quoteChar c

/-- The order of tuples of texts. -/
def PairLe (a b : Text × Text) : Prop := toLex a ≤ toLex b

instance : DecidableRel PairLe := fun a b => inferInstanceAs (Decidable (toLex a ≤ toLex b))

/-- `k=v` for every pair, with `&` between them. -/
def joinPairs (pairs : List (Text × Text)) : Text :=
  ['&'].intercalate (pairs.map fun kv => kv.1 ++ '=' :: kv.2)

/-- The parts of a query that are not empty. -/
def parameters (query : Text) : List Text := (query.splitOn '&').filter (· ≠ [])

/-- The name and the value of a parameter, as they are signed. -/
def signedPair (part : Text) : Text × Text :=
  (uriEncode (unquote (part.partition '=').1) false,
    uriEncode (unquote (part.partition '=').2.2) false)

/-- `_canonical_query`. -/
def canonicalQuery (query : Text) : Text :=
  if query = [] then []
  else joinPairs (((parameters query).map signedPair).insertionSort PairLe)

/-! ## The canonical form on bytes -/

/-- The bytes of a text in ASCII, with its escapes decoded. -/
def percentDecode : Text → List UInt8
  | '%' :: a :: b :: cs =>
      match hexValue a, hexValue b with
      | some high, some low => UInt8.ofNat (16 * high + low) :: percentDecode cs
      | _, _ => 0x25 :: percentDecode (a :: b :: cs)
  | c :: cs => UInt8.ofNat c.toNat :: percentDecode cs
  | [] => []

/-- A byte, as an unreserved character or an escape. -/
def encodeByte (b : UInt8) : Text :=
  if unreserved (Utf8.charOf b) then [Utf8.charOf b] else percentByte b

def encodeBytes (bs : List UInt8) : Text := bs.flatMap encodeByte

def awsPair (part : Text) : Text × Text :=
  (encodeBytes (percentDecode (part.partition '=').1),
    encodeBytes (percentDecode (part.partition '=').2.2))

def awsCanonicalQuery (query : Text) : Text :=
  joinPairs (((parameters query).map awsPair).insertionSort PairLe)

/-- The bytes are UTF-8. -/
def Valid (bs : List UInt8) : Prop := ∃ t, Utf8.encode t = bs

/-- The signer's bytes: the text that is read, in UTF-8. -/
def reread (bs : List UInt8) : List UInt8 := Utf8.encode (Utf8.decode bs)

theorem reread_eq_iff {bs : List UInt8} : reread bs = bs ↔ Valid bs := by
  constructor
  · exact fun h => ⟨Utf8.decode bs, h⟩
  · rintro ⟨t, rfl⟩
    rw [reread, Utf8.decode_encode]

/-! ## Decoding -/

theorem percentDecode_escape {a b : Char} {high low : Nat} (ha : hexValue a = some high)
    (hb : hexValue b = some low) (cs : Text) :
    percentDecode ('%' :: a :: b :: cs) = UInt8.ofNat (16 * high + low) :: percentDecode cs := by
  rw [percentDecode, ha, hb]

theorem percentDecode_char {c : Char} {cs : Text} (h : Bare c cs) :
    percentDecode (c :: cs) = UInt8.ofNat c.toNat :: percentDecode cs := by
  by_cases hc : c = '%'
  · rw [hc]
    match cs with
    | [] => rfl
    | [a] => rfl
    | a :: b :: rest =>
        rw [percentDecode]
        cases ha : hexValue a with
        | none => rfl
        | some high =>
            cases hb : hexValue b with
            | none => rfl
            | some low =>
                exact absurd ⟨a, b, rest, rfl, by rw [ha]; rfl, by rw [hb]; rfl⟩ (h hc)
  · rw [percentDecode]
    exact fun a b cs' he => absurd he hc

theorem unquoteFrom_eq {s : Text} (h : ∀ c ∈ s, Utf8.Ascii c) (bytes : List UInt8) :
    unquoteFrom bytes s = Utf8.decode (bytes ++ percentDecode s) := by
  induction s using escape_induction generalizing bytes with
  | nil => rw [percentDecode, List.append_nil, unquoteFrom]
  | escape a b high low cs ha hb ih =>
      simp only [List.forall_mem_cons] at h
      rw [unquoteFrom_escape ha hb, percentDecode_escape ha hb, ih h.2.2.2, List.append_assoc,
        List.singleton_append]
  | char c cs hbare ih =>
      rw [List.forall_mem_cons] at h
      have hc : c.toNat < 128 := h.1
      rw [unquoteFrom_char hbare, if_pos hc, percentDecode_char hbare, ih h.2, List.append_assoc,
        List.singleton_append]

theorem percentDecode_plain {s : Text} (h : '%' ∉ s) :
    percentDecode s = s.map fun c => UInt8.ofNat c.toNat := by
  induction s with
  | nil => rfl
  | cons c s ih =>
      rw [List.mem_cons, not_or] at h
      rw [percentDecode_char fun he => absurd he.symm h.1, ih h.2, List.map_cons]

/-- The decoder reads the decoded bytes as UTF-8. -/
theorem unquote_eq {s : Text} (h : ∀ c ∈ s, Utf8.Ascii c) :
    unquote s = Utf8.decode (percentDecode s) := by
  rw [unquote]
  by_cases hpercent : '%' ∈ s
  · rw [if_pos hpercent, unquoteFrom_eq h, List.nil_append]
  · have hbyte : ∀ c ∈ s, (UInt8.ofNat c.toNat).toNat = c.toNat := fun c hc =>
      Utf8.toNat_ofNat_byte (Nat.lt_trans (h c hc) (by decide))
    rw [if_neg hpercent, percentDecode_plain hpercent, Utf8.decode_ascii ?_, List.map_map]
    · refine (List.map_id s).symm.trans (List.map_congr_left fun c hc => ?_)
      rw [Function.comp, Utf8.charOf, hbyte c hc, Char.ofNat_toNat, id]
    · intro b hb
      rcases List.mem_map.mp hb with ⟨c, hc, rfl⟩
      rw [hbyte c hc]
      exact h c hc

/-! ## Encoding -/

/-- The unreserved characters are in ASCII. -/
theorem ascii_of_unreserved {c : Char} (h : unreserved c = true) : c.toNat < 128 := by
  rw [unreserved, Bool.or_eq_true, List.contains_iff_mem] at h
  rcases h with h | h
  · simp only [Char.isAlphanum, Char.isAlpha, Char.isUpper, Char.isLower, Char.isDigit,
      Bool.or_eq_true, Bool.and_eq_true, decide_eq_true_eq, UInt32.le_iff_toNat_le,
      ge_iff_le] at h
    have hval : c.toNat = c.val.toNat := rfl
    have hupper : 'Z'.val.toNat = 90 := rfl
    have hlower : 'z'.val.toNat = 122 := rfl
    have hdigit : '9'.val.toNat = 57 := rfl
    omega
  · simp only [List.mem_cons, List.not_mem_nil, or_false] at h
    rcases h with rfl | rfl | rfl | rfl
    · decide
    · decide
    · decide
    · decide

theorem not_unreserved_of_ge {c : Char} (h : 128 ≤ c.toNat) : unreserved c = false :=
  Bool.eq_false_iff.mpr fun hc => Nat.not_lt_of_ge h (ascii_of_unreserved hc)

/-- The encoder encodes the bytes of a character. -/
theorem quoteChar_eq (c : Char) : quoteChar c = encodeBytes (String.utf8EncodeChar c) := by
  rw [quoteChar, encodeBytes]
  by_cases hascii : c.toNat < 128
  · have hv : c.val.toNat ≤ 127 := Nat.le_of_lt_succ hascii
    have hbytes : String.utf8EncodeChar c = [UInt8.ofNat c.toNat] := by
      rw [String.utf8EncodeChar]
      exact if_pos hv
    have hchar : Utf8.charOf (UInt8.ofNat c.toNat) = c := by
      rw [Utf8.charOf, Utf8.toNat_ofNat_byte (by omega), Char.ofNat_toNat]
    rw [hbytes, List.flatMap_singleton, List.flatMap_singleton, encodeByte, hchar]
  · have hge := Nat.le_of_not_lt hascii
    rw [not_unreserved_of_ge hge, if_neg Bool.false_ne_true]
    refine List.flatMap_congr fun b hb => ?_
    have hb' := Registry.byte_ge hge hb
    rw [encodeByte, not_unreserved_of_ge (by rw [Utf8.toNat_charOf]; exact hb'),
      if_neg Bool.false_ne_true]

/-- The encoder encodes the bytes of the text. -/
theorem quote_eq (t : Text) : uriEncode t false = encodeBytes (Utf8.encode t) := by
  rw [uriEncode, encodeBytes, Utf8.encode, List.flatMap_assoc]
  exact List.flatMap_congr fun c _ => quoteChar_eq c

theorem hexValue_upperHexDigit : ∀ n < 16, hexValue (upperHexDigit n) = some n := by
  decide

theorem percentDecode_encodeByte (b : UInt8) (cs : Text) :
    percentDecode (encodeByte b ++ cs) = b :: percentDecode cs := by
  have hb := b.toNat_lt
  rw [encodeByte]
  by_cases hkept : unreserved (Utf8.charOf b) = true
  · have hbare : Bare (Utf8.charOf b) cs := by
      intro he
      rw [he] at hkept
      exact absurd hkept (by decide)
    rw [if_pos hkept, List.singleton_append, percentDecode_char hbare, Utf8.toNat_charOf,
      UInt8.ofNat_toNat]
  · have hhigh := hexValue_upperHexDigit (b.toNat / 16) (by omega)
    have hlow := hexValue_upperHexDigit (b.toNat % 16) (by omega)
    rw [if_neg hkept, percentByte]
    simp only [List.cons_append, List.nil_append]
    rw [percentDecode_escape hhigh hlow, Nat.div_add_mod, UInt8.ofNat_toNat]

/-- Encoded bytes are decoded to themselves. -/
theorem percentDecode_encodeBytes (bs : List UInt8) : percentDecode (encodeBytes bs) = bs := by
  induction bs with
  | nil => rfl
  | cons b bs ih =>
      rw [encodeBytes, List.flatMap_cons, percentDecode_encodeByte]
      exact congrArg (b :: ·) ih

theorem encodeBytes_inj {bs bs' : List UInt8} (h : encodeBytes bs = encodeBytes bs') :
    bs = bs' := by
  rw [← percentDecode_encodeBytes bs, h, percentDecode_encodeBytes]

/-- The separators of a query are escaped. -/
theorem not_mem_encodeBytes (bs : List UInt8) {c : Char} (hc : c = '&' ∨ c = '=') :
    c ∉ encodeBytes bs := by
  intro hm
  rcases List.mem_flatMap.mp hm with ⟨b, -, hb⟩
  have hb' := b.toNat_lt
  rw [encodeByte] at hb
  by_cases hkept : unreserved (Utf8.charOf b) = true
  · rw [if_pos hkept, List.mem_singleton] at hb
    rw [← hb] at hkept
    rcases hc with rfl | rfl
    · exact absurd hkept (by decide)
    · exact absurd hkept (by decide)
  · rw [if_neg hkept, percentByte] at hb
    have hdigits : ∀ n < 16, upperHexDigit n ≠ '&' ∧ upperHexDigit n ≠ '=' := by decide
    have hhigh := hdigits (b.toNat / 16) (by omega)
    have hlow := hdigits (b.toNat % 16) (by omega)
    simp only [List.mem_cons, List.not_mem_nil, or_false] at hb
    rcases hc with rfl | rfl
    · rcases hb with hb | hb | hb
      · exact absurd hb (by decide)
      · exact hhigh.1 hb.symm
      · exact hlow.1 hb.symm
    · rcases hb with hb | hb | hb
      · exact absurd hb (by decide)
      · exact hhigh.2 hb.symm
      · exact hlow.2 hb.symm

/-! ## Pairs -/

/-- Names and values without separators. -/
def Escaped (kv : Text × Text) : Prop := '&' ∉ kv.1 ∧ '=' ∉ kv.1 ∧ '&' ∉ kv.2

theorem escaped_encodeBytes (bs bs' : List UInt8) : Escaped (encodeBytes bs, encodeBytes bs') :=
  ⟨not_mem_encodeBytes bs (.inl rfl), not_mem_encodeBytes bs (.inr rfl),
    not_mem_encodeBytes bs' (.inl rfl)⟩

/-- The joined text determines the pairs. -/
theorem joinPairs_inj {l l' : List (Text × Text)} (h : ∀ kv ∈ l, Escaped kv)
    (h' : ∀ kv ∈ l', Escaped kv) (he : joinPairs l = joinPairs l') : l = l' := by
  have hfree : ∀ {l : List (Text × Text)}, (∀ kv ∈ l, Escaped kv) →
      ∀ x ∈ l.map (fun kv => kv.1 ++ '=' :: kv.2), '&' ∉ x := by
    intro l h x hx
    rcases List.mem_map.mp hx with ⟨kv, hkv, rfl⟩
    rw [List.mem_append, List.mem_cons, not_or, not_or]
    exact ⟨(h kv hkv).1, by decide, (h kv hkv).2.2⟩
  have hempty : ∀ {l : List (Text × Text)}, joinPairs l = [] → l = [] := by
    intro l hl
    cases l with
    | nil => rfl
    | cons kv l =>
        have hm : '=' ∈ joinPairs (kv :: l) :=
          Segments.mem_intercalate_of_mem (x := kv.1 ++ '=' :: kv.2) List.mem_cons_self
            (List.mem_append_right _ List.mem_cons_self)
        rw [hl] at hm
        exact absurd hm List.not_mem_nil
  by_cases hl : l = []
  · rw [hl] at he ⊢
    exact (hempty he.symm).symm
  by_cases hl' : l' = []
  · rw [hl'] at he ⊢
    exact hempty he
  have hmap := Segments.intercalate_inj (fun hn => hl (List.map_eq_nil_iff.mp hn))
    (fun hn => hl' (List.map_eq_nil_iff.mp hn)) (hfree h) (hfree h') he
  -- Every pair is read off its text.
  have hread : ∀ {l : List (Text × Text)}, (∀ kv ∈ l, Escaped kv) →
      (l.map fun kv => kv.1 ++ '=' :: kv.2).map
        (fun x : Text => ((x.partition '=').1, (x.partition '=').2.2)) = l := by
    intro l h
    rw [List.map_map]
    refine (List.map_congr_left fun kv hkv => ?_).trans (List.map_id l)
    rw [Function.comp, Text.partition_append (h kv hkv).2.1]
    rfl
  rw [← hread h, hmap, hread h']

instance : Std.Total PairLe := ⟨fun a b => le_total (toLex a) (toLex b)⟩

instance : IsTrans (Text × Text) PairLe := ⟨fun _ _ _ hab hbc => le_trans hab hbc⟩

/-- Sorted lists with the same pairs are the same. -/
theorem insertionSort_eq_of_perm {l l' : List (Text × Text)} (h : l.Perm l') :
    l.insertionSort PairLe = l'.insertionSort PairLe := by
  have hperm : (l.insertionSort PairLe).Perm (l'.insertionSort PairLe) :=
    (List.perm_insertionSort PairLe l).trans (h.trans (List.perm_insertionSort PairLe l').symm)
  refine hperm.eq_of_pairwise (fun a b _ _ hab hba => ?_) (List.pairwise_insertionSort PairLe l)
    (List.pairwise_insertionSort PairLe l')
  exact toLex.injective (le_antisymm hab hba)

/-! ## The two forms -/

/-- The bytes that a parameter's name, and its value, stand for. -/
def nameBytes (part : Text) : List UInt8 := percentDecode (part.partition '=').1

def valueBytes (part : Text) : List UInt8 := percentDecode (part.partition '=').2.2

theorem signedPair_eq {part : Text} (h : ∀ c ∈ part, Utf8.Ascii c) :
    signedPair part =
      (encodeBytes (reread (nameBytes part)), encodeBytes (reread (valueBytes part))) := by
  have hname : ∀ c ∈ (part.partition '=').1, Utf8.Ascii c := fun c hc =>
    h c (List.takeWhile_subset _ hc)
  have hvalue : ∀ c ∈ (part.partition '=').2.2, Utf8.Ascii c := fun c hc =>
    h c ((List.dropWhile_sublist _).subset (List.mem_of_mem_tail hc))
  rw [signedPair, unquote_eq hname, unquote_eq hvalue, quote_eq, quote_eq]
  rfl

theorem signedPair_eq_awsPair_iff {part : Text} (h : ∀ c ∈ part, Utf8.Ascii c) :
    signedPair part = awsPair part ↔ Valid (nameBytes part) ∧ Valid (valueBytes part) := by
  rw [signedPair_eq h, awsPair, Prod.mk.injEq, ← reread_eq_iff, ← reread_eq_iff]
  exact and_congr ⟨fun he => encodeBytes_inj he, fun he => congrArg encodeBytes he⟩
    ⟨fun he => encodeBytes_inj he, fun he => congrArg encodeBytes he⟩

theorem ascii_of_mem_parameters {query part : Text} (h : ∀ c ∈ query, Utf8.Ascii c)
    (hpart : part ∈ parameters query) : ∀ c ∈ part, Utf8.Ascii c :=
  Segments.forall_splitOn.mpr (fun c hc _ => h c hc) part (List.mem_filter.mp hpart).1

theorem canonicalQuery_eq_join (query : Text) :
    canonicalQuery query =
      joinPairs (((parameters query).map signedPair).insertionSort PairLe) := by
  rw [canonicalQuery]
  by_cases hempty : query = []
  · rw [if_pos hempty, hempty]
    rfl
  · rw [if_neg hempty]

/-- The order of the parameters does not matter. -/
theorem canonicalQuery_perm {query query' : Text}
    (h : (query'.splitOn '&').Perm (query.splitOn '&')) :
    canonicalQuery query' = canonicalQuery query := by
  rw [canonicalQuery_eq_join, canonicalQuery_eq_join]
  exact congrArg joinPairs (insertionSort_eq_of_perm ((h.filter _).map _))

/-- What the verifier encodes are bytes that the signer encodes, if the two forms agree. -/
theorem valid_of_eq {query part : Text} (hascii : ∀ c ∈ query, Utf8.Ascii c)
    (h : canonicalQuery query = awsCanonicalQuery query) (hpart : part ∈ parameters query) :
    Valid (nameBytes part) ∧ Valid (valueBytes part) := by
  have hsigned : ∀ kv ∈ (parameters query).map signedPair, ∃ t t' : Text,
      kv = (encodeBytes (Utf8.encode t), encodeBytes (Utf8.encode t')) := by
    intro kv hkv
    rcases List.mem_map.mp hkv with ⟨x, hx, rfl⟩
    exact ⟨_, _, signedPair_eq (ascii_of_mem_parameters hascii hx)⟩
  have hlists : ((parameters query).map signedPair).insertionSort PairLe =
      ((parameters query).map awsPair).insertionSort PairLe := by
    refine joinPairs_inj (fun kv hkv => ?_) (fun kv hkv => ?_)
      ((canonicalQuery_eq_join query).symm.trans h)
    · rcases hsigned kv ((List.mem_insertionSort PairLe).mp hkv) with ⟨t, t', rfl⟩
      exact escaped_encodeBytes _ _
    · rcases List.mem_map.mp ((List.mem_insertionSort PairLe).mp hkv) with ⟨x, -, rfl⟩
      exact escaped_encodeBytes _ _
  have hmem : awsPair part ∈ (parameters query).map signedPair := by
    rw [← List.mem_insertionSort PairLe, hlists, List.mem_insertionSort PairLe]
    exact List.mem_map_of_mem hpart
  rcases hsigned _ hmem with ⟨t, t', hkv⟩
  rw [awsPair, Prod.mk.injEq] at hkv
  exact ⟨⟨t, (encodeBytes_inj hkv.1).symm⟩, ⟨t', (encodeBytes_inj hkv.2).symm⟩⟩

/-- The signer computes the canonical form, in any order of the parameters, just where
    every name and every value decodes to bytes that are UTF-8. -/
theorem canonicalQuery_eq_iff {query : Text} (hascii : ∀ c ∈ query, Utf8.Ascii c) :
    (canonicalQuery query = awsCanonicalQuery query ∧
      ∀ query' : Text, (query'.splitOn '&').Perm (query.splitOn '&') →
        canonicalQuery query' = canonicalQuery query) ↔
    ∀ part ∈ parameters query, Valid (nameBytes part) ∧ Valid (valueBytes part) := by
  constructor
  · exact fun h part hpart => valid_of_eq hascii h.1 hpart
  · intro h
    refine ⟨?_, fun query' hperm => canonicalQuery_perm hperm⟩
    have hpairs : (parameters query).map signedPair = (parameters query).map awsPair :=
      List.map_congr_left fun part hpart =>
        (signedPair_eq_awsPair_iff (ascii_of_mem_parameters hascii hpart)).mpr (h part hpart)
    rw [canonicalQuery_eq_join, hpairs, awsCanonicalQuery]

/-- Names and values in UTF-8, with an escape in lower case, a plus and a bare name. -/
theorem canonicalQuery_eq_iff_plain :
    canonicalQuery "b=%c3%a9+1&&a".toList = awsCanonicalQuery "b=%c3%a9+1&&a".toList := by
  have hall : "b=%c3%a9+1&&a".toList.all (fun c => c.toNat < 128) = true := by decide +kernel
  have hascii : ∀ c ∈ "b=%c3%a9+1&&a".toList, c.toNat < 128 := fun c hc =>
    of_decide_eq_true (List.all_eq_true.mp hall c hc)
  refine ((canonicalQuery_eq_iff hascii).mpr ?_).1
  have hparts : parameters "b=%c3%a9+1&&a".toList = ["b=%c3%a9+1".toList, "a".toList] := by
    decide +kernel
  rw [hparts]
  intro part hpart
  simp only [List.mem_cons, List.not_mem_nil, or_false] at hpart
  rcases hpart with rfl | rfl
  · exact ⟨⟨"b".toList, by decide +kernel⟩, ⟨[Char.ofNat 0xE9, '+', '1'], by decide +kernel⟩⟩
  · exact ⟨⟨"a".toList, by decide +kernel⟩, ⟨[], by decide +kernel⟩⟩

/-- A byte that is not UTF-8 is signed as the replacement character. -/
theorem canonicalQuery_ff :
    canonicalQuery "a=%FF".toList = "a=%EF%BF%BD".toList ∧
      awsCanonicalQuery "a=%FF".toList = "a=%FF".toList ∧
      canonicalQuery "a=%FF".toList ≠ awsCanonicalQuery "a=%FF".toList := by
  have hsigned : canonicalQuery "a=%FF".toList = "a=%EF%BF%BD".toList := by decide +kernel
  have haws : awsCanonicalQuery "a=%FF".toList = "a=%FF".toList := by decide +kernel
  rw [hsigned, haws]
  exact ⟨rfl, rfl, by decide +kernel⟩

end CanonicalQuery

end Broker

end JenticOne
