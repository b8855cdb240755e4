import JenticOne.Library.Segments
import JenticOne.Library.Utf8
import JenticOne.Registry.UrlPath

/-!
# Percent Decoding

The decoders of a quoted text, as one scan over its escapes. `decodeBy` puts what
a function makes of each escape in its place; the decoder of a path that keeps
the separators encoded is a case of it, and so are the decoder of every escape
and the one of the kept escapes alone. `unquote` is the standard library's: it
collects the bytes of a run of ASCII characters and reads them as UTF-8, with
the replacement character where they are none.

The scans recurse on the text. `escape_induction` is the induction they share:
an escape, or a character that begins none.

## Main definitions

* `decodeBy`: A scan over the escapes.
* `decodeAll`, `decodeKept`: Every escape decoded, the kept ones decoded.
* `unquote`: The standard library's decoder.

## Theorems

* `decodeOnce_eq`: The decoder of a path is such a scan.
* `decodeBy_append`: A scan of two texts with a separator between them.
* `unquote_eq_iff`: `unquote` gives a text in ASCII when every escape decoded does.
-/

namespace JenticOne

namespace Registry

/-! ## Scans -/

/-- Every escape replaced by what `f` makes of its digits and its code. -/
def decodeBy (f : Char → Char → Nat → Text) : Text → Text
  | '%' :: a :: b :: cs =>
      match hexValue a, hexValue b with
      | some high, some low => f a b (16 * high + low) ++ decodeBy f cs
      | _, _ => '%' :: decodeBy f (a :: b :: cs)
  | c :: cs => c :: decodeBy f cs
  | [] => []

/-- Every escape becomes the character of its code. -/
def decodeAll : Text → Text := decodeBy fun _ _ code => [Char.ofNat code]

/-- The escapes that `decodeOnce` keeps become the characters of their codes. -/
def decodeKept : Text → Text :=
  decodeBy fun a b code => if code ∈ keptEncoded then [Char.ofNat code] else ['%', a, b]

/-- The character is at the head of no escape. -/
def Bare (c : Char) (cs : Text) : Prop := c = '%' → ¬ HexPair cs

/-- Induction over the escapes of a text. -/
theorem escape_induction {motive : Text → Prop} (nil : motive [])
    (escape : ∀ a b high low cs, hexValue a = some high → hexValue b = some low →
      motive cs → motive ('%' :: a :: b :: cs))
    (char : ∀ c cs, Bare c cs → motive cs → motive (c :: cs)) : ∀ s, motive s
  | [] => nil
  | [c] => char c [] (fun _ ⟨_, _, _, he, _⟩ => absurd he (List.cons_ne_nil _ _).symm) nil
  | [c, d] => by
      refine char c [d] (fun _ ⟨a, b, rest, he, _⟩ => ?_)
        (escape_induction nil escape char [d])
      exact absurd (congrArg List.length he) (by
        simp only [List.length_cons, List.length_nil]
        omega)
  | c :: a :: b :: cs => by
      by_cases hc : c = '%'
      · cases ha : hexValue a with
        | none =>
            refine char c _ (fun _ ⟨a', b', rest, he, ha', _⟩ => ?_)
              (escape_induction nil escape char (a :: b :: cs))
            rw [List.cons.injEq] at he
            rw [← he.1, ha] at ha'
            exact absurd ha' Bool.false_ne_true
        | some high =>
            cases hb : hexValue b with
            | none =>
                refine char c _ (fun _ ⟨a', b', rest, he, _, hb'⟩ => ?_)
                  (escape_induction nil escape char (a :: b :: cs))
                rw [List.cons.injEq, List.cons.injEq] at he
                rw [← he.2.1, hb] at hb'
                exact absurd hb' Bool.false_ne_true
            | some low =>
                rw [hc]
                exact escape a b high low cs ha hb (escape_induction nil escape char cs)
      · exact char c _ (fun he => absurd he hc) (escape_induction nil escape char (a :: b :: cs))

section Scan

variable (f : Char → Char → Nat → Text)

theorem decodeBy_escape {a b : Char} {high low : Nat} (ha : hexValue a = some high)
    (hb : hexValue b = some low) (cs : Text) :
    decodeBy f ('%' :: a :: b :: cs) = f a b (16 * high + low) ++ decodeBy f cs := by
  rw [decodeBy, ha, hb]

theorem decodeBy_char {c : Char} {cs : Text} (h : Bare c cs) :
    decodeBy f (c :: cs) = c :: decodeBy f cs := by
  by_cases hc : c = '%'
  · rw [hc]
    match cs with
    | [] => rfl
    | [a] => rfl
    | a :: b :: rest =>
        rw [decodeBy]
        cases ha : hexValue a with
        | none => rfl
        | some high =>
            cases hb : hexValue b with
            | none => rfl
            | some low =>
                exact absurd ⟨a, b, rest, rfl, by rw [ha]; rfl, by rw [hb]; rfl⟩ (h hc)
  · rw [decodeBy]
    exact fun a b cs' he => absurd he hc

/-- A character that is not a percent sign stays. -/
theorem decodeBy_other {c : Char} (hc : c ≠ '%') (cs : Text) :
    decodeBy f (c :: cs) = c :: decodeBy f cs :=
  decodeBy_char f fun he => absurd he hc

theorem not_hexPair_append {a b : Text} {x : Char} (hx : hexValue x = none) (h : ¬ HexPair a) :
    ¬ HexPair (a ++ x :: b) := by
  rintro ⟨d, e, rest, he, hd, hval⟩
  match a with
  | [] =>
      rw [List.nil_append, List.cons.injEq] at he
      rw [← he.1, hx] at hd
      exact absurd hd Bool.false_ne_true
  | [y] =>
      rw [List.cons_append, List.nil_append, List.cons.injEq, List.cons.injEq] at he
      rw [← he.2.1, hx] at hval
      exact absurd hval Bool.false_ne_true
  | y :: z :: a' =>
      rw [List.cons_append, List.cons_append, List.cons.injEq, List.cons.injEq] at he
      exact h ⟨y, z, a', rfl, he.1 ▸ hd, he.2.1 ▸ hval⟩

/-- No escape goes past a character that is neither a digit nor a percent sign. -/
theorem decodeBy_append {x : Char} (hx : hexValue x = none) (hx' : x ≠ '%') (a b : Text) :
    decodeBy f (a ++ x :: b) = decodeBy f a ++ x :: decodeBy f b := by
  induction a using escape_induction with
  | nil => exact decodeBy_other f hx' b
  | escape c d high low cs hc hd ih =>
      rw [decodeBy_escape f hc hd]
      simp only [List.cons_append]
      rw [decodeBy_escape f hc hd, ih, List.append_assoc]
  | char c cs hbare ih =>
      rw [decodeBy_char f hbare, List.cons_append,
        decodeBy_char f fun he => not_hexPair_append hx (hbare he), ih, List.cons_append]

variable {f}

/-- What a scan gives is the text's own characters and what the escapes become. -/
theorem forall_decodeBy {P : Char → Prop} {s : Text} (hs : ∀ c ∈ s, P c)
    (hf : ∀ a b high low, hexValue a = some high → hexValue b = some low →
      ∀ c ∈ f a b (16 * high + low), P c) : ∀ c ∈ decodeBy f s, P c := by
  induction s using escape_induction with
  | nil => exact fun c hc => absurd hc List.not_mem_nil
  | escape a b high low cs ha hb ih =>
      rw [decodeBy_escape f ha hb]
      intro c hc
      rcases List.mem_append.mp hc with hc | hc
      · exact hf a b high low ha hb c hc
      · exact ih (fun c hc => hs c (by
          rw [List.mem_cons, List.mem_cons, List.mem_cons]
          exact .inr (.inr (.inr hc)))) c hc
  | char c cs hbare ih =>
      rw [decodeBy_char f hbare]
      exact List.forall_mem_cons.mpr
        ⟨hs c List.mem_cons_self, ih fun d hd => hs d (List.mem_cons_of_mem _ hd)⟩

/-- A scan leaves no text empty when it makes nothing empty. -/
theorem decodeBy_ne_nil (hf : ∀ a b n, f a b n ≠ []) {s : Text} (hs : s ≠ []) :
    decodeBy f s ≠ [] := by
  induction s using escape_induction with
  | nil => exact absurd rfl hs
  | escape a b high low cs ha hb =>
      rw [decodeBy_escape f ha hb]
      exact fun he => hf a b _ (List.append_eq_nil_iff.mp he).1
  | char c cs hbare =>
      rw [decodeBy_char f hbare]
      exact List.cons_ne_nil _ _

end Scan

/-- The decoder of a path. -/
theorem decodeOnce_eq (s : Text) : decodeOnce s = decodeBy unescape s := by
  induction s using escape_induction with
  | nil => rfl
  | escape a b high low cs ha hb ih => rw [decodeOnce_escape ha hb, decodeBy_escape _ ha hb, ih]
  | char c cs hbare ih =>
      rw [decodeBy_char _ hbare, ← ih]
      by_cases hc : c = '%'
      · rw [hc]
        exact decodeOnce_percent (hbare hc)
      · exact decodeOnce_other hc cs

/-! ## Decoders compared -/

/-- A kept code is the one of a separator or of the percent sign. -/
theorem charOfNat_kept {n : Nat} (h : n ∈ keptEncoded) : Char.ofNat n ∈ ['/', '\\', '%'] := by
  simp only [keptEncoded, List.mem_cons, List.not_mem_nil, or_false] at h
  rcases h with h | h | h <;> rw [h] <;> decide

/-- Where every escape decoded gives no separator and no percent sign, the path's
decoder gives the same. -/
theorem decodeOnce_of_decodeAll {s : Text} (h : ∀ c ∈ decodeAll s, c ∉ ['/', '\\', '%']) :
    decodeOnce s = decodeAll s := by
  rw [decodeOnce_eq, decodeAll] at *
  induction s using escape_induction with
  | nil => rfl
  | escape a b high low cs ha hb ih =>
      rw [decodeBy_escape _ ha hb] at h ⊢
      have hcode : 16 * high + low ∉ keptEncoded := fun hk =>
        h _ (List.mem_append_left _ (List.mem_singleton.mpr rfl)) (charOfNat_kept hk)
      rw [decodeBy_escape _ ha hb, ih fun c hc => h c (List.mem_append_right _ hc), unescape,
        if_neg hcode]
  | char c cs hbare ih =>
      rw [decodeBy_char _ hbare] at h ⊢
      rw [decodeBy_char _ hbare, ih fun d hd => h d (List.mem_cons_of_mem _ hd)]

/-- Where the path's decoder gives no percent sign, every escape decoded gives the
same. -/
theorem decodeAll_of_decodeOnce {s : Text} (h : '%' ∉ decodeOnce s) :
    decodeAll s = decodeOnce s := by
  rw [decodeOnce_eq, decodeAll] at *
  induction s using escape_induction with
  | nil => rfl
  | escape a b high low cs ha hb ih =>
      rw [decodeBy_escape _ ha hb] at h ⊢
      have hcode : 16 * high + low ∉ keptEncoded := by
        intro hk
        rw [unescape, if_pos hk] at h
        exact h (List.mem_append_left _ List.mem_cons_self)
      rw [decodeBy_escape _ ha hb, ih fun hc => h (List.mem_append_right _ hc), unescape,
        if_neg hcode]
  | char c cs hbare ih =>
      rw [decodeBy_char _ hbare] at h ⊢
      rw [decodeBy_char _ hbare, ih fun hd => h (List.mem_cons_of_mem _ hd)]

/-! ## The standard library's decoder -/

/-- `unquote` with the bytes read so far of a run of ASCII characters. -/
def unquoteFrom (bytes : List UInt8) : Text → Text
  | '%' :: a :: b :: cs =>
      match hexValue a, hexValue b with
      | some high, some low => unquoteFrom (bytes ++ [UInt8.ofNat (16 * high + low)]) cs
      | _, _ => unquoteFrom (bytes ++ [0x25]) (a :: b :: cs)
  | c :: cs =>
      if c.toNat < 128 then unquoteFrom (bytes ++ [UInt8.ofNat c.toNat]) cs
      else Utf8.decode bytes ++ c :: unquoteFrom [] cs
  | [] => Utf8.decode bytes

/-- The escapes of every run of ASCII characters decoded, and its bytes read as
UTF-8. -/
def unquote (s : Text) : Text := if '%' ∈ s then unquoteFrom [] s else s

theorem unquoteFrom_escape {a b : Char} {high low : Nat} (ha : hexValue a = some high)
    (hb : hexValue b = some low) (bytes : List UInt8) (cs : Text) :
    unquoteFrom bytes ('%' :: a :: b :: cs) =
      unquoteFrom (bytes ++ [UInt8.ofNat (16 * high + low)]) cs := by
  rw [unquoteFrom, ha, hb]

theorem unquoteFrom_char {c : Char} {cs : Text} (h : Bare c cs) (bytes : List UInt8) :
    unquoteFrom bytes (c :: cs) =
      if c.toNat < 128 then unquoteFrom (bytes ++ [UInt8.ofNat c.toNat]) cs
      else Utf8.decode bytes ++ c :: unquoteFrom [] cs := by
  by_cases hc : c = '%'
  · rw [hc, if_pos (by decide)]
    match cs with
    | [] => rfl
    | [a] => rfl
    | a :: b :: rest =>
        rw [unquoteFrom]
        cases ha : hexValue a with
        | none => rfl
        | some high =>
            cases hb : hexValue b with
            | none => rfl
            | some low =>
                exact absurd ⟨a, b, rest, rfl, by rw [ha]; rfl, by rw [hb]; rfl⟩ (h hc)
  · rw [unquoteFrom]
    exact fun a b cs' he => absurd he hc

/-- The byte of an ASCII character. -/
theorem charOf_ofNat {n : Nat} (h : n < 128) : Utf8.charOf (UInt8.ofNat n) = Char.ofNat n := by
  rw [Utf8.charOf, UInt8.toNat_ofNat', Nat.mod_eq_of_lt (by omega)]

theorem decode_ascii_or {bytes : List UInt8} {t : Text} (ht : ∀ c ∈ t, Utf8.Ascii c) :
    Utf8.decode bytes = t ↔ bytes.map Utf8.charOf = t := by
  constructor
  · intro h
    rw [← Utf8.decode_ascii (Utf8.ascii_of_decode fun c hc => ht c (h ▸ hc))]
    exact h
  · intro h
    rw [Utf8.decode_ascii fun b hb => ?_]
    · exact h
    · have hc := ht _ (h ▸ List.mem_map_of_mem hb)
      rw [Utf8.Ascii, Utf8.toNat_charOf] at hc
      exact hc

/-- A text in ASCII is what the bytes of a run come to when it is what every
escape decoded comes to. -/
theorem unquoteFrom_eq_iff {s t : Text} {bytes : List UInt8} (ht : ∀ c ∈ t, Utf8.Ascii c) :
    unquoteFrom bytes s = t ↔ bytes.map Utf8.charOf ++ decodeAll s = t := by
  rw [decodeAll]
  induction s using escape_induction generalizing bytes with
  | nil =>
      rw [decodeBy, List.append_nil]
      exact decode_ascii_or ht
  | escape a b high low cs ha hb ih =>
      have hhigh := (hexValue_toUpper ha).1
      have hlow := (hexValue_toUpper hb).1
      have hbyte : Utf8.charOf (UInt8.ofNat (16 * high + low)) = Char.ofNat (16 * high + low) := by
        rw [Utf8.charOf, UInt8.toNat_ofNat', Nat.mod_eq_of_lt (by omega)]
      rw [unquoteFrom_escape ha hb, ih, decodeBy_escape _ ha hb, List.map_append,
        List.map_singleton, hbyte, List.append_assoc]
  | char c cs hbare ih =>
      rw [unquoteFrom_char hbare, decodeBy_char _ hbare]
      by_cases hc : c.toNat < 128
      · rw [if_pos hc, ih, List.map_append, List.map_singleton, charOf_ofNat hc,
          Char.ofNat_toNat, List.append_assoc]
        rfl
      · -- A character that is not in ASCII is in neither.
        rw [if_neg hc]
        have hnot : ∀ xs ys : Text, xs ++ c :: ys ≠ t := fun xs ys he =>
          hc (ht c (he ▸ List.mem_append_right _ List.mem_cons_self))
        exact iff_of_false (hnot _ _) (hnot _ _)

/-- A text without an escape stays as it is. -/
theorem decodeAll_of_free {s : Text} (h : '%' ∉ s) : decodeAll s = s := by
  rw [decodeAll]
  induction s with
  | nil => rfl
  | cons c cs ih =>
      rw [decodeBy_other _ (fun he => h (he ▸ List.mem_cons_self)),
        ih fun hm => h (List.mem_cons_of_mem _ hm)]

/-- `unquote` gives a text in ASCII when every escape decoded does. -/
theorem unquote_eq_iff {s t : Text} (ht : ∀ c ∈ t, Utf8.Ascii c) :
    unquote s = t ↔ decodeAll s = t := by
  rw [unquote]
  split
  · rw [unquoteFrom_eq_iff ht]
    rfl
  · next h => rw [decodeAll_of_free h]

end Registry

end JenticOne
