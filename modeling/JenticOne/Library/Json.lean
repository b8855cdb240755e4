import Mathlib

/-!
# JSON Texts

Values, the text `dumps` writes for one without spaces and in ASCII, and the
reader `loads`. What is written is read back: `loads_dumps`.

Texts are lists of characters. A number that is not an integer keeps its
spelling, and a text that spells an unpaired surrogate, which no `String` holds,
is not read.

The reader takes fuel, one unit a call, and a call consumes a character at
least, so the length of the text is enough. The round trip is proved for any
continuation of the text that does not go on with a number, since a number ends
where its characters do.

## Main definitions

* `Json`: A value.
* `Json.dumps`: The text of a value.
* `Json.loads`: The value of a text.
* `Json.get?`, `Json.replaceMember`: The value of a member, read and replaced.

## Theorems

* `chars_escapeAll`: A string is read back.
* `value_dumps`: A value is read back, before any continuation.
* `loads_dumps`: The round trip.
* `dumps_ascii`: The characters of a text.
-/

/-- The characters a number is spelt with. -/
def isNumChar (c : Char) : Bool := c.isDigit || c ∈ ['+', '-', '.', 'e', 'E']

def isDigits (l : List Char) : Bool := l ≠ [] && l.all Char.isDigit

/-- The text without a leading sign among `signs`. -/
def unsigned (signs l : List Char) : List Char :=
  if l.head?.any (· ∈ signs) then l.tail else l

/-- The spelling of an integer. -/
def isIntText (l : List Char) : Bool :=
  let digits := unsigned ['-'] l
  digits = ['0'] || (isDigits digits && digits.head? ≠ some '0')

/-- The spelling of a number with a fraction or an exponent. -/
def isFloatText (l : List Char) : Bool :=
  let mantissa := l.takeWhile (· ∉ ['e', 'E'])
  let exponent := l.dropWhile (· ∉ ['e', 'E'])
  let fraction := mantissa.dropWhile (· ≠ '.')
  l.all isNumChar && !isIntText l && isIntText (mantissa.takeWhile (· ≠ '.')) &&
    (fraction = [] || isDigits fraction.tail) &&
    (exponent = [] || isDigits (unsigned ['+', '-'] exponent.tail))

/-- The spelling of a number that is not an integer. -/
abbrev FloatText := { l : List Char // isFloatText l = true }

inductive Json
  | null
  | bool (b : Bool)
  | int (n : Int)
  | float (text : FloatText)
  | str (s : String)
  | arr (items : List Json)
  | obj (members : List (String × Json))

namespace Json

/-! ## Writing -/

def hexDigit (n : Nat) : Char := ("0123456789abcdef".toList[n]?).getD '0'

/-- `\uXXXX`. -/
def unicodeEscape (n : Nat) : List Char :=
  ['\\', 'u', hexDigit (n / 4096), hexDigit (n / 256 % 16), hexDigit (n / 16 % 16),
    hexDigit (n % 16)]

/-- The escapes of one letter. -/
def shortEscapes : List (Char × Char) :=
  [('"', '"'), ('\\', '\\'), ('\n', 'n'), ('\r', 'r'), ('\t', 't'), (Char.ofNat 12, 'f'),
    (Char.ofNat 8, 'b')]

/-- A character as it stands in a string, in ASCII. -/
def escape (c : Char) : List Char :=
  match shortEscapes.lookup c with
  | some e => ['\\', e]
  | none =>
      if ' ' ≤ c && c ≤ '~' then [c]
      else if c.toNat < 0x10000 then unicodeEscape c.toNat
      else unicodeEscape (0xD800 + (c.toNat - 0x10000) / 1024) ++
        unicodeEscape (0xDC00 + (c.toNat - 0x10000) % 1024)

def quote (s : String) : List Char := '"' :: (s.toList.flatMap escape ++ ['"'])

/-- The digits of an integer. -/
def intText (n : Int) : List Char :=
  (if n < 0 then ['-'] else []) ++ Nat.toDigits 10 n.natAbs

mutual
/-- The text of a value: no spaces, ASCII only. -/
def dumps : Json → List Char
  | .null => "null".toList
  | .bool true => "true".toList
  | .bool false => "false".toList
  | .int n => intText n
  | .float text => text.val
  | .str s => quote s
  | .arr items => '[' :: (dumpsItems items ++ [']'])
  | .obj members => '{' :: (dumpsMembers members ++ ['}'])

def dumpsItems : List Json → List Char
  | [] => []
  | j :: rest => dumps j ++ (if rest.isEmpty then [] else ',' :: dumpsItems rest)

def dumpsMembers : List (String × Json) → List Char
  | [] => []
  | (k, j) :: rest =>
      quote k ++ ':' :: (dumps j ++ (if rest.isEmpty then [] else ',' :: dumpsMembers rest))
end

/-! ## Reading -/

def isSpace (c : Char) : Bool := c ∈ [' ', '\t', '\n', '\r']

def skip (cs : List Char) : List Char := cs.dropWhile isSpace

def hexValue (c : Char) : Option Nat :=
  if '0' ≤ c && c ≤ '9' then some (c.toNat - 48)
  else if 'a' ≤ c && c ≤ 'f' then some (c.toNat - 87)
  else if 'A' ≤ c && c ≤ 'F' then some (c.toNat - 55)
  else none

/-- The four digits of an escape. -/
def hex4 : List Char → Option (Nat × List Char)
  | a :: b :: c :: d :: rest => do
      let a ← hexValue a
      let b ← hexValue b
      let c ← hexValue c
      let d ← hexValue d
      some (a * 4096 + b * 256 + c * 16 + d, rest)
  | _ => none

/-- One character of a string. -/
def char : List Char → Option (Char × List Char)
  | [] => none
  | c :: rest =>
      if c = '\\' then
        match rest with
        | [] => none
        | e :: rest =>
            if e = 'u' then
              match hex4 rest with
              | none => none
              | some (n, rest) =>
                  if 0xD800 ≤ n && n < 0xDC00 then
                    match rest with
                    | '\\' :: 'u' :: rest =>
                        match hex4 rest with
                        | none => none
                        | some (m, rest) =>
                            if 0xDC00 ≤ m && m < 0xE000 then
                              some (Char.ofNat (0x10000 + (n - 0xD800) * 1024 + (m - 0xDC00)), rest)
                            else none
                    | _ => none
                  else if 0xDC00 ≤ n && n < 0xE000 then none
                  else some (Char.ofNat n, rest)
            else if e = '/' then some ('/', rest)
            else ((shortEscapes.map Prod.swap).lookup e).map fun c => (c, rest)
      else if c < ' ' then none
      else some (c, rest)

/-- The characters of a string up to its closing quote. -/
def chars : Nat → List Char → Option (List Char × List Char)
  | 0, _ => none
  | n + 1, cs =>
      if cs.head? = some '"' then some ([], cs.tail)
      else do
        let (c, rest) ← char cs
        let (s, rest) ← chars n rest
        some (c :: s, rest)

/-- A string, with its quotes. -/
def string (cs : List Char) : Option (String × List Char) :=
  if cs.head? = some '"' then (chars cs.length cs.tail).map fun (s, rest) => (String.ofList s, rest)
  else none

def intValue (l : List Char) : Int :=
  if l.head? = some '-' then -Nat.ofDigitChars 10 l.tail 0 else Nat.ofDigitChars 10 l 0

/-- A number: as many characters as can belong to one. -/
def number (cs : List Char) : Option (Json × List Char) :=
  let text := cs.takeWhile isNumChar
  let rest := cs.dropWhile isNumChar
  if isIntText text then some (.int (intValue text), rest)
  else if h : isFloatText text = true then some (.float ⟨text, h⟩, rest)
  else none

/-- A word that stands for a value. -/
def word (cs : List Char) : Option (Json × List Char) :=
  if "null".toList.isPrefixOf cs then some (.null, cs.drop 4)
  else if "true".toList.isPrefixOf cs then some (.bool true, cs.drop 4)
  else if "false".toList.isPrefixOf cs then some (.bool false, cs.drop 5)
  else none

mutual
def value : Nat → List Char → Option (Json × List Char)
  | 0, _ => none
  | n + 1, cs =>
      if cs.head? = some '"' then (string cs).map fun (s, rest) => (.str s, rest)
      else if cs.head? = some '[' then
        let cs := skip cs.tail
        if cs.head? = some ']' then some (.arr [], cs.tail)
        else (items n cs).map fun (js, rest) => (.arr js, rest)
      else if cs.head? = some '{' then
        let cs := skip cs.tail
        if cs.head? = some '}' then some (.obj [], cs.tail)
        else (members n cs).map fun (ms, rest) => (.obj ms, rest)
      else (word cs).or (number cs)

/-- The values of an array, up to its closing bracket. -/
def items : Nat → List Char → Option (List Json × List Char)
  | 0, _ => none
  | n + 1, cs => do
      let (j, rest) ← value n cs
      let rest := skip rest
      if rest.head? = some ']' then some ([j], rest.tail)
      else if rest.head? = some ',' then
        let (js, rest) ← items n (skip rest.tail)
        some (j :: js, rest)
      else none

/-- The members of an object, up to its closing brace. -/
def members : Nat → List Char → Option (List (String × Json) × List Char)
  | 0, _ => none
  | n + 1, cs => do
      let (k, rest) ← string cs
      let rest := skip rest
      if rest.head? = some ':' then
        let (j, rest) ← value n (skip rest.tail)
        let rest := skip rest
        if rest.head? = some '}' then some ([(k, j)], rest.tail)
        else if rest.head? = some ',' then
          let (ms, rest) ← members n (skip rest.tail)
          some ((k, j) :: ms, rest)
        else none
      else none
end

/-- The value of a whole text. -/
def loads (cs : List Char) : Option Json := do
  let (j, rest) ← value (cs.length + 1) (skip cs)
  if skip rest = [] then some j else none

/-- What an object holds under a name. The last member of a name counts. -/
def get? (key : String) : Json → Option Json
  | .obj members => (members.reverse.find? (fun x => x.1 = key)).map Prod.snd
  | _ => none

/-- What an object holds under a name, replaced. -/
def replaceMember (key : String) (value : Json) (members : List (String × Json)) :
    List (String × Json) :=
  members.map fun x => if x.1 = key then (key, value) else x

theorem get?_replaceMember {key : String} {old : Json} {members : List (String × Json)}
    (h : (Json.obj members).get? key = some old) (value : Json) (other : String) :
    (Json.obj (replaceMember key value members)).get? other =
      if other = key then some value else (Json.obj members).get? other := by
  have hkey : ∀ x : String × Json, (if x.1 = key then (key, value) else x).1 = x.1 := by
    intro x
    split
    · exact (‹x.1 = key›).symm
    · rfl
  rw [get?, Option.map_eq_some_iff] at h
  rcases h with ⟨x, hfind, _⟩
  have hx := List.find?_some hfind
  rw [decide_eq_true_eq] at hx
  have hnames : (fun y : String × Json => decide (y.1 = other)) ∘
      (fun y => if y.1 = key then (key, value) else y) = fun y => decide (y.1 = other) := by
    funext y
    rw [Function.comp_apply, hkey]
  rw [get?, get?, replaceMember, ← List.map_reverse, List.find?_map, hnames]
  by_cases hother : other = key
  · rw [if_pos hother, hother, hfind, Option.map_some, Option.map_some, if_pos hx]
  · rw [if_neg hother]
    cases hy : members.reverse.find? (fun y => decide (y.1 = other)) with
    | none => rfl
    | some y =>
        have hname := List.find?_some hy
        rw [decide_eq_true_eq] at hname
        rw [Option.map_some, Option.map_some, Option.map_some,
          if_neg fun hc => hother (hname.symm.trans hc)]

/-! ## Strings are read back -/

theorem hexValue_hexDigit : ∀ d < 16, hexValue (hexDigit d) = some d := by
  decide

theorem hex4_unicodeEscape {n : Nat} (h : n < 0x10000) (rest : List Char) :
    hex4 ((unicodeEscape n).drop 2 ++ rest) = some (n, rest) := by
  have h₁ := hexValue_hexDigit (n / 4096) (by omega)
  have h₂ := hexValue_hexDigit (n / 256 % 16) (by omega)
  have h₃ := hexValue_hexDigit (n / 16 % 16) (by omega)
  have h₄ := hexValue_hexDigit (n % 16) (by omega)
  simp only [unicodeEscape, List.drop_succ_cons, List.drop_zero, List.cons_append, List.nil_append,
    hex4, h₁, h₂, h₃, h₄, Option.bind_eq_bind, Option.bind_some, Option.some.injEq, Prod.mk.injEq,
    and_true]
  omega

/-- An escape is a backslash, `u` and its digits. -/
theorem unicodeEscape_append (n : Nat) (rest : List Char) :
    unicodeEscape n ++ rest = '\\' :: 'u' :: ((unicodeEscape n).drop 2 ++ rest) := rfl

theorem shortEscapes_spec : ∀ p ∈ shortEscapes, p.2 ≠ 'u' ∧ p.2 ≠ '/' ∧
    (shortEscapes.map Prod.swap).lookup p.2 = some p.1 := by
  decide

theorem mem_of_lookup {c e : Char} (h : shortEscapes.lookup c = some e) :
    (c, e) ∈ shortEscapes := by
  rcases List.lookup_eq_some_iff.mp h with ⟨l₁, l₂, hsplit, _⟩
  rw [hsplit]
  exact List.mem_append_right l₁ List.mem_cons_self

/-- A character is not a surrogate. -/
theorem toNat_not_surrogate (c : Char) : c.toNat < 0xD800 ∨ 0xDFFF < c.toNat ∧ c.toNat < 0x110000 :=
  c.valid

/-- The reader undoes `escape`. -/
theorem char_escape (c : Char) (rest : List Char) : char (escape c ++ rest) = some (c, rest) := by
  unfold escape
  cases hlookup : shortEscapes.lookup c with
  | some e =>
      rcases shortEscapes_spec _ (mem_of_lookup hlookup) with ⟨hu, hslash, hback⟩
      dsimp only at hu hslash hback ⊢
      simp only [List.cons_append, List.nil_append, char, if_pos, if_neg hu, if_neg hslash, hback,
        Option.map_some]
  | none =>
      dsimp only
      have hback : c ≠ '\\' := by
        rintro rfl
        exact absurd hlookup (by decide)
      by_cases hplain : (' ' ≤ c && c ≤ '~') = true
      · rw [if_pos hplain]
        rw [Bool.and_eq_true, decide_eq_true_eq] at hplain
        simp only [List.cons_append, List.nil_append, char, if_neg hback,
          if_neg (not_lt.mpr hplain.1)]
      · rw [if_neg hplain]
        have hvalid := toNat_not_surrogate c
        by_cases hsmall : c.toNat < 0x10000
        · rw [if_pos hsmall, unicodeEscape_append]
          simp only [char, if_pos, hex4_unicodeEscape hsmall]
          rw [if_neg (by simp only [Bool.and_eq_true, decide_eq_true_eq]; omega),
            if_neg (by simp only [Bool.and_eq_true, decide_eq_true_eq]; omega), Char.ofNat_toNat]
        · -- Past the basic plane a character is two escapes.
          rw [if_neg hsmall, List.append_assoc, unicodeEscape_append]
          have hhigh : 0xD800 + (c.toNat - 0x10000) / 1024 < 0xDC00 := by omega
          have hlow : 0xDC00 + (c.toNat - 0x10000) % 1024 < 0xE000 := by omega
          rw [unicodeEscape_append (0xDC00 + _)]
          simp only [char, if_pos, hex4_unicodeEscape (show _ < 0x10000 from hhigh.trans (by omega)),
            hex4_unicodeEscape (show _ < 0x10000 from hlow.trans (by omega))]
          rw [if_pos (by simp only [Bool.and_eq_true, decide_eq_true_eq]; omega),
            if_pos (by simp only [Bool.and_eq_true, decide_eq_true_eq]; omega)]
          have hsum : 0x10000 + (0xD800 + (c.toNat - 0x10000) / 1024 - 0xD800) * 1024 +
              (0xDC00 + (c.toNat - 0x10000) % 1024 - 0xDC00) = c.toNat := by omega
          rw [hsum, Char.ofNat_toNat]

/-- What stands for a character begins with no quote. -/
theorem head?_escape (c : Char) (rest : List Char) : (escape c ++ rest).head? ≠ some '"' := by
  unfold escape
  cases hlookup : shortEscapes.lookup c with
  | some e => simp only [List.cons_append, List.head?_cons, ne_eq, Option.some.injEq]; decide
  | none =>
      dsimp only
      split
      · rw [List.cons_append, List.head?_cons, ne_eq, Option.some.injEq]
        rintro rfl
        exact absurd hlookup (by decide)
      · split
        all_goals
          simp only [unicodeEscape, List.cons_append, List.head?_cons, ne_eq, Option.some.injEq]
          decide

theorem escape_ne_nil (c : Char) : escape c ≠ [] := by
  intro h
  have hchar := char_escape c []
  rw [h] at hchar
  exact absurd hchar (by simp only [List.append_nil, char, reduceCtorEq, not_false_eq_true])

theorem chars_escapeAll {n : Nat} {s : List Char} (h : s.length < n) (rest : List Char) :
    chars n (s.flatMap escape ++ '"' :: rest) = some (s, rest) := by
  induction s generalizing n with
  | nil =>
      obtain ⟨m, rfl⟩ := Nat.exists_eq_succ_of_ne_zero (Nat.ne_of_gt h)
      rfl
  | cons c s ih =>
      obtain ⟨m, rfl⟩ := Nat.exists_eq_succ_of_ne_zero (Nat.ne_of_gt (Nat.zero_lt_of_lt h))
      rw [List.flatMap_cons, List.append_assoc, chars, if_neg (head?_escape c _), char_escape]
      have hs := ih (n := m) (by rw [List.length_cons] at h; omega)
      simp only [Option.bind_eq_bind, Option.bind_some, hs]

theorem length_le_flatMap_escape (s : List Char) : s.length ≤ (s.flatMap escape).length := by
  induction s with
  | nil => exact le_refl _
  | cons c s ih =>
      have hpos := List.length_pos_of_ne_nil (escape_ne_nil c)
      rw [List.flatMap_cons, List.length_append, List.length_cons]
      omega

theorem string_quote (s : String) (rest : List Char) :
    string (quote s ++ rest) = some (s, rest) := by
  have hlen := length_le_flatMap_escape s.toList
  unfold string quote
  rw [List.cons_append, List.head?_cons, if_pos rfl, List.tail_cons, List.append_assoc,
    List.cons_append, List.nil_append, chars_escapeAll (by
      rw [List.length_cons, List.length_append, List.length_cons]
      omega)]
  rw [Option.map_some]
  dsimp only
  rw [String.ofList_toList]

/-! ## Numbers are read back -/

/-- A continuation that does not go on with a number. -/
def Stops (rest : List Char) : Prop := ∀ c ∈ rest.head?, isNumChar c = false

theorem takeWhile_number (text : List Char) {rest : List Char} (h : ∀ c ∈ text, isNumChar c = true)
    (hrest : Stops rest) : (text ++ rest).takeWhile isNumChar = text ∧
      (text ++ rest).dropWhile isNumChar = rest := by
  rw [List.takeWhile_append_of_pos h, List.dropWhile_append_of_pos h]
  cases rest with
  | nil => exact ⟨List.append_nil _, rfl⟩
  | cons c rest =>
      have hc := hrest c rfl
      rw [List.takeWhile_cons_of_neg (by rw [hc]; decide), List.append_nil,
        List.dropWhile_cons_of_neg (by rw [hc]; decide)]
      exact ⟨rfl, rfl⟩

theorem isDigit_toDigits {n : Nat} {c : Char} (h : c ∈ Nat.toDigits 10 n) : c.isDigit = true :=
  Nat.isDigit_of_mem_toDigits (by decide) (by decide) h

theorem head?_digit {l : List Char} {c : Char} (h : ∀ x ∈ l, x.isDigit = true)
    (hc : c.isDigit = false) : l.head? ≠ some c := by
  intro hhead
  rw [h c (List.mem_of_head? hhead)] at hc
  exact absurd hc (by decide)

/-- Only zero has a leading zero. -/
theorem head?_toDigits {n : Nat} (h : n ≠ 0) : (Nat.toDigits 10 n).head? ≠ some '0' := by
  induction n using Nat.strong_induction_on with
  | _ n ih =>
      by_cases hlt : n < 10
      · rw [Nat.toDigits_of_lt_base hlt]
        interval_cases n
        · exact absurd rfl h
        all_goals decide
      · rw [Nat.toDigits_of_base_le (by decide) (by omega)]
        have hne : Nat.toDigits 10 (n / 10) ≠ [] := Nat.toDigits_ne_nil
        rw [List.head?_append_of_ne_nil _ hne]
        exact ih (n / 10) (by omega) (by omega)

theorem isIntText_toDigits (n : Nat) : isIntText (Nat.toDigits 10 n) = true ∧
    isIntText ('-' :: Nat.toDigits 10 n) = true := by
  have hdigits : ∀ c ∈ Nat.toDigits 10 n, c.isDigit = true := fun c => isDigit_toDigits
  have hminus := head?_digit hdigits (show '-'.isDigit = false by decide)
  have hplain : unsigned ['-'] (Nat.toDigits 10 n) = Nat.toDigits 10 n := by
    unfold unsigned
    rw [if_neg]
    cases hhead : (Nat.toDigits 10 n).head? with
    | none => decide
    | some c =>
        rw [hhead] at hminus
        simp only [Option.any_some, List.mem_singleton, decide_eq_true_eq]
        exact fun hc => hminus (congrArg some hc)
  have hsigned : unsigned ['-'] ('-' :: Nat.toDigits 10 n) = Nat.toDigits 10 n := rfl
  have hok : (decide (Nat.toDigits 10 n = ['0']) || (isDigits (Nat.toDigits 10 n) &&
      decide ((Nat.toDigits 10 n).head? ≠ some '0'))) = true := by
    rw [Bool.or_eq_true, Bool.and_eq_true, decide_eq_true_eq, decide_eq_true_eq]
    by_cases hzero : n = 0
    · left
      rw [hzero]
      rfl
    · right
      refine ⟨?_, head?_toDigits hzero⟩
      unfold isDigits
      rw [Bool.and_eq_true, decide_eq_true_eq, List.all_eq_true]
      exact ⟨Nat.toDigits_ne_nil, hdigits⟩
  unfold isIntText
  rw [hplain, hsigned]
  exact ⟨hok, hok⟩

theorem number_intText (n : Int) {rest : List Char} (hrest : Stops rest) :
    number (intText n ++ rest) = some (.int n, rest) := by
  have hdigits : ∀ c ∈ Nat.toDigits 10 n.natAbs, isNumChar c = true := fun c hc => by
    unfold isNumChar
    rw [isDigit_toDigits hc, Bool.true_or]
  have hminus := head?_digit (fun c => @isDigit_toDigits n.natAbs c)
    (show '-'.isDigit = false by decide)
  unfold intText
  by_cases hneg : n < 0
  · rw [if_pos hneg, List.singleton_append]
    rcases takeWhile_number ('-' :: Nat.toDigits 10 n.natAbs) (fun c hc => by
      rcases List.mem_cons.mp hc with rfl | hc
      · decide
      · exact hdigits c hc) hrest with ⟨htake, hdrop⟩
    unfold number
    rw [htake, hdrop, if_pos (isIntText_toDigits _).2]
    have hvalue : intValue ('-' :: Nat.toDigits 10 n.natAbs) = n := by
      unfold intValue
      rw [List.head?_cons, if_pos rfl, List.tail_cons, Nat.ofDigitChars_ten_toDigits]
      omega
    rw [hvalue]
  · rw [if_neg hneg, List.nil_append]
    rcases takeWhile_number _ hdigits hrest with ⟨htake, hdrop⟩
    unfold number
    rw [htake, hdrop, if_pos (isIntText_toDigits _).1]
    have hvalue : intValue (Nat.toDigits 10 n.natAbs) = n := by
      unfold intValue
      rw [if_neg hminus, Nat.ofDigitChars_ten_toDigits]
      omega
    rw [hvalue]

theorem number_float (text : FloatText) {rest : List Char} (hrest : Stops rest) :
    number (text.val ++ rest) = some (.float text, rest) := by
  have hok := text.property
  unfold isFloatText at hok
  simp only [Bool.and_eq_true, Bool.not_eq_true', List.all_eq_true] at hok
  rcases takeWhile_number _ hok.1.1.1.1 hrest with ⟨htake, hdrop⟩
  unfold number
  rw [htake, hdrop, if_neg (by rw [hok.1.1.1.2]; decide), dif_pos text.property]

theorem intText_isNumChar (n : Int) : ∀ c ∈ intText n, isNumChar c = true := by
  intro c hc
  unfold intText at hc
  rcases List.mem_append.mp hc with hsign | hdigit
  · split at hsign
    · rw [List.mem_singleton] at hsign
      rw [hsign]
      decide
    · exact absurd hsign List.not_mem_nil
  · unfold isNumChar
    rw [isDigit_toDigits hdigit, Bool.true_or]

theorem floatText_isNumChar (text : FloatText) : ∀ c ∈ text.val, isNumChar c = true := by
  have hok := text.property
  unfold isFloatText at hok
  simp only [Bool.and_eq_true, Bool.not_eq_true', List.all_eq_true] at hok
  exact hok.1.1.1.1

theorem intText_ne_nil (n : Int) : intText n ≠ [] := by
  unfold intText
  exact List.append_ne_nil_of_right_ne_nil _ Nat.toDigits_ne_nil

theorem floatText_ne_nil (text : FloatText) : text.val ≠ [] := by
  intro h
  have hok := text.property
  rw [h] at hok
  exact absurd hok (by decide)

/-- No character of a number begins another kind of value, ends an array or is
    a space. -/
theorem numChar_ne {c : Char} (h : isNumChar c = true) : c ∉ ['"', '[', '{', 'n', 't', 'f', ']'] ∧
    isSpace c = false := by
  constructor
  · intro hmem
    simp only [List.mem_cons, List.not_mem_nil, or_false] at hmem
    rcases hmem with rfl | rfl | rfl | rfl | rfl | rfl | rfl <;> exact absurd h (by decide)
  · unfold isSpace
    rw [decide_eq_false_iff_not]
    intro hmem
    simp only [List.mem_cons, List.not_mem_nil, or_false] at hmem
    rcases hmem with rfl | rfl | rfl | rfl <;> exact absurd h (by decide)

theorem word_of_ne {c : Char} (h : c ∉ ['n', 't', 'f']) (cs : List Char) : word (c :: cs) = none := by
  simp only [List.mem_cons, List.not_mem_nil, or_false, not_or] at h
  have hne : ∀ (x : Char) (xs : List Char), c ≠ x → (x :: xs).isPrefixOf (c :: cs) = false := by
    intro x xs hx
    rw [List.isPrefixOf_cons_cons, beq_false_of_ne hx.symm, Bool.false_and]
  unfold word
  rw [show "null".toList = ['n', 'u', 'l', 'l'] from rfl,
    show "true".toList = ['t', 'r', 'u', 'e'] from rfl,
    show "false".toList = ['f', 'a', 'l', 's', 'e'] from rfl, hne _ _ h.1, hne _ _ h.2.1,
    hne _ _ h.2.2]
  rfl

theorem head?_ne {c x : Char} (h : c ≠ x) (cs : List Char) : ¬ (c :: cs).head? = some x := by
  rw [List.head?_cons, Option.some.injEq]
  exact h

/-- A text that begins like a number is read as one. -/
theorem value_number {text : List Char} (h : ∀ c ∈ text, isNumChar c = true) (hne : text ≠ [])
    (n : Nat) (rest : List Char) : value (n + 1) (text ++ rest) = number (text ++ rest) := by
  cases text with
  | nil => exact absurd rfl hne
  | cons c cs =>
      have hc := (numChar_ne (h c List.mem_cons_self)).1
      simp only [List.mem_cons, List.not_mem_nil, or_false, not_or] at hc
      rw [List.cons_append, value, if_neg (head?_ne hc.1 _), if_neg (head?_ne hc.2.1 _),
        if_neg (head?_ne hc.2.2.1 _), word_of_ne]
      · rfl
      · simp only [List.mem_cons, List.not_mem_nil, or_false, not_or]
        exact ⟨hc.2.2.2.1, hc.2.2.2.2.1, hc.2.2.2.2.2.1⟩

/-! ## Values are read back -/

theorem head_number {text : List Char} (h : ∀ c ∈ text, isNumChar c = true) (hne : text ≠ []) :
    ∃ c cs, text = c :: cs ∧ isSpace c = false ∧ c ≠ ']' := by
  cases text with
  | nil => exact absurd rfl hne
  | cons c cs =>
      have hc := numChar_ne (h c List.mem_cons_self)
      refine ⟨c, cs, rfl, hc.2, ?_⟩
      rintro rfl
      exact hc.1 (by decide)

/-- A value begins neither with a space nor with a closing bracket. -/
theorem head_dumps (j : Json) : ∃ c cs, dumps j = c :: cs ∧ isSpace c = false ∧ c ≠ ']' := by
  cases j with
  | null => exact ⟨'n', "ull".toList, rfl, by decide, by decide⟩
  | bool b => cases b with
    | true => exact ⟨'t', "rue".toList, rfl, by decide, by decide⟩
    | false => exact ⟨'f', "alse".toList, rfl, by decide, by decide⟩
  | int n =>
      rw [dumps]
      exact head_number (intText_isNumChar n) (intText_ne_nil n)
  | float text =>
      rw [dumps]
      exact head_number (floatText_isNumChar text) (floatText_ne_nil text)
  | str s => exact ⟨'"', _, by rw [dumps]; rfl, by decide, by decide⟩
  | arr js => exact ⟨'[', _, by rw [dumps], by decide, by decide⟩
  | obj ms => exact ⟨'{', _, by rw [dumps], by decide, by decide⟩

theorem skip_cons {c : Char} (h : isSpace c = false) (cs : List Char) :
    skip (c :: cs) = c :: cs := by
  unfold skip
  rw [List.dropWhile_cons_of_neg (by rw [h]; decide)]

theorem skip_dumps (j : Json) (rest : List Char) : skip (dumps j ++ rest) = dumps j ++ rest := by
  rcases head_dumps j with ⟨c, cs, heq, hspace, _⟩
  rw [heq, List.cons_append, skip_cons hspace]

theorem stops_cons {c : Char} (h : isNumChar c = false) (rest : List Char) : Stops (c :: rest) := by
  intro x hx
  rw [List.head?_cons, Option.mem_some_iff] at hx
  rw [← hx]
  exact h

theorem dumpsItems_cons (j j' : Json) (js : List Json) :
    dumpsItems (j :: j' :: js) = dumps j ++ ',' :: dumpsItems (j' :: js) := by
  rw [dumpsItems]
  rfl

theorem dumpsMembers_cons (k : String) (j : Json) (m : String × Json)
    (ms : List (String × Json)) : dumpsMembers ((k, j) :: m :: ms) =
      quote k ++ ':' :: (dumps j ++ ',' :: dumpsMembers (m :: ms)) := by
  rw [dumpsMembers]
  rfl

mutual
/-- A value is read back, whatever follows it, unless that goes on with a
    number. -/
theorem value_dumps : ∀ (j : Json) (n : Nat) (rest : List Char), (dumps j).length < n →
    Stops rest → value n (dumps j ++ rest) = some (j, rest)
  | .null, n + 1, rest, _, _ => rfl
  | .bool true, n + 1, rest, _, _ => rfl
  | .bool false, n + 1, rest, _, _ => rfl
  | .int k, n + 1, rest, _, hrest => by
      rw [dumps, value_number (intText_isNumChar k) (intText_ne_nil k), number_intText k hrest]
  | .float text, n + 1, rest, _, hrest => by
      rw [dumps, value_number (floatText_isNumChar text) (floatText_ne_nil text),
        number_float text hrest]
  | .str s, n + 1, rest, _, _ => by
      have hhead : (quote s ++ rest).head? = some '"' := rfl
      rw [dumps, value, if_pos hhead, string_quote, Option.map_some]
  | .arr [], n + 1, rest, _, _ => rfl
  | .arr (j :: js), n + 1, rest, h, _ => by
      rw [dumps, List.length_cons, List.length_append, List.length_singleton] at h
      have hitems := items_dumps (j :: js) n rest (List.cons_ne_nil _ _)
        (by omega)
      rcases head_dumps j with ⟨c, cs, heq, hspace, hne⟩
      have hskip : skip (dumpsItems (j :: js) ++ [']'] ++ rest) =
          dumpsItems (j :: js) ++ ']' :: rest := by
        rw [dumpsItems, heq, List.append_assoc, List.append_assoc, List.cons_append,
          skip_cons hspace, List.append_assoc]
        rfl
      have hhead : (dumpsItems (j :: js) ++ ']' :: rest).head? ≠ some ']' := by
        rw [dumpsItems, heq, List.append_assoc, List.cons_append]
        exact head?_ne hne _
      rw [dumps, List.cons_append, value, if_neg (head?_ne (by decide) _), List.head?_cons,
        if_pos rfl, List.tail_cons]
      dsimp only
      rw [hskip, if_neg hhead, hitems, Option.map_some]
  | .obj [], n + 1, rest, _, _ => rfl
  | .obj ((k, j) :: ms), n + 1, rest, h, _ => by
      rw [dumps, List.length_cons, List.length_append, List.length_singleton] at h
      have hmembers := members_dumps ((k, j) :: ms) n rest (List.cons_ne_nil _ _)
        (by omega)
      have hskip : skip (dumpsMembers ((k, j) :: ms) ++ ['}'] ++ rest) =
          dumpsMembers ((k, j) :: ms) ++ '}' :: rest := by
        rw [dumpsMembers, List.append_assoc]
        rfl
      have hhead : (dumpsMembers ((k, j) :: ms) ++ '}' :: rest).head? ≠ some '}' := by
        rw [dumpsMembers, List.append_assoc]
        exact head?_ne (by decide) _
      rw [dumps, List.cons_append, value, if_neg (head?_ne (by decide) _),
        if_neg (head?_ne (by decide) _), List.head?_cons, if_pos rfl, List.tail_cons]
      dsimp only
      rw [hskip, if_neg hhead, hmembers, Option.map_some]

theorem items_dumps : ∀ (js : List Json) (n : Nat) (rest : List Char), js ≠ [] →
    (dumpsItems js).length + 1 < n → items n (dumpsItems js ++ ']' :: rest) = some (js, rest)
  | [], _, _, hne, _ => absurd rfl hne
  | [j], n + 1, rest, _, h => by
      rw [dumpsItems, if_pos List.isEmpty_nil, List.append_nil] at h ⊢
      have hvalue := value_dumps j n (']' :: rest) (by omega)
        (stops_cons (by decide) rest)
      rw [items, hvalue]
      rfl
  | j :: j' :: js, n + 1, rest, _, h => by
      rw [dumpsItems_cons, List.length_append, List.length_cons] at h
      have hvalue := value_dumps j n (',' :: (dumpsItems (j' :: js) ++ ']' :: rest))
        (by omega) (stops_cons (by decide) _)
      have hitems := items_dumps (j' :: js) n rest (List.cons_ne_nil _ _)
        (by omega)
      rcases head_dumps j' with ⟨c, cs, heq, hspace, _⟩
      have hskip : skip (dumpsItems (j' :: js) ++ ']' :: rest) =
          dumpsItems (j' :: js) ++ ']' :: rest := by
        rw [dumpsItems, heq, List.append_assoc, List.cons_append, skip_cons hspace]
      rw [dumpsItems_cons, List.append_assoc, List.cons_append, items, hvalue]
      simp only [Option.bind_eq_bind, Option.bind_some]
      rw [skip_cons (by decide), if_neg (head?_ne (by decide) _), List.head?_cons, if_pos rfl,
        List.tail_cons, hskip, hitems]
      rfl

theorem members_dumps : ∀ (ms : List (String × Json)) (n : Nat) (rest : List Char), ms ≠ [] →
    (dumpsMembers ms).length + 1 < n → members n (dumpsMembers ms ++ '}' :: rest) = some (ms, rest)
  | [], _, _, hne, _ => absurd rfl hne
  | [(k, j)], n + 1, rest, _, h => by
      rw [dumpsMembers, if_pos List.isEmpty_nil, List.append_nil, List.length_append,
        List.length_cons] at h
      have hvalue := value_dumps j n ('}' :: rest) (by omega)
        (stops_cons (by decide) rest)
      rw [dumpsMembers, if_pos List.isEmpty_nil, List.append_nil, List.append_assoc,
        List.cons_append, members, string_quote]
      simp only [Option.bind_eq_bind, Option.bind_some]
      rw [skip_cons (by decide), List.head?_cons, if_pos rfl, List.tail_cons, skip_dumps, hvalue]
      rfl
  | (k, j) :: m :: ms, n + 1, rest, _, h => by
      rw [dumpsMembers_cons, List.length_append, List.length_cons, List.length_append,
        List.length_cons] at h
      have hvalue := value_dumps j n
        (',' :: (dumpsMembers (m :: ms) ++ '}' :: rest)) (by omega)
        (stops_cons (by decide) _)
      have hmembers := members_dumps (m :: ms) n rest (List.cons_ne_nil _ _)
        (by omega)
      have hskip : skip (dumpsMembers (m :: ms) ++ '}' :: rest) =
          dumpsMembers (m :: ms) ++ '}' :: rest := by
        rw [dumpsMembers, List.append_assoc]
        rfl
      rw [dumpsMembers_cons, List.append_assoc, List.cons_append, List.append_assoc,
        List.cons_append, members, string_quote]
      simp only [Option.bind_eq_bind, Option.bind_some]
      rw [skip_cons (by decide), List.head?_cons, if_pos rfl, List.tail_cons, skip_dumps, hvalue]
      simp only [Option.bind_some]
      rw [skip_cons (by decide), if_neg (head?_ne (by decide) _), List.head?_cons, if_pos rfl,
        List.tail_cons, hskip, hmembers]
      rfl
end

/-- What is written is read back. -/
theorem loads_dumps (j : Json) : loads (dumps j) = some j := by
  have hvalue := value_dumps j _ [] (Nat.lt_succ_self _) (fun c hc => by cases hc)
  have hskip := skip_dumps j []
  rw [List.append_nil] at hvalue hskip
  unfold loads
  rw [hskip, hvalue]
  rfl

/-! ## Texts are ASCII -/

def Ascii (l : List Char) : Prop := ∀ c ∈ l, c.toNat < 128

theorem ascii_cons {c : Char} {l : List Char} (hc : c.toNat < 128) (hl : Ascii l) :
    Ascii (c :: l) := by
  intro x hx
  rcases List.mem_cons.mp hx with rfl | hx
  · exact hc
  · exact hl x hx

theorem ascii_append {l l' : List Char} (hl : Ascii l) (hl' : Ascii l') : Ascii (l ++ l') := by
  intro x hx
  rcases List.mem_append.mp hx with hx | hx
  · exact hl x hx
  · exact hl' x hx

theorem ascii_nil : Ascii [] := fun _ hc => absurd hc List.not_mem_nil

theorem ascii_of_all {l : List Char} (h : l.all (fun c => c.toNat < 128) = true) : Ascii l :=
  fun c hc => of_decide_eq_true (List.all_eq_true.mp h c hc)

theorem numChar_ascii {c : Char} (h : isNumChar c = true) : c.toNat < 128 := by
  unfold isNumChar at h
  rw [Bool.or_eq_true] at h
  rcases h with hdigit | hother
  · unfold Char.isDigit at hdigit
    rw [Bool.and_eq_true, decide_eq_true_eq, decide_eq_true_eq] at hdigit
    have hle : c.toNat ≤ 57 := hdigit.2
    omega
  · rw [decide_eq_true_eq] at hother
    simp only [List.mem_cons, List.not_mem_nil, or_false] at hother
    rcases hother with rfl | rfl | rfl | rfl | rfl <;> decide

theorem hexDigit_ascii (n : Nat) : (hexDigit n).toNat < 128 := by
  by_cases h : n < 16
  · have hall : ∀ d < 16, (hexDigit d).toNat < 128 := by decide
    exact hall n h
  · unfold hexDigit
    rw [List.getElem?_eq_none (by
      rw [show "0123456789abcdef".toList.length = 16 from rfl]
      omega)]
    decide

theorem unicodeEscape_ascii (n : Nat) : Ascii (unicodeEscape n) :=
  ascii_cons (by decide) (ascii_cons (by decide) (ascii_cons (hexDigit_ascii _)
    (ascii_cons (hexDigit_ascii _) (ascii_cons (hexDigit_ascii _)
      (ascii_cons (hexDigit_ascii _) ascii_nil)))))

theorem escape_ascii (c : Char) : Ascii (escape c) := by
  unfold escape
  cases hlookup : shortEscapes.lookup c with
  | some e =>
      have hall : ∀ p ∈ shortEscapes, p.2.toNat < 128 := by decide
      exact ascii_cons (by decide) (ascii_cons (hall _ (mem_of_lookup hlookup)) ascii_nil)
  | none =>
      dsimp only
      split
      · rename_i hplain
        rw [Bool.and_eq_true, decide_eq_true_eq, decide_eq_true_eq] at hplain
        have hle : c.toNat ≤ 126 := hplain.2
        exact ascii_cons (by omega) ascii_nil
      · split
        · exact unicodeEscape_ascii _
        · exact ascii_append (unicodeEscape_ascii _) (unicodeEscape_ascii _)

theorem quote_ascii (s : String) : Ascii (quote s) := by
  refine ascii_cons (by decide) (ascii_append ?_ (ascii_cons (by decide) ascii_nil))
  intro c hc
  rcases List.mem_flatMap.mp hc with ⟨x, _, hx⟩
  exact escape_ascii x c hx

mutual
/-- A text has ASCII characters only. -/
theorem dumps_ascii : ∀ j : Json, Ascii (dumps j)
  | .null => by
      rw [dumps, show "null".toList = ['n', 'u', 'l', 'l'] from rfl]
      exact ascii_of_all rfl
  | .bool true => by
      rw [dumps, show "true".toList = ['t', 'r', 'u', 'e'] from rfl]
      exact ascii_of_all rfl
  | .bool false => by
      rw [dumps, show "false".toList = ['f', 'a', 'l', 's', 'e'] from rfl]
      exact ascii_of_all rfl
  | .int n => by
      rw [dumps]
      exact fun c hc => numChar_ascii (intText_isNumChar n c hc)
  | .float text => by
      rw [dumps]
      exact fun c hc => numChar_ascii (floatText_isNumChar text c hc)
  | .str s => by
      rw [dumps]
      exact quote_ascii s
  | .arr items => by
      rw [dumps]
      exact ascii_cons (by decide) (ascii_append (dumpsItems_ascii items)
        (ascii_cons (by decide) ascii_nil))
  | .obj members => by
      rw [dumps]
      exact ascii_cons (by decide) (ascii_append (dumpsMembers_ascii members)
        (ascii_cons (by decide) ascii_nil))

theorem dumpsItems_ascii : ∀ items : List Json, Ascii (dumpsItems items)
  | [] => ascii_nil
  | [j] => by
      rw [dumpsItems]
      exact ascii_append (dumps_ascii j) ascii_nil
  | j :: j' :: rest => by
      rw [dumpsItems_cons]
      exact ascii_append (dumps_ascii j)
        (ascii_cons (by decide) (dumpsItems_ascii (j' :: rest)))

theorem dumpsMembers_ascii : ∀ members : List (String × Json), Ascii (dumpsMembers members)
  | [] => ascii_nil
  | [(k, j)] => by
      rw [dumpsMembers]
      exact ascii_append (quote_ascii k)
        (ascii_cons (by decide) (ascii_append (dumps_ascii j) ascii_nil))
  | (k, j) :: m :: rest => by
      rw [dumpsMembers_cons]
      exact ascii_append (quote_ascii k) (ascii_cons (by decide)
        (ascii_append (dumps_ascii j) (ascii_cons (by decide) (dumpsMembers_ascii (m :: rest)))))
end

end Json
