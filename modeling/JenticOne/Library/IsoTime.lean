import JenticOne.Library.Text

/-!
# Times in ISO 8601

Dates with a time of day and, for an aware one, an offset from UTC, the text that
`isoformat` writes and the reader `fromisoformat`. Only the extended form that
`isoformat` writes is read here; the other forms that the standard library reads, and
fields out of range, are left to a parameter.

## Main definitions

* `DateTime`: Fields within their ranges.
* `DateTime.instant`: The microseconds since the first day of the calendar.
* `isoformat`, `fromisoformat`: Writing and reading.

## Theorems

* `digits_pad`: A padded number is read back.
* `extended_isoformat`: The fields are read back.
* `fromisoformat_isoformat`: The round trip.
* `length_isoformat`, `plainChar_of_mem_isoformat`: The text is short and plain.
-/

namespace IsoTime

/-! ## Numbers of a given length -/

/-- A digit. -/
def digit (n : Nat) : Char := Char.ofNat (48 + n)

/-- The last `n` digits of a number. -/
def pad : Nat → Nat → Text
  | 0, _ => []
  | n + 1, v => pad n (v / 10) ++ [digit (v % 10)]

def value (s : Text) : Nat := s.foldl (fun n c => 10 * n + (c.toNat - 48)) 0

/-- Exactly `n` digits, and what follows them. -/
def digits (n : Nat) (s : Text) : Option (Nat × Text) :=
  if (s.take n).length = n ∧ (s.take n).all Char.isDigit then some (value (s.take n), s.drop n)
  else none

/-- One character, and what follows it. -/
def expect (c : Char) (s : Text) : Option Text := if s.head? = some c then some s.tail else none

theorem length_pad (n v : Nat) : (pad n v).length = n := by
  induction n generalizing v with
  | zero => rfl
  | succ n ih => rw [pad, List.length_append, ih, List.length_singleton]

theorem digit_spec : ∀ n < 10, (digit n).isDigit = true ∧ (digit n).toNat - 48 = n := by
  decide

theorem isDigit_of_mem_pad {n v : Nat} {c : Char} (h : c ∈ pad n v) : c.isDigit = true := by
  induction n generalizing v with
  | zero => exact absurd h List.not_mem_nil
  | succ n ih =>
      rw [pad, List.mem_append, List.mem_singleton] at h
      rcases h with h | h
      · exact ih h
      · rw [h]
        exact (digit_spec (v % 10) (by omega)).1

theorem value_pad {n v : Nat} (h : v < 10 ^ n) : value (pad n v) = v := by
  induction n generalizing v with
  | zero =>
      rw [Nat.pow_zero] at h
      rw [pad, value, List.foldl_nil]
      omega
  | succ n ih =>
      rw [Nat.pow_succ] at h
      have hhigh := ih (v := v / 10) (by omega)
      rw [value] at hhigh
      rw [pad, value, List.foldl_append, hhigh, List.foldl_cons, List.foldl_nil,
        (digit_spec (v % 10) (by omega)).2]
      omega

/-- A padded number is read back. -/
theorem digits_pad {n v : Nat} (h : v < 10 ^ n) (rest : Text) :
    digits n (pad n v ++ rest) = some (v, rest) := by
  have htake : (pad n v ++ rest).take n = pad n v := List.take_left' (length_pad n v)
  have hdrop : (pad n v ++ rest).drop n = rest := List.drop_left' (length_pad n v)
  have hall : (pad n v).all Char.isDigit = true :=
    List.all_eq_true.mpr fun c hc => isDigit_of_mem_pad hc
  rw [digits, htake, hdrop, if_pos ⟨length_pad n v, hall⟩, value_pad h]

theorem expect_cons (c : Char) (rest : Text) : expect c (c :: rest) = some rest :=
  if_pos rfl

/-! ## Times -/

def isLeap (year : Nat) : Bool := year % 4 = 0 && (year % 100 ≠ 0 || year % 400 = 0)

def daysInMonth (year month : Nat) : Nat :=
  if month = 2 then (if isLeap year then 29 else 28)
  else if month ∈ [4, 6, 9, 11] then 30 else 31

/-- The microseconds of a day. -/
def dayMicros : Nat := 86400 * 10 ^ 6

/-- The fields of a time, with the offset from UTC in microseconds. -/
structure Fields where
  year : Nat
  month : Nat
  day : Nat
  hour : Nat
  minute : Nat
  second : Nat
  microsecond : Nat
  offset : Option Int
deriving DecidableEq

/-- The fields are within their ranges. -/
structure Fields.Valid (f : Fields) : Prop where
  year : 1 ≤ f.year ∧ f.year ≤ 9999
  month : 1 ≤ f.month ∧ f.month ≤ 12
  day : 1 ≤ f.day ∧ f.day ≤ daysInMonth f.year f.month
  hour : f.hour < 24
  minute : f.minute < 60
  second : f.second < 60
  microsecond : f.microsecond < 10 ^ 6
  offset : ∀ o ∈ f.offset, o.natAbs < dayMicros

instance (f : Fields) : Decidable f.Valid :=
  decidable_of_iff ((1 ≤ f.year ∧ f.year ≤ 9999) ∧ (1 ≤ f.month ∧ f.month ≤ 12) ∧
    (1 ≤ f.day ∧ f.day ≤ daysInMonth f.year f.month) ∧ f.hour < 24 ∧ f.minute < 60 ∧
    f.second < 60 ∧ f.microsecond < 10 ^ 6 ∧ ∀ o ∈ f.offset, o.natAbs < dayMicros)
    ⟨fun ⟨h₁, h₂, h₃, h₄, h₅, h₆, h₇, h₈⟩ => ⟨h₁, h₂, h₃, h₄, h₅, h₆, h₇, h₈⟩,
      fun h => ⟨h.year, h.month, h.day, h.hour, h.minute, h.second, h.microsecond, h.offset⟩⟩

/-- A `datetime`. -/
abbrev DateTime := { f : Fields // f.Valid }

/-- The time has an offset from UTC. -/
def DateTime.Aware (t : DateTime) : Prop := t.val.offset.isSome

/-- The days before a month of its year. -/
def daysBeforeMonth (year month : Nat) : Nat :=
  ((List.range (month - 1)).map fun m => daysInMonth year (m + 1)).sum

/-- `toordinal`. -/
def Fields.ordinal (f : Fields) : Nat :=
  365 * (f.year - 1) + (f.year - 1) / 4 - (f.year - 1) / 100 + (f.year - 1) / 400 +
    daysBeforeMonth f.year f.month + f.day

/-- The microseconds since the first day of the calendar, in UTC. -/
def DateTime.instant (t : DateTime) : Int :=
  ((((t.val.ordinal * 24 + t.val.hour) * 60 + t.val.minute) * 60 + t.val.second) * 10 ^ 6 +
    t.val.microsecond : Nat) - t.val.offset.getD 0

/-- A time without an offset is one in UTC. -/
def DateTime.inUtc (t : DateTime) : DateTime :=
  ⟨{ t.val with offset := some (t.val.offset.getD 0) },
    { t.property with
      offset := by
        intro o ho
        rw [Option.mem_some_iff.mp ho |>.symm]
        cases hoffset : t.val.offset with
        | none => decide
        | some x => exact t.property.offset x hoffset }⟩

theorem DateTime.inUtc_of_aware {t : DateTime} (h : t.Aware) : t.inUtc = t := by
  rcases Option.isSome_iff_exists.mp h with ⟨o, ho⟩
  refine Subtype.ext ?_
  show { t.val with offset := some (t.val.offset.getD 0) } = t.val
  rw [ho, Option.getD_some, ← ho]

/-! ## Writing -/

/-- A fraction of a second, which is left out where it is zero. -/
def fraction (micros : Nat) : Text := if micros = 0 then [] else '.' :: pad 6 micros

/-- The offset in hours and minutes, with seconds and a fraction where they are not zero. -/
def formatOffset (offset : Int) : Text :=
  (if offset < 0 then '-' else '+') ::
    (pad 2 (offset.natAbs / 3600000000) ++ ':' ::
      (pad 2 (offset.natAbs / 60000000 % 60) ++
        if offset.natAbs % 60000000 = 0 then []
        else ':' :: (pad 2 (offset.natAbs / 1000000 % 60) ++
          fraction (offset.natAbs % 1000000))))

/-- `isoformat`. -/
def isoformat (t : DateTime) : Text :=
  pad 4 t.val.year ++ '-' :: (pad 2 t.val.month ++ '-' :: (pad 2 t.val.day ++ 'T' ::
    (pad 2 t.val.hour ++ ':' :: (pad 2 t.val.minute ++ ':' :: (pad 2 t.val.second ++
      (fraction t.val.microsecond ++ t.val.offset.elim [] formatOffset))))))

/-! ## Reading -/

/-- A fraction of six digits, if there is one. -/
def readFraction (s : Text) : Option (Nat × Text) :=
  if s.head? = some '.' then digits 6 s.tail else some (0, s)

/-- The seconds and the fraction of an offset, if there are any. -/
def readOffsetSeconds (s : Text) : Option (Nat × Text) :=
  if s.head? = some ':' then do
    let (seconds, s) ← digits 2 s.tail
    let (micros, s) ← readFraction s
    some (seconds * 1000000 + micros, s)
  else some (0, s)

/-- An offset up to the end of the text, if there is one. -/
def readOffset (s : Text) : Option (Option Int) :=
  if s = [] then some none
  else if s.head? = some '+' ∨ s.head? = some '-' then do
    let (hours, rest) ← digits 2 s.tail
    let rest ← expect ':' rest
    let (minutes, rest) ← digits 2 rest
    let (micros, rest) ← readOffsetSeconds rest
    if rest = [] then
      some (some ((if s.head? = some '-' then -1 else 1) *
        (hours * 3600000000 + minutes * 60000000 + micros : Nat)))
    else none
  else none

/-- The extended form, with any character between the date and the time. -/
def extended (s : Text) : Option Fields := do
  let (year, s) ← digits 4 s
  let s ← expect '-' s
  let (month, s) ← digits 2 s
  let s ← expect '-' s
  let (day, s) ← digits 2 s
  let (hour, s) ← digits 2 s.tail
  let s ← expect ':' s
  let (minute, s) ← digits 2 s
  let s ← expect ':' s
  let (second, s) ← digits 2 s
  let (microsecond, s) ← readFraction s
  let offset ← readOffset s
  some ⟨year, month, day, hour, minute, second, microsecond, offset⟩

/-- `fromisoformat`; `other` reads what is not in the extended form and in range. -/
def fromisoformat (other : Text → Option DateTime) (s : Text) : Option DateTime :=
  (extended s).elim (other s) fun f => if h : f.Valid then some ⟨f, h⟩ else other s

/-! ## The fields are read back -/

theorem readFraction_fraction {micros : Nat} (h : micros < 10 ^ 6) {rest : Text}
    (hrest : rest.head? ≠ some '.') :
    readFraction (fraction micros ++ rest) = some (micros, rest) := by
  rw [fraction, readFraction]
  by_cases hzero : micros = 0
  · rw [if_pos hzero, List.nil_append, if_neg hrest, hzero]
  · rw [if_neg hzero, List.cons_append, List.head?_cons, if_pos rfl, List.tail_cons,
      digits_pad h]

theorem readOffsetSeconds_eq {n : Nat} :
    readOffsetSeconds (if n % 60000000 = 0 then []
      else ':' :: (pad 2 (n / 1000000 % 60) ++ fraction (n % 1000000))) =
    some (n % 60000000, []) := by
  by_cases hzero : n % 60000000 = 0
  · rw [if_pos hzero, hzero]
    rfl
  · have hnil : ([] : Text).head? ≠ some '.' := by
      simp only [List.head?_nil, ne_eq, reduceCtorEq, not_false_eq_true]
    have hmicros : n % 1000000 < 10 ^ 6 := by omega
    have hfraction := readFraction_fraction hmicros hnil
    rw [List.append_nil] at hfraction
    have hsum : n / 1000000 % 60 * 1000000 + n % 1000000 = n % 60000000 := by omega
    rw [if_neg hzero, readOffsetSeconds, List.head?_cons, if_pos rfl, List.tail_cons,
      digits_pad (by omega)]
    simp only [Option.bind_eq_bind, Option.bind_some, hfraction, hsum]

/-- The offset is read back. -/
theorem readOffset_formatOffset {o : Int} (h : o.natAbs < dayMicros) :
    readOffset (formatOffset o) = some (some o) := by
  have hlt : o.natAbs < 86400000000 := h
  have hsum : o.natAbs / 3600000000 * 3600000000 + o.natAbs / 60000000 % 60 * 60000000 +
      o.natAbs % 60000000 = o.natAbs := by
    omega
  rw [formatOffset, readOffset, if_neg (List.cons_ne_nil _ _)]
  by_cases hneg : o < 0
  · rw [if_pos hneg, List.head?_cons, if_pos (Or.inr rfl), List.tail_cons,
      digits_pad (by omega)]
    simp only [Option.bind_eq_bind, Option.bind_some, expect_cons, digits_pad (n := 2)
      (v := o.natAbs / 60000000 % 60) (by omega), readOffsetSeconds_eq, if_true, hsum]
    rw [Option.some.injEq, Option.some.injEq]
    omega
  · rw [if_neg hneg, List.head?_cons, if_pos (Or.inl rfl), List.tail_cons,
      digits_pad (by omega)]
    have hsign : ¬ some '+' = some '-' := by decide
    simp only [Option.bind_eq_bind, Option.bind_some, expect_cons, digits_pad (n := 2)
      (v := o.natAbs / 60000000 % 60) (by omega), readOffsetSeconds_eq, if_true, hsum,
      if_neg hsign]
    rw [Option.some.injEq, Option.some.injEq]
    omega

theorem readOffset_elim (t : DateTime) :
    readOffset (t.val.offset.elim [] formatOffset) = some t.val.offset := by
  cases ho : t.val.offset with
  | none => rfl
  | some o =>
      rw [Option.elim_some]
      exact readOffset_formatOffset (t.property.offset o ho)

theorem head?_offset (t : DateTime) : (t.val.offset.elim [] formatOffset).head? ≠ some '.' := by
  cases t.val.offset with
  | none => simp only [Option.elim_none, List.head?_nil, ne_eq, reduceCtorEq, not_false_eq_true]
  | some o =>
      rw [Option.elim_some, formatOffset, List.head?_cons]
      by_cases hneg : o < 0
      · rw [if_pos hneg]
        decide
      · rw [if_neg hneg]
        decide

/-- The fields of a time are read back. -/
theorem extended_isoformat (t : DateTime) : extended (isoformat t) = some t.val := by
  have hv := t.property
  have hyear := digits_pad (n := 4) (v := t.val.year) (Nat.lt_of_le_of_lt hv.year.2 (by decide))
  have hmonth := digits_pad (n := 2) (v := t.val.month)
    (Nat.lt_of_le_of_lt hv.month.2 (by decide))
  have hday : t.val.day < 10 ^ 2 := by
    have hle : daysInMonth t.val.year t.val.month ≤ 31 := by
      rw [daysInMonth]
      split_ifs <;> omega
    exact Nat.lt_of_le_of_lt (hv.day.2.trans hle) (by decide)
  have hhour := digits_pad (n := 2) (v := t.val.hour) (Nat.lt_trans hv.hour (by decide))
  have hminute := digits_pad (n := 2) (v := t.val.minute) (Nat.lt_trans hv.minute (by decide))
  have hsecond := digits_pad (n := 2) (v := t.val.second) (Nat.lt_trans hv.second (by decide))
  rw [extended, isoformat]
  simp only [hyear, Option.bind_eq_bind, Option.bind_some, expect_cons, hmonth,
    digits_pad hday, List.tail_cons, hhour, hminute, hsecond,
    readFraction_fraction hv.microsecond (head?_offset t), readOffset_elim]

/-- What `isoformat` writes is read back. -/
theorem fromisoformat_isoformat (other : Text → Option DateTime) (t : DateTime) :
    fromisoformat other (isoformat t) = some t := by
  rw [fromisoformat, extended_isoformat, Option.elim_some, dif_pos t.property]

theorem length_fraction (micros : Nat) : (fraction micros).length ≤ 7 := by
  rw [fraction]
  split_ifs
  · exact Nat.zero_le 7
  · rw [List.length_cons, length_pad]

/-- The text of a time is short. -/
theorem length_isoformat (t : DateTime) : (isoformat t).length ≤ 42 := by
  have hmicros := length_fraction t.val.microsecond
  have hoffset : (t.val.offset.elim [] formatOffset).length ≤ 16 := by
    cases t.val.offset with
    | none => exact Nat.zero_le 16
    | some o =>
        have hseconds := length_fraction (o.natAbs % 1000000)
        rw [Option.elim_some, formatOffset, List.length_cons, List.length_append, length_pad,
          List.length_cons, List.length_append, length_pad]
        split_ifs
        · decide
        · rw [List.length_cons, List.length_append, length_pad]
          omega
  rw [isoformat]
  simp only [List.length_append, List.length_cons, length_pad]
  omega

/-- The characters of a time. -/
def plainChar (c : Char) : Bool := c.isDigit || c ∈ ['-', ':', 'T', '.', '+']

theorem plainChar_of_mem_pad {n v : Nat} {c : Char} (h : c ∈ pad n v) : plainChar c = true := by
  rw [plainChar, isDigit_of_mem_pad h, Bool.true_or]

theorem plainChar_of_mem_fraction {micros : Nat} {c : Char} (h : c ∈ fraction micros) :
    plainChar c = true := by
  rw [fraction] at h
  split_ifs at h
  · exact absurd h List.not_mem_nil
  · rcases List.mem_cons.mp h with rfl | h
    · decide
    · exact plainChar_of_mem_pad h

theorem plainChar_of_mem_formatOffset {o : Int} {c : Char} (h : c ∈ formatOffset o) :
    plainChar c = true := by
  rw [formatOffset, List.mem_cons, List.mem_append, List.mem_cons, List.mem_append] at h
  rcases h with h | h | rfl | h | h
  · rw [h]
    split_ifs
    · decide
    · decide
  · exact plainChar_of_mem_pad h
  · decide
  · exact plainChar_of_mem_pad h
  · split_ifs at h
    · exact absurd h List.not_mem_nil
    · rw [List.mem_cons, List.mem_append] at h
      rcases h with rfl | h | h
      · decide
      · exact plainChar_of_mem_pad h
      · exact plainChar_of_mem_fraction h

/-- The text of a time has digits, signs and separators only. -/
theorem plainChar_of_mem_isoformat {t : DateTime} {c : Char} (h : c ∈ isoformat t) :
    plainChar c = true := by
  simp only [isoformat, List.mem_append, List.mem_cons] at h
  rcases h with h | rfl | h | rfl | h | rfl | h | rfl | h | rfl | h | h | h
  · exact plainChar_of_mem_pad h
  · decide
  · exact plainChar_of_mem_pad h
  · decide
  · exact plainChar_of_mem_pad h
  · decide
  · exact plainChar_of_mem_pad h
  · decide
  · exact plainChar_of_mem_pad h
  · decide
  · exact plainChar_of_mem_pad h
  · exact plainChar_of_mem_fraction h
  · cases ho : t.val.offset with
    | none =>
        rw [ho] at h
        exact absurd h List.not_mem_nil
    | some o =>
        rw [ho] at h
        exact plainChar_of_mem_formatOffset h

end IsoTime
