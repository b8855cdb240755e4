import JenticOne.Library.Substitution
import JenticOne.Library.Utf16

/-!
# Patterns with Wildcards for a Segment

The regular expressions that are literals and wildcards, where a wildcard is one
or more elements other than a separator: what a path template with placeholders
becomes. They are written as source texts, with every literal escaped that has a
meaning in a pattern, and read back by the engine that matches them.

An alphabet is a type with a copy of the ASCII characters in it, so that the
same pattern can be read by characters or by the code units of UTF-16. The two
readings differ just where a wildcard ends within the pair of a supplementary
character, which takes another wildcard right after it.

## Main definitions

* `Token`: A literal or a wildcard.
* `ends`: What a backtracking match leaves, in the order it is found.
* `Spells`: The texts of a pattern.
* `escape`, `readFrom`: Sources, and the pattern of a source.
* `placeholder`, `template`: The pattern of a path with placeholders.

## Theorems

* `mem_ends`: A match is a text of the pattern.
* `read_template`: The source of a template is read as its pattern.
* `template_encode`: The pattern of a path, by code units.
* `spells_encode`, `spells_of_encode`: The two readings.
-/

namespace Wildcard

variable {α : Type} [DecidableEq α]

/-- A literal, or a wildcard for a part of a segment. -/
inductive Token (α : Type)
  | lit (a : α)
  | segment
  deriving DecidableEq

/-! ## Matching -/

/-- What is left after one or more elements other than a separator, the longest
    run first. -/
def runs (sep : α) : List α → List (List α)
  | [] => []
  | a :: s => if a = sep then [] else runs sep s ++ [s]

/-- What is left after the pattern, in the order of the search. -/
def ends (sep : α) : List (Token α) → List α → List (List α)
  | [], s => [s]
  | .lit _ :: _, [] => []
  | .lit a :: ts, b :: s => if b = a then ends sep ts s else []
  | .segment :: ts, s => (runs sep s).flatMap (ends sep ts)

/-- The pattern matches the whole text. -/
def fullmatch (sep : α) (ts : List (Token α)) (s : List α) : Bool :=
  (ends sep ts s).any List.isEmpty

/-- The pattern matches a beginning of the text. -/
def startmatch (sep : α) (ts : List (Token α)) (s : List α) : Bool :=
  !(ends sep ts s).isEmpty

/-- The texts of a pattern. -/
inductive Spells (sep : α) : List (Token α) → List α → Prop
  | nil : Spells sep [] []
  | lit {a : α} {ts : List (Token α)} {t : List α} :
      Spells sep ts t → Spells sep (.lit a :: ts) (a :: t)
  | segment {w : List α} {ts : List (Token α)} {t : List α} :
      w ≠ [] → (∀ a ∈ w, a ≠ sep) → Spells sep ts t → Spells sep (.segment :: ts) (w ++ t)

theorem mem_runs {sep : α} {s r : List α} :
    r ∈ runs sep s ↔ ∃ w, w ≠ [] ∧ (∀ a ∈ w, a ≠ sep) ∧ s = w ++ r := by
  induction s with
  | nil =>
      constructor
      · exact fun h => absurd h List.not_mem_nil
      · rintro ⟨w, hne, _, h⟩
        exact absurd (List.append_eq_nil_iff.mp h.symm).1 hne
  | cons a s ih =>
      unfold runs
      by_cases ha : a = sep
      · rw [if_pos ha]
        constructor
        · exact fun h => absurd h List.not_mem_nil
        · rintro ⟨w, hne, hw, h⟩
          cases w with
          | nil => exact absurd rfl hne
          | cons b w =>
              rw [List.cons_append, List.cons.injEq] at h
              exact absurd (h.1.symm.trans ha) (hw b List.mem_cons_self)
      · rw [if_neg ha, List.mem_append, List.mem_singleton, ih]
        constructor
        · rintro (⟨w, _, hw, rfl⟩ | rfl)
          · refine ⟨a :: w, List.cons_ne_nil _ _, fun b hb => ?_, rfl⟩
            rcases List.mem_cons.mp hb with rfl | hb
            · exact ha
            · exact hw b hb
          · refine ⟨[a], List.cons_ne_nil _ _, fun b hb => ?_, rfl⟩
            rw [List.mem_singleton.mp hb]
            exact ha
        · rintro ⟨w, hne, hw, h⟩
          cases w with
          | nil => exact absurd rfl hne
          | cons b w =>
              rw [List.cons_append, List.cons.injEq] at h
              cases w with
              | nil => exact Or.inr h.2.symm
              | cons b' w =>
                  exact Or.inl ⟨b' :: w, List.cons_ne_nil _ _,
                    fun x hx => hw x (List.mem_cons_of_mem b hx), h.2⟩

/-- What a match takes is a text of the pattern. -/
theorem mem_ends {sep : α} {ts : List (Token α)} {s r : List α} :
    r ∈ ends sep ts s ↔ ∃ t, Spells sep ts t ∧ s = t ++ r := by
  induction ts generalizing s with
  | nil =>
      change r ∈ [s] ↔ _
      rw [List.mem_singleton]
      constructor
      · exact fun h => ⟨[], .nil, h.symm⟩
      · rintro ⟨t, ht, h⟩
        cases ht
        exact h.symm
  | cons tok ts ih =>
      cases tok with
      | lit a =>
          cases s with
          | nil =>
              constructor
              · exact fun h => absurd h List.not_mem_nil
              · rintro ⟨t, ht, h⟩
                cases ht
                exact absurd h (by simp only [List.cons_append, reduceCtorEq, not_false_eq_true])
          | cons b s =>
              unfold ends
              by_cases hb : b = a
              · rw [if_pos hb, ih]
                constructor
                · rintro ⟨t, ht, h⟩
                  exact ⟨a :: t, .lit ht, by rw [h, hb]; rfl⟩
                · rintro ⟨t, ht, h⟩
                  cases ht with
                  | lit ht =>
                      rw [List.cons_append, List.cons.injEq] at h
                      exact ⟨_, ht, h.2⟩
              · rw [if_neg hb]
                constructor
                · exact fun h => absurd h List.not_mem_nil
                · rintro ⟨t, ht, h⟩
                  cases ht with
                  | lit ht =>
                      rw [List.cons_append, List.cons.injEq] at h
                      exact absurd h.1 hb
      | segment =>
          unfold ends
          rw [List.mem_flatMap]
          constructor
          · rintro ⟨r', hr', hr⟩
            rcases mem_runs.mp hr' with ⟨w, hne, hw, hs⟩
            rcases ih.mp hr with ⟨t, ht, rfl⟩
            exact ⟨w ++ t, .segment hne hw ht, by rw [hs, List.append_assoc]⟩
          · rintro ⟨t, ht, h⟩
            cases ht with
            | segment hne hw ht =>
                rw [List.append_assoc] at h
                exact ⟨_, mem_runs.mpr ⟨_, hne, hw, h⟩, ih.mpr ⟨_, ht, rfl⟩⟩

theorem fullmatch_iff {sep : α} {ts : List (Token α)} {s : List α} :
    fullmatch sep ts s = true ↔ Spells sep ts s := by
  unfold fullmatch
  rw [List.any_eq_true]
  constructor
  · rintro ⟨r, hr, hempty⟩
    rcases mem_ends.mp hr with ⟨t, ht, h⟩
    rw [List.isEmpty_iff.mp hempty, List.append_nil] at h
    rw [h]
    exact ht
  · exact fun h => ⟨[], mem_ends.mpr ⟨s, h, (List.append_nil s).symm⟩, rfl⟩

theorem startmatch_iff {sep : α} {ts : List (Token α)} {s : List α} :
    startmatch sep ts s = true ↔ ∃ t r, Spells sep ts t ∧ s = t ++ r := by
  unfold startmatch
  rw [Bool.not_eq_true', List.isEmpty_eq_false_iff_exists_mem]
  constructor
  · rintro ⟨r, hr⟩
    rcases mem_ends.mp hr with ⟨t, ht, h⟩
    exact ⟨t, r, ht, h⟩
  · rintro ⟨t, r, ht, h⟩
    exact ⟨r, mem_ends.mpr ⟨t, ht, h⟩⟩

/-! ## Sources -/

section Sources

variable (ascii : Char → α)

/-- Characters that mean themselves or something else after a backslash. -/
def letters : List Char :=
  ['0', '1', '2', '3', '4', '5', '6', '7', '8', '9', 'A', 'B', 'C', 'D', 'E', 'F', 'G', 'H', 'I',
   'J', 'K', 'L', 'M', 'N', 'O', 'P', 'Q', 'R', 'S', 'T', 'U', 'V', 'W', 'X', 'Y', 'Z', '_', 'a',
   'b', 'c', 'd', 'e', 'f', 'g', 'h', 'i', 'j', 'k', 'l', 'm', 'n', 'o', 'p', 'q', 'r', 's', 't',
   'u', 'v', 'w', 'x', 'y', 'z']

/-- Characters that a pattern cannot have as literals. -/
def reserved : List Char :=
  ['.', '^', '$', '*', '+', '?', '{', '}', '[', ']', '(', ')', '|', '\\']

/-- The source of a wildcard, with `/` as the separator. -/
def wildcard : List α := ['[', '^', '/', ']', '+'].map ascii

/-- A source, on a text whose first `skip` elements have been read. What is not
    a pattern of literals and wildcards is not read. -/
def readFrom : Nat → List α → Option (List (Token α))
  | _, [] => some []
  | skip + 1, _ :: cs => readFrom skip cs
  | 0, c :: cs =>
      if (wildcard ascii).isPrefixOf (c :: cs) then (readFrom 4 cs).map (.segment :: ·)
      else if c = ascii '\\' then
        cs.head?.bind fun d =>
          if d ∈ letters.map ascii then none else (readFrom 1 cs).map (.lit d :: ·)
      else if c ∈ reserved.map ascii then none
      else (readFrom 0 cs).map (.lit c :: ·)

/-- A text with a backslash before each of some characters. -/
def escape (specials : List Char) (t : List α) : List α :=
  t.flatMap fun a => if a ∈ specials.map ascii then [ascii '\\', a] else [a]

/-- An alphabet that tells the ASCII characters apart. -/
def Tells : Prop := ∀ c d : Char, c.toNat < 128 → d.toNat < 128 → ascii c = ascii d → c = d

variable {ascii}

theorem readFrom_append (p s : List α) : readFrom ascii p.length (p ++ s) = readFrom ascii 0 s := by
  induction p with
  | nil => rfl
  | cons a p ih => exact ih

theorem readFrom_wildcard (s : List α) :
    readFrom ascii 0 (wildcard ascii ++ s) = (readFrom ascii 0 s).map (.segment :: ·) := by
  have hprefix : (wildcard ascii).isPrefixOf
      (ascii '[' :: (['^', '/', ']', '+'].map ascii ++ s)) = true := by
    rw [List.isPrefixOf_iff_prefix]
    exact List.prefix_append (wildcard ascii) s
  change readFrom ascii 0 (ascii '[' :: (['^', '/', ']', '+'].map ascii ++ s)) = _
  conv_lhs => unfold readFrom
  rw [if_pos hprefix]
  exact congrArg (Option.map _) (readFrom_append (['^', '/', ']', '+'].map ascii) s)

/-- No literal begins the source of a wildcard. -/
theorem not_wildcard {c : α} (h : c ≠ ascii '[') (cs : List α) :
    ¬ (wildcard ascii).isPrefixOf (c :: cs) = true := by
  unfold wildcard
  rw [List.map_cons, List.isPrefixOf_cons₂, Bool.and_eq_true, beq_iff_eq]
  exact fun hc => h hc.1.symm

theorem mem_map_ascii (htells : Tells ascii) {c : Char} {l : List Char} (hc : c.toNat < 128)
    (hl : ∀ d ∈ l, d.toNat < 128) : ascii c ∈ l.map ascii ↔ c ∈ l := by
  rw [List.mem_map]
  constructor
  · rintro ⟨d, hd, h⟩
    rw [← htells d c (hl d hd) hc h]
    exact hd
  · exact fun h => ⟨c, h, rfl⟩

theorem letters_ascii (c : Char) (hc : c ∈ letters) : c.toNat < 128 := by
  have hall : (letters.all fun c => c.toNat < 128) = true := rfl
  exact of_decide_eq_true (List.all_eq_true.mp hall c hc)

/-- An escaped text is read as its elements, for any choice of the characters to
    be escaped that has the reserved ones and no letter. -/
theorem readFrom_escape (htells : Tells ascii) {specials : List Char}
    (hascii : ∀ c ∈ specials, c.toNat < 128) (hreserved : ∀ c ∈ reserved, c ∈ specials)
    (hletters : ∀ c ∈ specials, c ∉ letters) (t s : List α) :
    readFrom ascii 0 (escape ascii specials t ++ s) =
      (readFrom ascii 0 s).map (t.map .lit ++ ·) := by
  induction t with
  | nil =>
      change readFrom ascii 0 s = (readFrom ascii 0 s).map id
      rw [Option.map_id, id_eq]
  | cons a t ih =>
      unfold escape at ih ⊢
      rw [List.flatMap_cons, List.append_assoc]
      generalize hrest : (t.flatMap fun a => if a ∈ specials.map ascii then [ascii '\\', a]
        else [a]) ++ s = rest at ih ⊢
      by_cases ha : a ∈ specials.map ascii
      · rw [if_pos ha]
        rcases List.mem_map.mp ha with ⟨c, hc, hca⟩
        have hbracket : ascii '\\' ≠ ascii '[' :=
          fun h => absurd (htells _ _ (by decide) (by decide) h) (by decide)
        have hletter : a ∉ letters.map ascii := by
          rw [← hca, mem_map_ascii htells (hascii c hc) letters_ascii]
          exact hletters c hc
        change readFrom ascii 0 (ascii '\\' :: ([a] ++ rest)) = _
        conv_lhs => unfold readFrom
        rw [if_neg (not_wildcard hbracket _), if_pos rfl]
        change (if a ∈ letters.map ascii then none
          else (readFrom ascii [a].length ([a] ++ rest)).map (.lit a :: ·)) = _
        rw [if_neg hletter, readFrom_append, ih, Option.map_map]
        rfl
      · rw [if_neg ha]
        have hnot : ∀ c ∈ reserved, a ≠ ascii c := fun c hc h =>
          ha (by rw [h]; exact List.mem_map_of_mem (hreserved c hc))
        have hplain : a ∉ reserved.map ascii := by
          intro h
          rcases List.mem_map.mp h with ⟨c, hc, hca⟩
          exact hnot c hc hca.symm
        change readFrom ascii 0 (a :: rest) = _
        conv_lhs => unfold readFrom
        rw [if_neg (not_wildcard (hnot '[' (by decide)) _), if_neg (hnot '\\' (by decide)),
          if_neg hplain, ih, Option.map_map]
        rfl

end Sources

/-! ## Templates -/

section Templates

variable (ascii : Char → α)

/-- The elements of a placeholder's name. -/
def inName (a : α) : Bool := a ≠ ascii '}' && a ≠ ascii '/'

/-- What follows the placeholder a text begins with. -/
def placeholder : List α → Option (Unit × List α)
  | [] => none
  | a :: t =>
      if a = ascii '{' ∧ t.takeWhile (inName ascii) ≠ [] ∧
          (t.dropWhile (inName ascii)).head? = some (ascii '}') then
        some ((), (t.dropWhile (inName ascii)).tail)
      else none

/-- The placeholders of a text, and the elements between them. -/
def pieces (path : List α) : List (Substitution.Piece α Unit) :=
  Substitution.parseFrom (placeholder ascii) 0 path

/-- The parts of a text between pieces that are placeholders. -/
def parts : List (Substitution.Piece α Unit) → List (List α)
  | [] => [[]]
  | .plain a :: ps => (a :: (parts ps).headD []) :: (parts ps).tail
  | .mark _ _ :: ps => [] :: parts ps

/-- The parts of a text between its placeholders. -/
def split (path : List α) : List (List α) := parts (pieces ascii path)

/-- The pattern a piece stands for. -/
def token : Substitution.Piece α Unit → Token α
  | .plain a => .lit a
  | .mark _ _ => .segment

/-- The pattern of a text with placeholders. -/
def template (path : List α) : List (Token α) := (pieces ascii path).map token

/-- The source of a pattern with the parts of a text as its literals. -/
def source (specials : List Char) (ps : List (List α)) : List α :=
  escape ascii specials (ps.headD []) ++
    ps.tail.flatMap fun p => wildcard ascii ++ escape ascii specials p

variable {ascii}

/-- The source of a template is read as its pattern. -/
theorem read_template (htells : Tells ascii) {specials : List Char}
    (hascii : ∀ c ∈ specials, c.toNat < 128) (hreserved : ∀ c ∈ reserved, c ∈ specials)
    (hletters : ∀ c ∈ specials, c ∉ letters) (path : List α) :
    readFrom ascii 0 (source ascii specials (split ascii path)) = some (template ascii path) := by
  unfold split template
  induction pieces ascii path with
  | nil => rfl
  | cons p ps ih =>
      unfold source at ih ⊢
      rw [readFrom_escape htells hascii hreserved hletters] at ih ⊢
      cases p with
      | plain a =>
          change Option.map ((a :: (parts ps).headD []).map .lit ++ ·) (readFrom ascii 0
            ((parts ps).tail.flatMap fun p => wildcard ascii ++ escape ascii specials p)) = _
          rcases Option.map_eq_some_iff.mp ih with ⟨rest, hrest, htokens⟩
          rw [hrest, Option.map_some, List.map_cons, List.cons_append, htokens]
          rfl
      | mark n spelt =>
          have hne : parts ps ≠ [] := by
            cases ps with
            | nil => exact List.cons_ne_nil _ _
            | cons p ps => cases p <;> exact List.cons_ne_nil _ _
          have hcons : parts ps = (parts ps).headD [] :: (parts ps).tail := by
            cases hparts : parts ps with
            | nil => exact absurd hparts hne
            | cons p rest => rfl
          change Option.map (([] : List (Token α)) ++ ·) (readFrom ascii 0
            ((parts ps).flatMap fun p => wildcard ascii ++ escape ascii specials p)) = _
          rw [hcons, List.flatMap_cons, List.append_assoc, readFrom_wildcard,
            readFrom_escape htells hascii hreserved hletters, ih]
          rfl

theorem reads_placeholder :
    Substitution.Reads (fun _ s => (placeholder ascii s).map Prod.snd) (placeholder ascii) := by
  intro s n rest h
  cases s with
  | nil => exact nomatch h
  | cons a t =>
      rw [placeholder] at h
      split at h
      · rename_i hc
        rcases hc with ⟨ha, hname, hclose⟩
        have hrest : (t.dropWhile (inName ascii)).tail = rest :=
          congrArg Prod.snd (Option.some.inj h)
        have htail : t.dropWhile (inName ascii) = ascii '}' :: rest := by
          rw [← hrest]
          cases hdrop : t.dropWhile (inName ascii) with
          | nil => rw [hdrop] at hclose; exact absurd hclose (by simp only [List.head?_nil,
              reduceCtorEq, not_false_eq_true])
          | cons b rest' =>
              rw [hdrop, List.head?_cons, Option.some.injEq] at hclose
              rw [hclose]
              rfl
        refine ⟨a :: (t.takeWhile (inName ascii) ++ [ascii '}']), List.cons_ne_nil _ _, ?_, ?_⟩
        · rw [List.cons_append, List.append_assoc, List.singleton_append, ← htail,
            List.takeWhile_append_dropWhile]
        · intro x
          have hall : ∀ b ∈ t.takeWhile (inName ascii), inName ascii b = true :=
            fun b hb => List.mem_takeWhile_imp hb
          have hstop : inName ascii (ascii '}') = false := by
            unfold inName
            rw [Bool.and_eq_false_iff]
            exact Or.inl (decide_eq_false (fun hne => hne rfl))
          have htake : (t.takeWhile (inName ascii) ++ [ascii '}'] ++ x).takeWhile (inName ascii) =
              t.takeWhile (inName ascii) := by
            rw [List.append_assoc, List.takeWhile_append_of_pos hall, List.singleton_append,
              List.takeWhile_cons_of_neg (by rw [hstop]; decide), List.append_nil]
          have hdrop : (t.takeWhile (inName ascii) ++ [ascii '}'] ++ x).dropWhile (inName ascii) =
              ascii '}' :: x := by
            rw [List.append_assoc, List.dropWhile_append_of_pos hall, List.singleton_append,
              List.dropWhile_cons_of_neg (by rw [hstop]; decide)]
          change (placeholder ascii (a :: (t.takeWhile (inName ascii) ++ [ascii '}'] ++ x))).map
            Prod.snd = some x
          rw [placeholder]
          rw [htake, hdrop, if_pos ⟨ha, hname, rfl⟩]
          rfl
      · exact absurd h (by simp only [reduceCtorEq, not_false_eq_true])

end Templates

/-! ## Code units -/

section Units

open Utf16 Substitution

/-- The unit of an ASCII character. -/
def unit (c : Char) : Nat := c.toNat

/-- The units of a token. -/
def tokenUnits : Token Char → List (Token Nat)
  | .lit c => (units c).map .lit
  | .segment => [.segment]

/-- The pattern by code units. -/
def encodeTokens (ts : List (Token Char)) : List (Token Nat) := ts.flatMap tokenUnits

theorem tells_unit : Tells unit := by
  intro c d _ _ h
  exact Char.ext (UInt32.toNat_inj.mp h)

theorem tells_id : Tells (id : Char → Char) := fun _ _ _ _ h => h

/-- A unit of a character is that of an ASCII character if that is the one. -/
theorem unit_mem_units {c d : Char} (hd : d.toNat < 0xD800) : unit d ∈ units c ↔ c = d := by
  constructor
  · intro h
    exact Char.ext (UInt32.toNat_inj.mp (units_of_mem h hd).1)
  · intro h
    rw [h]
    unfold units unit
    rw [if_pos (by omega)]
    exact List.mem_singleton.mpr rfl

theorem units_eq {d : Char} (hd : d.toNat < 0xD800) : units d = [unit d] :=
  (units_of_mem ((unit_mem_units hd).mpr rfl) hd).2

theorem inName_of_mem {c : Char} {u : Nat} (hu : u ∈ units c) : inName unit u = inName id c := by
  unfold inName
  have hiff : ∀ d : Char, d.toNat < 0xD800 → (u = unit d ↔ c = d) := by
    intro d hd
    constructor
    · intro h
      rw [h] at hu
      exact (unit_mem_units hd).mp hu
    · intro h
      rw [h, units_eq hd] at hu
      exact List.mem_singleton.mp hu
  rw [Bool.eq_iff_iff, Bool.and_eq_true, Bool.and_eq_true, decide_eq_true_iff, decide_eq_true_iff,
    decide_eq_true_iff, decide_eq_true_iff, ne_eq, ne_eq, hiff '}' (by decide),
    hiff '/' (by decide)]
  rfl

/-- A name goes as far by units as by characters. -/
theorem name_encode (t : Text) :
    (encode t).takeWhile (inName unit) = encode (t.takeWhile (inName id)) ∧
      (encode t).dropWhile (inName unit) = encode (t.dropWhile (inName id)) := by
  induction t with
  | nil => exact ⟨rfl, rfl⟩
  | cons c t ih =>
      rw [encode_cons]
      cases hc : inName id c with
      | true =>
          have hall : ∀ u ∈ units c, inName unit u = true := by
            intro u hu
            rw [inName_of_mem hu, hc]
          rw [List.takeWhile_append_of_pos hall, List.dropWhile_append_of_pos hall, ih.1, ih.2,
            List.takeWhile_cons_of_pos hc, List.dropWhile_cons_of_pos hc]
          exact ⟨rfl, rfl⟩
      | false =>
          have hstop : ¬ inName id c = true := by
            rw [hc]
            decide
          rw [List.takeWhile_cons_of_neg hstop, List.dropWhile_cons_of_neg hstop]
          cases hunits : units c with
          | nil => exact absurd hunits (units_ne_nil c)
          | cons u us =>
              have hu : ¬ inName unit u = true := by
                rw [inName_of_mem (by rw [hunits]; exact List.mem_cons_self)]
                exact hstop
              rw [List.cons_append, List.takeWhile_cons_of_neg hu, List.dropWhile_cons_of_neg hu,
                encode_cons, hunits]
              exact ⟨rfl, rfl⟩

theorem placeholder_of_ne {u : Nat} (h : u ≠ unit '{') (s : List Nat) :
    placeholder unit (u :: s) = none := by
  rw [placeholder]
  exact if_neg (fun hc => h hc.1)

theorem placeholder_open (t : Text) : placeholder unit (unit '{' :: encode t) =
    (placeholder id ('{' :: t)).map fun x => ((), encode x.2) := by
  have hempty : encode (t.takeWhile (inName id)) = [] ↔ t.takeWhile (inName id) = [] := by
    constructor
    · intro h
      exact encode_injective (h.trans rfl)
    · intro h
      rw [h]
      rfl
  rw [placeholder, placeholder, (name_encode t).1, (name_encode t).2]
  cases hdrop : t.dropWhile (inName id) with
  | nil =>
      rw [if_neg (fun hc => nomatch hc.2.2), if_neg (fun hc => nomatch hc.2.2)]
      rfl
  | cons d rest =>
      by_cases hd : d = '}'
      · have hunits : encode (d :: rest) = unit '}' :: encode rest := by
          rw [encode_cons, hd, units_eq (by decide)]
          rfl
        rw [hunits]
        by_cases hname : t.takeWhile (inName id) = []
        · rw [if_neg (fun hc => hc.2.1 (hempty.mpr hname)), if_neg (fun hc => hc.2.1 hname)]
          rfl
        · rw [if_pos ⟨rfl, fun hc => hname (hempty.mp hc), rfl⟩,
            if_pos ⟨rfl, hname, by rw [hd]; rfl⟩]
          rfl
      · have hclosed : ¬ (encode (d :: rest)).head? = some (unit '}') := by
          intro hhead
          cases hunits : units d with
          | nil => exact absurd hunits (units_ne_nil d)
          | cons u us =>
              rw [encode_cons, hunits, List.cons_append, List.head?_cons,
                Option.some.injEq] at hhead
              refine hd ((unit_mem_units (by decide)).mp ?_)
              rw [hunits, hhead]
              exact List.mem_cons_self
        rw [if_neg (fun hc => hclosed hc.2.2), if_neg (fun hc => hd (Option.some.inj hc.2.2))]
        rfl

/-- A path has the same placeholders by code units. -/
theorem template_encode (path : Text) :
    template unit (encode path) = encodeTokens (template id path) := by
  unfold template pieces encodeTokens
  induction hlen : path.length using Nat.strongRecOn generalizing path with
  | ind k ih =>
      cases path with
      | nil => rfl
      | cons c cs =>
          rw [List.length_cons] at hlen
          rcases parseFrom_cases reads_placeholder c cs with
            ⟨hnone, hparse⟩ | ⟨n, a, spelt, rest, hsplit, hany, _, hparse⟩
          · have hcs := ih cs.length (by omega) cs rfl
            rw [hparse, List.map_cons, List.flatMap_cons, ← hcs, encode_cons]
            rcases units_cases c with ⟨hunits, _⟩ | ⟨h, l, hunits, hhigh, hlow, _⟩
            · have hnone' : placeholder unit (c.toNat :: encode cs) = none := by
                by_cases hc : c = '{'
                · rw [hc] at hnone ⊢
                  rw [show ('{' : Char).toNat = unit '{' from rfl, placeholder_open, hnone]
                  rfl
                · exact placeholder_of_ne (fun he => hc (Char.ext (UInt32.toNat_inj.mp he))) _
              rw [hunits, List.singleton_append, parseFrom_of_none hnone']
              change _ = (units c).map Token.lit ++ _
              rw [hunits]
              rfl
            · unfold IsHigh at hhigh
              unfold IsLow at hlow
              have hopen : unit '{' = 123 := rfl
              rw [hunits, List.cons_append, List.singleton_append,
                parseFrom_of_none (placeholder_of_ne (by omega) _),
                parseFrom_of_none (placeholder_of_ne (by omega) _)]
              change _ = (units c).map Token.lit ++ _
              rw [hunits]
              rfl
          · have hshort : rest.length < k := by
              have := congrArg List.length hsplit
              rw [List.length_cons, List.cons_append, List.length_cons, List.length_append] at this
              omega
            rw [hparse, List.map_cons, List.flatMap_cons, ← ih rest.length hshort rest rfl]
            rw [hsplit] at hany ⊢
            have ha : a = '{' := by
              rw [List.cons_append, placeholder] at hany
              split at hany
              · rename_i hc
                exact hc.1
              · exact nomatch hany
            rw [ha] at hany ⊢
            have hsome : placeholder unit (unit '{' :: encode spelt ++ encode rest) =
                some ((), encode rest) := by
              rw [List.cons_append, ← encode_append, placeholder_open, ← List.cons_append, hany]
              rfl
            rw [List.cons_append, encode_cons, encode_append, units_eq (by decide),
              List.singleton_append, ← List.cons_append, parseFrom_of_some hsome]
            rfl

/-- No two wildcards are next to each other. -/
def Apart : List (Token Char) → Prop
  | [] => True
  | .segment :: .segment :: _ => False
  | _ :: ts => Apart ts

/-- All characters are of the basic plane. -/
def Basic (s : Text) : Prop := ∀ c ∈ s, c.toNat < 0x10000

theorem Apart.tail {tok : Token Char} {ts : List (Token Char)} (h : Apart (tok :: ts)) :
    Apart ts := by
  cases tok with
  | lit c => exact h
  | segment =>
      cases ts with
      | nil => trivial
      | cons tok' ts =>
          cases tok' with
          | lit c => exact h
          | segment => exact absurd h id

theorem spells_lits {sep : Nat} {ts : List (Token Nat)} {t : List Nat} (us : List Nat)
    (h : Spells sep ts t) : Spells sep (us.map .lit ++ ts) (us ++ t) := by
  induction us with
  | nil => exact h
  | cons u us ih => exact .lit ih

theorem of_spells_lits {sep : Nat} {ts : List (Token Nat)} {us t : List Nat}
    (h : Spells sep (us.map .lit ++ ts) t) : ∃ t', t = us ++ t' ∧ Spells sep ts t' := by
  induction us generalizing t with
  | nil => exact ⟨t, rfl, h⟩
  | cons u us ih =>
      cases h with
      | lit h =>
          rcases ih h with ⟨t', rfl, h'⟩
          exact ⟨t', rfl, h'⟩

/-- The units of a part of a segment are other than the separator's. -/
theorem encode_ne_sep {w : Text} : (∀ c ∈ w, c ≠ '/') ↔ ∀ u ∈ encode w, u ≠ unit '/' := by
  unfold encode
  constructor
  · intro h u hu he
    rcases List.mem_flatMap.mp hu with ⟨c, hc, hmem⟩
    rw [he] at hmem
    exact h c hc ((unit_mem_units (by decide)).mp hmem)
  · intro h c hc he
    exact h (unit '/') (List.mem_flatMap.mpr ⟨c, hc, (unit_mem_units (by decide)).mpr he⟩) rfl

theorem encode_eq_nil {t : Text} : encode t = [] ↔ t = [] := by
  constructor
  · exact fun h => encode_injective (h.trans rfl)
  · intro h
    rw [h]
    rfl

/-- What a pattern matches by characters it matches by units. -/
theorem spells_encode {ts : List (Token Char)} {t : Text} (h : Spells '/' ts t) :
    Spells (unit '/') (encodeTokens ts) (encode t) := by
  induction h with
  | nil => exact .nil
  | lit _ ih => exact spells_lits _ ih
  | segment hne hw _ ih =>
      rw [encode_append]
      exact .segment (fun he => hne (encode_eq_nil.mp he)) (encode_ne_sep.mp hw) ih

theorem not_isLow_of_basic {s : Text} (h : Basic s) : ∀ u ∈ encode s, ¬ IsLow u := by
  unfold encode
  intro u hu
  rcases List.mem_flatMap.mp hu with ⟨c, hc, hmem⟩
  rcases units_cases c with ⟨hunits, hlow, _⟩ | ⟨hi, lo, hunits, _⟩
  · rw [hunits, List.mem_singleton] at hmem
    rw [hmem]
    exact hlow
  · have hplane := h c hc
    unfold units at hunits
    rw [if_pos hplane] at hunits
    exact absurd (congrArg List.length hunits) (by simp)

/-- What a pattern matches by units it matches by characters, where no two
    wildcards are next to each other or all characters are single units. -/
theorem spells_of_encode {ts : List (Token Char)} {s : Text} {u v : List Nat}
    (hboth : Apart ts ∨ Basic s) (hs : encode s = u ++ v)
    (h : Spells (unit '/') (encodeTokens ts) u) :
    ∃ t r, s = t ++ r ∧ Spells '/' ts t ∧ (v = [] → r = []) := by
  induction ts generalizing s u with
  | nil =>
      cases h
      refine ⟨[], s, rfl, .nil, fun hv => ?_⟩
      rw [hv] at hs
      exact encode_eq_nil.mp hs
  | cons tok ts ih =>
      cases tok with
      | lit c =>
          rcases of_spells_lits h with ⟨u', rfl, h'⟩
          -- The text begins with the character.
          have hprefix : [c] <+: s := by
            refine encode_isPrefix.mp ⟨u' ++ v, ?_⟩
            rw [hs, encode_cons, List.append_assoc, List.append_assoc]
            rfl
          rcases hprefix with ⟨s', rfl⟩
          rw [List.singleton_append, encode_cons, List.append_assoc] at hs
          have hboth' : Apart ts ∨ Basic s' := hboth.imp Apart.tail
            (fun hb d hd => hb d (List.mem_cons_of_mem c hd))
          rcases ih hboth' (List.append_cancel_left hs) h' with ⟨t, r, rfl, ht, hr⟩
          exact ⟨c :: t, r, rfl, .lit ht, hr⟩
      | segment =>
          change Spells (unit '/') (.segment :: encodeTokens ts) u at h
          cases h with
          | @segment w _ u' hne hw h' =>
              rw [List.append_assoc] at hs
              by_cases halign : ∀ a ∈ (u' ++ v).head?, ¬ IsLow a
              · rcases split_aligned hs halign with ⟨s1, s2, rfl, hs1, hs2⟩
                have hboth' : Apart ts ∨ Basic s2 := hboth.imp Apart.tail
                  (fun hb d hd => hb d (List.mem_append_right s1 hd))
                rcases ih hboth' hs2.symm h' with ⟨t, r, rfl, ht, hr⟩
                rw [hs1] at hne hw
                exact ⟨s1 ++ t, r, (List.append_assoc _ _ _).symm,
                  .segment (fun he => hne (encode_eq_nil.mpr he)) (encode_ne_sep.mpr hw) ht, hr⟩
              · -- The wildcard ends within a pair: it is the last token, and its
                -- first character is enough.
                have hapart : Apart (.segment :: ts) := by
                  refine hboth.resolve_right fun hb => halign fun a ha => ?_
                  refine not_isLow_of_basic hb a ?_
                  rw [hs]
                  exact List.mem_append_right w (List.mem_of_mem_head? ha)
                cases ts with
                | nil =>
                    cases h'
                    cases s with
                    | nil => exact absurd (List.append_eq_nil_iff.mp hs.symm).1 hne
                    | cons c s =>
                        refine ⟨[c], s, rfl, ?_, fun hv => ?_⟩
                        · change Spells '/' [.segment] ([c] ++ [])
                          refine .segment (List.cons_ne_nil _ _) (fun d hd he => ?_) .nil
                          rw [List.mem_singleton.mp hd] at he
                          cases w with
                          | nil => exact hne rfl
                          | cons a w =>
                              rw [encode_cons, he, units_eq (by decide), List.cons_append,
                                List.cons_append, List.cons.injEq] at hs
                              exact hw a List.mem_cons_self hs.1.symm
                        · rw [hv] at halign
                          exact absurd (fun a ha => absurd ha (Option.not_mem_none a)) halign
                | cons tok' ts =>
                    cases tok' with
                    | segment => exact absurd hapart id
                    | lit c =>
                        rcases of_spells_lits h' with ⟨u'', rfl, _⟩
                        refine absurd (fun a ha => ?_) halign
                        have hhead := not_isLow_head [c] a
                        rw [show encode [c] = units c ++ [] from rfl, List.append_nil] at hhead
                        cases hunits : units c with
                        | nil => exact absurd hunits (units_ne_nil c)
                        | cons b us =>
                            rw [hunits] at ha hhead
                            exact hhead ha

/-- The two readings of a whole text agree. -/
theorem fullmatch_encode {ts : List (Token Char)} {s : Text} (h : Apart ts ∨ Basic s) :
    fullmatch (unit '/') (encodeTokens ts) (encode s) = fullmatch '/' ts s := by
  rw [Bool.eq_iff_iff, fullmatch_iff, fullmatch_iff]
  constructor
  · intro hs
    rcases spells_of_encode h (List.append_nil _).symm hs with ⟨t, r, rfl, ht, hr⟩
    rw [hr rfl, List.append_nil]
    exact ht
  · exact spells_encode

/-- The two readings of a beginning agree. -/
theorem startmatch_encode {ts : List (Token Char)} {s : Text} (h : Apart ts ∨ Basic s) :
    startmatch (unit '/') (encodeTokens ts) (encode s) = startmatch '/' ts s := by
  rw [Bool.eq_iff_iff, startmatch_iff, startmatch_iff]
  constructor
  · rintro ⟨u, v, hu, hs⟩
    rcases spells_of_encode h hs hu with ⟨t, r, hs', ht, _⟩
    exact ⟨t, r, ht, hs'⟩
  · rintro ⟨t, r, ht, rfl⟩
    exact ⟨encode t, encode r, spells_encode ht, encode_append t r⟩

end Units

end Wildcard
