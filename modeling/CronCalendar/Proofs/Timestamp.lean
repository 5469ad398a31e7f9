import CronCalendar.Display
import CronCalendar.Proofs.DateTime
import CronCalendar.Proofs.Numeral
import CronCalendar.Timestamp
import Mathlib.Data.List.TakeWhile

/-!
# Timestamps — a text is read in one way only

The two formats of timestamps are described here as texts with a meaning
(`Spells`), without saying how far a number reaches: blanks may stand before it, and
a year takes as many digits as its sign allows. Nothing in a timestamp leaves a
choice, because a number is never followed by a digit. So every piece is read
exactly where it stands (`Reads`), no text is of both formats, and a text names one
date and one time. What is written in either format is read as what it shows
(`read?_secondsText`, `read?_minutesText`).
-/

namespace CronCalendar

open Numeral

namespace Timestamp

/-! ## The texts of timestamps -/

/-- Texts of digits, with their value. -/
structure IsDigits (text : List Char) (n : Nat) : Prop where
  nonempty : text ≠ []
  digits : ∀ c ∈ text, c.isDigit = true
  value : Nat.ofDigitChars 10 text 0 = n

/-- Texts of white space only, or of nothing. -/
def IsBlanks (text : List Char) : Prop := ∀ c ∈ text, isBlank c = true

/-- Texts of a number with at most two digits. -/
inductive NumberText : List Char → Nat → Prop where
  | digits {blanks number : List Char} {n : Nat} : IsBlanks blanks → IsDigits number n →
      number.length ≤ 2 → NumberText (blanks ++ number) n

/-- Texts of a year, which has at most four digits or a sign. -/
inductive YearText : List Char → Int → Prop where
  | plain {blanks number : List Char} {n : Nat} : IsBlanks blanks → IsDigits number n →
      number.length ≤ 4 → YearText (blanks ++ number) n
  | plus {blanks number : List Char} {n : Nat} : IsBlanks blanks → IsDigits number n →
      YearText (blanks ++ '+' :: number) n
  | minus {blanks number : List Char} {n : Nat} : IsBlanks blanks → IsDigits number n →
      YearText (blanks ++ '-' :: number) (-n)

/-- Texts of a date and a time as far as the minute. -/
inductive MinuteText : List Char → Components → Prop where
  | joined {y mo d h mi : List Char} {c : Components} : YearText y c.year →
      NumberText mo c.month → NumberText d c.day → NumberText h c.hour →
      NumberText mi c.minute →
      MinuteText (y ++ '-' :: (mo ++ '-' :: (d ++ 'T' :: (h ++ ':' :: mi)))) c

/-- What stands after the minute: nothing, or a colon and the second. -/
inductive SecondText : List Char → Option Nat → Prop where
  | nothing : SecondText [] none
  | colon {last : List Char} {second : Nat} : NumberText last second →
      SecondText (':' :: last) (some second)

/-- Timestamps of both formats: the one that ends with the minute names no second. -/
def Spells (text : List Char) (c : Components) (second : Option Nat) : Prop :=
  ∃ front rest, text = front ++ rest ∧ MinuteText front c ∧ SecondText rest second

/-! ## Reading pieces -/

/-- What follows a number does not go on with a digit. -/
def NoDigit (rest : List Char) : Prop := ∀ c ∈ rest.head?, c.isDigit = false

theorem noDigit_nil : NoDigit [] := by
  intro c hc
  cases hc

theorem noDigit_cons {c : Char} (h : c.isDigit = false) (rest : List Char) :
    NoDigit (c :: rest) := by
  intro d hd
  obtain rfl := Option.some.inj hd
  exact h

/-- A reader that takes just the texts of a kind from the front of a text, as far as
    no further digit follows. -/
structure Reads {α : Type} (reader : List Char → Option (α × List Char))
    (IsText : List Char → α → Prop) : Prop where
  sound {text rest : List Char} {a : α} : reader text = some (a, rest) →
    ∃ part, text = part ++ rest ∧ IsText part a
  complete {part : List Char} {a : α} : IsText part a → ∀ {rest}, NoDigit rest →
    reader (part ++ rest) = some (a, rest)

namespace Reads

variable {α : Type} {reader : List Char → Option (α × List Char)} {IsText : List Char → α → Prop}
  {text part : List Char} {a b : α}

/-- A text is read to its end exactly when it is of the kind. -/
theorem whole (h : Reads reader IsText) : reader text = some (a, []) ↔ IsText text a := by
  constructor
  · intro hread
    obtain ⟨part, rfl, hpart⟩ := h.sound hread
    rw [List.append_nil]
    exact hpart
  · intro htext
    have hread := h.complete htext noDigit_nil
    rwa [List.append_nil] at hread

/-- A text of the kind has one value. -/
theorem unique (h : Reads reader IsText) (ha : IsText text a) (hb : IsText text b) : a = b := by
  have hread := h.whole.mpr ha
  rw [h.whole.mpr hb] at hread
  exact (congrArg Prod.fst (Option.some.inj hread)).symm

/-- Where a value is turned into another one, a text of the value has been read. -/
theorem of_map {β : Type} {f : α → β} {rest : List Char} {v : β} (h : Reads reader IsText)
    (hread : ((reader text).map fun (a, rest) => (f a, rest)) = some (v, rest)) :
    ∃ part a, text = part ++ rest ∧ IsText part a ∧ f a = v := by
  obtain ⟨⟨a, later⟩, ha, hpair⟩ := Option.map_eq_some_iff.mp hread
  obtain ⟨rfl, rfl⟩ := Prod.mk.inj hpair
  obtain ⟨part, rfl, hpart⟩ := h.sound ha
  exact ⟨part, a, rfl, hpart, rfl⟩

end Reads

/-- A character is read from the texts that start with it. -/
theorem literal_eq_some_iff {c : Char} {text rest : List Char} :
    literal c text = some rest ↔ text = c :: rest := by
  cases text with
  | nil => simp [literal]
  | cons d text =>
      rw [literal]
      by_cases hd : d = c
      · rw [if_pos hd, Option.some.injEq, List.cons.injEq]
        exact ⟨fun h => ⟨hd, h⟩, fun h => h.2⟩
      · rw [if_neg hd, List.cons.injEq]
        simp [hd]

theorem literal_cons (c : Char) (rest : List Char) : literal c (c :: rest) = some rest :=
  literal_eq_some_iff.mpr rfl

/-- Of digits and something else the digits are the first run of digits. -/
theorem takeWhile_isDigit_append {number rest : List Char}
    (hnumber : ∀ c ∈ number, c.isDigit = true) (hrest : NoDigit rest) :
    (number ++ rest).takeWhile Char.isDigit = number := by
  rw [List.takeWhile_append_of_pos hnumber]
  cases rest with
  | nil => rw [List.takeWhile_nil, List.append_nil]
  | cons c rest =>
      have hc : c.isDigit = false := hrest c rfl
      rw [List.takeWhile_cons_of_neg (by simp [hc]), List.append_nil]

theorem NoDigit.take {rest : List Char} (h : NoDigit rest) (k : Nat) : NoDigit (rest.take k) := by
  intro c hc
  rw [List.head?_take] at hc
  split at hc
  · cases hc
  · exact h c hc

/-- Digits are read as far as they go and the width allows. -/
theorem reads_digits (width : Nat) :
    Reads (digits width) fun text n => IsDigits text n ∧ text.length ≤ width where
  sound := by
    intro text rest n h
    rw [digits] at h
    -- the run of digits is a prefix of the text, so the text splits where it ends
    obtain ⟨number, hnumber⟩ : ∃ number, number = (text.take width).takeWhile Char.isDigit :=
      ⟨_, rfl⟩
    have hrun : number <+: text.take width := hnumber ▸ List.takeWhile_prefix _
    obtain ⟨later, rfl⟩ := hrun.trans (List.take_prefix width text)
    rw [← hnumber] at h
    split at h
    · cases h
    · next hne =>
        obtain ⟨rfl, rfl⟩ := Prod.mk.inj (Option.some.inj h)
        refine ⟨number, by rw [List.drop_left], ⟨hne, ?_, rfl⟩, ?_⟩
        · intro c hc
          rw [hnumber] at hc
          exact List.mem_takeWhile_imp hc
        · exact hrun.length_le.trans (List.length_take_le _ _)
  complete := by
    rintro number n ⟨⟨hne, hdigits, rfl⟩, hwidth⟩ rest hrest
    -- either the width cuts off the rest, or its first character is no digit
    have hrun : ((number ++ rest).take width).takeWhile Char.isDigit = number := by
      rw [List.take_append, List.take_of_length_le hwidth]
      exact takeWhile_isDigit_append hdigits (hrest.take _)
    rw [digits, hrun, List.drop_left]
    exact if_neg hne

/-- All digits are read, however many there are. -/
theorem reads_allDigits : Reads allDigits IsDigits where
  sound := by
    intro text rest n h
    obtain ⟨number, htext, hnumber, -⟩ := (reads_digits _).sound h
    exact ⟨number, htext, hnumber⟩
  complete := by
    intro number n hnumber rest hrest
    refine (reads_digits _).complete ⟨hnumber, ?_⟩ hrest
    rw [List.length_append]
    exact Nat.le_add_right _ _

/-! ## Blanks before a number -/

theorem isBlank_of_isDigit {c : Char} (h : c.isDigit = true) : isBlank c = false := by
  obtain ⟨hlow, hhigh⟩ := Char.isDigit_iff_toNat.mp h
  have hlow : 48 ≤ c.toNat := hlow
  have hhigh : c.toNat ≤ 57 := hhigh
  simp only [isBlank, Bool.or_eq_false_iff, Bool.and_eq_false_iff, decide_eq_false_iff_not]
  omega

/-- The blanks before a text are those up to its first other character. -/
theorem dropBlanks_append {blanks : List Char} {c : Char} (hblanks : IsBlanks blanks)
    (hc : isBlank c = false) (rest : List Char) :
    dropBlanks (blanks ++ c :: rest) = c :: rest := by
  rw [dropBlanks, List.dropWhile_append_of_pos hblanks]
  exact List.dropWhile_cons_of_neg (by simp [hc])

/-- A text is its white space and what is left without it. -/
theorem exists_blanks (text : List Char) :
    ∃ blanks, IsBlanks blanks ∧ text = blanks ++ dropBlanks text :=
  ⟨text.takeWhile isBlank, fun _ => List.mem_takeWhile_imp,
    List.takeWhile_append_dropWhile.symm⟩

/-- White space before digits is dropped, and no digit is. -/
theorem dropBlanks_append_digits {blanks number : List Char} {n : Nat} (hblanks : IsBlanks blanks)
    (hnumber : IsDigits number n) (rest : List Char) :
    dropBlanks (blanks ++ (number ++ rest)) = number ++ rest := by
  cases number with
  | nil => exact absurd rfl hnumber.nonempty
  | cons c number =>
      have hc := isBlank_of_isDigit (hnumber.digits c (List.mem_cons_self ..))
      exact dropBlanks_append hblanks hc _

/-- Numbers of two digits are read, with white space in front of them. -/
theorem reads_twoDigits : Reads twoDigits NumberText where
  sound := by
    intro text rest n h
    obtain ⟨blanks, hblanks, htext⟩ := exists_blanks text
    obtain ⟨number, hsplit, hnumber, hlength⟩ := (reads_digits 2).sound h
    rw [htext, hsplit, ← List.append_assoc]
    exact ⟨_, rfl, .digits hblanks hnumber hlength⟩
  complete := by
    rintro part n ⟨hblanks, hnumber, hlength⟩ rest hrest
    rw [twoDigits, List.append_assoc, dropBlanks_append_digits hblanks hnumber]
    exact (reads_digits 2).complete ⟨hnumber, hlength⟩ hrest

/-! ## Years -/

/-- Digits are not the start of anything else. -/
theorem IsDigits.head_ne {number rest more : List Char} {n : Nat} {c : Char}
    (hnumber : IsDigits number n) (hc : c.isDigit = false) : number ++ rest ≠ c :: more := by
  intro heq
  cases number with
  | nil => exact hnumber.nonempty rfl
  | cons d number =>
      obtain rfl := (List.cons.inj heq).1
      rw [hnumber.digits d (List.mem_cons_self ..)] at hc
      cases hc

/-- Years are read, by the sign that they have or do not have. -/
theorem reads_year : Reads year YearText where
  sound := by
    intro text rest y h
    obtain ⟨blanks, hblanks, htext⟩ := exists_blanks text
    rw [year] at h
    split at h
    · next later heq =>
        obtain ⟨number, n, rfl, hnumber, rfl⟩ := reads_allDigits.of_map h
        rw [htext, heq, ← List.cons_append, ← List.append_assoc]
        exact ⟨_, rfl, .plus hblanks hnumber⟩
    · next later heq =>
        obtain ⟨number, n, rfl, hnumber, rfl⟩ :=
          reads_allDigits.of_map (f := fun n : Nat => -(n : Int)) h
        rw [htext, heq, ← List.cons_append, ← List.append_assoc]
        exact ⟨_, rfl, .minus hblanks hnumber⟩
    · obtain ⟨number, n, hsplit, ⟨hnumber, hlength⟩, rfl⟩ := (reads_digits 4).of_map h
      rw [htext, hsplit, ← List.append_assoc]
      exact ⟨_, rfl, .plain hblanks hnumber hlength⟩
  complete := by
    intro part y hpart rest hrest
    cases hpart with
    | plain hblanks hnumber hlength =>
        -- a digit comes first, so neither of the signs is tried
        rw [year, List.append_assoc, dropBlanks_append_digits hblanks hnumber]
        split
        · next heq => exact absurd heq (hnumber.head_ne rfl)
        · next heq => exact absurd heq (hnumber.head_ne rfl)
        · rw [(reads_digits 4).complete ⟨hnumber, hlength⟩ hrest, Option.map_some]
    | plus hblanks hnumber =>
        rw [year, List.append_assoc, List.cons_append, dropBlanks_append hblanks rfl]
        show (allDigits _).map _ = _
        rw [reads_allDigits.complete hnumber hrest, Option.map_some]
    | minus hblanks hnumber =>
        rw [year, List.append_assoc, List.cons_append, dropBlanks_append hblanks rfl]
        show (allDigits _).map _ = _
        rw [reads_allDigits.complete hnumber hrest, Option.map_some]

/-! ## Whole texts -/

/-- The pieces are read one after the other, as each is followed by a mark that is no
    digit. -/
theorem reads_throughMinute : Reads throughMinute MinuteText where
  sound := by
    intro text rest c h
    simp only [throughMinute, Option.bind_eq_bind, Option.bind_eq_some_iff, Prod.exists,
      literal_eq_some_iff] at h
    obtain ⟨y, _, hy, _, rfl, mo, _, hmo, _, rfl, d, _, hd, _, rfl, hour, _, hh, _, rfl,
      mi, _, hmi, hend⟩ := h
    obtain ⟨rfl, rfl⟩ := Prod.mk.inj (Option.some.inj hend)
    obtain ⟨_, rfl, hyear⟩ := reads_year.sound hy
    obtain ⟨_, rfl, hmonth⟩ := reads_twoDigits.sound hmo
    obtain ⟨_, rfl, hday⟩ := reads_twoDigits.sound hd
    obtain ⟨_, rfl, hhour⟩ := reads_twoDigits.sound hh
    obtain ⟨_, rfl, hminute⟩ := reads_twoDigits.sound hmi
    refine ⟨_, ?_, .joined hyear hmonth hday hhour hminute⟩
    simp only [List.append_assoc, List.cons_append]
  complete := by
    rintro part c ⟨hy, hmo, hd, hh, hmi⟩ rest hrest
    -- bring each mark next to the piece before it, whose digits it ends
    simp only [List.append_assoc, List.cons_append]
    rw [throughMinute, reads_year.complete hy (noDigit_cons rfl _)]
    simp only [Option.bind_eq_bind, Option.bind_some, literal_cons]
    rw [reads_twoDigits.complete hmo (noDigit_cons rfl _)]
    simp only [Option.bind_some, literal_cons]
    rw [reads_twoDigits.complete hd (noDigit_cons rfl _)]
    simp only [Option.bind_some, literal_cons]
    rw [reads_twoDigits.complete hh (noDigit_cons rfl _)]
    simp only [Option.bind_some, literal_cons]
    rw [reads_twoDigits.complete hmi hrest]
    rfl

/-- What stands after the minute does not go on with its digits. -/
theorem SecondText.noDigit {rest : List Char} {second : Option Nat} (h : SecondText rest second) :
    NoDigit rest := by
  cases h with
  | nothing => exact noDigit_nil
  | colon _ => exact noDigit_cons rfl _

/-- What stands after the minute names one second, or none. -/
theorem SecondText.unique {rest : List Char} {second second' : Option Nat}
    (h : SecondText rest second) (h' : SecondText rest second') : second = second' := by
  cases h with
  | nothing =>
      cases h'
      rfl
  | colon hlast =>
      cases h' with
      | colon hlast' => rw [reads_twoDigits.unique hlast hlast']

/-- **ONE WAY**: a text names one date, one time as far as the minute, and one second
    or none. -/
theorem Spells.unique {text : List Char} {c c' : Components} {second second' : Option Nat}
    (h : Spells text c second) (h' : Spells text c' second') : c = c' ∧ second = second' := by
  obtain ⟨front, rest, rfl, hfront, hrest⟩ := h
  obtain ⟨front', rest', hsplit, hfront', hrest'⟩ := h'
  have hread := reads_throughMinute.complete hfront hrest.noDigit
  rw [hsplit, reads_throughMinute.complete hfront' hrest'.noDigit] at hread
  obtain ⟨rfl, rfl⟩ := Prod.mk.inj (Option.some.inj hread)
  exact ⟨rfl, hrest.unique hrest'⟩

/-- The format without seconds is read from the texts that name no second. -/
theorem ofMinutes?_eq_some_iff {text : List Char} {t : DateTime} :
    ofMinutes? text = some t ↔ ∃ c, Spells text c none ∧ c.withSecond? 0 = some t := by
  constructor
  · intro h
    obtain ⟨⟨c, rest⟩, hread, hend⟩ := Option.bind_eq_some_iff.mp h
    obtain ⟨rfl, hdate⟩ := (Option.ite_none_right_eq_some).mp hend
    exact ⟨c, ⟨text, [], (List.append_nil text).symm, reads_throughMinute.whole.mp hread,
      .nothing⟩, hdate⟩
  · rintro ⟨c, ⟨front, _, rfl, hfront, hrest⟩, hdate⟩
    cases hrest with
    | nothing =>
        rw [ofMinutes?, reads_throughMinute.complete hfront noDigit_nil]
        exact hdate

/-- The format with seconds is read from the texts that name a second. -/
theorem ofSeconds?_eq_some_iff {text : List Char} {t : DateTime} :
    ofSeconds? text = some t ↔
      ∃ c second, Spells text c (some second) ∧ c.withSecond? second = some t := by
  constructor
  · intro h
    obtain ⟨⟨c, rest⟩, hread, hrest⟩ := Option.bind_eq_some_iff.mp h
    obtain ⟨last, hcolon, hlast⟩ := Option.bind_eq_some_iff.mp hrest
    obtain ⟨⟨second, after⟩, hsecond, hend⟩ := Option.bind_eq_some_iff.mp hlast
    obtain ⟨rfl, hdate⟩ := (Option.ite_none_right_eq_some).mp hend
    obtain rfl := literal_eq_some_iff.mp hcolon
    obtain ⟨front, rfl, hfront⟩ := reads_throughMinute.sound hread
    exact ⟨c, second, ⟨front, _, rfl, hfront, .colon (reads_twoDigits.whole.mp hsecond)⟩, hdate⟩
  · rintro ⟨c, second, ⟨front, _, rfl, hfront, hrest⟩, hdate⟩
    cases hrest with
    | colon hlast =>
        rw [ofSeconds?, reads_throughMinute.complete hfront (noDigit_cons rfl _)]
        simp only [Option.bind_eq_bind, Option.bind_some, literal_cons]
        rw [reads_twoDigits.whole.mpr hlast]
        exact hdate

/-! ## What a text denotes -/

/-- The date-time that some components and a second stand for. The second 60 is a
    leap second, and there is no fraction. -/
structure Denotes (c : Components) (second : Nat) (t : DateTime) : Prop where
  year : t.year = c.year
  month : t.month = c.month
  day : t.day = c.day
  hour : t.hour = c.hour
  minute : t.minute = c.minute
  second : t.second + t.nanosecond / 1000000000 = second
  fraction : t.nanosecond % 1000000000 = 0

/-- Components and a second make just the date-time that they stand for. -/
theorem withSecond?_eq_some_iff {c : Components} {second : Nat} {t : DateTime} :
    c.withSecond? second = some t ↔ Denotes c second t := by
  obtain ⟨-, -, hsecond, hnanosecond⟩ := t.isTimeOfDay
  rw [Components.withSecond?]
  constructor
  · intro h
    split at h
    · next hleap =>
        obtain ⟨hy, hmo, hd, hh, hmi, hs, hn⟩ := DateTime.of?_eq_some h
        exact ⟨hy, hmo, hd, hh, hmi, by rw [hs, hn, hleap], by rw [hn]⟩
    · obtain ⟨hy, hmo, hd, hh, hmi, hs, hn⟩ := DateTime.of?_eq_some h
      exact ⟨hy, hmo, hd, hh, hmi, by rw [hs, hn, Nat.zero_div, Nat.add_zero], by rw [hn]⟩
  · rintro ⟨hy, hmo, hd, hh, hmi, hs, hn⟩
    rw [← hy, ← hmo, ← hd, ← hh, ← hmi]
    split
    · obtain ⟨hlast, hleap⟩ : t.second = 59 ∧ t.nanosecond = 1000000000 := by omega
      rw [← hlast, ← hleap]
      exact t.of?_self
    · obtain ⟨hsame, hwhole⟩ : t.second = second ∧ t.nanosecond = 0 := by omega
      rw [← hsame, ← hwhole]
      exact t.of?_self

/-- No text is read in both formats. -/
theorem ofMinutes?_or_ofSeconds?_none (text : List Char) :
    ofMinutes? text = none ∨ ofSeconds? text = none := by
  cases hminutes : ofMinutes? text with
  | none => exact Or.inl rfl
  | some t =>
      cases hseconds : ofSeconds? text with
      | none => exact Or.inr rfl
      | some u =>
          obtain ⟨c, hspells, -⟩ := ofMinutes?_eq_some_iff.mp hminutes
          obtain ⟨c', second, hspells', -⟩ := ofSeconds?_eq_some_iff.mp hseconds
          cases (hspells.unique hspells').2

/-- **WHAT IS READ** is the date-time that a text of either format denotes. -/
theorem read?_eq_some_iff {text : String} {t : DateTime} :
    read? text = some t ↔
      ∃ c second, Spells text.toList c second ∧ Denotes c (second.getD 0) t := by
  rw [read?, Option.orElse_eq_some]
  constructor
  · rintro (h | ⟨-, h⟩)
    · obtain ⟨c, hspells, hdate⟩ := ofMinutes?_eq_some_iff.mp h
      exact ⟨c, none, hspells, withSecond?_eq_some_iff.mp hdate⟩
    · obtain ⟨c, second, hspells, hdate⟩ := ofSeconds?_eq_some_iff.mp h
      exact ⟨c, some second, hspells, withSecond?_eq_some_iff.mp hdate⟩
  · rintro ⟨c, second, hspells, hdenotes⟩
    have hdate := withSecond?_eq_some_iff.mpr hdenotes
    cases second with
    | none => exact Or.inl (ofMinutes?_eq_some_iff.mpr ⟨c, hspells, hdate⟩)
    | some second =>
        have hseconds := ofSeconds?_eq_some_iff.mpr ⟨c, second, hspells, hdate⟩
        refine Or.inr ⟨(ofMinutes?_or_ofSeconds?_none _).resolve_right ?_, hseconds⟩
        rw [hseconds]
        exact Option.some_ne_none t

/-! ## Written timestamps -/

/-- A date-time as far as the minute, in the format `%Y-%m-%dT%H:%M`. -/
def minuteChars (t : DateTime) : List Char :=
  Display.year t.year ++ '-' :: (padded 2 t.month ++ '-' :: (padded 2 t.day ++ 'T' ::
    (padded 2 t.hour ++ ':' :: padded 2 t.minute)))

/-- A date-time in the format without seconds. -/
def minutesText (t : DateTime) : String := String.ofList (minuteChars t)

/-- The second of a date-time as it is written, 60 for a leap second. -/
def writtenSecond (t : DateTime) : Nat := t.second + t.nanosecond / 1000000000

/-- A date-time to the second, in the format `%Y-%m-%dT%H:%M:%S`. -/
def secondsText (t : DateTime) : String :=
  String.ofList (minuteChars t ++ ':' :: padded 2 (writtenSecond t))

theorem isDigits_padded (width n : Nat) : IsDigits (padded width n) n :=
  ⟨padded_ne_nil width n, fun _ => isDigit_of_mem_padded, ofDigitChars_padded width n⟩

theorem isBlanks_nil : IsBlanks [] := by
  intro c hc
  cases hc

/-- Two digits are a number of a timestamp. -/
theorem numberText_padded {n : Nat} (h : n < 100) : NumberText (padded 2 n) n := by
  have htext : NumberText ([] ++ padded 2 n) n :=
    .digits isBlanks_nil (isDigits_padded 2 n) (length_padded_le (by decide) h)
  exact htext

/-- A year is written in a way that is read: with a sign outside of 0 to 9999. -/
theorem yearText_year (y : Int) : YearText (Display.year y) y := by
  have hdigits := isDigits_padded 4 y.natAbs
  rw [Display.year]
  split
  · have htext : YearText ([] ++ '-' :: padded 4 y.natAbs) (-(y.natAbs : Int)) :=
      .minus isBlanks_nil hdigits
    rwa [show -(y.natAbs : Int) = y by omega] at htext
  · have hsame : (y.natAbs : Int) = y := by omega
    split
    · have htext : YearText ([] ++ padded 4 y.natAbs) (y.natAbs : Int) :=
        .plain isBlanks_nil hdigits (length_padded_le (by decide) (by omega))
      rwa [hsame] at htext
    · have htext : YearText ([] ++ '+' :: padded 4 y.natAbs) (y.natAbs : Int) :=
        .plus isBlanks_nil hdigits
      rwa [hsame] at htext

/-- The components of a date-time as far as the minute. -/
def componentsOf (t : DateTime) : Components := ⟨t.year, t.month, t.day, t.hour, t.minute⟩

/-- What is written of a date-time as far as the minute spells its components. -/
theorem minuteText_minuteChars (t : DateTime) : MinuteText (minuteChars t) (componentsOf t) := by
  obtain ⟨-, -, -, hmonth, -, hday, hhour, hminute⟩ := t.component_bounds
  exact .joined (yearText_year t.year) (numberText_padded (by show t.month < 100; omega))
    (numberText_padded (by show t.day < 100; omega))
    (numberText_padded (by show t.hour < 100; omega))
    (numberText_padded (by show t.minute < 100; omega))

/-- A date-time without a fraction is read back from its text with seconds. -/
theorem read?_secondsText {t : DateTime} (h : t.nanosecond % 1000000000 = 0) :
    read? (secondsText t) = some t := by
  obtain ⟨-, -, hsecond, hnanosecond⟩ := t.isTimeOfDay
  have hlast : writtenSecond t < 100 := by
    rw [writtenSecond]
    omega
  refine read?_eq_some_iff.mpr ⟨componentsOf t, some (writtenSecond t), ?_,
    ⟨rfl, rfl, rfl, rfl, rfl, rfl, h⟩⟩
  rw [secondsText, String.toList_ofList]
  exact ⟨_, _, rfl, minuteText_minuteChars t, .colon (numberText_padded hlast)⟩

/-- A whole minute is read back from its text without seconds. -/
theorem read?_minutesText {t : DateTime} (h : t.IsWholeMinute) :
    read? (minutesText t) = some t := by
  refine read?_eq_some_iff.mpr ⟨componentsOf t, none, ?_, ⟨rfl, rfl, rfl, rfl, rfl, ?_, ?_⟩⟩
  · rw [minutesText, String.toList_ofList]
    exact ⟨_, _, (List.append_nil _).symm, minuteText_minuteChars t, .nothing⟩
  · rw [h.second, h.nanosecond]
    rfl
  · rw [h.nanosecond]

/-- **NO AMBIGUITY**. A date-time without a fraction of a second is read back from its
    text with seconds, and one of a whole minute from its text without them as well,
    in every year that can be represented. No text is read in both formats, so it
    does not matter which one is tried first. And every text that is read names, in
    one way only, an existing date and a time of day with at most the second 60,
    which together are what it is read as. -/
theorem read?_unambiguous :
    (∀ t : DateTime, t.nanosecond % 1000000000 = 0 → read? (secondsText t) = some t) ∧
      (∀ t : DateTime, t.second = 0 → t.nanosecond = 0 → read? (minutesText t) = some t) ∧
      (∀ text, (ofMinutes? text = none ∨ ofSeconds? text = none) ∧
        (ofMinutes? text <|> ofSeconds? text) = (ofSeconds? text <|> ofMinutes? text)) ∧
      ∀ text t, read? text = some t →
        ∃ c second, Spells text.toList c second ∧
          (∀ c' second', Spells text.toList c' second' → c' = c ∧ second' = second) ∧
          Calendar.IsDate c.year c.month c.day ∧ c.hour ≤ 23 ∧ c.minute ≤ 59 ∧
          second.getD 0 ≤ 60 ∧ Denotes c (second.getD 0) t := by
  refine ⟨fun t => read?_secondsText, fun t hs hn => read?_minutesText ⟨hs, hn⟩,
    fun text => ⟨ofMinutes?_or_ofSeconds?_none text, ?_⟩, ?_⟩
  · rcases ofMinutes?_or_ofSeconds?_none text with h | h
    · rw [h]
      cases ofSeconds? text <;> rfl
    · rw [h]
      cases ofMinutes? text <;> rfl
  · intro text t h
    obtain ⟨c, second, hspells, hdenotes⟩ := read?_eq_some_iff.mp h
    obtain ⟨hhour, hminute, hsecond, hnanosecond⟩ := t.isTimeOfDay
    refine ⟨c, second, hspells, fun c' second' h' => h'.unique hspells, ?_, ?_, ?_, ?_, hdenotes⟩
    · rw [← hdenotes.year, ← hdenotes.month, ← hdenotes.day]
      exact t.isDate
    · rw [← hdenotes.hour]
      exact hhour
    · rw [← hdenotes.minute]
      exact hminute
    · rw [← hdenotes.second]
      omega

/-- Noon on the first day that can be represented. -/
def firstNoon : DateTime := (DateTime.of? (-262143) 1 1 12 0 0 0).get (by decide)

/-- A leap second at the end of the last year that can be represented. -/
def lastLeapSecond : DateTime := (DateTime.of? 262142 12 31 23 59 59 1000000000).get (by decide)

/-- A morning of a leap day. -/
def leapMorning : DateTime := (DateTime.of? 2024 2 29 7 5 0 0).get (by decide)

/-- A leap second at one end of time and a noon at the other, and a text with white
    space in it. -/
theorem read?_unambiguous_atBothEnds :
    (lastLeapSecond.nanosecond % 1000000000 = 0 ∧
        secondsText lastLeapSecond = "+262142-12-31T23:59:60" ∧
        read? "+262142-12-31T23:59:60" = some lastLeapSecond) ∧
      ((firstNoon.second = 0 ∧ firstNoon.nanosecond = 0) ∧
        minutesText firstNoon = "-262143-01-01T12:00" ∧
        read? "-262143-01-01T12:00" = some firstNoon) ∧
      read? " 2024- 2-29T 7: 5" = some leapMorning ∧
        ∃ c second, Spells " 2024- 2-29T 7: 5".toList c second ∧
          Calendar.IsDate c.year c.month c.day ∧ Denotes c (second.getD 0) leapMorning := by
  have hlast : secondsText lastLeapSecond = "+262142-12-31T23:59:60" := by decide
  have hfirst : minutesText firstNoon = "-262143-01-01T12:00" := by decide
  have hblanks : read? " 2024- 2-29T 7: 5" = some leapMorning := by decide
  obtain ⟨hseconds, hminutes, -, hread⟩ := read?_unambiguous
  refine ⟨⟨by decide, hlast, ?_⟩, ⟨by decide, hfirst, ?_⟩, hblanks, ?_⟩
  · rw [← hlast]
    exact hseconds lastLeapSecond (by decide)
  · rw [← hfirst]
    exact hminutes firstNoon (by decide) (by decide)
  · obtain ⟨c, second, hspells, -, hdate, -, -, -, hdenotes⟩ := hread _ _ hblanks
    exact ⟨c, second, hspells, hdate, hdenotes⟩

end Timestamp

end CronCalendar
