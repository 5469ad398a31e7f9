import CronCalendar.Proofs.Field.Grammar
import CronCalendar.Schedule.Parse

/-!
# Canonical texts — reading them gives the schedule back

The text of a schedule is written by joining, first digits, then numbers, then
fields, and read by splitting in the opposite order. Each joint is clean: no
number holds a comma, no field holds a space, and a command is one word. So
every split finds exactly what was joined (`parse_text_eq`).
-/

namespace CronCalendar

open Numeral

/-! ## The text of a field -/

/-- A character of joined texts is the separator or belongs to one of them. -/
theorem Text.eq_or_mem_of_mem_intercalate {sep c : Char} :
    ∀ (texts : List (List Char)), c ∈ [sep].intercalate texts →
      c = sep ∨ ∃ text ∈ texts, c ∈ text := by
  intro texts
  induction texts with
  | nil => intro h; cases h
  | cons first more ih =>
      intro h
      cases more with
      | nil =>
          rw [List.intercalate_singleton] at h
          exact Or.inr ⟨first, List.mem_cons_self .., h⟩
      | cons second more =>
          rw [List.intercalate_cons_cons, List.mem_append, List.mem_append] at h
          rcases h with (h | h) | h
          · exact Or.inr ⟨first, List.mem_cons_self .., h⟩
          · exact Or.inl (List.mem_singleton.mp h)
          · rcases ih h with h | ⟨text, ht, hc⟩
            · exact Or.inl h
            · exact Or.inr ⟨text, List.mem_cons_of_mem _ ht, hc⟩

namespace Values

variable {b : Bounds}

theorem space_not_mem_chars (V : Values b) : ' ' ∉ V.chars := by
  intro h
  rcases Text.eq_or_mem_of_mem_intercalate _ h with h | ⟨text, ht, hc⟩
  · exact absurd h (by decide)
  · obtain ⟨v, -, rfl⟩ := List.mem_map.mp ht
    exact not_mem_digits rfl hc

/-- The commas of a text of values are the ones between the numbers. -/
theorem parts_chars (V : Values b) : Field.parts V.chars = V.toList.map digits := by
  refine List.splitOn_intercalate ',' ?_ ?_
  · intro text ht
    obtain ⟨v, -, rfl⟩ := List.mem_map.mp ht
    exact not_mem_digits rfl
  · intro h
    exact V.nonempty (List.map_eq_nil_iff.mp h)

end Values

namespace Field

/-- A written number inside the bounds is read as the set of that number. -/
theorem partValues_digits {b : Bounds} {v : Nat} (h : b.low ≤ v ∧ v ≤ b.high) :
    ∃ W, partValues b (digits v) = .ok W ∧ ∀ x, x ∈ W ↔ x = v := by
  have hn : IsFieldNumber (digits v) v := ⟨isNumeral_digits v, h.2.trans b.high_le⟩
  have hread : Part.read (digits v) = .ok ⟨.single v, none⟩ :=
    (Part.read_of_plain (not_mem_digits rfl)).mpr ⟨_, Span.read_of_number hn, rfl⟩
  have hin : b.low ≤ v ∧ v ≤ b.high ∧ v ≤ v := ⟨h.1, h.2, Nat.le_refl v⟩
  refine ⟨Values.stretch v v ⟨1, Nat.one_pos⟩ hin, ?_, fun x => ?_⟩
  · exact partValues_eq_ok_iff.mpr ⟨_, hread, hin, rfl⟩
  · rw [Values.mem_stretch hin]
    constructor
    · rintro ⟨k, rfl, hle⟩
      omega
    · rintro rfl
      exact ⟨0, by omega, Nat.le_refl x⟩

/-- **VALUES** written between commas are read as the same values. -/
theorem parse_chars {b : Bounds} (V : Values b) : parse b V.chars = .ok V := by
  rw [parse_eq_ok_iff_parts, V.parts_chars]
  constructor
  · intro text ht
    obtain ⟨v, hv, rfl⟩ := List.mem_map.mp ht
    obtain ⟨W, hW, -⟩ := partValues_digits (V.within v hv)
    exact ⟨W, hW⟩
  · intro x
    constructor
    · intro hx
      obtain ⟨W, hW, hmem⟩ := partValues_digits (V.within x hx)
      exact ⟨digits x, List.mem_map_of_mem hx, W, hW, (hmem x).mpr rfl⟩
    · rintro ⟨text, ht, W, hW, hx⟩
      -- the text is that of some value, and it is read as this value only
      obtain ⟨v, hv, rfl⟩ := List.mem_map.mp ht
      obtain ⟨W', hW', hmem⟩ := partValues_digits (V.within v hv)
      rw [hW, Except.ok.injEq] at hW'
      subst hW'
      rw [(hmem x).mp hx]
      exact hv

/-- A field reads the text of its values as these values. -/
theorem read_chars {field : Field} (V : Values field.bounds) : field.read V.chars = .ok V := by
  rw [Field.read, parse_chars]

end Field

/-! ## The text of a schedule -/

/-- The text of a command is read as this command. -/
theorem Command.ofToken?_text (c : Command) : Command.ofToken? c.text.toList = some c := by
  rw [Command.ofToken?, dif_pos ⟨c.nonempty, c.no_space⟩]
  simp only [String.ofList_toList]

namespace Schedule

theorem space_not_mem_words (s : Schedule) : ∀ word ∈ s.words, ' ' ∉ word := by
  intro word h
  rcases List.mem_append.mp h with h | h
  · simp only [List.mem_cons, List.not_mem_nil, or_false] at h
    rcases h with rfl | rfl | rfl | rfl | rfl <;> exact Values.space_not_mem_chars _
  · cases hc : s.command with
    | none =>
        rw [hc] at h
        cases h
    | some command =>
        rw [hc] at h
        obtain rfl := List.mem_singleton.mp h
        exact command.no_space

/-- The tokens of the text of a schedule are its words. -/
theorem tokens_text (s : Schedule) : tokens s.text = s.words := by
  rw [tokens, text, String.toList_ofList]
  exact List.splitOn_intercalate ' ' s.space_not_mem_words (List.cons_ne_nil _ _)

/-- The words of a schedule are read as this schedule. -/
theorem ofTokens_chars (s : Schedule) :
    ofTokens s.minutes.chars s.hours.chars s.days.chars s.months.chars s.weekdays.chars s.command
      = .ok s := by
  simp only [ofTokens, Field.read_chars]
  rfl

/-- **A ROUND TRIP**: the text of a schedule is read as this schedule. -/
theorem parse_text_eq (s : Schedule) : parse s.text = .ok s := by
  have h := ofTokens_chars s
  rw [parse, tokens_text, words]
  cases hc : s.command with
  | none =>
      rw [hc] at h
      exact h
  | some command =>
      rw [hc] at h
      show ofTokens _ _ _ _ _ (Command.ofToken? command.text.toList) = .ok s
      rw [Command.ofToken?_text]
      exact h

theorem text_injective {s t : Schedule} (h : s.text = t.text) : s = t := by
  have hs := parse_text_eq s
  rw [h, parse_text_eq t] at hs
  exact (Except.ok.inj hs).symm

/-! ## Schedules inside other notations -/

/-- A schedule as a string of another notation, which writes strings by
    `quote`. -/
def serialize (quote : String → String) (s : Schedule) : String := quote s.text

/-- Reads a schedule from a string of another notation; none if `unquote` finds
    no string. -/
def deserialize (unquote : String → Option String) (source : String) :
    Option (Except ExpressionError Schedule) :=
  (unquote source).map parse

/-- **ROUND TRIP**: reading the canonical text of a schedule gives the schedule,
    command included, and reading the text of a field gives its values. So the
    canonical text is a fixed point, it tells schedules apart, and it survives
    every notation that loses no string. -/
theorem parse_text_roundTrip :
    (∀ s : Schedule, parse s.text = .ok s) ∧
      (∀ (b : Bounds) (V : Values b), Field.parse b V.text.toList = .ok V) ∧
      (∀ (field : Field) (V : Values field.bounds), field.read V.text.toList = .ok V) ∧
      (∀ s : Schedule, (parse s.text).map text = .ok s.text) ∧
      (∀ s t : Schedule, s = t ↔ s.text = t.text) ∧
      (∀ (quote : String → String) (unquote : String → Option String),
        (∀ string, unquote (quote string) = some string) →
          ∀ s, deserialize unquote (serialize quote s) = some (.ok s)) := by
  refine ⟨parse_text_eq, ?_, ?_, ?_, ?_, ?_⟩
  · intro b V
    rw [Values.text, String.toList_ofList, Field.parse_chars]
  · intro field V
    rw [Values.text, String.toList_ofList, Field.read_chars]
  · intro s
    rw [parse_text_eq]
    rfl
  · intro s t
    exact ⟨congrArg text, text_injective⟩
  · intro quote unquote lossless s
    rw [deserialize, serialize, lossless, Option.map_some, parse_text_eq]

/-- A string with a quotation mark on either side. -/
def inQuotes (string : String) : String := String.ofList ('"' :: string.toList ++ ['"'])

/-- What stands between two quotation marks, at both ends of a text. -/
def betweenQuotes (source : String) : Option String :=
  match source.toList with
  | '"' :: rest => if rest.getLast? = some '"' then some (String.ofList rest.dropLast) else none
  | _ => none

/-- Between the quotation marks the string is as before. -/
theorem betweenQuotes_inQuotes (string : String) :
    betweenQuotes (inQuotes string) = some string := by
  simp [betweenQuotes, inQuotes]

/-- A leap day that is a Sunday, with a command. -/
def leapSunday : Schedule where
  minutes := ⟨[0], by simp, by simp, by simp [Field.bounds]⟩
  hours := ⟨[0], by simp, by simp, by simp [Field.bounds]⟩
  days := ⟨[29], by simp, by simp, by simp [Field.bounds]⟩
  months := ⟨[2], by simp, by simp, by simp [Field.bounds]⟩
  weekdays := ⟨[0], by simp, by simp, by simp [Field.bounds]⟩
  command := some ⟨"leap", by decide, by decide⟩

/-- The schedule of leap days on Sundays, with a command, as a string in quotes. -/
theorem parse_text_roundTrip_leapSunday :
    serialize inQuotes leapSunday = "\"0 0 29 2 0 leap\"" ∧
      parse "0 0 29 2 0 leap" = .ok leapSunday ∧
      deserialize betweenQuotes (serialize inQuotes leapSunday) = some (.ok leapSunday) := by
  have htext : leapSunday.text = "0 0 29 2 0 leap" := by decide
  obtain ⟨hparse, -, -, -, -, hquoted⟩ := parse_text_roundTrip
  refine ⟨?_, ?_, hquoted inQuotes betweenQuotes betweenQuotes_inQuotes leapSunday⟩
  · rw [serialize, htext]
    decide
  · rw [← htext]
    exact hparse leapSunday

end Schedule

end CronCalendar
