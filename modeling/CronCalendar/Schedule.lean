import CronCalendar.Field.Values

/-!
# Schedules — what a cron expression means

A schedule selects minutes by five sets of values, all of which have to admit the minute, and may
carry a command word. Its canonical text lists the values of each field and ends with the command.
-/

namespace CronCalendar

/-- The word that follows the five fields of an expression. -/
structure Command where
  text : String
  nonempty : text.toList ≠ []
  no_space : ' ' ∉ text.toList
deriving DecidableEq

/-- The command that a token stands for; an empty token, or one with a space, stands for none. -/
def Command.ofToken? (token : List Char) : Option Command :=
  if h : token ≠ [] ∧ ' ' ∉ token then
    some ⟨String.ofList token, by simpa using h.1, by simpa using h.2⟩
  else none

/-- Commands are ordered by their texts. -/
instance : Ord Command := ⟨compareOn Command.text⟩

/-- The values of the five fields, and the command. -/
structure Schedule where
  minutes : Values Field.minute.bounds
  hours : Values Field.hour.bounds
  days : Values Field.day.bounds
  months : Values Field.month.bounds
  weekdays : Values Field.weekday.bounds
  command : Option Command
deriving DecidableEq

/-- The values, in decimal, between commas. -/
def Values.chars {b : Bounds} (s : Values b) : List Char :=
  [','].intercalate (s.toList.map Numeral.digits)

/-- The values, in decimal, between commas. -/
def Values.text {b : Bounds} (s : Values b) : String := String.ofList s.chars

namespace Schedule

/-- The words of a schedule: its five fields, and its command if it has one. -/
def words (s : Schedule) : List (List Char) :=
  [s.minutes.chars, s.hours.chars, s.days.chars, s.months.chars, s.weekdays.chars] ++
    (s.command.map (·.text.toList)).toList

/-- The canonical text: the values of each field and the command, between spaces. -/
def text (s : Schedule) : String := String.ofList ([' '].intercalate s.words)

/-- Schedules compare field by field, and by the command last. -/
instance : Ord Schedule :=
  ⟨compareLex (compareOn minutes) <| compareLex (compareOn hours) <| compareLex (compareOn days) <|
    compareLex (compareOn months) <| compareLex (compareOn weekdays) (compareOn command)⟩

end Schedule

end CronCalendar
