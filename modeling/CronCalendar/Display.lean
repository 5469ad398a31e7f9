import CronCalendar.DateTime

/-!
# Display — the text of an event

An event is shown as month, day and year, then the time on a twelve-hour clock. Month, day and hour
are not filled up. Years from 0 to 9999 have four digits, all others a sign and at least four.
-/

namespace CronCalendar.Display

/-- The format of an event, in the usual notation for formats of times. -/
def format : String := "%-m/%-d/%Y, %-I:%M:%S %p"

/-- A year as `%Y` writes it: at least four digits, and a sign outside of 0 to 9999. -/
def year (y : Int) : List Char :=
  if y < 0 then '-' :: Numeral.padded 4 y.natAbs
  else if y ≤ 9999 then Numeral.padded 4 y.natAbs
  else '+' :: Numeral.padded 4 y.natAbs

/-- The hour on a twelve-hour clock. -/
def clockHour (hour : Nat) : Nat := if hour % 12 = 0 then 12 else hour % 12

/-- The half of the day that an hour belongs to. -/
def halfOfDay (hour : Nat) : List Char := if hour < 12 then ['A', 'M'] else ['P', 'M']

/-- The characters of an event: the date and the time on a clock with twelve hours. -/
def eventChars (t : DateTime) : List Char :=
  Numeral.digits t.month ++ '/' :: Numeral.digits t.day ++ '/' :: year t.year ++ ',' :: ' ' ::
    Numeral.digits (clockHour t.hour) ++ ':' :: Numeral.padded 2 t.minute ++
    ':' :: Numeral.padded 2 t.second ++ ' ' :: halfOfDay t.hour

/-- The text of an event. -/
def event (t : DateTime) : String := String.ofList (eventChars t)

end CronCalendar.Display
