import CronCalendar.Numeral

/-!
# Calendar — months, weekdays and day numbers of the Gregorian calendar

The calendar is extended without end in both directions and has a year zero. Month lengths and
weekdays are total functions here; `daysInMonth` and `dayOfWeek` refuse months and dates that do
not exist. Day numbers count the days from the first of January of year 1, which is day 1, and
`ofDayNumber` finds the date of a day number again.
-/

namespace CronCalendar.Calendar

/-! ## Months -/

/-- Every fourth year is a leap year, except for the centuries that 400 does not divide. -/
def isLeapYear (year : Int) : Bool :=
  decide (year % 4 = 0 ∧ (year % 100 ≠ 0 ∨ year % 400 = 0))

/-- The number of days of a month; zero for a number that names no month. -/
def monthLength (year : Int) (month : Nat) : Nat :=
  match month with
  | 1 | 3 | 5 | 7 | 8 | 10 | 12 => 31
  | 4 | 6 | 9 | 11 => 30
  | 2 => if isLeapYear year then 29 else 28
  | _ => 0

/-- Dates that exist. -/
def IsDate (year : Int) (month day : Nat) : Prop :=
  1 ≤ month ∧ month ≤ 12 ∧ 1 ≤ day ∧ day ≤ monthLength year month

/-- Whether a date exists can be computed. -/
instance (year : Int) (month day : Nat) : Decidable (IsDate year month day) :=
  inferInstanceAs (Decidable (_ ∧ _))

theorem monthLength_le (year : Int) (month : Nat) : monthLength year month ≤ 31 := by
  rw [monthLength.eq_def]
  split <;> (try split) <;> omega

/-! ## Weekdays -/

/-- The shift of a month's weekdays against January, in common years and in leap years. -/
def monthShift (leap : Bool) (month : Nat) : Nat :=
  let shifts :=
    if leap then [0, 3, 4, 0, 2, 5, 0, 3, 6, 1, 4, 6] else [0, 3, 3, 6, 1, 4, 6, 2, 5, 0, 3, 5]
  shifts[month - 1]?.getD 0

/-- A number that leaves the weekday of a date when it is divided by seven. Of the years before this
one, each group of 4, of 100 and of 400 moves the weekday on by a fixed amount. -/
def weekdaySum (year : Int) (month day : Nat) : Int :=
  let past := year - 1
  day + monthShift (isLeapYear year) month + 5 * (past % 4) + 4 * (past % 100) + 6 * (past % 400)

/-- The weekday of a date, where Sunday is zero. -/
def weekday (year : Int) (month day : Nat) : Nat := (weekdaySum year month day % 7).toNat

/-! ## Questions about months and dates that need not exist -/

/-- Why something is not in the calendar: there is no such month, or no such date. -/
inductive Absence where
  | noMonth (month : Nat)
  | noDate (year : Int) (month day : Nat)
deriving DecidableEq

/-- A year as it is written in a message: zeros fill it up to four characters, sign included. -/
def yearText (year : Int) : String :=
  String.ofList <|
    if year < 0 then '-' :: Numeral.padded 3 year.natAbs else Numeral.padded 4 year.natAbs

/-- The text of an absence, with the numbers of a date filled up to their usual widths. -/
def Absence.message : Absence → String
  | .noMonth month => "Invalid month: " ++ Numeral.text month
  | .noDate year month day =>
    "Invalid date: " ++ yearText year ++ "-" ++ String.ofList (Numeral.padded 2 month) ++ "-" ++
      String.ofList (Numeral.padded 2 day)

/-- The length of a month, if there is such a month. -/
def daysInMonth (year : Int) (month : Nat) : Except Absence Nat :=
  if 1 ≤ month ∧ month ≤ 12 then .ok (monthLength year month) else .error (.noMonth month)

/-- The weekday of a date, where Sunday is zero. -/
def dayOfWeek (year : Int) (month day : Nat) : Except Absence Nat :=
  if IsDate year month day then .ok (weekday year month day)
  else .error (.noDate year month day)

/-! ## Day numbers -/

/-- The number of days from the first of January of year 1 to the first of January of a year. -/
def daysBeforeYear (year : Int) : Int :=
  let past := year - 1
  365 * past + past / 4 - past / 100 + past / 400

/-- The number of days of a year before the first day of a month. -/
def daysBeforeMonth (year : Int) (month : Nat) : Nat :=
  (List.range' 1 (month - 1)).foldl (fun days past => days + monthLength year past) 0

/-- The number of a date, where the first of January of year 1 is day 1. -/
def dayNumber (year : Int) (month day : Nat) : Int :=
  daysBeforeYear year + daysBeforeMonth year month + day

/-- The year that holds the day after `past` whole days since the first of January of year 1. The
mean length of a year puts it next to the year in question. -/
def yearAfter (past : Int) : Int :=
  let near := 400 * past / 146097 + 1
  if past < daysBeforeYear near then near - 1
  else if daysBeforeYear (near + 1) ≤ past then near + 1
  else near

/-- The month and the day that come after `past` whole days, counted through the given months. -/
def monthAfter (year : Int) : (months : List Nat) → (past : Nat) → Nat × Nat
  | [], past => (0, past)
  | month :: later, past =>
    if past < monthLength year month then (month, past + 1)
    else monthAfter year later (past - monthLength year month)

/-- The date of a day number, as year, month and day. -/
def ofDayNumber (number : Int) : Int × Nat × Nat :=
  let year := yearAfter (number - 1)
  (year, monthAfter year (List.range' 1 12) (number - 1 - daysBeforeYear year).toNat)

end CronCalendar.Calendar
