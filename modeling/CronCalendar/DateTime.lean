import CronCalendar.Calendar

/-!
# Date-times — civil times that can be represented

A date-time is a civil time without a zone: a date of a year between `firstYear` and `lastYear`, a
time of day and a fraction of a second. A leap second is the second 59 with a fraction of one
second or more. To the second, date-times lie on one line of integers (`seconds`), and
`ofSeconds?` comes back from there.
-/

namespace CronCalendar

open Calendar

/-- The times of day: a fraction of a second or more belongs to a leap second. -/
def IsTimeOfDay (hour minute second nanosecond : Nat) : Prop :=
  hour ≤ 23 ∧ minute ≤ 59 ∧ second ≤ 59 ∧
    (nanosecond < 1000000000 ∨ second = 59 ∧ nanosecond < 2000000000)

/-- Whether a time of day exists can be computed. -/
instance (hour minute second nanosecond : Nat) :
    Decidable (IsTimeOfDay hour minute second nanosecond) :=
  inferInstanceAs (Decidable (_ ∧ _))

/-- The first year whose dates can be represented. -/
def firstYear : Int := -262143

/-- The last year whose dates can be represented. -/
def lastYear : Int := 262142

/-- A civil time that can be represented. -/
structure DateTime where
  year : Int
  month : Nat
  day : Nat
  hour : Nat
  minute : Nat
  second : Nat
  nanosecond : Nat
  year_bounds : firstYear ≤ year ∧ year ≤ lastYear
  isDate : IsDate year month day
  isTimeOfDay : IsTimeOfDay hour minute second nanosecond
deriving DecidableEq

namespace DateTime

/-- The date-time with the given components, if they make one. -/
def of? (year : Int) (month day hour minute second nanosecond : Nat) : Option DateTime :=
  if h : (firstYear ≤ year ∧ year ≤ lastYear) ∧ IsDate year month day ∧
      IsTimeOfDay hour minute second nanosecond then
    some ⟨year, month, day, hour, minute, second, nanosecond, h.1, h.2.1, h.2.2⟩
  else none

/-- The number of minutes in a calendar in which every month has 31 days. It orders whole minutes
as the calendar does. -/
def minuteIndex (t : DateTime) : Int :=
  (((t.year * 12 + t.month) * 31 + t.day) * 24 + t.hour) * 60 + t.minute

/-- The day number of the first of January 1970. -/
def epochDay : Int := 719163

/-- The number of seconds since the start of 1970, leap seconds not counted. -/
def seconds (t : DateTime) : Int :=
  (dayNumber t.year t.month t.day - epochDay) * 86400 + (t.hour * 3600 + t.minute * 60 + t.second)

/-- The date-time at a number of seconds since the start of 1970, if it can be represented. -/
def ofSeconds? (seconds : Int) : Option DateTime :=
  let (year, month, day) := ofDayNumber (seconds / 86400 + epochDay)
  let time := (seconds % 86400).toNat
  of? year month day (time / 3600) (time / 60 % 60) (time % 60) 0

/-- The date-time some seconds later, or earlier for a negative number, to the second. -/
def shift? (t : DateTime) (seconds : Int) : Option DateTime := ofSeconds? (t.seconds + seconds)

/-- The start of the following minute. -/
def nextMinute? (t : DateTime) : Option DateTime :=
  if t.minute < 59 then of? t.year t.month t.day t.hour (t.minute + 1) 0 0
  else if t.hour < 23 then of? t.year t.month t.day (t.hour + 1) 0 0 0
  else if t.day < monthLength t.year t.month then of? t.year t.month (t.day + 1) 0 0 0 0
  else if t.month < 12 then of? t.year (t.month + 1) 1 0 0 0 0
  else of? (t.year + 1) 1 1 0 0 0 0

/-- The components of a date-time that was put together. -/
theorem of?_eq_some {year : Int} {month day hour minute second nanosecond : Nat} {t : DateTime}
    (h : of? year month day hour minute second nanosecond = some t) :
    t.year = year ∧ t.month = month ∧ t.day = day ∧ t.hour = hour ∧ t.minute = minute ∧
      t.second = second ∧ t.nanosecond = nanosecond := by
  rw [of?] at h
  split at h
  · simp only [Option.some.injEq] at h
    subst h
    simp
  · simp at h

/-- The limits of the components, as plain inequalities. -/
theorem component_bounds (t : DateTime) :
    -262143 ≤ t.year ∧ t.year ≤ 262142 ∧ 1 ≤ t.month ∧ t.month ≤ 12 ∧ 1 ≤ t.day ∧ t.day ≤ 31 ∧
      t.hour ≤ 23 ∧ t.minute ≤ 59 := by
  have hy := t.year_bounds
  have hd := t.isDate
  have ht := t.isTimeOfDay
  have hl := monthLength_le t.year t.month
  simp only [firstYear, lastYear, IsDate, IsTimeOfDay] at hy hd ht
  omega

/-- The following minute comes later. -/
theorem minuteIndex_lt_of_nextMinute {t u : DateTime} (h : t.nextMinute? = some u) :
    t.minuteIndex < u.minuteIndex := by
  have ht := t.component_bounds
  have hu := u.component_bounds
  rw [nextMinute?] at h
  rw [minuteIndex, minuteIndex]
  split at h
  · obtain ⟨h1, h2, h3, h4, h5, -, -⟩ := of?_eq_some h; omega
  · split at h
    · obtain ⟨h1, h2, h3, h4, h5, -, -⟩ := of?_eq_some h; omega
    · split at h
      · obtain ⟨h1, h2, h3, h4, h5, -, -⟩ := of?_eq_some h; omega
      · split at h <;> obtain ⟨h1, h2, h3, h4, h5, -, -⟩ := of?_eq_some h <;> omega

end DateTime

end CronCalendar
