import CronCalendar.Proofs.Calendar
import Mathlib.Algebra.BigOperators.Intervals

/-!
# Weekdays — one formula against days counted through months and years

The weekday of a date is a closed formula with two tables of months and three
remainders of the year before. Here the days since a known Monday, the first of
January 2024, are counted through the lengths of months alone, year by year,
forwards or backwards (`daysSince`). The count and the formula agree on every
date (`dayOfWeek_eq_daysSince`), and no result of the formula on its way leaves
32 bits, whatever the year is.
-/

namespace CronCalendar.Calendar

/-! ## Days counted one month after the other -/

/-- The days of the months of a year before a month. -/
def daysOfMonthsBefore (year : Int) (month : Nat) : Int :=
  ∑ m ∈ Finset.Ico 1 month, (monthLength year m : Int)

/-- The days of all twelve months. -/
def daysOfMonths (year : Int) : Int := daysOfMonthsBefore year 13

/-- The days of some years from a year on. -/
def daysOfYears (year : Int) (count : Nat) : Int :=
  ∑ k ∈ Finset.range count, daysOfMonths (year + k)

/-- The days from the first of January 2024 to the first of January of a year,
    negative for a year before. One of the two sums is always empty. -/
def daysOfYearsSince (year : Int) : Int :=
  daysOfYears 2024 (year - 2024).toNat - daysOfYears year (2024 - year).toNat

/-- The days from the first of January 2024 to a date. -/
def daysSince (year : Int) (month day : Nat) : Int :=
  daysOfYearsSince year + daysOfMonthsBefore year month + (day - 1)

/-- A sum over months is what the day numbers count before a month. -/
theorem daysOfMonthsBefore_eq (year : Int) {month : Nat} (h : 1 ≤ month) :
    daysOfMonthsBefore year month = daysBeforeMonth year month := by
  induction h with
  | refl => rfl
  | @step m hm ih =>
      have hm' : 1 ≤ m := hm
      rw [daysOfMonthsBefore, Finset.sum_Ico_succ_top hm', ← daysOfMonthsBefore, ih,
        daysBeforeMonth_succ year hm', Nat.cast_add]

/-- The sum over all months is the length of the year. -/
theorem daysOfMonths_eq (year : Int) : daysOfMonths year = yearLength year := by
  rw [daysOfMonths, daysOfMonthsBefore_eq year (by decide), daysBeforeMonth_thirteen]

/-- The days of consecutive years add up to what lies between their first days. -/
theorem daysOfYears_eq (year : Int) (count : Nat) :
    daysOfYears year count = daysBeforeYear (year + count) - daysBeforeYear year := by
  induction count with
  | zero => rw [daysOfYears, Finset.range_zero, Finset.sum_empty, Nat.cast_zero, add_zero, sub_self]
  | succ count ih =>
      rw [daysOfYears, Finset.sum_range_succ, ← daysOfYears, ih, daysOfMonths_eq, Nat.cast_succ,
        ← add_assoc, daysBeforeYear_succ]
      omega

/-- A sum over years, forward or backward from 2024, is the distance of their starts. -/
theorem daysOfYearsSince_eq (year : Int) :
    daysOfYearsSince year = daysBeforeYear year - daysBeforeYear 2024 := by
  rw [daysOfYearsSince, daysOfYears_eq, daysOfYears_eq]
  rcases le_total 2024 year with h | h
  · have hlast : 2024 + ((year - 2024).toNat : Int) = year := by omega
    have hnone : year + ((2024 - year).toNat : Int) = year := by omega
    rw [hlast, hnone, sub_self, sub_zero]
  · have hlast : year + ((2024 - year).toNat : Int) = 2024 := by omega
    have hnone : 2024 + ((year - 2024).toNat : Int) = 2024 := by omega
    rw [hlast, hnone, sub_self]
    omega

/-- Counting and day numbers differ by the day number of the first day. -/
theorem daysSince_eq (year : Int) {month : Nat} (day : Nat) (h : 1 ≤ month) :
    daysSince year month day = dayNumber year month day - dayNumber 2024 1 1 := by
  have hfirst : daysBeforeMonth 2024 1 = 0 := rfl
  rw [daysSince, daysOfYearsSince_eq, daysOfMonthsBefore_eq year h, dayNumber, dayNumber, hfirst]
  omega

/-! ## Arithmetic of 32 bits -/

/-- A result that 32 bits hold, sign included; none if they do not. -/
def held (n : Int) : Option Int :=
  if -2147483648 ≤ n ∧ n ≤ 2147483647 then some n else none

theorem held_eq_some {n : Int} (h : -2147483648 ≤ n ∧ n ≤ 2147483647) : held n = some n := by
  rw [held, if_pos h]

/-- The sum of `weekdaySum`, where each result on the way has to be held. -/
def heldWeekdaySum (year : Int) (month day : Nat) : Option Int := do
  let past ← held (year - 1)
  let months ← held (day + monthShift (isLeapYear year) month)
  let fours ← held (5 * (past % 4))
  let hundreds ← held (4 * (past % 100))
  let fourHundreds ← held (6 * (past % 400))
  let sum ← held (months + fours)
  let sum ← held (sum + hundreds)
  held (sum + fourHundreds)

/-- A shift is less than a week. -/
theorem monthShift_le (leap : Bool) (month : Nat) : monthShift leap month ≤ 6 := by
  rw [monthShift]
  cases leap <;> simp only [Bool.false_eq_true, if_true, if_false]
  all_goals
    rcases Nat.lt_or_ge (month - 1) 12 with h | h
    · interval_cases (month - 1) <;> decide
    · rw [List.getElem?_eq_none (by simpa using h)]
      decide

/-- **NO OVERFLOW**: every result is held, for all years above the least one. -/
theorem heldWeekdaySum_eq {year : Int} {month day : Nat}
    (hyear : -2147483648 < year ∧ year ≤ 2147483647) (hday : day ≤ 31) :
    heldWeekdaySum year month day = some (weekdaySum year month day) := by
  have hshift := monthShift_le (isLeapYear year) month
  simp (disch := omega) only [heldWeekdaySum, held_eq_some, Option.bind_eq_bind,
    Option.bind_some]
  rfl

/-! ## Dates that exist -/

/-- A day that the length of the month admits makes a date. -/
theorem isDate_of_daysInMonth {year : Int} {month day length : Nat}
    (hmonth : daysInMonth year month = .ok length) (hday : 1 ≤ day ∧ day ≤ length) :
    IsDate year month day := by
  rw [daysInMonth] at hmonth
  split at hmonth
  · next hmonths =>
      obtain rfl := Except.ok.inj hmonth
      exact ⟨hmonths.1, hmonths.2, hday⟩
  · cases hmonth

/-- The weekday of a date that exists is the one that its day number gives. -/
theorem dayOfWeek_eq_trueWeekday {year : Int} {month day : Nat} (h : IsDate year month day) :
    dayOfWeek year month day = .ok (trueWeekday year month day) := by
  rw [dayOfWeek, if_pos h, weekday_eq_trueWeekday h]

/-- The date after a date exists. -/
theorem IsDate.of_isNextDate {year year' : Int} {month day month' day' : Nat}
    (h : IsDate year month day) (hnext : IsNextDate year month day year' month' day') :
    IsDate year' month' day' := by
  obtain ⟨hlow, hhigh, -, -⟩ := h
  cases hnext with
  | day hlt => exact ⟨hlow, hhigh, Nat.le_add_left 1 day, hlt⟩
  | month hlt =>
      exact ⟨Nat.le_add_left 1 month, hlt, Nat.le_refl 1,
        monthLength_pos year (Nat.le_add_left 1 month) hlt⟩
  | year => exact ⟨by decide, by decide, by decide, monthLength_pos _ (by decide) (by decide)⟩

/-! ## The weekday of a date -/

/-- **EVERY WEEKDAY** is what the days counted since a Monday leave modulo seven.
    From a date to the following one it goes on by one, across the ends of
    months and of years. The sum it is found by never leaves 32 bits. -/
theorem dayOfWeek_eq_daysSince {year : Int} {month day length : Nat}
    (hyear : -2147483648 < year ∧ year ≤ 2147483647)
    (hmonth : daysInMonth year month = .ok length) (hday : 1 ≤ day ∧ day ≤ length) :
    (daysSince 2024 1 1 = 0 ∧ dayOfWeek 2024 1 1 = .ok 1) ∧
      dayOfWeek year month day = .ok ((daysSince year month day + 1) % 7).toNat ∧
      (∀ year' month' day', IsNextDate year month day year' month' day' →
        dayOfWeek year' month' day' = (dayOfWeek year month day).map fun w => (w + 1) % 7) ∧
      ∃ sum, heldWeekdaySum year month day = some sum ∧
        dayOfWeek year month day = .ok (sum % 7).toNat := by
  have hdate : IsDate year month day := isDate_of_daysInMonth hmonth hday
  refine ⟨⟨?_, ?_⟩, ?_, ?_, ?_⟩
  · rw [daysSince_eq 2024 1 (by decide), sub_self]
  · rw [dayOfWeek_eq_trueWeekday (by decide)]
    rfl
  · have hmonday : dayNumber 2024 1 1 = 738886 := by decide
    rw [dayOfWeek_eq_trueWeekday hdate, trueWeekday, daysSince_eq year day hdate.1, hmonday]
    congr 2
    omega
  · intro year' month' day' hnext
    rw [dayOfWeek_eq_trueWeekday (hdate.of_isNextDate hnext), dayOfWeek_eq_trueWeekday hdate,
      trueWeekday_of_isNextDate hdate.1 hnext]
    rfl
  · have hlast : day ≤ 31 := hdate.2.2.2.trans (monthLength_le year month)
    exact ⟨_, heldWeekdaySum_eq hyear hlast, by rw [dayOfWeek, if_pos hdate, weekday]⟩

/-- Among the first years that 32 bits hold there is a leap year, whose leap day
    is followed by the first of March. -/
theorem dayOfWeek_eq_daysSince_leastLeapDay :
    (daysInMonth (-2147483600) 2 = .ok 29 ∧
        IsNextDate (-2147483600) 2 29 (-2147483600) 3 1) ∧
      dayOfWeek (-2147483600) 2 29 = .ok ((daysSince (-2147483600) 2 29 + 1) % 7).toNat ∧
      dayOfWeek (-2147483600) 2 29 = .ok 2 ∧ dayOfWeek (-2147483600) 3 1 = .ok 3 := by
  have hfebruary : daysInMonth (-2147483600) 2 = .ok 29 := by decide
  have hnext : IsNextDate (-2147483600) 2 29 (-2147483600) 3 1 := .month (by decide)
  have hleap : dayOfWeek (-2147483600) 2 29 = .ok 2 := by decide
  obtain ⟨-, hcount, hafter, -⟩ :=
    dayOfWeek_eq_daysSince (by decide) hfebruary (show 1 ≤ 29 ∧ 29 ≤ 29 by decide)
  refine ⟨⟨hfebruary, hnext⟩, hcount, hleap, ?_⟩
  rw [hafter _ _ _ hnext, hleap]
  rfl

end CronCalendar.Calendar
