import CronCalendar.Calendar
import Mathlib.Tactic.IntervalCases

/-!
# Calendar — day numbers count dates one by one, and weekdays follow them

Day numbers are a closed formula over years and a sum over months. Here they are
tied to the lengths of months alone: the date after any date has the next day
number (`dayNumber_of_isNextDate`), so the day number modulo seven is the
weekday of the calendar as soon as one date has the right one. The weekday that
schedules are compared with is another formula, and it agrees with it on every
date (`weekday_eq_trueWeekday`). The date that is found for a day number is the
one date that has it (`ofDayNumber_spec`, `eq_of_dayNumber_eq`).
-/

namespace CronCalendar.Calendar

/-- The number of days of a year. -/
def yearLength (year : Int) : Nat := if isLeapYear year then 366 else 365

/-- The date after a date, by the lengths of months alone. -/
inductive IsNextDate : Int → Nat → Nat → Int → Nat → Nat → Prop where
  | day {year : Int} {month day : Nat} :
      day < monthLength year month → IsNextDate year month day year month (day + 1)
  | month {year : Int} {month : Nat} :
      month < 12 → IsNextDate year month (monthLength year month) year (month + 1) 1
  | year {year : Int} : IsNextDate year 12 31 (year + 1) 1 1

/-- The weekday of a date on the calendar, where Sunday is zero. The first day
    of year 1, which has the day number 1, is a Monday. -/
def trueWeekday (year : Int) (month day : Nat) : Nat := (dayNumber year month day % 7).toNat

/-! ## Months -/

theorem monthLength_pos (year : Int) {month : Nat} (hlow : 1 ≤ month) (hhigh : month ≤ 12) :
    1 ≤ monthLength year month := by
  interval_cases month <;> simp only [monthLength] <;> (try split) <;> omega

/-- The days before a month and those of the month are the days before the next one. -/
theorem daysBeforeMonth_succ (year : Int) {month : Nat} (h : 1 ≤ month) :
    daysBeforeMonth year (month + 1) = daysBeforeMonth year month + monthLength year month := by
  obtain ⟨m, rfl⟩ : ∃ m, month = m + 1 := ⟨month - 1, by omega⟩
  rw [daysBeforeMonth, daysBeforeMonth, Nat.add_sub_cancel, Nat.add_sub_cancel,
    List.range'_1_concat, List.foldl_append, List.foldl_cons, List.foldl_nil, Nat.add_comm 1 m]

/-- All twelve months together make up the year. -/
theorem daysBeforeMonth_thirteen (year : Int) : daysBeforeMonth year 13 = yearLength year := by
  rw [daysBeforeMonth, yearLength]
  cases h : isLeapYear year <;> simp [List.range', monthLength, h]

/-- The shift of a month is what the months before it leave modulo seven. -/
theorem monthShift_eq (year : Int) {month : Nat} (h : 1 ≤ month ∧ month ≤ 12) :
    monthShift (isLeapYear year) month = daysBeforeMonth year month % 7 := by
  obtain ⟨hlow, hhigh⟩ := h
  rw [daysBeforeMonth]
  cases hleap : isLeapYear year <;>
    (interval_cases month <;> simp [monthShift, List.range', monthLength, hleap])

/-! ## Years -/

/-- The rule for leap years: every fourth year, but of the full centuries only every
    fourth one. -/
theorem isLeapYear_iff (year : Int) :
    isLeapYear year = true ↔ year % 4 = 0 ∧ (year % 100 ≠ 0 ∨ year % 400 = 0) := by
  rw [isLeapYear, decide_eq_true_iff]

/-- The days before a year and those of the year are the days before the next one. -/
theorem daysBeforeYear_succ (year : Int) :
    daysBeforeYear (year + 1) = daysBeforeYear year + yearLength year := by
  have hleap := isLeapYear_iff year
  simp only [daysBeforeYear, yearLength]
  cases h : isLeapYear year with
  | true =>
      have hyear := hleap.mp h
      simp only [if_true]
      omega
  | false =>
      have hyear : ¬ (year % 4 = 0 ∧ (year % 100 ≠ 0 ∨ year % 400 = 0)) := by
        rw [← hleap, h]
        exact Bool.false_ne_true
      simp only [if_false, Bool.false_eq_true]
      omega

/-! ## Day numbers -/

/-- **ONE BY ONE**: the date after a date has the next day number. -/
theorem dayNumber_of_isNextDate {year year' : Int} {month day month' day' : Nat}
    (hmonth : 1 ≤ month) (h : IsNextDate year month day year' month' day') :
    dayNumber year' month' day' = dayNumber year month day + 1 := by
  cases h with
  | day _ =>
      rw [dayNumber, dayNumber]
      omega
  | month _ =>
      rw [dayNumber, dayNumber, daysBeforeMonth_succ year hmonth]
      omega
  | year =>
      -- the days before a thirteenth month are those of the whole year
      have hyear := daysBeforeMonth_thirteen year
      rw [daysBeforeMonth_succ year (by decide)] at hyear
      have hdecember : monthLength year 12 = 31 := rfl
      have hjanuary : daysBeforeMonth (year + 1) 1 = 0 := rfl
      rw [dayNumber, dayNumber, daysBeforeYear_succ, hjanuary]
      omega

theorem daysBeforeMonth_mono (year : Int) {month month' : Nat} (hone : 1 ≤ month)
    (h : month ≤ month') : daysBeforeMonth year month ≤ daysBeforeMonth year month' := by
  induction h with
  | refl => exact Nat.le_refl _
  | @step m hm ih =>
      have hm' : month ≤ m := hm
      rw [daysBeforeMonth_succ year (hone.trans hm')]
      exact ih.trans (Nat.le_add_right _ _)

theorem daysBeforeYear_mono {year year' : Int} (h : year ≤ year') :
    daysBeforeYear year ≤ daysBeforeYear year' := by
  simp only [daysBeforeYear]
  omega

/-- No day of a year comes after the days of its months. -/
theorem IsDate.le_yearLength {year : Int} {month day : Nat} (h : IsDate year month day) :
    daysBeforeMonth year month + day ≤ yearLength year := by
  obtain ⟨hlow, hhigh, -, hday⟩ := h
  have hnext := daysBeforeMonth_succ year hlow
  have hmono : daysBeforeMonth year (month + 1) ≤ daysBeforeMonth year 13 :=
    daysBeforeMonth_mono year (by omega) (by omega)
  rw [daysBeforeMonth_thirteen] at hmono
  omega

/-- Day numbers keep the order of dates: a year ends before the next one begins, and so
    does a month. -/
theorem dayNumber_lt {year year' : Int} {month day month' day' : Nat}
    (h : IsDate year month day) (h' : IsDate year' month' day')
    (hlt : year < year' ∨ year = year' ∧ (month < month' ∨ month = month' ∧ day < day')) :
    dayNumber year month day < dayNumber year' month' day' := by
  have hpos := h'.2.2.1
  rw [dayNumber, dayNumber]
  rcases hlt with hyear | ⟨rfl, hmonth | ⟨rfl, hday⟩⟩
  · have hend := h.le_yearLength
    have hmono : daysBeforeYear (year + 1) ≤ daysBeforeYear year' :=
      daysBeforeYear_mono (by omega)
    rw [daysBeforeYear_succ] at hmono
    omega
  · have hend := daysBeforeMonth_succ year h.1
    have hmono : daysBeforeMonth year (month + 1) ≤ daysBeforeMonth year month' :=
      daysBeforeMonth_mono year (by omega) (by omega)
    have hday := h.2.2.2
    omega
  · omega

/-! ## The date of a day number -/

/-- The year that is found holds the day. -/
theorem daysBeforeYear_yearAfter (past : Int) :
    daysBeforeYear (yearAfter past) ≤ past ∧ past < daysBeforeYear (yearAfter past + 1) := by
  obtain ⟨near, hnear⟩ : ∃ near, near = 400 * past / 146097 + 1 := ⟨_, rfl⟩
  have hyear : yearAfter past =
      if past < daysBeforeYear near then near - 1
      else if daysBeforeYear (near + 1) ≤ past then near + 1 else near := by
    rw [hnear]
    rfl
  rw [hyear]
  by_cases hbefore : past < daysBeforeYear near
  · rw [if_pos hbefore]
    simp only [daysBeforeYear] at hbefore ⊢
    omega
  · rw [if_neg hbefore]
    by_cases hafter : daysBeforeYear (near + 1) ≤ past
    · rw [if_pos hafter]
      refine ⟨hafter, ?_⟩
      simp only [daysBeforeYear]
      omega
    · rw [if_neg hafter]
      exact ⟨not_lt.mp hbefore, not_le.mp hafter⟩

/-- The month that is found holds the day, as long as the months hold it. -/
theorem monthAfter_spec (year : Int) :
    ∀ (n k past : Nat), 1 ≤ k →
      daysBeforeMonth year k + past < daysBeforeMonth year (k + n) →
      ∃ month day, monthAfter year (List.range' k n) past = (month, day) ∧
        k ≤ month ∧ month < k + n ∧ 1 ≤ day ∧ day ≤ monthLength year month ∧
        daysBeforeMonth year month + day = daysBeforeMonth year k + past + 1 := by
  intro n
  induction n with
  | zero =>
      intro k past _ h
      rw [Nat.add_zero] at h
      omega
  | succ n ih =>
      intro k past hk h
      have hnext := daysBeforeMonth_succ year hk
      rw [List.range'_succ, monthAfter]
      by_cases hlt : past < monthLength year k
      · rw [if_pos hlt]
        -- the day lies in month `k`
        exact ⟨k, past + 1, rfl, by omega, by omega, by omega, by omega, by omega⟩
      · rw [if_neg hlt]
        -- it lies later: what month `k` does not take goes on to month `k + 1`
        have hrest : daysBeforeMonth year (k + 1) + (past - monthLength year k) <
            daysBeforeMonth year (k + 1 + n) := by
          have hsame : k + 1 + n = k + (n + 1) := by omega
          rw [hsame]
          omega
        obtain ⟨month, day, heq, h1, h2, h3, h4, h5⟩ := ih (k + 1) _ (by omega) hrest
        exact ⟨month, day, heq, by omega, by omega, h3, h4, by omega⟩

/-- **BACK AGAIN**: the date of a day number exists and has this day number. -/
theorem ofDayNumber_spec (number : Int) :
    ∃ year month day, ofDayNumber number = (year, month, day) ∧ IsDate year month day ∧
      dayNumber year month day = number := by
  obtain ⟨hle, hlt⟩ := daysBeforeYear_yearAfter (number - 1)
  rw [daysBeforeYear_succ, ← daysBeforeMonth_thirteen] at hlt
  have hfirst : daysBeforeMonth (yearAfter (number - 1)) 1 = 0 := rfl
  have hyear : daysBeforeMonth (yearAfter (number - 1)) 1 +
      (number - 1 - daysBeforeYear (yearAfter (number - 1))).toNat <
        daysBeforeMonth (yearAfter (number - 1)) (1 + 12) := by
    show _ < daysBeforeMonth (yearAfter (number - 1)) 13
    omega
  obtain ⟨month, day, heq, h1, h2, h3, h4, h5⟩ := monthAfter_spec _ 12 1 _ (by omega) hyear
  refine ⟨_, month, day, ?_, ⟨h1, by omega, h3, h4⟩, ?_⟩
  · rw [ofDayNumber, heq]
  · rw [dayNumber]
    omega

/-- A date is known from its day number. -/
theorem eq_of_dayNumber_eq {year year' : Int} {month day month' day' : Nat}
    (h : IsDate year month day) (h' : IsDate year' month' day')
    (heq : dayNumber year month day = dayNumber year' month' day') :
    year = year' ∧ month = month' ∧ day = day' := by
  by_contra hne
  rcases (by omega : (year < year' ∨ year = year' ∧
      (month < month' ∨ month = month' ∧ day < day')) ∨
      (year' < year ∨ year' = year ∧ (month' < month ∨ month' = month ∧ day' < day))) with hlt | hlt
  · have := dayNumber_lt h h' hlt
    omega
  · have := dayNumber_lt h' h hlt
    omega

/-! ## Weekdays -/

/-- From one date to the next the weekday moves on by one. -/
theorem trueWeekday_of_isNextDate {year year' : Int} {month day month' day' : Nat}
    (hmonth : 1 ≤ month) (h : IsNextDate year month day year' month' day') :
    trueWeekday year' month' day' = (trueWeekday year month day + 1) % 7 := by
  rw [trueWeekday, trueWeekday, dayNumber_of_isNextDate hmonth h]
  omega

example : trueWeekday 1970 1 1 = 4 := by decide

/-- **WEEKDAYS**: on every date the formula gives the weekday of the calendar. -/
theorem weekday_eq_trueWeekday {year : Int} {month day : Nat} (h : IsDate year month day) :
    weekday year month day = trueWeekday year month day := by
  have hshift := monthShift_eq year ⟨h.1, h.2.1⟩
  rw [weekday, trueWeekday, weekdaySum, hshift, dayNumber, daysBeforeYear]
  congr 1
  push_cast
  omega

end CronCalendar.Calendar
