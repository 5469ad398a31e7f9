import CronCalendar.Cursor
import CronCalendar.Proofs.Field.Lookup

/-!
# Cursors — a step jumps over nothing that is due

A step raises one component of a cursor and sets the lower ones back to their
first values, except that a month without scheduled days leaves the day as it
is. That day may not exist in the month to come, and nothing is lost only
because it is not above the first scheduled day. `DayFits` is this invariant,
and under it a cursor never passes a due one (`not_before_advance`). Level by
level, from the month down to the minute, what lies ahead of a cursor and is
admitted so far stays at the next cursor or ahead of it.
-/

namespace CronCalendar.Cursor

open Calendar

/-- The day of a cursor exists in its month, or no scheduled day is below it. -/
def DayFits (s : Schedule) (c : Cursor) : Prop :=
  c.day ≤ monthLength c.year c.month ∨ c.day ≤ s.days.first

/-- The month and the day of a cursor are scheduled, and the day exists. -/
structure DateAdmitted (s : Schedule) (c : Cursor) : Prop where
  month : c.month ∈ s.months
  day : c.day ∈ s.days
  day_le : c.day ≤ monthLength c.year c.month

/-- A cursor is due when its date is admitted and its weekday, its hour and its minute
    are scheduled. -/
theorem isDue_iff (s : Schedule) (c : Cursor) :
    c.isDue s = true ↔ DateAdmitted s c ∧ weekday c.year c.month c.day ∈ s.weekdays ∧
      c.hour ∈ s.hours ∧ c.minute ∈ s.minutes := by
  simp only [isDue, Bool.and_eq_true, decide_eq_true_eq]
  constructor
  · rintro ⟨⟨⟨⟨⟨hminute, hhour⟩, hle⟩, hday⟩, hweekday⟩, hmonth⟩
    exact ⟨⟨hmonth, hday, hle⟩, hweekday, hhour, hminute⟩
  · rintro ⟨⟨hmonth, hday, hle⟩, hweekday, hhour, hminute⟩
    exact ⟨⟨⟨⟨⟨hminute, hhour⟩, hle⟩, hday⟩, hweekday⟩, hmonth⟩

/-! ## What a carry leaves alone -/

@[simp] theorem nextMonth_day (s : Schedule) (c : Cursor) : (nextMonth s c).day = c.day := by
  rw [nextMonth]
  split <;> rfl

@[simp] theorem nextMonth_hour (s : Schedule) (c : Cursor) : (nextMonth s c).hour = c.hour := by
  rw [nextMonth]
  split <;> rfl

@[simp] theorem nextMonth_minute (s : Schedule) (c : Cursor) :
    (nextMonth s c).minute = c.minute := by
  rw [nextMonth]
  split <;> rfl

@[simp] theorem nextDay_hour (s : Schedule) (c : Cursor) : (nextDay s c).hour = c.hour := by
  rw [nextDay]
  split <;> simp

@[simp] theorem nextDay_minute (s : Schedule) (c : Cursor) :
    (nextDay s c).minute = c.minute := by
  rw [nextDay]
  split <;> simp

@[simp] theorem nextHour_minute (s : Schedule) (c : Cursor) :
    (nextHour s c).minute = c.minute := by
  rw [nextHour]
  split <;> simp

/-! ## The day fits on every way -/

/-- If the day is not above the first scheduled one, it fits into whatever month comes
    next. -/
theorem dayFits_nextMonth {s : Schedule} {c : Cursor} (h : c.day ≤ s.days.first) :
    DayFits s (nextMonth s c) := by
  right
  rw [nextMonth_day]
  exact h

/-- The day that is moved to exists in its month, or the day from before goes on to a
    later month and fits there. -/
theorem dayFits_nextDay {s : Schedule} {c : Cursor} (h : DayFits s c) :
    DayFits s (nextDay s c) := by
  rcases s.days.nextAfter_cases c.day (monthLength c.year c.month) with
    ⟨hn, hall⟩ | ⟨day, hn, hleast⟩ | ⟨hn, -⟩
  · rw [nextDay, hn]
    -- the month has no scheduled day, so a day that exists in it is below all of them
    have hfirst := hall _ s.days.first_mem
    exact dayFits_nextMonth (by rcases h with h | h <;> omega)
  · rw [nextDay, hn]
    exact Or.inl hleast.1.2.2
  · rw [nextDay, hn]
    exact dayFits_nextMonth (Nat.le_refl _)

/-- The day still fits after a move to the next hour. -/
theorem dayFits_nextHour {s : Schedule} {c : Cursor} (h : DayFits s c) :
    DayFits s (nextHour s c) := by
  rw [nextHour]
  split
  · exact h
  · next hour _ =>
      have hsame : DayFits s { c with hour } := h
      exact dayFits_nextDay hsame

/-- **THE INVARIANT** of a search is kept by every step. -/
theorem dayFits_advance {s : Schedule} {c : Cursor} (h : DayFits s c) :
    DayFits s (advance s c) := by
  rw [advance]
  split
  · exact h
  · next minute _ =>
      have hsame : DayFits s { c with minute } := h
      exact dayFits_nextHour hsame

/-! ## Components stay inside the calendar -/

/-- The components of a cursor below its year are those of the calendar. Its day
    need not exist in its month. -/
structure InRange (c : Cursor) : Prop where
  month : 1 ≤ c.month ∧ c.month ≤ 12
  day : 1 ≤ c.day ∧ c.day ≤ 31
  hour : c.hour ≤ 23
  minute : c.minute ≤ 59

/-- The components of a date-time are in range. -/
theorem inRange_ofDateTime (t : DateTime) : InRange (ofDateTime t) := by
  obtain ⟨-, -, hlow, hhigh, hfirst, hlast, hhour, hminute⟩ := t.component_bounds
  exact ⟨⟨hlow, hhigh⟩, ⟨hfirst, hlast⟩, hhour, hminute⟩

theorem inRange_nextMonth {s : Schedule} {c : Cursor} (h : InRange c) :
    InRange (nextMonth s c) := by
  rcases s.months.nextOrWrap_cases c.month with ⟨month, hn, hleast⟩ | ⟨hn, -⟩
  · rw [nextMonth, hn]
    exact { h with month := s.months.within month hleast.1.1 }
  · rw [nextMonth, hn]
    exact { h with month := s.months.within _ s.months.first_mem }

theorem inRange_nextDay {s : Schedule} {c : Cursor} (h : InRange c) : InRange (nextDay s c) := by
  rcases s.days.nextAfter_cases c.day (monthLength c.year c.month) with
    ⟨hn, -⟩ | ⟨day, hn, hleast⟩ | ⟨hn, -⟩
  · rw [nextDay, hn]
    exact inRange_nextMonth h
  · rw [nextDay, hn]
    exact { h with day := s.days.within day hleast.1.1 }
  · rw [nextDay, hn]
    exact inRange_nextMonth { h with day := s.days.within _ s.days.first_mem }

theorem inRange_nextHour {s : Schedule} {c : Cursor} (h : InRange c) :
    InRange (nextHour s c) := by
  rcases s.hours.nextOrWrap_cases c.hour with ⟨hour, hn, hleast⟩ | ⟨hn, -⟩
  · rw [nextHour, hn]
    exact { h with hour := (s.hours.within hour hleast.1.1).2 }
  · rw [nextHour, hn]
    exact inRange_nextDay { h with hour := (s.hours.within _ s.hours.first_mem).2 }

/-- **IN RANGE**: a step leaves every component inside the calendar. -/
theorem inRange_advance {s : Schedule} {c : Cursor} (h : InRange c) : InRange (advance s c) := by
  rcases s.minutes.nextOrWrap_cases c.minute with ⟨minute, hn, hleast⟩ | ⟨hn, -⟩
  · rw [advance, hn]
    exact { h with minute := (s.minutes.within minute hleast.1.1).2 }
  · rw [advance, hn]
    exact inRange_nextHour { h with minute := (s.minutes.within _ s.minutes.first_mem).2 }

theorem year_nextMonth_le (s : Schedule) (c : Cursor) : (nextMonth s c).year ≤ c.year + 1 := by
  rw [nextMonth]
  split
  · exact Int.le_add_one (Int.le_refl c.year)
  · exact Int.le_refl (c.year + 1)

theorem year_nextDay_le (s : Schedule) (c : Cursor) : (nextDay s c).year ≤ c.year + 1 := by
  rw [nextDay]
  split
  · exact Int.le_add_one (Int.le_refl c.year)
  · exact year_nextMonth_le s _
  · exact year_nextMonth_le s c

theorem year_nextHour_le (s : Schedule) (c : Cursor) : (nextHour s c).year ≤ c.year + 1 := by
  rw [nextHour]
  split
  · exact Int.le_add_one (Int.le_refl c.year)
  · exact year_nextDay_le s _

/-- A step goes to the following year at most. -/
theorem year_advance_le (s : Schedule) (c : Cursor) : (advance s c).year ≤ c.year + 1 := by
  rw [advance]
  split
  · exact Int.le_add_one (Int.le_refl c.year)
  · exact year_nextHour_le s _

/-! ## Nothing is jumped over -/

/-- A scheduled month ahead is not before the next one. -/
theorem nextMonth_le {s : Schedule} {c x : Cursor} (hx : x.month ∈ s.months)
    (hcx : c.year < x.year ∨ c.year = x.year ∧ c.month < x.month) :
    (nextMonth s c).year < x.year ∨
      (nextMonth s c).year = x.year ∧ (nextMonth s c).month ≤ x.month := by
  rcases s.months.nextOrWrap_cases c.month with ⟨month, hn, hleast⟩ | ⟨hn, hall⟩
  · rw [nextMonth, hn]
    show c.year < x.year ∨ c.year = x.year ∧ month ≤ x.month
    have hle : c.month < x.month → month ≤ x.month := fun hlt => hleast.2 ⟨hx, hlt⟩
    omega
  · rw [nextMonth, hn]
    show c.year + 1 < x.year ∨ c.year + 1 = x.year ∧ s.months.first ≤ x.month
    have hle := hall x.month hx
    have hfirst := s.months.first_le x.month hx
    omega

/-- An admitted date ahead is not before the next one. -/
theorem nextDay_le {s : Schedule} {c x : Cursor} (hc : DayFits s c) (hx : DateAdmitted s x)
    (hcx : c.year < x.year ∨ c.year = x.year ∧
      (c.month < x.month ∨ c.month = x.month ∧ c.day < x.day)) :
    (nextDay s c).year < x.year ∨ (nextDay s c).year = x.year ∧
      ((nextDay s c).month < x.month ∨
        (nextDay s c).month = x.month ∧ (nextDay s c).day ≤ x.day) := by
  have hfirst := s.days.first_le x.day hx.day
  have hlength : c.year = x.year → c.month = x.month →
      x.day ≤ monthLength c.year c.month := by
    intro hy hm
    rw [hy, hm]
    exact hx.day_le
  -- in all three cases a date of the same month is no longer ahead, or is reached
  rcases s.days.nextAfter_cases c.day (monthLength c.year c.month) with
    ⟨hn, hall⟩ | ⟨day, hn, hleast⟩ | ⟨hn, hle, hall⟩
  · rw [nextDay, hn]
    have hday := hall x.day hx.day
    have hlow := hall _ s.days.first_mem
    have hkept : c.day ≤ s.days.first := by rcases hc with h | h <;> omega
    have hnext := nextMonth_le (s := s) (c := c) hx.month (by omega)
    simp only [nextMonth_day]
    omega
  · rw [nextDay, hn]
    show c.year < x.year ∨ c.year = x.year ∧
      (c.month < x.month ∨ c.month = x.month ∧ day ≤ x.day)
    have hreach : c.day < x.day → x.day ≤ monthLength c.year c.month → day ≤ x.day :=
      fun hlt hle => hleast.2 ⟨hx.day, hlt, hle⟩
    omega
  · rw [nextDay, hn]
    have hday := hall x.day hx.day
    have hnext := nextMonth_le (s := s) (c := { c with day := s.days.first }) hx.month
      (by show c.year < x.year ∨ c.year = x.year ∧ c.month < x.month; omega)
    simp only [nextMonth_day]
    omega

/-- An admitted date with a scheduled hour ahead is not before the next one. -/
theorem nextHour_le {s : Schedule} {c x : Cursor} (hc : DayFits s c) (hx : DateAdmitted s x)
    (hhour : x.hour ∈ s.hours)
    (hcx : c.year < x.year ∨ c.year = x.year ∧
      (c.month < x.month ∨ c.month = x.month ∧
        (c.day < x.day ∨ c.day = x.day ∧ c.hour < x.hour))) :
    (nextHour s c).year < x.year ∨ (nextHour s c).year = x.year ∧
      ((nextHour s c).month < x.month ∨ (nextHour s c).month = x.month ∧
        ((nextHour s c).day < x.day ∨
          (nextHour s c).day = x.day ∧ (nextHour s c).hour ≤ x.hour)) := by
  rcases s.hours.nextOrWrap_cases c.hour with ⟨hour, hn, hleast⟩ | ⟨hn, hall⟩
  · rw [nextHour, hn]
    have hle : c.hour < x.hour → hour ≤ x.hour := fun hlt => hleast.2 ⟨hhour, hlt⟩
    show c.year < x.year ∨ c.year = x.year ∧ (c.month < x.month ∨ c.month = x.month ∧
      (c.day < x.day ∨ c.day = x.day ∧ hour ≤ x.hour))
    omega
  · rw [nextHour, hn]
    have hle := hall x.hour hhour
    have hfirst := s.hours.first_le x.hour hhour
    have hnext := nextDay_le (c := { c with hour := s.hours.first }) hc hx
      (by show c.year < x.year ∨ c.year = x.year ∧
            (c.month < x.month ∨ c.month = x.month ∧ c.day < x.day); omega)
    simp only [nextDay_hour]
    omega

/-- **NOTHING IS JUMPED OVER**: what is due ahead of a cursor is not before the
    next cursor. -/
theorem not_before_advance {s : Schedule} {c x : Cursor} (hc : DayFits s c)
    (hx : x.isDue s = true) (hcx : Before c x) : ¬ Before x (advance s c) := by
  obtain ⟨hdate, -, hhour, hminute⟩ := (isDue_iff s x).mp hx
  rw [Before] at hcx ⊢
  rcases s.minutes.nextOrWrap_cases c.minute with ⟨minute, hn, hleast⟩ | ⟨hn, hall⟩
  · rw [advance, hn]
    have hle : c.minute < x.minute → minute ≤ x.minute := fun hlt => hleast.2 ⟨hminute, hlt⟩
    simp only
    omega
  · rw [advance, hn]
    -- no minute is left in this hour, so a due cursor ahead is in a later one
    have hle := hall x.minute hminute
    have hfirst := s.minutes.first_le x.minute hminute
    have hnext := nextHour_le (c := { c with minute := s.minutes.first }) hc hdate hhour
      (by simp only; omega)
    simp only [nextHour_minute]
    omega

end CronCalendar.Cursor
