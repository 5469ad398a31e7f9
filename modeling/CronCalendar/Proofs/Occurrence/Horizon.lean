import CronCalendar.Proofs.Events

/-!
# Horizon — eleven years are enough for every date there is

A search gives up after eleven years of the calendar, the year of its reference
included. A date that exists in some year exists in one of any eight years in a
row, since leap years are never further apart than that, and every weekday is in
the first seven days of every month. So a schedule comes back within eight years
(`Recurs`) if it asks for one of date and weekday alone, and then no search
misses its events (`horizon_suffices`). What keeps the end of time out of this
is only that there are eight more years to come.
-/

namespace CronCalendar

open Calendar

/-! ## Dates that come back -/

namespace Calendar

/-- There is a leap year among any eight years in a row, also around a century without
    one. -/
theorem exists_leapYear (year : Int) : ∃ y, year ≤ y ∧ y ≤ year + 7 ∧ isLeapYear y = true := by
  -- of two years in a row that four divides only one can be a century
  by_cases hcentury : (year + (-year) % 4) % 100 = 0
  · refine ⟨year + (-year) % 4 + 4, by omega, by omega, ?_⟩
    rw [isLeapYear_iff]
    omega
  · refine ⟨year + (-year) % 4, by omega, by omega, ?_⟩
    rw [isLeapYear_iff]
    omega

/-- No month is longer than in a leap year. -/
theorem monthLength_le_of_isLeapYear {year leap : Int} (h : isLeapYear leap = true) (month : Nat) :
    monthLength year month ≤ monthLength leap month := by
  by_cases hfebruary : month = 2
  · rw [hfebruary]
    show (if isLeapYear year then 29 else 28) ≤ if isLeapYear leap then 29 else 28
    rw [if_pos h]
    split <;> decide
  · -- only the length of February depends on the year
    rw [monthLength.eq_def, monthLength.eq_def]
    split <;> first | exact Nat.le_refl _ | contradiction

/-- The lengths of the months in a leap year. -/
theorem monthLength_eq_of_isLeapYear {leap : Int} (h : isLeapYear leap = true) {month : Nat}
    (hmonth : 1 ≤ month ∧ month ≤ 12) :
    monthLength leap month =
      if month = 2 then 29
      else if month = 4 ∨ month = 6 ∨ month = 9 ∨ month = 11 then 30
      else 31 := by
  obtain ⟨hlow, hhigh⟩ := hmonth
  interval_cases month <;> simp [monthLength, h]

/-- Every month has four whole weeks. -/
theorem le_monthLength (year : Int) {month : Nat} (hmonth : 1 ≤ month ∧ month ≤ 12) :
    28 ≤ monthLength year month := by
  obtain ⟨hlow, hhigh⟩ := hmonth
  interval_cases month <;> simp only [monthLength] <;> (try split) <;> omega

/-- **DATES COME BACK**: what is a date in some year is a date in one of any eight years in
    a row. -/
theorem IsDate.exists_year {year : Int} {month day : Nat} (h : IsDate year month day)
    (start : Int) : ∃ y, start ≤ y ∧ y ≤ start + 7 ∧ IsDate y month day := by
  obtain ⟨leap, hfrom, hto, hleap⟩ := exists_leapYear start
  obtain ⟨hlow, hhigh, hday, hle⟩ := h
  exact ⟨leap, hfrom, hto, hlow, hhigh, hday, hle.trans (monthLength_le_of_isLeapYear hleap month)⟩

/-- The dates that exist in some year, by month and day. -/
theorem exists_isDate_iff {month day : Nat} (hmonth : 1 ≤ month ∧ month ≤ 12)
    (hday : 1 ≤ day ∧ day ≤ 31) :
    (∃ year, IsDate year month day) ↔
      (month = 2 → day ≤ 29) ∧ (month = 4 ∨ month = 6 ∨ month = 9 ∨ month = 11 → day ≤ 30) := by
  constructor
  · rintro ⟨year, -, -, -, hle⟩
    obtain ⟨leap, -, -, hleap⟩ := exists_leapYear year
    have hlongest := hle.trans (monthLength_le_of_isLeapYear hleap month)
    rw [monthLength_eq_of_isLeapYear hleap hmonth] at hlongest
    split at hlongest <;> (try split at hlongest) <;> omega
  · rintro ⟨hfebruary, hthirty⟩
    obtain ⟨leap, -, -, hleap⟩ := exists_leapYear 0
    refine ⟨leap, hmonth.1, hmonth.2, hday.1, ?_⟩
    rw [monthLength_eq_of_isLeapYear hleap hmonth]
    split
    · next h => exact hfebruary h
    · split
      · next h => exact hthirty h
      · exact hday.2

theorem trueWeekday_le (year : Int) (month day : Nat) : trueWeekday year month day ≤ 6 := by
  rw [trueWeekday]
  omega

/-- **WEEKDAYS COME BACK**: every weekday is in the first week of every month. -/
theorem exists_day_of_weekday (year : Int) {month weekday : Nat} (hmonth : 1 ≤ month ∧ month ≤ 12)
    (hweekday : weekday ≤ 6) :
    ∃ day, IsDate year month day ∧ trueWeekday year month day = weekday := by
  have hlength := le_monthLength year hmonth
  obtain ⟨first, hfirst⟩ : ∃ first, first = daysBeforeYear year + daysBeforeMonth year month :=
    ⟨_, rfl⟩
  refine ⟨((weekday - first - 1) % 7).toNat + 1,
    ⟨hmonth.1, hmonth.2, by omega, by omega⟩, ?_⟩
  rw [trueWeekday, dayNumber, ← hfirst]
  omega

end Calendar

/-! ## Schedules that come back -/

namespace Schedule

variable {s : Schedule} {reference : DateTime}

/-- Some scheduled month has some scheduled day, in some year. -/
def HasDate (s : Schedule) : Prop :=
  ∃ month ∈ s.months, ∃ day ∈ s.days, ∃ year, IsDate year month day

/-- All weekdays are scheduled. -/
def EveryWeekday (s : Schedule) : Prop := ∀ weekday ≤ 6, weekday ∈ s.weekdays

/-- All days that any month has are scheduled. -/
def EveryDay (s : Schedule) : Prop := ∀ day, 1 ≤ day → day ≤ 31 → day ∈ s.days

/-- In any eight years in a row there is a date that the schedule selects. -/
def Recurs (s : Schedule) : Prop :=
  ∀ start : Int, ∃ year month day, start ≤ year ∧ year ≤ start + 7 ∧ IsDate year month day ∧
    month ∈ s.months ∧ day ∈ s.days ∧ trueWeekday year month day ∈ s.weekdays

/-- There is an event from every reference on up to some year, and no stream that starts
    up to this year ends before it is over. -/
structure FoundUntil (s : Schedule) (year : Int) : Prop where
  found : ∀ reference : DateTime, reference.year ≤ year →
    ∃ event, s.nextOccurrence reference = .ok event
  goes_on : ∀ reference : DateTime, reference.year ≤ year →
    ∃ last ∈ (Events.start s reference).toList.getLast?, year < last.year

/-- With all weekdays, a date that exists comes back within eight years. -/
theorem recurs_of_hasDate (hweekday : s.EveryWeekday) (hdate : s.HasDate) : s.Recurs := by
  intro start
  obtain ⟨month, hmonth, day, hday, year, hexists⟩ := hdate
  obtain ⟨y, hfrom, hto, hisDate⟩ := hexists.exists_year start
  exact ⟨y, month, day, hfrom, hto, hisDate, hmonth, hday, hweekday _ (trueWeekday_le y month day)⟩

/-- With all days, each year has the first scheduled weekday in the first scheduled
    month. -/
theorem recurs_of_everyDay (hevery : s.EveryDay) : s.Recurs := by
  intro start
  have hmonth := s.months.within _ s.months.first_mem
  have hweekday := s.weekdays.within _ s.weekdays.first_mem
  obtain ⟨day, hisDate, heq⟩ := exists_day_of_weekday start hmonth hweekday.2
  refine ⟨start, s.months.first, day, by omega, by omega, hisDate, s.months.first_mem, ?_, ?_⟩
  · exact hevery day hisDate.2.2.1 (hisDate.2.2.2.trans (monthLength_le _ _))
  · rw [heq]
    exact s.weekdays.first_mem

/-- On a selected date there is an event, at the first hour and minute. -/
theorem exists_selected {year : Int} {month day : Nat} (hyear : firstYear ≤ year ∧ year ≤ lastYear)
    (hisDate : IsDate year month day) (hmonth : month ∈ s.months) (hday : day ∈ s.days)
    (hweekday : trueWeekday year month day ∈ s.weekdays) :
    ∃ t : DateTime, t.IsWholeMinute ∧ s.Selects t ∧ t.year = year := by
  have hhour := s.hours.within _ s.hours.first_mem
  have hminute := s.minutes.within _ s.minutes.first_mem
  exact ⟨⟨year, month, day, s.hours.first, s.minutes.first, 0, 0, hyear, hisDate, hhour.2,
    hminute.2, by decide, Or.inl (by decide)⟩, ⟨rfl, rfl⟩,
    ⟨s.minutes.first_mem, s.hours.first_mem, hday, hmonth, hweekday⟩, rfl⟩

/-- **THE HORIZON IS WIDE ENOUGH** for what comes back within eight years, as long as there
    are eight years to come. -/
theorem exists_next_of_recurs (h : s.Recurs) (hyear : reference.year ≤ 262134) :
    ∃ event, s.next? reference = some event := by
  -- the eight years after the year of the reference, since that one may be over
  obtain ⟨year, month, day, hfrom, hto, hisDate, hmonth, hday, hweekday⟩ := h (reference.year + 1)
  have hbounds := reference.component_bounds
  obtain ⟨t, hwhole, hselected, htyear⟩ :=
    exists_selected ⟨by rw [firstYear]; omega, by rw [lastYear]; omega⟩ hisDate hmonth hday hweekday
  rw [← Option.ne_none_iff_exists', Ne, next?_eq_none_iff, not_not]
  refine ⟨t, hwhole, hselected, le_of_lt (DateTime.lt_iff.mpr (Or.inl ?_)), by omega⟩
  show reference.year < t.year
  omega

/-- What comes back within eight years is found from every reference up to the year
    262132. -/
theorem foundUntil_of_recurs (h : s.Recurs) : s.FoundUntil 262132 where
  found := by
    intro reference hyear
    have hnear : reference.year ≤ 262134 := by omega
    obtain ⟨event, hnext⟩ := exists_next_of_recurs h hnear
    refine ⟨event, ?_⟩
    rw [nextOccurrence, hnext]
  goes_on := by
    intro reference hyear
    have hnear : reference.year ≤ 262134 := by omega
    obtain ⟨first, hfirst⟩ := exists_next_of_recurs h hnear
    have hne : (Events.start s reference).toList ≠ [] := by
      rw [Ne, Events.toList_start_eq_nil_iff, hfirst]
      exact Option.some_ne_none _
    obtain ⟨last, hlast⟩ := Option.ne_none_iff_exists'.mp (mt List.getLast?_eq_none_iff.mp hne)
    refine ⟨last, hlast, ?_⟩
    obtain ⟨before, hlist⟩ := List.getLast?_eq_some_iff.mp hlast
    obtain ⟨-, -, hafter⟩ := Events.toList_start_of_append before reference hlist
    by_contra hearly
    -- the stream would go on from the minute after its last event
    cases hminute : last.nextMinute? with
    | none =>
        have hend := (DateTime.last_of_nextMinute hminute).1
        rw [lastYear] at hend
        omega
    | some start =>
        have hlater := DateTime.year_le_of_nextMinute hminute
        have hnear : start.year ≤ 262134 := by omega
        obtain ⟨event, hnext⟩ := exists_next_of_recurs h hnear
        rw [hminute] at hafter
        rw [Events.toList_start_eq_nil_iff.mp hafter] at hnext
        cases hnext

/-- What is selected is a date. -/
theorem hasDate_of_selects {t : DateTime} (h : s.Selects t) : s.HasDate :=
  ⟨t.month, h.month, t.day, h.day, t.year, t.isDate⟩

/-- Without a date a search fails from everywhere. -/
theorem nextOccurrence_of_not_hasDate (h : ¬ s.HasDate) (reference : DateTime) :
    s.nextOccurrence reference = .error (.notFound s.text 11) := by
  have hnone : s.next? reference = none :=
    next?_eq_none_iff.mpr fun ⟨_, hevent⟩ => h (hasDate_of_selects hevent.selected)
  rw [nextOccurrence, hnone]
  rfl

/-- A schedule has a date when one of its months has one of its days in some year. -/
theorem hasDate_iff :
    s.HasDate ↔ ∃ month ∈ s.months, ∃ day ∈ s.days,
      (month = 2 → day ≤ 29) ∧ (month = 4 ∨ month = 6 ∨ month = 9 ∨ month = 11 → day ≤ 30) := by
  refine exists_congr fun month => and_congr_right fun hmonth =>
    exists_congr fun day => and_congr_right fun hday => ?_
  exact exists_isDate_iff (s.months.within month hmonth) (s.days.within day hday)

/-- **ELEVEN YEARS ARE ENOUGH**: a schedule of all weekdays is found from everywhere if one
    of its months has one of its days in some year, and from nowhere otherwise. A
    schedule of all days is found from everywhere, whatever its months and
    weekdays are. This holds until eleven years before the end of time. -/
theorem horizon_suffices (s : Schedule) :
    (s.EveryWeekday → s.HasDate → s.FoundUntil 262132) ∧
      (s.EveryWeekday → ¬ s.HasDate →
        ∀ reference, s.nextOccurrence reference = .error (.notFound s.text 11)) ∧
      (s.EveryDay → s.FoundUntil 262132) ∧
      (s.HasDate ↔ ∃ month ∈ s.months, ∃ day ∈ s.days,
        (month = 2 → day ≤ 29) ∧
          (month = 4 ∨ month = 6 ∨ month = 9 ∨ month = 11 → day ≤ 30)) :=
  ⟨fun hweekday hdate => foundUntil_of_recurs (recurs_of_hasDate hweekday hdate),
    fun _ hnot reference => nextOccurrence_of_not_hasDate hnot reference,
    fun hevery => foundUntil_of_recurs (recurs_of_everyDay hevery), hasDate_iff⟩

/-- Every leap day at one time of day. -/
def everyLeapDay (hour : Fin 24) (minute : Fin 60) : Schedule :=
  { daily hour minute with
    days := oneValue 29 (by decide)
    months := oneValue 2 (by decide) }

/-- A leap day is found from everywhere. -/
theorem horizon_suffices_everyLeapDay :
    (everyLeapDay 0 0).EveryWeekday ∧ (everyLeapDay 0 0).HasDate ∧
      (everyLeapDay 0 0).FoundUntil 262132 := by
  have hweekday : (everyLeapDay 0 0).EveryWeekday := by
    intro weekday hle
    exact List.mem_range'_1.mpr ⟨Nat.zero_le _, Nat.lt_succ_of_le hle⟩
  have hdate : (everyLeapDay 0 0).HasDate :=
    ⟨2, List.mem_singleton_self 2, 29, List.mem_singleton_self 29, 2024, by decide⟩
  exact ⟨hweekday, hdate, (horizon_suffices (everyLeapDay 0 0)).1 hweekday hdate⟩

end Schedule

end CronCalendar
