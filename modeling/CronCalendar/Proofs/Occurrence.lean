import CronCalendar.Occurrence
import CronCalendar.Proofs.Cursor
import CronCalendar.Proofs.DateTime

/-!
# Occurrences — the search finds the least selected minute

What a search may find is said without a search: whole minutes that a schedule
selects on the true calendar, from the minute of the reference on and before the
year of the horizon (`EventFrom`). The cursor never jumps over such a minute, so
the first due cursor is the least of them, and if the cursor leaves the horizon
there is none (`nextOccurrence_eq_iff`).
-/

namespace CronCalendar

open Calendar

/-- The times that a schedule selects: all five sets admit them, the last one
    by the weekday of the calendar. -/
structure Schedule.Selects (s : Schedule) (t : DateTime) : Prop where
  minute : t.minute ∈ s.minutes
  hour : t.hour ∈ s.hours
  day : t.day ∈ s.days
  month : t.month ∈ s.months
  weekday : trueWeekday t.year t.month t.day ∈ s.weekdays

/-- The events from the minute of a reference on, up to the horizon. -/
structure Schedule.EventFrom (s : Schedule) (reference t : DateTime) : Prop where
  whole : t.IsWholeMinute
  selected : s.Selects t
  not_before : reference.startOfMinute ≤ t
  within_horizon : t.year < reference.year + 11

/-! ## Cursors and date-times -/

namespace Cursor

/-- Cursors are in a line: what does not come before another one is the same or comes
    after it. -/
theorem eq_or_before {c x : Cursor} (h : ¬ Before x c) : x = c ∨ Before c x := by
  rw [Before] at h ⊢
  by_cases heq : x = c
  · exact Or.inl heq
  · right
    have hne : ¬ (x.year = c.year ∧ x.month = c.month ∧ x.day = c.day ∧ x.hour = c.hour ∧
        x.minute = c.minute) := by
      rintro ⟨h1, h2, h3, h4, h5⟩
      cases x
      cases c
      simp only at h1 h2 h3 h4 h5
      subst h1 h2 h3 h4 h5
      exact heq rfl
    omega

/-- Whole minutes are in the order of their cursors. -/
theorem before_ofDateTime_iff {t u : DateTime} (ht : t.IsWholeMinute) (hu : u.IsWholeMinute) :
    Before (ofDateTime t) (ofDateTime u) ↔ t < u := by
  rw [DateTime.lt_iff, ht.second, ht.nanosecond, hu.second, hu.nanosecond, Before]
  simp only [ofDateTime]
  omega

/-- A cursor on a date-time is due when the schedule selects the date-time. -/
theorem isDue_ofDateTime_iff (s : Schedule) (t : DateTime) :
    (ofDateTime t).isDue s = true ↔ s.Selects t := by
  rw [isDue_iff]
  show _ ∧ weekday t.year t.month t.day ∈ s.weekdays ∧ _ ↔ _
  rw [weekday_eq_trueWeekday t.isDate]
  constructor
  · rintro ⟨⟨hmonth, hday, -⟩, hweekday, hhour, hminute⟩
    exact ⟨hminute, hhour, hday, hmonth, hweekday⟩
  · rintro ⟨hminute, hhour, hday, hmonth, hweekday⟩
    exact ⟨⟨hmonth, hday, t.isDate.2.2.2⟩, hweekday, hhour, hminute⟩

/-- The date-time of a cursor is a whole minute with the same components. -/
theorem toDateTime?_eq_some {c : Cursor} {t : DateTime} (h : c.toDateTime? = some t) :
    t.IsWholeMinute ∧ ofDateTime t = c := by
  obtain ⟨h1, h2, h3, h4, h5, h6, h7⟩ := DateTime.of?_eq_some h
  refine ⟨⟨h6, h7⟩, ?_⟩
  rw [ofDateTime, h1, h2, h3, h4, h5]

/-- A due cursor is no date-time only in a year that cannot be represented. -/
theorem year_of_toDateTime?_none {s : Schedule} {c : Cursor} (hdue : c.isDue s = true)
    (h : c.toDateTime? = none) : ¬ (firstYear ≤ c.year ∧ c.year ≤ lastYear) := by
  intro hyear
  obtain ⟨⟨hmonth, hday, hle⟩, -, hhour, hminute⟩ := (isDue_iff s c).mp hdue
  have hdate : IsDate c.year c.month c.day :=
    ⟨(s.months.within _ hmonth).1, (s.months.within _ hmonth).2, (s.days.within _ hday).1, hle⟩
  have htime : IsTimeOfDay c.hour c.minute 0 0 :=
    ⟨(s.hours.within _ hhour).2, (s.minutes.within _ hminute).2, by decide, Or.inl (by decide)⟩
  rw [toDateTime?, DateTime.of?, dif_pos ⟨hyear, hdate, htime⟩] at h
  cases h

/-! ## The search -/

/-- What the search finds is due, inside the horizon, and not after anything
    that is due from the start on. -/
theorem search_eq_some {s : Schedule} {horizon : Int} {c : Cursor} {t : DateTime}
    (hc : DayFits s c) (h : search s horizon c = some t) :
    t.IsWholeMinute ∧ (ofDateTime t).isDue s = true ∧ t.year < horizon ∧
      ¬ Before (ofDateTime t) c ∧
        ∀ x, x.isDue s = true → ¬ Before x c → ¬ Before x (ofDateTime t) := by
  fun_induction search s horizon c with
  | case1 c hlt hdue =>
      obtain ⟨hwhole, rfl⟩ := toDateTime?_eq_some h
      refine ⟨hwhole, hdue, hlt, ?_, fun x _ hx => hx⟩
      rw [Before]
      omega
  | case2 c hlt hdue ih =>
      obtain ⟨hwhole, hdue', hhorizon, hnot, hleast⟩ := ih (dayFits_advance hc) h
      refine ⟨hwhole, hdue', hhorizon, ?_, ?_⟩
      · intro hbefore
        exact hnot (hbefore.trans (before_advance s c))
      · intro x hx hxc
        -- the cursor itself is not due, and what lies ahead of it is not jumped over
        rcases eq_or_before hxc with rfl | hcx
        · exact absurd hx hdue
        · exact hleast x hx (not_before_advance hc hx hcx)
  | case3 c hlt => cases h

/-- When the search finds nothing, nothing from the start on is due before the
    horizon. -/
theorem search_eq_none {s : Schedule} {horizon : Int} {c : Cursor} (hc : DayFits s c)
    (hyear : firstYear ≤ c.year) (h : search s horizon c = none) (t : DateTime)
    (hdue : (ofDateTime t).isDue s = true) (hct : ¬ Before (ofDateTime t) c) :
    horizon ≤ t.year := by
  have htyear := t.year_bounds
  fun_induction search s horizon c with
  | case1 c hlt hdue' =>
      -- the years only grow, so a date-time ahead would be out of range as well
      have hout := year_of_toDateTime?_none hdue' h
      rw [Before] at hct
      simp only [ofDateTime] at hct
      omega
  | case2 c hlt hdue' ih =>
      have hlater := before_advance s c
      rcases eq_or_before hct with heq | hcx
      · rw [heq] at hdue
        exact absurd hdue hdue'
      · refine ih (dayFits_advance hc) ?_ h (not_before_advance hc hdue hcx)
        rw [Before] at hlater
        omega
  | case3 c hlt =>
      rw [Before] at hct
      simp only [ofDateTime] at hct
      omega

end Cursor

/-! ## The first event -/

namespace Schedule

/-- A whole minute is from the minute of a reference on when its cursor does not come
    before. -/
theorem startOfMinute_le_iff {reference t : DateTime} (ht : t.IsWholeMinute) :
    reference.startOfMinute ≤ t ↔
      ¬ Cursor.Before (Cursor.ofDateTime t) (Cursor.ofDateTime reference) := by
  rw [← not_lt, ← Cursor.before_ofDateTime_iff ht reference.isWholeMinute_startOfMinute]
  rfl

theorem dayFits_ofDateTime (s : Schedule) (t : DateTime) :
    Cursor.DayFits s (Cursor.ofDateTime t) := Or.inl t.isDate.2.2.2

/-- What is found is the least event from the reference on. -/
theorem isLeast_of_next? {s : Schedule} {reference event : DateTime}
    (h : s.next? reference = some event) :
    IsLeast {t | s.EventFrom reference t} event := by
  obtain ⟨hwhole, hdue, hhorizon, hnot, hleast⟩ :=
    Cursor.search_eq_some (s.dayFits_ofDateTime reference) h
  refine ⟨⟨hwhole, (Cursor.isDue_ofDateTime_iff s event).mp hdue,
    (startOfMinute_le_iff hwhole).mpr hnot, hhorizon⟩, ?_⟩
  rintro t ⟨ht, hselected, hle, -⟩
  rw [← not_lt, ← Cursor.before_ofDateTime_iff ht hwhole]
  exact hleast _ ((Cursor.isDue_ofDateTime_iff s t).mpr hselected)
    ((startOfMinute_le_iff ht).mp hle)

/-- Nothing is found exactly when there is no event from the reference on. -/
theorem next?_eq_none_iff {s : Schedule} {reference : DateTime} :
    s.next? reference = none ↔ ¬ ∃ t, s.EventFrom reference t := by
  constructor
  · rintro h ⟨t, ht, hselected, hle, hhorizon⟩
    have hout := Cursor.search_eq_none (s.dayFits_ofDateTime reference)
      reference.year_bounds.1 h t ((Cursor.isDue_ofDateTime_iff s t).mpr hselected)
      ((startOfMinute_le_iff ht).mp hle)
    have hlimit : reference.year + (horizonYears : Int) = reference.year + 11 := rfl
    omega
  · intro hnone
    cases h : s.next? reference with
    | none => rfl
    | some event => exact absurd ⟨event, (isLeast_of_next? h).1⟩ hnone

/-- **THE LEAST EVENT** is found, and nothing else is. -/
theorem next?_eq_some_iff {s : Schedule} {reference event : DateTime} :
    s.next? reference = some event ↔ IsLeast {t | s.EventFrom reference t} event := by
  constructor
  · exact isLeast_of_next?
  · intro hleast
    cases h : s.next? reference with
    | none => exact absurd ⟨event, hleast.1⟩ (next?_eq_none_iff.mp h)
    | some found => rw [(isLeast_of_next? h).unique hleast]

/-- A search that starts at a selected minute finds this minute. -/
theorem next?_of_selects {s : Schedule} {event : DateTime} (hwhole : event.IsWholeMinute)
    (hselected : s.Selects event) : s.next? event = some event := by
  have hstart : event.startOfMinute = event := hwhole.startOfMinute_eq
  refine next?_eq_some_iff.mpr ⟨⟨hwhole, hselected, hstart.le, by omega⟩, ?_⟩
  rintro t ⟨-, -, hle, -⟩
  rw [hstart] at hle
  exact hle

/-- A search that starts at an event finds this event. -/
theorem next?_self {s : Schedule} {reference event : DateTime}
    (h : s.next? reference = some event) : s.next? event = some event := by
  obtain ⟨hwhole, hselected, -, -⟩ := (isLeast_of_next? h).1
  exact next?_of_selects hwhole hselected

/-- A search that starts one minute before a selected minute finds that one, unless its own
    minute is selected as well. -/
theorem next?_of_nextMinute {s : Schedule} {reference event : DateTime}
    (hwhole : reference.IsWholeMinute) (hnot : ¬ s.Selects reference)
    (hafter : reference.nextMinute? = some event) (hselected : s.Selects event)
    (hyear : event.year < reference.year + 11) : s.next? reference = some event := by
  obtain ⟨hminute, hseconds⟩ := DateTime.seconds_of_nextMinute hwhole hafter
  have hlater : reference < event := by
    rw [← DateTime.seconds_lt_seconds_iff hwhole hminute]
    omega
  refine next?_eq_some_iff.mpr ⟨⟨hminute, hselected, ?_, hyear⟩, ?_⟩
  · rw [hwhole.startOfMinute_eq]
    exact hlater.le
  · rintro t ⟨ht, hselected', hle, -⟩
    rw [hwhole.startOfMinute_eq] at hle
    have hne : reference ≠ t := by
      rintro rfl
      exact hnot hselected'
    exact DateTime.le_of_nextMinute hwhole ht hafter (lt_of_le_of_ne hle hne)

/-- **THE FIRST EVENT**: a search ends with the least event from its reference
    on, or with the error that names the schedule and the eleven years, and it
    does so exactly when there is no event. -/
theorem nextOccurrence_eq_iff (s : Schedule) (reference : DateTime) :
    (∀ t, s.nextOccurrence reference = .ok t ↔ IsLeast {t | s.EventFrom reference t} t) ∧
      ∀ e, s.nextOccurrence reference = .error e ↔
        e = .notFound s.text 11 ∧ ¬ ∃ t, s.EventFrom reference t := by
  rw [nextOccurrence, ← next?_eq_none_iff]
  simp only [← next?_eq_some_iff]
  cases s.next? reference with
  | none => simp [horizonYears, eq_comm]
  | some event => simp

/-! ### Daily schedules -/

/-- The values from the low bound to the high one. -/
def allValues (b : Bounds) (h : b.low ≤ b.high) : Values b where
  toList := List.range' b.low (b.high + 1 - b.low)
  ascending := List.pairwise_lt_range'
  nonempty := by
    rw [Ne, List.range'_eq_nil_iff]
    omega
  within v hv := by
    rw [List.mem_range'_1] at hv
    omega

/-- One value. -/
def oneValue {b : Bounds} (v : Nat) (h : b.low ≤ v ∧ v ≤ b.high) : Values b where
  toList := [v]
  ascending := List.pairwise_singleton _ _
  nonempty := List.cons_ne_nil _ _
  within := List.forall_mem_singleton.mpr h

/-- Every day at one time of day. -/
def daily (hour : Fin 24) (minute : Fin 60) : Schedule where
  minutes := oneValue minute ⟨Nat.zero_le _, Nat.le_of_lt_succ minute.isLt⟩
  hours := oneValue hour ⟨Nat.zero_le _, Nat.le_of_lt_succ hour.isLt⟩
  days := allValues _ (by decide)
  months := allValues _ (by decide)
  weekdays := allValues _ (by decide)
  command := none

variable {hour : Fin 24} {minute : Fin 60} {reference event t : DateTime}

/-- A daily schedule selects one time of each day. -/
theorem selects_daily_iff : (daily hour minute).Selects t ↔ t.hour = hour ∧ t.minute = minute := by
  constructor
  · intro h
    exact ⟨List.mem_singleton.mp h.hour, List.mem_singleton.mp h.minute⟩
  · rintro ⟨hhour, hminute⟩
    obtain ⟨-, -, hlow, hhigh, hfirst, hlast, -⟩ := t.component_bounds
    have hweekday : trueWeekday t.year t.month t.day < 7 := by
      rw [trueWeekday]
      omega
    exact {
      minute := List.mem_singleton.mpr hminute
      hour := List.mem_singleton.mpr hhour
      day := List.mem_range'_1.mpr ⟨hfirst, Nat.lt_succ_of_le hlast⟩
      month := List.mem_range'_1.mpr ⟨hlow, Nat.lt_succ_of_le hhigh⟩
      weekday := List.mem_range'_1.mpr ⟨Nat.zero_le _, hweekday⟩ }

/-- An event of a daily schedule that is less than a day ahead is the next one. -/
theorem next?_daily (hwhole : event.IsWholeMinute) (hhour : event.hour = hour)
    (hminute : event.minute = minute) (hle : reference.startOfMinute ≤ event)
    (hday : event.seconds < reference.startOfMinute.seconds + 86400)
    (hyear : event.year < reference.year + 11) :
    (daily hour minute).next? reference = some event := by
  refine next?_eq_some_iff.mpr ⟨⟨hwhole, selects_daily_iff.mpr ⟨hhour, hminute⟩, hle, hyear⟩, ?_⟩
  rintro t ⟨ht, hselected, hlet, -⟩
  obtain ⟨hhour', hminute'⟩ := selects_daily_iff.mp hselected
  rw [← DateTime.seconds_le_seconds_iff reference.isWholeMinute_startOfMinute ht] at hlet
  rw [← DateTime.seconds_le_seconds_iff hwhole ht]
  -- two events of the schedule are whole days apart
  have hdays : t.seconds % 86400 = event.seconds % 86400 := by
    rw [DateTime.seconds, DateTime.seconds, hhour, hhour', hminute, hminute', ht.second,
      hwhole.second]
    omega
  omega

end Schedule

end CronCalendar
