import CronCalendar.Proofs.Upcoming.Minute
import CronCalendar.Proofs.Zone.Ordinary

/-!
# Order — what is upcoming for two instants

A search starts from what the local clock shows, and the later of two instants
may have the earlier local time: the clock may have been set back in between.
Two facts order the outcomes all the same. What is found is the first event from
the local time on that exists in the zone (`found_of_upcoming`); and the time
returned for an ordinary one is the first instant from `now` on at which the
clock is not behind it (`isLeast_notBehind_of_upcoming`). By the second fact the
returned times are in the order of the found events, and by the first one the
found events are in order unless the search from the later instant finds an
event that the other search left out, since it was behind the local clock
(`utc_le_utc_iff`).
-/

namespace CronCalendar

open DateTime

variable {s : Schedule} {z : Zone} {now now' reference reference' : DateTime}
  {time time' earliest latest : ZonedTime}

/-- For an ordinary time that the clock is not past, the choice between its first and its
    last time falls on the first instant from `now` on at which the clock is not behind it. -/
theorem Zone.Ends.isLeast_notBehind {civil : DateTime} (hends : z.Ends civil earliest latest)
    (hordinary : z.Ordinary civil.seconds) (hnow : now.nanosecond = 0)
    (hclock : now.seconds + z.offsetAt now.seconds ≤ civil.seconds) :
    IsLeast (z.notBehind now.seconds civil.seconds)
      (earliest.seenFrom now latest).utc.seconds := by
  obtain ⟨u, hshown, hleast⟩ := hordinary.exists_isLeast hclock
  have hfrom : now.seconds ≤ u := hleast.1.1
  suffices hchosen : u = (earliest.seenFrom now latest).utc.seconds by
    rw [← hchosen]
    exact hleast
  have hfirst := hends.isLeast.2 hshown
  rw [ZonedTime.seenFrom]
  split
  · next hle =>
      -- the first time is not past, so the clock is not behind at it
      rw [← not_lt, lt_iff_seconds] at hle
      have hmem : earliest.utc.seconds ∈ z.notBehind now.seconds civil.seconds :=
        ⟨by omega, (Zone.mem_instants.mp hends.first.shown).ge⟩
      exact le_antisymm (hleast.2 hmem) hfirst
  · next hpast =>
      -- the first time is past, and a third one does not exist
      have hfraction := hends.first.no_fraction
      rw [not_le, lt_iff_seconds, hnow, hfraction] at hpast
      refine (hends.isGreatest.2 hshown).eq_of_not_lt ?_
      exact hordinary.not_thrice _ hends.first.shown _ hshown _ hends.last.shown (by omega)

namespace Schedule

/-- What is found is the first event from the local time on that exists, and the time
    that is returned is chosen between the ends of this event. -/
theorem found_of_upcoming (hlocal : z.localTime? now = some reference)
    (h : s.upcoming z now = .ok time) :
    IsLeast {t | s.ExistsFrom z reference t} time.civil ∧
      ∃ earliest latest, z.Ends time.civil earliest latest ∧
        time = earliest.seenFrom now latest := by
  rw [upcoming_of_localTime hlocal] at h
  obtain ⟨event, earliest, latest, hleast, hends, rfl⟩ := found_of_upcomingFrom h
  rw [(hends.shows_seenFrom now).civil_eq]
  exact ⟨hleast, earliest, latest, hends, rfl⟩

/-- **THE FIRST CHANCE**: the time returned for an ordinary event is the first instant
    from `now` on at which the clock is not behind it, and it shows the event. -/
theorem isLeast_notBehind_of_upcoming (hwhole : z.WholeMinutes) (hnow : now.IsWholeMinute)
    (hlocal : z.localTime? now = some reference) (h : s.upcoming z now = .ok time)
    (hordinary : z.Ordinary time.civil.seconds) :
    IsLeast (z.notBehind now.seconds time.civil.seconds) time.utc.seconds ∧
      z.Shows time.civil time := by
  obtain ⟨hleast, earliest, latest, hends, htime⟩ := found_of_upcoming hlocal h
  have hreference := hwhole.isWholeMinute_localTime hnow hlocal
  have hclock : now.seconds + z.offsetAt now.seconds ≤ time.civil.seconds := by
    have hfrom := hleast.1.not_before
    rw [hreference.startOfMinute_eq] at hfrom
    rw [← Zone.seconds_of_localTime? hlocal, seconds_le_seconds_iff hreference hleast.1.whole]
    exact hfrom
  have hfirst := hends.isLeast_notBehind hordinary hnow.nanosecond hclock
  have hshows := hends.shows_seenFrom now
  rw [← htime] at hfirst hshows
  exact ⟨hfirst, hshows⟩

/-- The search from one instant finds an earlier event than the search from another one
    exactly when it starts further back and finds what the other one left out. -/
theorem civil_lt_civil_iff (hlocal : z.localTime? now = some reference)
    (hlocal' : z.localTime? now' = some reference') (h : s.upcoming z now = .ok time)
    (h' : s.upcoming z now' = .ok time') :
    time'.civil < time.civil ↔
      ∃ event, s.ExistsFrom z reference' event ∧ event < reference.startOfMinute := by
  obtain ⟨hleast, -⟩ := found_of_upcoming hlocal h
  obtain ⟨hleast', -⟩ := found_of_upcoming hlocal' h'
  constructor
  · intro hlt
    refine ⟨time'.civil, hleast'.1, lt_of_not_ge fun hle => ?_⟩
    obtain ⟨hminute, hselected, -, hexist⟩ := hleast'.1
    exact not_le.mpr hlt (hleast.2 ⟨hminute, hselected, hle, hexist⟩)
  · rintro ⟨event, hevent, hlt⟩
    exact ((hleast'.2 hevent).trans_lt hlt).trans_le hleast.1.not_before

/-- **ASKING EARLIER** gives no later event, unless what is found from the earlier instant
    is still to come at the later one, and the clock has been set back to an event that
    was already behind it: then, and only then, the later instant has the earlier event. -/
theorem utc_le_utc_iff (hwhole : z.WholeMinutes) (hnow : now.IsWholeMinute)
    (hnow' : now'.IsWholeMinute) (hle : now ≤ now') (hlocal : z.localTime? now = some reference)
    (hlocal' : z.localTime? now' = some reference') (h : s.upcoming z now = .ok time)
    (h' : s.upcoming z now' = .ok time') (hordinary : z.Ordinary time.civil.seconds)
    (hordinary' : z.Ordinary time'.civil.seconds) :
    time.utc ≤ time'.utc ↔
      time.utc ≤ now' ∨ ¬ ∃ event, s.ExistsFrom z reference' event ∧ event < reference := by
  obtain ⟨hfirst, hshows⟩ := isLeast_notBehind_of_upcoming hwhole hnow hlocal h hordinary
  obtain ⟨hfirst', hshows'⟩ := isLeast_notBehind_of_upcoming hwhole hnow' hlocal' h' hordinary'
  have hminute := (found_of_upcoming hlocal h).1.1.whole
  have hminute' := (found_of_upcoming hlocal' h').1.1.whole
  have hutc := hshows.isWholeMinute hwhole hminute
  have hutc' := hshows'.isWholeMinute hwhole hminute'
  -- the order of the two returned times, by the order of the events that were found
  have horder := Zone.le_iff_of_isLeast_notBehind ((seconds_le_seconds_iff hnow hnow').mpr hle)
    hfirst hfirst' hshows.shown hshows'.shown
  rw [seconds_le_seconds_iff hutc hutc', seconds_le_seconds_iff hutc hnow',
    seconds_le_seconds_iff hminute hminute'] at horder
  have hcivil := civil_lt_civil_iff hlocal hlocal' h h'
  rw [(hwhole.isWholeMinute_localTime hnow hlocal).startOfMinute_eq] at hcivil
  rw [horder, ← hcivil, not_lt]

/-! ### Hourly schedules on a long day -/

/-- Every hour at one minute. -/
def hourly (minute : Fin 60) : Schedule :=
  { daily 0 minute with hours := allValues _ (by decide) }

/-- An hourly schedule selects one minute of each hour. -/
theorem selects_hourly_iff {minute : Fin 60} {t : DateTime} :
    (hourly minute).Selects t ↔ t.minute = minute := by
  constructor
  · intro h
    exact List.mem_singleton.mp h.minute
  · intro hminute
    obtain ⟨hhour, hminute', -, -⟩ := t.isTimeOfDay
    -- an hourly schedule differs from a daily one only in the hour
    have hdaily : (daily ⟨t.hour, by omega⟩ minute).Selects t :=
      selects_daily_iff.mpr ⟨rfl, hminute⟩
    exact {
      minute := hdaily.minute
      hour := List.mem_range'_1.mpr ⟨Nat.zero_le _, Nat.lt_succ_of_le hhour⟩
      day := hdaily.day
      month := hdaily.month
      weekday := hdaily.weekday }

/-- The third of November has every minute. -/
theorem valid_thirdOfNovember (hour : Fin 24) (minute : Fin 60) :
    (firstYear ≤ 2024 ∧ 2024 ≤ lastYear) ∧ Calendar.IsDate 2024 11 3 ∧
      IsTimeOfDay hour minute 0 0 :=
  ⟨by decide, by decide, by omega, by omega, by omega, by omega⟩

/-- A minute of 3 November 2024. -/
def thirdOfNovember (hour : Fin 24) (minute : Fin 60) : DateTime where
  year := 2024
  month := 11
  day := 3
  hour := hour
  minute := minute
  second := 0
  nanosecond := 0
  year_bounds := (valid_thirdOfNovember hour minute).1
  isDate := (valid_thirdOfNovember hour minute).2.1
  isTimeOfDay := (valid_thirdOfNovember hour minute).2.2

/-- On a full hour, it is the next full hour. -/
theorem next?_fullHour (hour : Fin 24) :
    (hourly 0).next? (thirdOfNovember hour 0) = some (thirdOfNovember hour 0) :=
  next?_of_selects ⟨rfl, rfl⟩ (selects_hourly_iff.mpr rfl)

/-- At one fifty-nine, the next full hour is two. -/
theorem next?_oneFiftyNine :
    (hourly 0).next? (thirdOfNovember 1 59) = some (thirdOfNovember 2 0) := by
  refine next?_of_nextMinute ⟨rfl, rfl⟩ ?_ (by decide) (selects_hourly_iff.mpr rfl) (by decide)
  rw [selects_hourly_iff]
  decide

/-- One change alone is far from all others. -/
theorem spaced_fallBack : fallBack.Spaced := by
  refine ⟨?_, trivial⟩
  rintro next ⟨⟩

/-- One minute before the clock is set back. -/
theorem upcoming_beforeRepeat :
    (hourly 0).upcoming fallBack (thirdOfNovember 5 59) =
      .ok ⟨thirdOfNovember 2 0, -18000, thirdOfNovember 7 0⟩ :=
  upcoming_of_resolve (by decide) next?_oneFiftyNine (by decide)

/-- One minute before the end of the repeated hour. -/
theorem upcoming_endOfRepeat :
    (hourly 0).upcoming fallBack (thirdOfNovember 6 59) =
      .ok ⟨thirdOfNovember 2 0, -18000, thirdOfNovember 7 0⟩ :=
  upcoming_of_resolve (by decide) next?_oneFiftyNine (by decide)

/-- The last minutes before and in the repeated hour, which both have the event after
    it. -/
theorem utc_le_utc_iff_fallBack :
    fallBack.WholeMinutes ∧ (thirdOfNovember 5 59).IsWholeMinute ∧
      (thirdOfNovember 6 59).IsWholeMinute ∧ thirdOfNovember 5 59 ≤ thirdOfNovember 6 59 ∧
      fallBack.localTime? (thirdOfNovember 5 59) = some (thirdOfNovember 1 59) ∧
      fallBack.localTime? (thirdOfNovember 6 59) = some (thirdOfNovember 1 59) ∧
      (hourly 0).upcoming fallBack (thirdOfNovember 5 59) =
        .ok ⟨thirdOfNovember 2 0, -18000, thirdOfNovember 7 0⟩ ∧
      (hourly 0).upcoming fallBack (thirdOfNovember 6 59) =
        .ok ⟨thirdOfNovember 2 0, -18000, thirdOfNovember 7 0⟩ ∧
      fallBack.Ordinary (thirdOfNovember 2 0).seconds ∧
      (thirdOfNovember 7 0 ≤ thirdOfNovember 7 0 ↔
        thirdOfNovember 7 0 ≤ thirdOfNovember 6 59 ∨
          ¬ ∃ event, (hourly 0).ExistsFrom fallBack (thirdOfNovember 1 59) event ∧
            event < thirdOfNovember 1 59) := by
  have hle : thirdOfNovember 5 59 ≤ thirdOfNovember 6 59 := by decide
  have hlocal : fallBack.localTime? (thirdOfNovember 5 59) = some (thirdOfNovember 1 59) := by
    decide
  have hlocal' : fallBack.localTime? (thirdOfNovember 6 59) = some (thirdOfNovember 1 59) := by
    decide
  have hordinary : fallBack.Ordinary (thirdOfNovember 2 0).seconds :=
    spaced_fallBack.ordinary ⟨(thirdOfNovember 7 0).seconds, Zone.mem_instants.mpr (by decide)⟩
  exact ⟨wholeMinutes_fallBack, ⟨rfl, rfl⟩, ⟨rfl, rfl⟩, hle, hlocal, hlocal',
    upcoming_beforeRepeat, upcoming_endOfRepeat, hordinary,
    utc_le_utc_iff wholeMinutes_fallBack ⟨rfl, rfl⟩ ⟨rfl, rfl⟩ hle hlocal hlocal'
      upcoming_beforeRepeat upcoming_endOfRepeat hordinary hordinary⟩

/-! ### Asking later for an earlier event -/

/-- In a settled zone with whole minutes, the later one of two whole minutes has the
    earlier event. -/
structure GoesBack (s : Schedule) (z : Zone) (now now' : DateTime) (time time' : ZonedTime) :
    Prop where
  settles : z.Settles
  whole : z.WholeMinutes
  now_whole : now.IsWholeMinute
  now'_whole : now'.IsWholeMinute
  le : now ≤ now'
  first : s.upcoming z now = .ok time
  second : s.upcoming z now' = .ok time'
  lt : time'.utc < time.utc

/-- A clock that is set back to half past midnight at half past one, and to ten past
    midnight at ten past two. -/
def shownThrice : Zone := ⟨0, [⟨1730597400, -3600⟩, ⟨1730603400, -10800⟩], by decide⟩

/-- A clock that is set forward to three at two, and back to two at four. -/
def jumpedAndShown : Zone := ⟨0, [⟨1730599200, 3600⟩, ⟨1730602800, -3600⟩], by decide⟩

/-- A minute later the repeated hour has begun, and with it an earlier event. -/
theorem goesBack_fallBack :
    (hourly 0).GoesBack fallBack (thirdOfNovember 5 59) (thirdOfNovember 6 0)
      ⟨thirdOfNovember 2 0, -18000, thirdOfNovember 7 0⟩
      ⟨thirdOfNovember 1 0, -18000, thirdOfNovember 6 0⟩ where
  settles := settles_fallBack
  whole := wholeMinutes_fallBack
  now_whole := ⟨rfl, rfl⟩
  now'_whole := ⟨rfl, rfl⟩
  le := by decide
  first := upcoming_beforeRepeat
  second := upcoming_of_resolve (by decide) (next?_fullHour 1) (by decide)
  lt := by decide

/-- At the second showing of one o'clock the third one is chosen, and an hour later two
    o'clock comes before it. -/
theorem goesBack_shownThrice :
    (hourly 0).GoesBack shownThrice (thirdOfNovember 2 0) (thirdOfNovember 3 0)
      ⟨thirdOfNovember 1 0, -10800, thirdOfNovember 4 0⟩
      ⟨thirdOfNovember 2 0, -3600, thirdOfNovember 3 0⟩ where
  settles := by
    refine ⟨?_, ?_, trivial⟩
    · rintro next hnext -
      obtain rfl := List.mem_singleton.mp hnext
      decide
    · intro next hnext
      exact absurd hnext List.not_mem_nil
  whole := ⟨by decide, by decide⟩
  now_whole := ⟨rfl, rfl⟩
  now'_whole := ⟨rfl, rfl⟩
  le := by decide
  first := upcoming_of_resolve (by decide) (next?_fullHour 1) (by decide)
  second := upcoming_of_resolve (by decide) (next?_fullHour 2) (by decide)
  lt := by decide

/-- Two o'clock is jumped over and shown an hour later, so three o'clock comes before
    it. -/
theorem goesBack_jumpedAndShown :
    (hourly 0).GoesBack jumpedAndShown (thirdOfNovember 1 59) (thirdOfNovember 2 0)
      ⟨thirdOfNovember 2 0, -3600, thirdOfNovember 3 0⟩
      ⟨thirdOfNovember 3 0, 3600, thirdOfNovember 2 0⟩ where
  settles := by
    refine ⟨?_, ?_, trivial⟩
    · intro next _ hback
      exact absurd hback (by decide)
    · intro next hnext
      exact absurd hnext List.not_mem_nil
  whole := ⟨by decide, by decide⟩
  now_whole := ⟨rfl, rfl⟩
  now'_whole := ⟨rfl, rfl⟩
  le := by decide
  first := upcoming_of_resolve (by decide) next?_oneFiftyNine (by decide)
  second := upcoming_of_resolve (by decide) (next?_fullHour 3) (by decide)
  lt := by decide

/-- **NOT MONOTONE**: one minute before the clock is set back, the event after the repeated
    hour is upcoming, and one minute later one inside of it. The order is lost as well
    where a time is shown three times, or is jumped over and yet shown. -/
theorem utc_not_monotone :
    (hourly 0).GoesBack fallBack (thirdOfNovember 5 59) (thirdOfNovember 6 0)
        ⟨thirdOfNovember 2 0, -18000, thirdOfNovember 7 0⟩
        ⟨thirdOfNovember 1 0, -18000, thirdOfNovember 6 0⟩ ∧
      (hourly 0).GoesBack shownThrice (thirdOfNovember 2 0) (thirdOfNovember 3 0)
        ⟨thirdOfNovember 1 0, -10800, thirdOfNovember 4 0⟩
        ⟨thirdOfNovember 2 0, -3600, thirdOfNovember 3 0⟩ ∧
      (hourly 0).GoesBack jumpedAndShown (thirdOfNovember 1 59) (thirdOfNovember 2 0)
        ⟨thirdOfNovember 2 0, -3600, thirdOfNovember 3 0⟩
        ⟨thirdOfNovember 3 0, 3600, thirdOfNovember 2 0⟩ :=
  ⟨goesBack_fallBack, goesBack_shownThrice, goesBack_jumpedAndShown⟩

end Schedule

end CronCalendar
