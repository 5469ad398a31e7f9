import CronCalendar.Proofs.Upcoming.Found

/-!
# Settled zones — what is upcoming is not past

The search compares what local clocks show, but an event that is not behind the
local clock may stand for an instant that is past: the clock may have been set
back in between. In a settled zone the clock then shows the event again, so the
past instant is not the only one. It is not chosen either, since the choice
falls on the earliest instant only if that is not past, and else on the latest
one (`startOfMinute_le_of_upcoming`).
-/

namespace CronCalendar

open DateTime

variable {s : Schedule} {z : Zone} {now reference : DateTime} {time : ZonedTime}

namespace Zone

/-- The local time is so many seconds ahead as the offset says. -/
theorem seconds_of_localTime? (h : z.localTime? now = some reference) :
    reference.seconds = now.seconds + z.offsetAt now.seconds :=
  (ofSeconds?_eq_some_iff.mp h).1

/-- A clock with whole minutes shows the start of a minute when the minute starts. -/
theorem WholeMinutes.seconds_startOfMinute (hwhole : z.WholeMinutes)
    (h : z.localTime? now = some reference) :
    reference.startOfMinute.seconds =
      now.startOfMinute.seconds + z.offsetAt now.startOfMinute.seconds := by
  obtain ⟨hoffset, hsame⟩ := hwhole.offsetAt now.seconds
  rw [DateTime.seconds_startOfMinute, DateTime.seconds_startOfMinute, hsame,
    seconds_of_localTime? h]
  omega

/-- **NOT BACK IN TIME**: an event that is not behind the clock of an instant stands
    for no earlier instant, if that instant is itself not later than `now`. -/
theorem Resolves.le_utc {event : DateTime} {start : Int} (hsettles : z.Settles)
    (hresolves : z.Resolves now event time) (hnow : start ≤ now.seconds)
    (hle : start + z.offsetAt start ≤ event.seconds) : start ≤ time.utc.seconds := by
  by_contra! hpast
  have hshown := mem_instants.mp hresolves.shown
  rw [← hshown] at hle
  -- the clock shows the event once more, from `start` on
  obtain ⟨again, hstart, hagain⟩ := exists_later_instant hsettles hpast hle
  rw [hshown] at hagain
  obtain ⟨earliest, -, hleast, ⟨hnotPast, hutc⟩ | ⟨-, hgreatest⟩⟩ := hresolves.chosen
  · rw [← not_lt, lt_iff_seconds, ← hutc] at hnotPast
    omega
  · have hlast := hgreatest.2 hagain
    omega

end Zone

namespace Schedule

/-- What the search returns is the time of an event that is not before the
    minute it started from. -/
theorem exists_event_of_upcomingFrom (h : s.upcomingFrom z now reference = .ok time) :
    ∃ event, event.IsWholeMinute ∧ reference.startOfMinute ≤ event ∧
      z.Resolves now event time := by
  obtain ⟨event, earliest, latest, hleast, hends, rfl⟩ := found_of_upcomingFrom h
  exact ⟨event, hleast.1.whole, hleast.1.not_before,
    Zone.resolves_of_resolve? (Zone.resolve?_of_ends hends now)⟩

/-- **WHAT IS UPCOMING IS NOT PAST**: in a settled zone with whole minutes, the
    upcoming event is not before the start of the current minute, whatever the
    clock skips or shows again around it. -/
theorem startOfMinute_le_of_upcoming (hsettles : z.Settles) (hwhole : z.WholeMinutes)
    (h : s.upcoming z now = .ok time) : now.startOfMinute ≤ time.utc := by
  obtain ⟨reference, hlocal, hfrom⟩ := exists_localTime_of_upcoming h
  obtain ⟨event, hminute, hle, hresolves⟩ := exists_event_of_upcomingFrom hfrom
  have hstart : now.startOfMinute.seconds ≤ now.seconds := by
    rw [DateTime.seconds_startOfMinute]
    omega
  have hclock : now.startOfMinute.seconds + z.offsetAt now.startOfMinute.seconds ≤
      event.seconds := by
    rw [← hwhole.seconds_startOfMinute hlocal, ← not_lt,
      seconds_lt_seconds_iff hminute (isWholeMinute_startOfMinute reference), not_lt]
    exact hle
  have hutc := hresolves.le_utc hsettles hstart hclock
  rw [← not_lt, lt_iff_seconds, (isWholeMinute_startOfMinute now).nanosecond]
  omega

/-! ### A repeated hour -/

/-- A clock that is set back from two to one on 3 November 2024. -/
def fallBack : Zone := ⟨-14400, [⟨1730613600, -18000⟩], by decide⟩

/-- The second half past one of the day has been reached, and twenty seconds more. -/
def insideRepeat : DateTime := (DateTime.of? 2024 11 3 6 30 20 0).get (by decide)

/-- What the clock shows then. -/
def localInsideRepeat : DateTime := (DateTime.of? 2024 11 3 1 30 20 0).get (by decide)

/-- The half past one that the clock shows twice. -/
def repeated : DateTime := (DateTime.of? 2024 11 3 1 30 0 0).get (by decide)

/-- Its second instant. -/
def utcRepeated : DateTime := (DateTime.of? 2024 11 3 6 30 0 0).get (by decide)

/-- One change alone is settled: there is no other one before the clock has caught
    up. -/
theorem settles_fallBack : fallBack.Settles := by
  refine ⟨?_, trivial⟩
  intro next hnext
  exact absurd hnext List.not_mem_nil

/-- This clock is set back by a whole hour at a whole hour. -/
theorem wholeMinutes_fallBack : fallBack.WholeMinutes :=
  ⟨by decide, by decide⟩

/-- The event of the current minute is found, as its seconds do not count. -/
theorem next?_localInsideRepeat : (daily 1 30).next? localInsideRepeat = some repeated :=
  next?_daily ⟨rfl, rfl⟩ rfl rfl (by decide) (by decide) (by decide)

/-- Twenty seconds after its second instant, the event is still the upcoming one. -/
theorem upcoming_insideRepeat :
    (daily 1 30).upcoming fallBack insideRepeat = .ok ⟨repeated, -18000, utcRepeated⟩ :=
  upcoming_of_resolve (by decide) next?_localInsideRepeat (by decide)

/-- The event lies before the instant it is asked at, but not before the minute of
    it. -/
theorem startOfMinute_le_of_upcoming_fallBack :
    fallBack.Settles ∧ fallBack.WholeMinutes ∧
      (daily 1 30).upcoming fallBack insideRepeat = .ok ⟨repeated, -18000, utcRepeated⟩ ∧
      insideRepeat.startOfMinute ≤ utcRepeated :=
  ⟨settles_fallBack, wholeMinutes_fallBack, upcoming_insideRepeat,
    startOfMinute_le_of_upcoming settles_fallBack wholeMinutes_fallBack upcoming_insideRepeat⟩

end Schedule

end CronCalendar
