import CronCalendar.Proofs.Upcoming.Found

/-!
# Outcomes — when a search in a zone ends without an answer

From a local time on, the search and the stream go through the same events. If
one of them has a time in the zone, the search finds it, and if the stream runs
out before, there is no upcoming event. But the search needs the minute after
every event that it passes over, and the stream does not: where the last event
of the stream is the last minute that can be represented, the stream ends
there and the search leaves time. This is the only way in which a search with a
local time can break off (`upcoming_ok_or_notFound_iff`), and it happens
(`upcoming_lastHourSkipped`).
-/

namespace CronCalendar

open DateTime

namespace Schedule

variable {s : Schedule} {z : Zone} {now reference : DateTime}

/-- An event of a list has a time in a zone. -/
def SomeShown (z : Zone) (events : List DateTime) : Prop :=
  ∃ event ∈ events, ∃ earliest latest, z.Ends event earliest latest

/-- Some event of a list is shown if the first one is, or one of the others. -/
theorem someShown_cons_iff {event : DateTime} {later : List DateTime} :
    SomeShown z (event :: later) ↔
      (∃ earliest latest, z.Ends event earliest latest) ∨ SomeShown z later := by
  simp only [SomeShown, List.mem_cons, exists_eq_or_imp]

/-- The error of a search that passes over all events of a list. -/
def failureAfter (s : Schedule) (events : List DateTime) : UpcomingError :=
  if lastMinute ∈ events then .endOfTime else .cron (.notFound s.text 11)

/-- **THE LOOP** finds a time if some event of the stream has one, and else fails, in one
    of two ways. -/
theorem upcomingFrom_outcome (s : Schedule) (z : Zone) (now : DateTime) :
    ∀ (events : List DateTime) (reference : DateTime),
      (Events.start s reference).toList = events →
        SomeShown z events ∧ (∃ time, s.upcomingFrom z now reference = .ok time) ∨
          ¬ SomeShown z events ∧
            s.upcomingFrom z now reference = .error (s.failureAfter events) := by
  intro events
  induction events with
  | nil =>
      intro reference h
      refine Or.inr ⟨fun ⟨event, hmem, _⟩ => absurd hmem List.not_mem_nil, ?_⟩
      exact upcomingFrom_of_none (Events.toList_start_eq_nil_iff.mp h)
  | cons event later ih =>
      intro reference h
      obtain ⟨hnext, hrest⟩ := Events.toList_start_eq_cons h
      have hwhole := (isLeast_of_next? hnext).1.whole
      by_cases hends : ∃ earliest latest, z.Ends event earliest latest
      · have hshown : SomeShown z (event :: later) := someShown_cons_iff.mpr (Or.inl hends)
        obtain ⟨earliest, latest, hends⟩ := hends
        exact Or.inl ⟨hshown, _,
          upcomingFrom_of_resolve hnext (Zone.resolve?_of_ends hends now)⟩
      · have hskip : z.resolve? now event = none := Zone.resolve?_eq_none_iff.mpr hends
        rw [someShown_cons_iff, or_iff_right hends]
        rcases hrest with ⟨hlast, rfl⟩ | ⟨start, hafter, hlater⟩
        · -- the stream ends with the last minute, and the search goes on from nowhere
          refine Or.inr ⟨fun ⟨event, hmem, _⟩ => absurd hmem List.not_mem_nil, ?_⟩
          rw [upcomingFrom_of_last hnext hskip hlast, failureAfter, if_pos]
          exact List.mem_singleton.mpr ((nextMinute?_eq_none_iff hwhole).mp hlast).symm
        · have hne : lastMinute ≠ event := by
            rintro rfl
            rw [(nextMinute?_eq_none_iff hwhole).mpr rfl] at hafter
            cases hafter
          have hsame : s.failureAfter (event :: later) = s.failureAfter later := by
            simp only [failureAfter, List.mem_cons, hne, false_or]
          rw [upcomingFrom_of_skip hnext hskip hafter, hsame]
          exact ih start hlater

/-- **HOW A SEARCH ENDS**: from a local time on, a search in a zone finds a time or
    reports that there is none, unless no event of the stream has a time in the
    zone and the last minute that can be represented is among them. It finds a
    time exactly when some event of the stream has one, and it never ends in any
    other way. -/
theorem upcoming_ok_or_notFound_iff (hlocal : z.localTime? now = some reference) :
    ((∃ time, s.upcoming z now = .ok time) ∨
        s.upcoming z now = .error (.cron (.notFound s.text 11)) ↔
      ¬ (¬ SomeShown z (Events.start s reference).toList ∧
        lastMinute ∈ (Events.start s reference).toList)) ∧
      ((∃ time, s.upcoming z now = .ok time) ↔
        SomeShown z (Events.start s reference).toList) ∧
      ∀ e, s.upcoming z now = .error e ↔
        ¬ SomeShown z (Events.start s reference).toList ∧
          (e = .endOfTime ∧ lastMinute ∈ (Events.start s reference).toList ∨
            e = .cron (.notFound s.text 11) ∧
              lastMinute ∉ (Events.start s reference).toList) := by
  rw [upcoming_of_localTime hlocal]
  rcases s.upcomingFrom_outcome z now _ reference rfl with ⟨hshown, time, hok⟩ | ⟨hnot, herror⟩
  · rw [hok]
    refine ⟨?_, ?_, fun e => ?_⟩
    · exact iff_of_true (Or.inl ⟨time, rfl⟩) fun h => h.1 hshown
    · exact iff_of_true ⟨time, rfl⟩ hshown
    · exact iff_of_false (fun h => by cases h) fun h => h.1 hshown
  · rw [herror, failureAfter]
    by_cases hlast : lastMinute ∈ (Events.start s reference).toList
    · simp [hnot, hlast, eq_comm]
    · simp [hnot, hlast, eq_comm]

/-! ### The last hour -/

/-- A clock that is set forward over the last hour that can be represented. -/
def lastHourSkipped : Zone := ⟨0, [⟨8210266873200, 3600⟩], by decide⟩

/-- The evening of the last day. -/
def lateOnLastDay : DateTime := (DateTime.of? 262142 12 31 22 0 0 0).get (by decide)

/-- The last full hour. -/
def lastFullHour : DateTime := (DateTime.of? 262142 12 31 23 0 0 0).get (by decide)

/-- One minute later. -/
def afterLastFullHour : DateTime := (DateTime.of? 262142 12 31 23 1 0 0).get (by decide)

theorem localTime?_lateOnLastDay :
    lastHourSkipped.localTime? lateOnLastDay = some lateOnLastDay := by decide

/-- The last full hour is the only event, as no day comes after it. -/
theorem toList_lastFullHour :
    (Events.start (daily 23 0) lateOnLastDay).toList = [lastFullHour] := by
  have hfirst : (daily 23 0).next? lateOnLastDay = some lastFullHour :=
    next?_daily ⟨rfl, rfl⟩ rfl rfl (by decide) (by decide) (by decide)
  have hafter : lastFullHour.nextMinute? = some afterLastFullHour := by decide
  have hnone : (daily 23 0).next? afterLastFullHour = none := by
    refine next?_eq_none_iff.mpr ?_
    rintro ⟨t, -, hselected, hle, -⟩
    obtain ⟨hhour, hminute⟩ := selects_daily_iff.mp hselected
    have hbounds := t.component_bounds
    -- every full hour of this kind is before the minute the search starts from
    refine absurd hle (not_le.mpr (lt_iff.mpr ?_))
    have hreference : afterLastFullHour.year = 262142 ∧ afterLastFullHour.month = 12 ∧
        afterLastFullHour.day = 31 ∧ afterLastFullHour.hour = 23 ∧
          afterLastFullHour.minute = 1 := by decide
    simp only [startOfMinute, hreference, hhour, hminute]
    omega
  rw [Events.toList_of_next_some (Events.next_start_of_some hfirst), hafter]
  exact congrArg _ (Events.toList_start_eq_nil_iff.mpr hnone)

/-- The last minute is the only event, and the stream ends with it. -/
theorem toList_lastMinute : (Events.start (daily 23 59) lateOnLastDay).toList = [lastMinute] := by
  have hfirst : (daily 23 59).next? lateOnLastDay = some lastMinute :=
    next?_daily ⟨rfl, rfl⟩ rfl rfl (by decide) (by decide) (by decide)
  have hafter : lastMinute.nextMinute? = none := by decide
  rw [Events.toList_of_next_some (Events.next_start_of_some hfirst), hafter, Events.toList_ended]

/-- An event in the skipped hour is not shown, and nothing is found after it. -/
theorem upcoming_ok_or_notFound_iff_lastFullHour :
    lastHourSkipped.localTime? lateOnLastDay = some lateOnLastDay ∧
      (daily 23 0).upcoming lastHourSkipped lateOnLastDay =
        .error (.cron (.notFound (daily 23 0).text 11)) := by
  have hresolve : lastHourSkipped.resolve? lateOnLastDay lastFullHour = none := by decide
  have hskipped := Zone.resolve?_eq_none_iff.mp hresolve
  refine ⟨localTime?_lateOnLastDay,
    ((upcoming_ok_or_notFound_iff localTime?_lateOnLastDay).2.2 _).mpr ⟨?_, Or.inr ⟨rfl, ?_⟩⟩⟩
  · rw [toList_lastFullHour]
    rintro ⟨event, hmem, hshown⟩
    rw [List.mem_singleton.mp hmem] at hshown
    exact hskipped hshown
  · rw [toList_lastFullHour]
    decide

/-- The last minute that can be represented is skipped by the clock. The stream ends
    with it, and the search breaks off. -/
theorem upcoming_lastHourSkipped :
    lastHourSkipped.localTime? lateOnLastDay = some lateOnLastDay ∧
      (Events.start (daily 23 59) lateOnLastDay).toList = [lastMinute] ∧
      (daily 23 59).upcoming lastHourSkipped lateOnLastDay = .error .endOfTime := by
  have hnext : (daily 23 59).next? lateOnLastDay = some lastMinute :=
    (Events.toList_start_eq_cons toList_lastMinute).1
  refine ⟨localTime?_lateOnLastDay, toList_lastMinute, ?_⟩
  rw [upcoming_of_localTime localTime?_lateOnLastDay]
  exact upcomingFrom_of_last hnext (by decide) (by decide)

end Schedule

end CronCalendar
