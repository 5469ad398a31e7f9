import CronCalendar.Proofs.Upcoming.Settled

/-!
# Minutes — what is upcoming for all instants of one minute

The search starts from the minute of the local time, so all instants of a minute
find the same event. But the choice between the ends of this event compares its
first time with the instant itself, seconds and fraction included. The only
whole minute that some instants of a minute have behind them and others have not
is the start of this very minute. So the outcome changes inside a minute exactly
when the event is now and its local time comes again, and it changes right after
the start (`upcoming_eq_upcoming_iff`).
-/

namespace CronCalendar

open DateTime

variable {s : Schedule} {z : Zone} {now now' start event : DateTime}
  {earliest latest : ZonedTime}

/-! ## The minute of the local time -/

/-- A clock with whole minutes shows one minute while a minute lasts. -/
theorem Zone.WholeMinutes.localTime?_startOfMinute (hwhole : z.WholeMinutes) (now : DateTime) :
    z.localTime? now.startOfMinute = (z.localTime? now).map startOfMinute := by
  obtain ⟨hoffset, hsame⟩ := hwhole.offsetAt now.seconds
  have hseconds : now.seconds - now.seconds % 60 + z.offsetAt now.seconds =
      now.seconds + z.offsetAt now.seconds - (now.seconds + z.offsetAt now.seconds) % 60 := by
    omega
  show ofSeconds? (now.startOfMinute.seconds + z.offsetAt now.startOfMinute.seconds) =
    (ofSeconds? (now.seconds + z.offsetAt now.seconds)).map startOfMinute
  rw [DateTime.seconds_startOfMinute, hsame, hseconds, ofSeconds?_startOfMinute]

/-- In a zone with whole minutes, the clock shows whole minutes at whole minutes. -/
theorem Zone.WholeMinutes.isWholeMinute_localTime {reference : DateTime} (hwhole : z.WholeMinutes)
    (hnow : now.IsWholeMinute) (hlocal : z.localTime? now = some reference) :
    reference.IsWholeMinute := by
  have hstart := hwhole.localTime?_startOfMinute now
  rw [hnow.startOfMinute_eq, hlocal] at hstart
  exact startOfMinute_eq_self_iff.mp (Option.some.inj hstart).symm

/-- In a zone with whole minutes, whole minutes are shown at whole minutes. -/
theorem Zone.Shows.isWholeMinute {civil : DateTime} {time : ZonedTime} (hwhole : z.WholeMinutes)
    (h : z.Shows civil time) (hcivil : civil.IsWholeMinute) : time.utc.IsWholeMinute := by
  have hshown := Zone.mem_instants.mp h.shown
  have hoffset := (hwhole.offsetAt time.utc.seconds).1
  have hminute := seconds_emod_sixty hcivil
  exact isWholeMinute_iff.mpr ⟨by omega, h.no_fraction⟩

namespace Schedule

/-- A search in a zone ignores the seconds of its reference. -/
theorem upcomingFrom_startOfMinute (s : Schedule) (z : Zone) (now reference : DateTime) :
    s.upcomingFrom z now reference.startOfMinute = s.upcomingFrom z now reference :=
  (upcomingFrom.eq_def s z now reference.startOfMinute).trans
    (upcomingFrom.eq_def s z now reference).symm

/-- **ONE MINUTE, ONE EVENT**: the instants of a minute fail in one way, or they find
    one event, and each of them decides between its ends. -/
theorem upcoming_of_startOfMinute (hwhole : z.WholeMinutes) (s : Schedule) (start : DateTime) :
    (∃ e, ∀ now, now.startOfMinute = start → s.upcoming z now = .error e) ∨
      ∃ event earliest latest, event.IsWholeMinute ∧ z.Ends event earliest latest ∧
        ∀ now, now.startOfMinute = start →
          s.upcoming z now = .ok (earliest.seenFrom now latest) := by
  cases hlocal : z.localTime? start with
  | none =>
      refine Or.inl ⟨.unrepresentableNow, ?_⟩
      rintro now rfl
      rw [hwhole.localTime?_startOfMinute, Option.map_eq_none_iff] at hlocal
      rw [upcoming_eq, hlocal]
  | some minute =>
      have hfrom : ∀ now, now.startOfMinute = start →
          s.upcoming z now = s.upcomingFrom z now minute := by
        rintro now rfl
        rw [hwhole.localTime?_startOfMinute] at hlocal
        obtain ⟨reference, hreference, rfl⟩ := Option.map_eq_some_iff.mp hlocal
        rw [upcoming_of_localTime hreference, upcomingFrom_startOfMinute]
      rcases s.upcomingFrom_found z minute with
        ⟨e, herror⟩ | ⟨event, earliest, latest, hleast, hends, hok⟩
      · exact Or.inl ⟨e, fun now hnow => (hfrom now hnow).trans (herror now)⟩
      · exact Or.inr ⟨event, earliest, latest, hleast.1.whole, hends,
          fun now hnow => (hfrom now hnow).trans (hok now)⟩

/-! ## The choice inside a minute -/

/-- The event upcoming at the start of a minute is at this start itself, and the clock
    shows its local time again later. -/
def ComesAgain (s : Schedule) (z : Zone) (start : DateTime) : Prop :=
  ∃ time, s.upcoming z start = .ok time ∧ time.utc = start ∧
    ∃ u ∈ z.instants time.civil.seconds, start.seconds < u

/-- Two instants choose the same end when the first end is past for both or for neither,
    or when there is only one. -/
theorem seenFrom_eq_seenFrom_iff :
    earliest.seenFrom now latest = earliest.seenFrom now' latest ↔
      (now ≤ earliest.utc ↔ now' ≤ earliest.utc) ∨ earliest = latest := by
  rw [ZonedTime.seenFrom, ZonedTime.seenFrom]
  by_cases hle : now ≤ earliest.utc
  · by_cases hle' : now' ≤ earliest.utc
    · simp [hle, hle']
    · simp [hle, hle']
  · by_cases hle' : now' ≤ earliest.utc
    · simp [hle, hle', eq_comm]
    · simp [hle, hle']

/-- Two instants of a minute are on one side of a whole minute, unless it is the start of
    their minute and one of them is there. -/
theorem le_iff_le_iff_of_startOfMinute {t : DateTime} (ht : t.IsWholeMinute)
    (hsame : now.startOfMinute = now'.startOfMinute) :
    (now ≤ t ↔ now' ≤ t) ↔
      (now.IsWholeMinute ↔ now'.IsWholeMinute) ∨ t ≠ now.startOfMinute := by
  rw [le_iff_of_isWholeMinute ht, le_iff_of_isWholeMinute ht, ← hsame]
  by_cases hstart : t = now.startOfMinute
  · have hnow : now = t ↔ now.IsWholeMinute := by
      rw [hstart, eq_comm, startOfMinute_eq_self_iff]
    have hnow' : now' = t ↔ now'.IsWholeMinute := by
      rw [hstart, hsame, eq_comm, startOfMinute_eq_self_iff]
    have hlt : ¬ now.startOfMinute < t := hstart ▸ lt_irrefl _
    rw [hnow, hnow']
    simp only [hlt, false_or]
    exact ⟨Or.inl, fun h => h.resolve_right (not_not.mpr hstart)⟩
  · -- neither instant can be at a whole minute that is not the start of theirs
    have hne : ∀ u : DateTime, u.startOfMinute = now.startOfMinute → u ≠ t := by
      rintro u hu rfl
      exact hstart (ht.startOfMinute_eq.symm.trans hu)
    simp only [hne now rfl, hne now' hsame.symm, or_false, ne_eq, hstart, not_false_eq_true,
      or_true]

/-- The event at the start of a minute comes again when it has a later end. -/
theorem comesAgain_iff (hends : z.Ends event earliest latest)
    (hok : s.upcoming z start = .ok (earliest.seenFrom start latest)) :
    s.ComesAgain z start ↔ earliest.utc = start ∧ earliest ≠ latest := by
  constructor
  · rintro ⟨time, htime, hutc, u, hu, hlater⟩
    obtain rfl : earliest.seenFrom start latest = time := Except.ok.inj (hok.symm.trans htime)
    -- the last time is not the one that is chosen, as the clock shows the event after it
    have hlast : earliest.seenFrom start latest ≠ latest := by
      intro heq
      rw [heq] at hutc hu
      rw [hends.last.civil_eq] at hu
      have hle := hends.isGreatest.2 hu
      rw [hutc] at hle
      omega
    have hfirst : earliest.seenFrom start latest = earliest := by
      rw [ZonedTime.seenFrom] at hlast ⊢
      by_cases hle : start ≤ earliest.utc
      · rw [if_pos hle]
      · rw [if_neg hle] at hlast
        exact absurd rfl hlast
    rw [hfirst] at hutc hlast
    exact ⟨hutc, hlast⟩
  · rintro ⟨hutc, hne⟩
    have hfirst : earliest.seenFrom start latest = earliest := if_pos hutc.symm.le
    rw [hfirst] at hok
    refine ⟨earliest, hok, hutc, latest.utc.seconds, ?_, ?_⟩
    · rw [hends.first.civil_eq]
      exact hends.last.shown
    · rw [← hutc]
      refine lt_of_le_of_ne (hends.isLeast.2 hends.last.shown) fun heq => ?_
      exact hne (hends.first.unique hends.last heq)

/-- **INSIDE A MINUTE**: in a zone with whole minutes, two instants of one minute have the
    same outcome exactly when both or neither of them are the start of this
    minute, or the event upcoming at the start is not there to come again. -/
theorem upcoming_eq_upcoming_iff (hwhole : z.WholeMinutes)
    (hsame : now.startOfMinute = now'.startOfMinute) :
    s.upcoming z now = s.upcoming z now' ↔
      (now.IsWholeMinute ↔ now'.IsWholeMinute) ∨ ¬ s.ComesAgain z now.startOfMinute := by
  have hstart := now.isWholeMinute_startOfMinute.startOfMinute_eq
  rcases upcoming_of_startOfMinute hwhole s now.startOfMinute with
    ⟨e, herror⟩ | ⟨event, earliest, latest, hevent, hends, hok⟩
  · refine iff_of_true ?_ (Or.inr ?_)
    · rw [herror now rfl, herror now' hsame.symm]
    · rintro ⟨time, htime, -⟩
      rw [herror _ hstart] at htime
      cases htime
  · have hutc := hends.first.isWholeMinute hwhole hevent
    rw [hok now rfl, hok now' hsame.symm, Except.ok.injEq, seenFrom_eq_seenFrom_iff,
      le_iff_le_iff_of_startOfMinute hutc hsame, comesAgain_iff hends (hok _ hstart), not_and_or,
      not_not, or_assoc]

/-! ### The first half past one of two -/

/-- The first half past one of the day on which the clock is set back. -/
def firstShown : DateTime := (DateTime.of? 2024 11 3 5 30 0 0).get (by decide)

/-- Twenty seconds after it. -/
def soonAfter : DateTime := (DateTime.of? 2024 11 3 5 30 20 0).get (by decide)

/-- A leap second at the end of the same minute. -/
def lateAfter : DateTime := (DateTime.of? 2024 11 3 5 30 59 1500000000).get (by decide)

/-- Two instants inside of the minute, of which neither is its start. -/
theorem upcoming_eq_upcoming_iff_afterFirst :
    fallBack.WholeMinutes ∧ soonAfter.startOfMinute = lateAfter.startOfMinute ∧
      (daily 1 30).upcoming fallBack soonAfter = (daily 1 30).upcoming fallBack lateAfter := by
  have hsame : soonAfter.startOfMinute = lateAfter.startOfMinute := by decide
  refine ⟨wholeMinutes_fallBack, hsame,
    (upcoming_eq_upcoming_iff wholeMinutes_fallBack hsame).mpr (Or.inl (iff_of_false ?_ ?_))⟩
  · rintro ⟨hsecond, -⟩
    exact absurd hsecond (by decide)
  · rintro ⟨hsecond, -⟩
    exact absurd hsecond (by decide)

/-- At the start of the minute its own event is upcoming. -/
theorem upcoming_firstShown :
    (daily 1 30).upcoming fallBack firstShown = .ok ⟨repeated, -14400, firstShown⟩ :=
  upcoming_of_resolve (by decide) (next?_self next?_localInsideRepeat) (by decide)

/-- Twenty seconds later the upcoming event is the one an hour after it. -/
theorem upcoming_soonAfter :
    (daily 1 30).upcoming fallBack soonAfter = .ok ⟨repeated, -18000, utcRepeated⟩ :=
  upcoming_of_resolve (by decide) next?_localInsideRepeat (by decide)

/-- Twenty seconds after the start of the minute, the event at the start is no longer the
    upcoming one: it comes again an hour later. -/
theorem upcoming_soonAfter_ne_firstShown :
    fallBack.WholeMinutes ∧ firstShown.startOfMinute = soonAfter.startOfMinute ∧
      (daily 1 30).upcoming fallBack firstShown ≠ (daily 1 30).upcoming fallBack soonAfter := by
  refine ⟨wholeMinutes_fallBack, by decide, ?_⟩
  rw [upcoming_firstShown, upcoming_soonAfter]
  decide

end Schedule

end CronCalendar
