import CronCalendar.Proofs.Upcoming

/-!
# Found events — what the search in a zone finds, and what depends on the instant

The search goes from one event to the next without a look at the instant it is
seen from. Only at its end does this instant decide, between the first and the
last time for which the found event stands. So one event is found for all
instants (`upcomingFrom_found`), and it is the first one from the reference on
that exists in the zone, however far the search had to go for it.

For the instants of one minute the reference is the same minute, so they can
differ only in this last decision (`upcoming_eq_upcoming_iff`).
-/

namespace CronCalendar

open DateTime

namespace Schedule

/-- The events from the minute of a reference on that exist in a zone. -/
structure ExistsFrom (s : Schedule) (z : Zone) (reference t : DateTime) : Prop where
  whole : t.IsWholeMinute
  selected : s.Selects t
  not_before : reference.startOfMinute ≤ t
  exist : ∃ earliest latest, z.Ends t earliest latest

variable {s : Schedule} {z : Zone} {now now' reference event t : DateTime}
  {time earliest latest : ZonedTime}

/-! ## What is found -/

/-- What is selected beyond the horizon of a search is after the event that is found. -/
theorem le_of_next? (h : s.next? reference = some event) (ht : t.IsWholeMinute)
    (hselected : s.Selects t) (hle : reference.startOfMinute ≤ t) : event ≤ t := by
  obtain ⟨⟨-, -, -, hhorizon⟩, hleast⟩ := isLeast_of_next? h
  by_cases hyear : t.year < reference.year + 11
  · exact hleast ⟨ht, hselected, hle, hyear⟩
  · refine le_of_lt (lt_iff.mpr (Or.inl ?_))
    omega

/-- An event that is found and exists is the least one that exists. -/
theorem isLeast_existsFrom_of_next? (h : s.next? reference = some event)
    (hends : z.Ends event earliest latest) :
    IsLeast {t | s.ExistsFrom z reference t} event := by
  obtain ⟨hwhole, hselected, hle, -⟩ := (isLeast_of_next? h).1
  refine ⟨⟨hwhole, hselected, hle, earliest, latest, hends⟩, ?_⟩
  rintro t ⟨ht, hselected', hle', -⟩
  exact le_of_next? h ht hselected' hle'

/-- Past an event that does not exist, the same events exist from the minute after it on. -/
theorem existsFrom_nextMinute_iff {start : DateTime} (h : s.next? reference = some event)
    (hskip : ¬ ∃ earliest latest, z.Ends event earliest latest)
    (hafter : event.nextMinute? = some start) :
    s.ExistsFrom z start t ↔ s.ExistsFrom z reference t := by
  obtain ⟨hwhole, -, hle, -⟩ := (isLeast_of_next? h).1
  have hstart := (seconds_of_nextMinute hwhole hafter).1
  constructor
  · rintro ⟨ht, hselected, hlater, hexist⟩
    rw [hstart.startOfMinute_eq] at hlater
    exact ⟨ht, hselected, hle.trans ((Events.lt_of_nextMinute hwhole hafter).le.trans hlater),
      hexist⟩
  · rintro ⟨ht, hselected, hle', hexist⟩
    refine ⟨ht, hselected, ?_, hexist⟩
    rw [hstart.startOfMinute_eq]
    -- the skipped event itself does not exist, so what exists is later
    have hne : event ≠ t := by
      rintro rfl
      exact hskip hexist
    exact le_of_nextMinute hwhole ht hafter
      (lt_of_le_of_ne (le_of_next? h ht hselected hle') hne)

/-- If the last minute of all is found and stands for no time, the search breaks off. -/
theorem upcomingFrom_of_last (h : s.next? reference = some event)
    (hskip : z.resolve? now event = none) (hlast : event.nextMinute? = none) :
    s.upcomingFrom z now reference = .error .endOfTime := by
  rw [upcomingFrom]
  split
  · next heq =>
      rw [h] at heq
      cases heq
  · next found heq =>
      obtain rfl : event = found := Option.some.inj (h.symm.trans heq)
      rw [hskip]
      simp only
      split
      · rfl
      · next start heq' =>
          rw [hlast] at heq'
          cases heq'

/-- **ONE EVENT FOR ALL INSTANTS**: a search fails in one way from wherever it is seen,
    or it finds the first event that exists in the zone, and the instant it is
    seen from only decides between the ends of this event. -/
theorem upcomingFrom_found (s : Schedule) (z : Zone) (reference : DateTime) :
    (∃ e, ∀ now, s.upcomingFrom z now reference = .error e) ∨
      ∃ event earliest latest, IsLeast {t | s.ExistsFrom z reference t} event ∧
        z.Ends event earliest latest ∧
          ∀ now, s.upcomingFrom z now reference = .ok (earliest.seenFrom now latest) := by
  induction hn : minutesLeft reference using Nat.strongRecOn generalizing reference with
  | ind n ih =>
      cases hnext : s.next? reference with
      | none => exact Or.inl ⟨_, fun now => upcomingFrom_of_none hnext⟩
      | some event =>
          by_cases hends : ∃ earliest latest, z.Ends event earliest latest
          · obtain ⟨earliest, latest, hends⟩ := hends
            exact Or.inr ⟨event, earliest, latest, isLeast_existsFrom_of_next? hnext hends, hends,
              fun now => upcomingFrom_of_resolve hnext (Zone.resolve?_of_ends hends now)⟩
          · have hskip : ∀ now, z.resolve? now event = none :=
              fun now => Zone.resolve?_eq_none_iff.mpr hends
            cases hafter : event.nextMinute? with
            | none => exact Or.inl ⟨_, fun now => upcomingFrom_of_last hnext (hskip now) hafter⟩
            | some start =>
                -- the next round starts later and finds the same: a skipped event does not exist
                have hlt : minutesLeft start < n := by
                  rw [← hn]
                  have hle := minuteIndex_le_of_next? hnext
                  have hlater := minuteIndex_lt_of_nextMinute hafter
                  exact minutesLeft_lt (by omega)
                have hsame : {t | s.ExistsFrom z start t} = {t | s.ExistsFrom z reference t} :=
                  Set.ext fun t => existsFrom_nextMinute_iff hnext hends hafter
                have hround : ∀ now, s.upcomingFrom z now reference = s.upcomingFrom z now start :=
                  fun now => upcomingFrom_of_skip hnext (hskip now) hafter
                simp only [hround, ← hsame]
                exact ih _ hlt start rfl

/-- A time that is returned is an end of the first event that exists. -/
theorem found_of_upcomingFrom (h : s.upcomingFrom z now reference = .ok time) :
    ∃ event earliest latest, IsLeast {t | s.ExistsFrom z reference t} event ∧
      z.Ends event earliest latest ∧ time = earliest.seenFrom now latest := by
  rcases s.upcomingFrom_found z reference with
    ⟨e, herror⟩ | ⟨event, earliest, latest, hleast, hends, hok⟩
  · rw [herror] at h
    cases h
  · rw [hok, Except.ok.injEq] at h
    exact ⟨event, earliest, latest, hleast, hends, h.symm⟩

/-- A search that succeeds has started from a local time. -/
theorem exists_localTime_of_upcoming (h : s.upcoming z now = .ok time) :
    ∃ reference, z.localTime? now = some reference ∧
      s.upcomingFrom z now reference = .ok time := by
  cases hlocal : z.localTime? now with
  | some reference =>
      rw [upcoming_of_localTime hlocal] at h
      exact ⟨reference, rfl, h⟩
  | none =>
      rw [upcoming_eq, hlocal] at h
      cases h

end Schedule

end CronCalendar
