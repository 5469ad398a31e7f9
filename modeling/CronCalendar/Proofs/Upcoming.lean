import CronCalendar.Upcoming
import CronCalendar.Proofs.Events
import CronCalendar.Proofs.Zone

/-!
# Upcoming — the first event that exists in a zone

The search in a zone starts again after every event that the clock skips, and so
does the stream of events, each in its own way. Both go through the same events:
what the search returns is the first event of the stream that exists in the
zone, and it fails only when the stream ends without one (`upcoming_eq_iff`).
Which instant an event stands for is said by `Resolves`, without the candidates
that are weighed against each other.
-/

namespace CronCalendar

open DateTime

/-! ## The instant of an event -/

/-- The time in a zone that a civil time stands for, seen from `now`: an instant
    at which the clock shows it, which is the earliest one if that is not past
    and else the latest one. With only one such instant both are the same. -/
structure Zone.Resolves (z : Zone) (now civil : DateTime) (time : ZonedTime) : Prop where
  civil_eq : time.civil = civil
  shown : time.utc.seconds ∈ z.instants civil.seconds
  no_fraction : time.utc.nanosecond = 0
  offset_eq : time.offset = z.offsetAt time.utc.seconds
  chosen : ∃ earliest : DateTime, earliest.nanosecond = 0 ∧
    IsLeast (z.instants civil.seconds) earliest.seconds ∧
      (now ≤ earliest ∧ time.utc = earliest ∨
        earliest < now ∧ IsGreatest (z.instants civil.seconds) time.utc.seconds)

namespace Zone

/-- A civil time at one of its instants, to the second. -/
structure Shows (z : Zone) (civil : DateTime) (time : ZonedTime) : Prop where
  civil_eq : time.civil = civil
  shown : time.utc.seconds ∈ z.instants civil.seconds
  no_fraction : time.utc.nanosecond = 0
  offset_eq : time.offset = z.offsetAt time.utc.seconds

variable {z : Zone} {now civil : DateTime} {time time' : ZonedTime}

/-- A time at which a civil time is shown is known from its seconds. -/
theorem Shows.unique (h : z.Shows civil time) (h' : z.Shows civil time')
    (hseconds : time.utc.seconds = time'.utc.seconds) : time = time' := by
  have hutc : time.utc = time'.utc :=
    eq_of_seconds hseconds (h.no_fraction.trans h'.no_fraction.symm)
  have hcivil := h.civil_eq.trans h'.civil_eq.symm
  have hoffset := h.offset_eq
  rw [hutc, ← h'.offset_eq] at hoffset
  obtain ⟨civil₁, offset₁, utc₁⟩ := time
  obtain ⟨civil₂, offset₂, utc₂⟩ := time'
  simp only at hcivil hoffset hutc
  rw [hcivil, hoffset, hutc]

theorem Resolves.shows (h : z.Resolves now civil time) : z.Shows civil time :=
  ⟨h.civil_eq, h.shown, h.no_fraction, h.offset_eq⟩

/-- A civil time stands for one time at most. -/
theorem Resolves.unique (h : z.Resolves now civil time) (h' : z.Resolves now civil time') :
    time = time' := by
  refine h.shows.unique h'.shows ?_
  obtain ⟨earliest, hfraction, hleast, hchosen⟩ := h.chosen
  obtain ⟨earliest', hfraction', hleast', hchosen'⟩ := h'.chosen
  obtain rfl : earliest = earliest' :=
    eq_of_seconds (hleast.unique hleast') (hfraction.trans hfraction'.symm)
  rcases hchosen with ⟨hle, htime⟩ | ⟨hlt, hgreatest⟩
  · rcases hchosen' with ⟨-, htime'⟩ | ⟨hlt', -⟩
    · rw [htime, htime']
    · exact absurd hle (not_le.mpr hlt')
  · rcases hchosen' with ⟨hle', -⟩ | ⟨-, hgreatest'⟩
    · exact absurd hle' (not_le.mpr hlt)
    · exact hgreatest.unique hgreatest'

end Zone

namespace Candidate

/-- The time at a candidate has its instant and its offset. -/
theorem zoned?_eq_some_iff {civil : DateTime} {c : Candidate} {time : ZonedTime} :
    c.zoned? civil = some time ↔
      time.civil = civil ∧ time.offset = c.offset ∧ time.utc.seconds = c.instant ∧
        time.utc.nanosecond = 0 := by
  rw [zoned?, Option.map_eq_some_iff]
  constructor
  · rintro ⟨utc, hutc, rfl⟩
    obtain ⟨hseconds, hfraction⟩ := ofSeconds?_eq_some_iff.mp hutc
    exact ⟨rfl, rfl, hseconds, hfraction⟩
  · rintro ⟨rfl, hoffset, hseconds, hfraction⟩
    refine ⟨time.utc, ofSeconds?_eq_some_iff.mpr ⟨hseconds, hfraction⟩, ?_⟩
    rw [← hoffset]

/-- A candidate is not past when its time is not before `now`. -/
theorem notPast_iff {now utc : DateTime} {c : Candidate} (hseconds : utc.seconds = c.instant)
    (hfraction : utc.nanosecond = 0) : c.notPast now = true ↔ now ≤ utc := by
  rw [notPast, decide_eq_true_iff, ← not_lt, lt_iff_seconds, hseconds, hfraction]
  omega

/-- A candidate stands for a time as soon as some date-time has its seconds. -/
theorem exists_zoned? {civil t : DateTime} {c : Candidate} (h : t.seconds = c.instant) :
    ∃ time, c.zoned? civil = some time :=
  ⟨⟨civil, c.offset, t.withoutFraction⟩, zoned?_eq_some_iff.mpr ⟨rfl, rfl, h, rfl⟩⟩

end Candidate

/-- The time that is chosen between the first and the last one for which a civil time
    stands: the first one if it is not past. -/
def ZonedTime.seenFrom (now : DateTime) (earliest latest : ZonedTime) : ZonedTime :=
  if now ≤ earliest.utc then earliest else latest

namespace Zone

/-- The first and the last time for which a civil time stands. -/
structure Ends (z : Zone) (civil : DateTime) (earliest latest : ZonedTime) : Prop where
  first : z.Shows civil earliest
  last : z.Shows civil latest
  isLeast : IsLeast (z.instants civil.seconds) earliest.utc.seconds
  isGreatest : IsGreatest (z.instants civil.seconds) latest.utc.seconds

variable {z : Zone} {now civil : DateTime} {time time' earliest latest : ZonedTime}

/-- Whichever end is chosen, the civil time is shown there. -/
theorem Ends.shows_seenFrom (h : z.Ends civil earliest latest) (now : DateTime) :
    z.Shows civil (earliest.seenFrom now latest) := by
  rw [ZonedTime.seenFrom]
  split
  · exact h.first
  · exact h.last

/-- A candidate stands for the time that is shown at its instant. -/
theorem zoned?_eq_some_iff_shows {c : Candidate} (hc : c ∈ z.candidates civil.seconds) :
    c.zoned? civil = some time ↔ z.Shows civil time ∧ time.utc.seconds = c.instant := by
  obtain ⟨hshown, hinforce⟩ := mem_candidates_iff.mp hc
  rw [Candidate.zoned?_eq_some_iff]
  constructor
  · rintro ⟨hcivil, hoffset, hseconds, hfraction⟩
    rw [← hseconds] at hshown hinforce
    exact ⟨⟨hcivil, hshown, hfraction, hoffset.trans hinforce⟩, hseconds⟩
  · rintro ⟨⟨hcivil, -, hfraction, hoffset⟩, hseconds⟩
    rw [hseconds, ← hinforce] at hoffset
    exact ⟨hcivil, hoffset, hseconds, hfraction⟩

/-- Only the first candidate and the last one are weighed against each other, and they
    may be the same. -/
theorem resolve?_of_candidates {first : Candidate} {more : List Candidate}
    (h : z.candidates civil.seconds = first :: more) :
    z.resolve? now civil =
      match first.zoned? civil, (more.getLastD first).zoned? civil with
      | some earliest, some latest => some (if first.notPast now then earliest else latest)
      | _, _ => none := by
  rw [resolve?, h]
  cases more with
  | nil =>
      rw [List.getLastD_nil]
      show first.zoned? civil = _
      cases first.zoned? civil with
      | none => rfl
      | some time => simp only [ite_self]
  | cons second more =>
      rewrite [List.getLastD_cons]
      rfl

/-- A civil time with a first and a last time stands for the one that is chosen. -/
theorem resolve?_of_ends (h : z.Ends civil earliest latest) (now : DateTime) :
    z.resolve? now civil = some (earliest.seenFrom now latest) := by
  cases hcandidates : z.candidates civil.seconds with
  | nil =>
      have hshown := h.first.shown
      rw [candidates_eq_nil_iff.mp hcandidates] at hshown
      exact absurd hshown (Set.notMem_empty _)
  | cons first more =>
      have hfirst : first.zoned? civil = some earliest :=
        (zoned?_eq_some_iff_shows (hcandidates ▸ List.mem_cons_self ..)).mpr
          ⟨h.first, h.isLeast.unique (isLeast_of_candidates hcandidates)⟩
      have hlast : (more.getLastD first).zoned? civil = some latest :=
        (zoned?_eq_some_iff_shows (hcandidates ▸ List.getLastD_mem_cons)).mpr
          ⟨h.last, h.isGreatest.unique (isGreatest_of_candidates hcandidates)⟩
      have hseconds := (Candidate.zoned?_eq_some_iff.mp hfirst).2.2.1
      rw [resolve?_of_candidates hcandidates, hfirst, hlast, ZonedTime.seenFrom]
      simp only [Candidate.notPast_iff hseconds h.first.no_fraction]

/-- If a civil time stands for a time, it has a first and a last one, of which this is
    the chosen one. -/
theorem ends_of_resolve? (h : z.resolve? now civil = some time) :
    ∃ earliest latest, z.Ends civil earliest latest ∧ time = earliest.seenFrom now latest := by
  cases hcandidates : z.candidates civil.seconds with
  | nil =>
      rw [resolve?, hcandidates] at h
      cases h
  | cons first more =>
      have hchosen := h
      rw [resolve?_of_candidates hcandidates] at hchosen
      split at hchosen
      · next earliest latest hfirst hlast =>
          obtain ⟨hshows, hseconds⟩ :=
            (zoned?_eq_some_iff_shows (hcandidates ▸ List.mem_cons_self ..)).mp hfirst
          obtain ⟨hshows', hseconds'⟩ :=
            (zoned?_eq_some_iff_shows (hcandidates ▸ List.getLastD_mem_cons)).mp hlast
          -- the candidates are in order of time, so the ends of the list are the ends in time
          have hends : z.Ends civil earliest latest := by
            refine ⟨hshows, hshows', ?_, ?_⟩
            · rw [hseconds]
              exact isLeast_of_candidates hcandidates
            · rw [hseconds']
              exact isGreatest_of_candidates hcandidates
          rw [resolve?_of_ends hends, Option.some.injEq] at h
          exact ⟨earliest, latest, hends, h.symm⟩
      · cases hchosen

/-- From wherever it is seen, a civil time stands for no time exactly when it has no first
    and last one. -/
theorem resolve?_eq_none_iff :
    z.resolve? now civil = none ↔ ¬ ∃ earliest latest, z.Ends civil earliest latest := by
  constructor
  · rintro h ⟨earliest, latest, hends⟩
    rw [resolve?_of_ends hends] at h
    cases h
  · intro hnot
    by_contra hsome
    obtain ⟨time, htime⟩ := Option.ne_none_iff_exists'.mp hsome
    obtain ⟨earliest, latest, hends, -⟩ := ends_of_resolve? htime
    exact hnot ⟨earliest, latest, hends⟩

/-- **RESOLVED**: the candidates are weighed against each other as `Resolves` says. -/
theorem resolves_of_resolve? (h : z.resolve? now civil = some time) :
    z.Resolves now civil time := by
  obtain ⟨earliest, latest, hends, rfl⟩ := ends_of_resolve? h
  obtain ⟨hfirst, hlast, hleast, hgreatest⟩ := hends
  rw [ZonedTime.seenFrom]
  split
  · next hle =>
      exact ⟨hfirst.civil_eq, hfirst.shown, hfirst.no_fraction, hfirst.offset_eq,
        earliest.utc, hfirst.no_fraction, hleast, Or.inl ⟨hle, rfl⟩⟩
  · next hpast =>
      exact ⟨hlast.civil_eq, hlast.shown, hlast.no_fraction, hlast.offset_eq,
        earliest.utc, hfirst.no_fraction, hleast, Or.inr ⟨not_le.mp hpast, hgreatest⟩⟩

/-- A civil time that is never shown stands for no time. -/
theorem resolve?_eq_none {z : Zone} {now civil : DateTime}
    (h : z.instants civil.seconds = ∅) : z.resolve? now civil = none := by
  rw [resolve?, candidates_eq_nil_iff.mpr h]

/-- An event that exists stands for a time, if its instants can be represented. -/
theorem exists_resolve? {z : Zone} {civil : DateTime} (now : DateTime)
    (hexists : (z.instants civil.seconds).Nonempty)
    (hrepresented : ∀ u ∈ z.instants civil.seconds, ∃ t : DateTime, t.seconds = u) :
    ∃ time, z.resolve? now civil = some time := by
  have hzoned : ∀ c ∈ z.candidates civil.seconds, ∃ time, c.zoned? civil = some time := by
    intro c hc
    obtain ⟨t, ht⟩ := hrepresented c.instant (mem_candidates_iff.mp hc).1
    exact Candidate.exists_zoned? ht
  cases hcandidates : z.candidates civil.seconds with
  | nil =>
      rw [candidates_eq_nil_iff.mp hcandidates] at hexists
      exact absurd hexists Set.not_nonempty_empty
  | cons first more =>
      rw [hcandidates] at hzoned
      obtain ⟨earliest, hearliest⟩ := hzoned first (List.mem_cons_self ..)
      obtain ⟨latest, hlatest⟩ := hzoned _ List.getLastD_mem_cons
      rw [resolve?_of_candidates hcandidates, hearliest, hlatest]
      exact ⟨_, rfl⟩

end Zone

/-! ## The search in a zone -/

namespace Schedule

/-- The events of a list that a search gets to: the first one, and every one
    that comes after events the clock skips. -/
inductive Reached (z : Zone) : List DateTime → DateTime → Prop where
  | first {event : DateTime} {later : List DateTime} : Reached z (event :: later) event
  | skip {skipped event : DateTime} {later : List DateTime} :
      z.instants skipped.seconds = ∅ → Reached z later event → Reached z (skipped :: later) event

/-- The events that a search gets to are events of the list. -/
theorem Reached.mem {z : Zone} {events : List DateTime} {event : DateTime}
    (h : Reached z events event) : event ∈ events := by
  induction h with
  | first => exact List.mem_cons_self ..
  | skip _ _ ih => exact List.mem_cons_of_mem _ ih

/-- Nothing is reached behind an event that exists. -/
theorem Reached.eq_first {z : Zone} {first event : DateTime} {later : List DateTime}
    (h : Reached z (first :: later) event) (hexists : (z.instants first.seconds).Nonempty) :
    event = first := by
  cases h with
  | first => rfl
  | skip hskip _ =>
      rw [hskip] at hexists
      exact absurd hexists Set.not_nonempty_empty

/-- Only one event that is reached exists. -/
theorem Reached.unique {z : Zone} {events : List DateTime} {event event' : DateTime}
    (h : Reached z events event) (h' : Reached z events event')
    (hexists : (z.instants event.seconds).Nonempty)
    (hexists' : (z.instants event'.seconds).Nonempty) : event = event' := by
  induction h with
  | first => exact (h'.eq_first hexists).symm
  | skip hskip _ ih =>
      cases h' with
      | first =>
          rw [hskip] at hexists'
          exact absurd hexists' Set.not_nonempty_empty
      | skip _ hreached => exact ih hreached hexists

/-! ### One round of the loop -/

variable {s : Schedule} {z : Zone} {now reference event : DateTime}

/-- Without an event, the search fails and finds nothing. -/
theorem upcomingFrom_of_none (h : s.next? reference = none) :
    s.upcomingFrom z now reference = .error (.cron (.notFound s.text horizonYears)) := by
  rw [upcomingFrom]
  split
  · rfl
  · next heq =>
      rw [h] at heq
      cases heq

/-- A search ends with an event that stands for a time. -/
theorem upcomingFrom_of_resolve {time : ZonedTime} (h : s.next? reference = some event)
    (htime : z.resolve? now event = some time) : s.upcomingFrom z now reference = .ok time := by
  rw [upcomingFrom]
  split
  · next heq =>
      rw [h] at heq
      cases heq
  · next found heq =>
      obtain rfl : event = found := Option.some.inj (h.symm.trans heq)
      rw [htime]

/-- A search goes on a minute after an event that stands for no time. -/
theorem upcomingFrom_of_skip {start : DateTime} (h : s.next? reference = some event)
    (hskip : z.resolve? now event = none) (hafter : event.nextMinute? = some start) :
    s.upcomingFrom z now reference = s.upcomingFrom z now start := by
  rw [upcomingFrom]
  split
  · next heq =>
      rw [h] at heq
      cases heq
  · next found heq =>
      obtain rfl : event = found := Option.some.inj (h.symm.trans heq)
      rw [hskip]
      simp only
      split
      · next heq' =>
          rw [hafter] at heq'
          cases heq'
      · next start' heq' => rw [Option.some.inj (hafter.symm.trans heq')]

/-! ### The whole loop -/

theorem upcoming_eq (s : Schedule) (z : Zone) (now : DateTime) :
    s.upcoming z now =
      match z.localTime? now with
      | some reference => s.upcomingFrom z now reference
      | none => .error .unrepresentableNow := by
  rfl

/-- From a local time that can be represented, the search is that of its loop. -/
theorem upcoming_of_localTime (h : z.localTime? now = some reference) :
    s.upcoming z now = s.upcomingFrom z now reference := by
  rw [upcoming_eq, h]

/-- The first event is upcoming if it stands for a time. -/
theorem upcoming_of_resolve {time : ZonedTime} (hlocal : z.localTime? now = some reference)
    (hnext : s.next? reference = some event) (htime : z.resolve? now event = some time) :
    s.upcoming z now = .ok time := by
  rw [upcoming_of_localTime hlocal]
  exact upcomingFrom_of_resolve hnext htime

/-- Every instant of an event that is reached can be represented, and so can the
    minute after a skipped one. -/
structure Represented (z : Zone) (events : List DateTime) : Prop where
  instants : ∀ event, Reached z events event →
    ∀ u ∈ z.instants event.seconds, ∃ t : DateTime, t.seconds = u
  after_skip : ∀ event, Reached z events event → z.instants event.seconds = ∅ →
    ∃ start, event.nextMinute? = some start

/-- Behind an event that is skipped, all that is needed can still be represented. -/
theorem Represented.of_skip {skipped : DateTime} {later : List DateTime}
    (h : Represented z (skipped :: later)) (hskip : z.instants skipped.seconds = ∅) :
    Represented z later :=
  ⟨fun event hreached => h.instants event (.skip hskip hreached),
    fun event hreached => h.after_skip event (.skip hskip hreached)⟩

/-- An event that is skipped needs only the minute after it. -/
theorem Represented.skip {skipped : DateTime} {later : List DateTime}
    (hskip : z.instants skipped.seconds = ∅)
    (hafter : ∃ start, skipped.nextMinute? = some start) (h : Represented z later) :
    Represented z (skipped :: later) := by
  constructor
  · intro event hreached
    cases hreached with
    | first =>
        rw [hskip]
        exact fun u hu => absurd hu (Set.notMem_empty u)
    | skip _ hreached => exact h.instants event hreached
  · intro event hreached hempty
    cases hreached with
    | first => exact hafter
    | skip _ hreached => exact h.after_skip event hreached hempty

/-- Behind an event that exists nothing is needed. -/
theorem Represented.of_exists {first : DateTime} {later : List DateTime}
    (hexists : (z.instants first.seconds).Nonempty)
    (hrepresented : ∀ u ∈ z.instants first.seconds, ∃ t : DateTime, t.seconds = u) :
    Represented z (first :: later) := by
  constructor
  · intro event hreached
    rw [hreached.eq_first hexists]
    exact hrepresented
  · intro event hreached hempty
    rw [← hreached.eq_first hexists, hempty] at hexists
    exact absurd hexists Set.not_nonempty_empty

/-- **THE LOOP** goes through the events of the stream: it returns for the first
    one that exists, or fails after all of them. -/
theorem upcomingFrom_cases (now : DateTime) :
    ∀ (events : List DateTime) (reference : DateTime),
      (Events.start s reference).toList = events → Represented z events →
        (∃ event time, Reached z events event ∧ z.Resolves now event time ∧
            s.upcomingFrom z now reference = .ok time) ∨
          (∀ event ∈ events, z.instants event.seconds = ∅) ∧
            s.upcomingFrom z now reference = .error (.cron (.notFound s.text 11)) := by
  intro events
  induction events with
  | nil =>
      intro reference h _
      refine Or.inr ⟨fun event hmem => absurd hmem List.not_mem_nil, ?_⟩
      exact upcomingFrom_of_none (Events.toList_start_eq_nil_iff.mp h)
  | cons event later ih =>
      intro reference h hrepresented
      obtain ⟨hnext, hrest⟩ := Events.toList_start_eq_cons h
      rcases Set.eq_empty_or_nonempty (z.instants event.seconds) with hskip | hexists
      · obtain ⟨start, hafter⟩ := hrepresented.after_skip event .first hskip
        rw [upcomingFrom_of_skip hnext (Zone.resolve?_eq_none hskip) hafter]
        -- the stream goes on from the same minute
        have hlater : (Events.start s start).toList = later := by
          rcases hrest with ⟨hnone, -⟩ | ⟨start', hafter', hlater⟩
          · rw [hafter] at hnone
            cases hnone
          · rw [hafter, Option.some.injEq] at hafter'
            rw [hafter']
            exact hlater
        rcases ih start hlater (hrepresented.of_skip hskip) with
          ⟨found, time, hreached, hresolves, hok⟩ | ⟨hnone, herror⟩
        · exact Or.inl ⟨found, time, .skip hskip hreached, hresolves, hok⟩
        · exact Or.inr ⟨List.forall_mem_cons.mpr ⟨hskip, hnone⟩, herror⟩
      · obtain ⟨time, htime⟩ :=
          Zone.exists_resolve? now hexists (hrepresented.instants event .first)
        exact Or.inl ⟨event, time, .first, Zone.resolves_of_resolve? htime,
          upcomingFrom_of_resolve hnext htime⟩

/-- **THE UPCOMING EVENT** is the first event of the stream that exists in the
    zone, at its only instant, or at the earliest one that is not past, or else
    at the latest one. There is none exactly when no event of the stream exists,
    and the search has no other outcome. -/
theorem upcoming_eq_iff (hlocal : z.localTime? now = some reference)
    (hrepresented : Represented z (Events.start s reference).toList) :
    (∀ time, s.upcoming z now = .ok time ↔
        ∃ event, Reached z (Events.start s reference).toList event ∧
          z.Resolves now event time) ∧
      ((∃ time, s.upcoming z now = .ok time) ↔
        ∃ event ∈ (Events.start s reference).toList, (z.instants event.seconds).Nonempty) ∧
      ∀ e, s.upcoming z now = .error e ↔
        e = .cron (.notFound s.text 11) ∧
          ∀ event ∈ (Events.start s reference).toList, z.instants event.seconds = ∅ := by
  rw [upcoming_of_localTime hlocal]
  rcases upcomingFrom_cases now _ reference rfl hrepresented with
    ⟨event, time, hreached, hresolves, hok⟩ | ⟨hnone, herror⟩
  · -- an event is reached; nothing else is, since the first one that exists is unique
    have hexists : (z.instants event.seconds).Nonempty := ⟨_, hresolves.shown⟩
    rw [hok]
    refine ⟨fun time' => ?_, ?_, fun e => ?_⟩
    · rw [Except.ok.injEq]
      constructor
      · rintro rfl
        exact ⟨event, hreached, hresolves⟩
      · rintro ⟨event', hreached', hresolves'⟩
        obtain rfl := hreached.unique hreached' hexists ⟨_, hresolves'.shown⟩
        exact hresolves.unique hresolves'
    · exact iff_of_true ⟨time, rfl⟩ ⟨event, hreached.mem, hexists⟩
    · refine iff_of_false (fun h => by cases h) ?_
      rintro ⟨-, hnone⟩
      rw [hnone event hreached.mem] at hexists
      exact Set.not_nonempty_empty hexists
  · -- no event of the stream exists
    rw [herror]
    refine ⟨fun time => ?_, ?_, fun e => ?_⟩
    · refine iff_of_false (fun h => by cases h) ?_
      rintro ⟨event, hreached, hresolves⟩
      have hshown := hresolves.shown
      rw [hnone event hreached.mem] at hshown
      exact hshown
    · refine iff_of_false (fun ⟨time, h⟩ => by cases h) ?_
      rintro ⟨event, hmem, hexists⟩
      rw [hnone event hmem] at hexists
      exact Set.not_nonempty_empty hexists
    · rw [Except.error.injEq]
      constructor
      · rintro rfl
        exact ⟨rfl, hnone⟩
      · rintro ⟨rfl, -⟩
        rfl

/-! ### A gap -/

/-- A clock that is set forward from two to three on 10 March 2024. -/
def springForward : Zone := ⟨-18000, [⟨1710054000, -14400⟩], by decide⟩

/-- Half a minute before the clock is set forward. -/
def beforeGap : DateTime := (DateTime.of? 2024 3 10 6 59 30 0).get (by decide)

/-- What the clock shows then. -/
def localBeforeGap : DateTime := (DateTime.of? 2024 3 10 1 59 30 0).get (by decide)

/-- A time on this day that the clock skips. -/
def insideGap : DateTime := (DateTime.of? 2024 3 10 2 30 0 0).get (by decide)

/-- One minute later, which is skipped as well. -/
def afterInsideGap : DateTime := (DateTime.of? 2024 3 10 2 31 0 0).get (by decide)

/-- The same time on the next day. -/
def dayAfterGap : DateTime := (DateTime.of? 2024 3 11 2 30 0 0).get (by decide)

/-- The instant of that time. -/
def utcDayAfterGap : DateTime := (DateTime.of? 2024 3 11 6 30 0 0).get (by decide)

/-- The clock never shows half past two on this day. -/
theorem instants_insideGap : springForward.instants insideGap.seconds = ∅ :=
  Zone.candidates_eq_nil_iff.mp (by decide)

/-- It shows it once on the next day. -/
theorem instants_dayAfterGap :
    springForward.instants dayAfterGap.seconds = {utcDayAfterGap.seconds} := by
  have hcandidates : springForward.candidates dayAfterGap.seconds =
      [⟨utcDayAfterGap.seconds, -14400⟩] := by decide
  have hleast := Zone.isLeast_of_candidates hcandidates
  have hgreatest := Zone.isGreatest_of_candidates hcandidates
  ext u
  constructor
  · intro hu
    exact le_antisymm (hgreatest.2 hu) (hleast.2 hu)
  · rintro rfl
    exact hleast.1

/-- The first two events of the schedule are the skipped one and the one a day later. -/
theorem toList_localBeforeGap :
    ∃ later, (Events.start (daily 2 30) localBeforeGap).toList =
      insideGap :: dayAfterGap :: later := by
  have hfirst : (daily 2 30).next? localBeforeGap = some insideGap :=
    next?_daily ⟨rfl, rfl⟩ rfl rfl (by decide) (by decide) (by decide)
  have hafter : insideGap.nextMinute? = some afterInsideGap := by decide
  have hsecond : (daily 2 30).next? afterInsideGap = some dayAfterGap :=
    next?_daily ⟨rfl, rfl⟩ rfl rfl (by decide) (by decide) (by decide)
  refine ⟨Events.toList ⟨daily 2 30, dayAfterGap.nextMinute?⟩, ?_⟩
  rw [Events.toList_of_next_some (Events.next_start_of_some hfirst), hafter]
  exact congrArg _ (Events.toList_of_next_some (Events.next_start_of_some hsecond))

/-- All that the search gets to can be represented. -/
theorem represented_springForward :
    Represented springForward (Events.start (daily 2 30) localBeforeGap).toList := by
  obtain ⟨later, hlist⟩ := toList_localBeforeGap
  have hexists := instants_dayAfterGap
  rw [hlist]
  refine .skip instants_insideGap ⟨afterInsideGap, by decide⟩ (.of_exists ?_ ?_)
  · rw [hexists]
    exact Set.singleton_nonempty _
  · rw [hexists]
    rintro u rfl
    exact ⟨utcDayAfterGap, rfl⟩

/-- The search goes past an event inside the gap to the one on the next day. -/
theorem upcoming_eq_iff_springForward :
    springForward.localTime? beforeGap = some localBeforeGap ∧
      Represented springForward (Events.start (daily 2 30) localBeforeGap).toList ∧
      (daily 2 30).upcoming springForward beforeGap =
        .ok ⟨dayAfterGap, -14400, utcDayAfterGap⟩ := by
  have hlocal : springForward.localTime? beforeGap = some localBeforeGap := by decide
  refine ⟨hlocal, represented_springForward, ?_⟩
  obtain ⟨later, hlist⟩ := toList_localBeforeGap
  refine ((upcoming_eq_iff hlocal represented_springForward).1 _).mpr ⟨dayAfterGap, ?_, ?_⟩
  · rw [hlist]
    exact .skip instants_insideGap .first
  · have hinstants := instants_dayAfterGap
    refine ⟨rfl, ?_, rfl, by decide, utcDayAfterGap, rfl, ?_, Or.inl ⟨by decide, rfl⟩⟩
    · rw [hinstants]
      rfl
    · rw [hinstants]
      exact isLeast_singleton

end Schedule

end CronCalendar
