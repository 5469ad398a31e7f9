import CronCalendar.Events
import CronCalendar.Upcoming
import CronCalendar.Proofs.Occurrence

/-!
# Events — a stream hands out exactly the selected minutes

A stream always ends, since every event is later than the one before it and
time can be represented only up to a last minute. So all events that are still
to come make a list (`toList`), and every way of reading the stream is a way of
reading that list. The list ascends, and up to its last element it has exactly
the minutes that the schedule selects; it stops where the search from the next
start finds nothing or there is no next start (`toList_enumerates`).
-/

namespace CronCalendar

namespace Events

/-! ## The list of a stream -/

/-- A bound on how many events are still to come. -/
def remaining (e : Events) : Nat :=
  match e.reference with
  | none => 0
  | some reference => Schedule.minutesLeft reference + 1

/-- What a stream hands out has been found from its reference, and the search goes on a
    minute later. -/
theorem next_eq_some {e rest : Events} {event : DateTime} (h : e.next = (some event, rest)) :
    ∃ reference, e.reference = some reference ∧ e.schedule.next? reference = some event ∧
      rest = ⟨e.schedule, event.nextMinute?⟩ := by
  rw [next] at h
  split at h
  · next found hfound =>
      obtain ⟨reference, hr, hnext⟩ := Option.bind_eq_some_iff.mp hfound
      obtain ⟨hevent, rfl⟩ := Prod.mk.inj h
      obtain rfl := Option.some.inj hevent
      exact ⟨reference, hr, hnext, rfl⟩
  · cases (Prod.mk.inj h).1

/-- What a stream hands out leaves fewer minutes to search. -/
theorem remaining_next_lt {e rest : Events} {event : DateTime}
    (h : e.next = (some event, rest)) : rest.remaining < e.remaining := by
  obtain ⟨reference, hr, hnext, rfl⟩ := next_eq_some h
  have hle := Schedule.minuteIndex_le_of_next? hnext
  rw [remaining, remaining, hr]
  cases hafter : event.nextMinute? with
  | none => exact Nat.succ_pos _
  | some start =>
      have hlt := DateTime.minuteIndex_lt_of_nextMinute hafter
      have hleft : Schedule.minutesLeft start < Schedule.minutesLeft reference :=
        Schedule.minutesLeft_lt (by omega)
      show Schedule.minutesLeft start + 1 < Schedule.minutesLeft reference + 1
      omega

/-- All events that a stream still hands out, in order. -/
def toList (e : Events) : List DateTime :=
  match _h : e.next with
  | (none, _) => []
  | (some event, rest) => event :: rest.toList
termination_by e.remaining
decreasing_by exact remaining_next_lt _h

theorem next_ended (s : Schedule) : next ⟨s, none⟩ = (none, ⟨s, none⟩) := rfl

/-- A stream without an event ends at once. -/
theorem next_start_of_none {s : Schedule} {reference : DateTime}
    (h : s.next? reference = none) : (start s reference).next = (none, ⟨s, none⟩) := by
  simp only [next, start, Option.bind_some, h]

/-- A stream hands out the event that is found from its start. -/
theorem next_start_of_some {s : Schedule} {reference event : DateTime}
    (h : s.next? reference = some event) :
    (start s reference).next = (some event, ⟨s, event.nextMinute?⟩) := by
  simp only [next, start, Option.bind_some, h]

theorem toList_of_next_none {e rest : Events} (h : e.next = (none, rest)) : e.toList = [] := by
  rw [toList]
  split
  · rfl
  · next heq => rw [h] at heq; cases (Prod.mk.inj heq).1

theorem toList_of_next_some {e rest : Events} {event : DateTime}
    (h : e.next = (some event, rest)) : e.toList = event :: rest.toList := by
  rw [toList]
  split
  · next heq => rw [h] at heq; cases (Prod.mk.inj heq).1
  · next heq =>
      rw [h] at heq
      obtain ⟨hevent, rfl⟩ := Prod.mk.inj heq
      rw [Option.some.inj hevent]

theorem toList_ended (s : Schedule) : toList ⟨s, none⟩ = [] := toList_of_next_none (next_ended s)

/-- The list is empty when nothing is found from the start. -/
theorem toList_start_eq_nil_iff {s : Schedule} {reference : DateTime} :
    (start s reference).toList = [] ↔ s.next? reference = none := by
  cases h : s.next? reference with
  | none => exact iff_of_true (toList_of_next_none (next_start_of_none h)) rfl
  | some event =>
      rw [toList_of_next_some (next_start_of_some h)]
      exact iff_of_false (List.cons_ne_nil _ _) (Option.some_ne_none _)

/-- The first event and the rest: the rest starts a minute later, if it can. -/
theorem toList_start_eq_cons {s : Schedule} {reference event : DateTime}
    {later : List DateTime} (h : (start s reference).toList = event :: later) :
    s.next? reference = some event ∧
      (event.nextMinute? = none ∧ later = [] ∨
        ∃ start', event.nextMinute? = some start' ∧ (start s start').toList = later) := by
  cases hn : s.next? reference with
  | none =>
      rw [toList_start_eq_nil_iff.mpr hn] at h
      cases h
  | some found =>
      rw [toList_of_next_some (next_start_of_some hn)] at h
      obtain ⟨rfl, hlater⟩ := List.cons.inj h
      refine ⟨rfl, ?_⟩
      cases hafter : found.nextMinute? with
      | none =>
          rw [hafter, toList_ended] at hlater
          exact Or.inl ⟨rfl, hlater.symm⟩
      | some start' =>
          rw [hafter] at hlater
          exact Or.inr ⟨start', rfl, hlater⟩

/-- A stream that starts at the first event of another one hands out the same
    events. -/
theorem toList_start_first {s : Schedule} {reference first : DateTime}
    (h : s.next? reference = some first) :
    (start s first).toList = (start s reference).toList := by
  rw [toList_of_next_some (next_start_of_some h),
    toList_of_next_some (next_start_of_some (Schedule.next?_self h))]

/-- **A FRESH START**: a stream that starts at an event hands out this event and what
    comes after it, and one that starts a minute later hands out only what comes
    after it. -/
theorem toList_start_of_append {s : Schedule} {event : DateTime} {after : List DateTime} :
    ∀ (before : List DateTime) (reference : DateTime),
      (start s reference).toList = before ++ event :: after →
        event.IsWholeMinute ∧ (start s event).toList = event :: after ∧
          toList ⟨s, event.nextMinute?⟩ = after := by
  intro before
  induction before with
  | nil =>
      intro reference h
      obtain ⟨hnext, -⟩ := toList_start_eq_cons h
      have hlist := toList_of_next_some (next_start_of_some hnext)
      rw [h] at hlist
      exact ⟨(Schedule.isLeast_of_next? hnext).1.whole, (toList_start_first hnext).trans h,
        (List.cons.inj hlist).2.symm⟩
  | cons first before ih =>
      intro reference h
      obtain ⟨-, ⟨-, hnil⟩ | ⟨start', -, hlater⟩⟩ := toList_start_eq_cons h
      · exact absurd hnil (List.append_ne_nil_of_right_ne_nil _ (List.cons_ne_nil _ _))
      · exact ih start' hlater

/-! ## Ways of reading -/

/-- One call of `next` hands out the head of the list and leaves the tail. -/
theorem next_eq_toList (e : Events) :
    e.next.1 = e.toList.head? ∧ e.next.2.toList = e.toList.tail := by
  cases h : e.next with
  | mk event rest =>
      cases event with
      | none =>
          have hrest : rest = ⟨e.schedule, none⟩ := by
            rw [next] at h
            split at h
            · cases (Prod.mk.inj h).1
            · exact (Prod.mk.inj h).2.symm
          rw [toList_of_next_none h, hrest]
          exact ⟨rfl, toList_ended _⟩
      | some event =>
          rw [toList_of_next_some h]
          exact ⟨rfl, rfl⟩

/-- So many calls leave the list without so many events. -/
theorem toList_iterate_next (k : Nat) :
    ∀ e : Events, ((fun e : Events => e.next.2)^[k] e).toList = e.toList.drop k := by
  induction k with
  | zero => intro e; rfl
  | succ k ih =>
      intro e
      rw [Function.iterate_succ_apply, ih, (next_eq_toList e).2, List.drop_tail]

/-- Taking hands out the first events of the list. -/
theorem take_fst (n : Nat) : ∀ e : Events, (take n e).1 = e.toList.take n := by
  induction n with
  | zero => intro e; rfl
  | succ n ih =>
      intro e
      rw [take]
      split
      · next rest h =>
          rw [toList_of_next_none h]
          rfl
      · next event rest h =>
          rw [toList_of_next_some h, List.take_succ_cons, ← ih rest]

/-- The events that are found are the first ones of the stream. -/
theorem nextOccurrences_eq (s : Schedule) (reference : DateTime) (count : Nat) :
    s.nextOccurrences reference count = (start s reference).toList.take count :=
  take_fst count _

/-! ## The elements of the list -/

/-- The minute after is later. -/
theorem lt_of_nextMinute {t u : DateTime} (ht : t.IsWholeMinute) (h : t.nextMinute? = some u) :
    t < u := by
  obtain ⟨hu, hseconds⟩ := DateTime.seconds_of_nextMinute ht h
  exact (DateTime.seconds_lt_seconds_iff ht hu).mp (by omega)

/-- Nothing is handed out that is not selected, or before the reference. -/
theorem selected_of_mem {s : Schedule} :
    ∀ (events : List DateTime) (reference : DateTime),
      (start s reference).toList = events → ∀ t ∈ events,
        t.IsWholeMinute ∧ s.Selects t ∧ reference.startOfMinute ≤ t := by
  intro events
  induction events with
  | nil => intro _ _ t ht; cases ht
  | cons event later ih =>
      intro reference h t ht
      obtain ⟨hnext, hrest⟩ := toList_start_eq_cons h
      obtain ⟨⟨hwhole, hselected, hle, -⟩, -⟩ := Schedule.isLeast_of_next? hnext
      rcases List.mem_cons.mp ht with rfl | ht
      · exact ⟨hwhole, hselected, hle⟩
      · rcases hrest with ⟨-, rfl⟩ | ⟨start', hafter, hlater⟩
        · cases ht
        · obtain ⟨htwhole, htselected, htle⟩ := ih start' hlater t ht
          have hwhole' := (DateTime.seconds_of_nextMinute hwhole hafter).1
          rw [hwhole'.startOfMinute_eq] at htle
          exact ⟨htwhole, htselected, hle.trans ((lt_of_nextMinute hwhole hafter).le.trans htle)⟩

/-- **IN ORDER**: the events of a stream ascend. -/
theorem pairwise_toList {s : Schedule} :
    ∀ (events : List DateTime) (reference : DateTime),
      (start s reference).toList = events → events.Pairwise (· < ·) := by
  intro events
  induction events with
  | nil => intro _ _; exact List.Pairwise.nil
  | cons event later ih =>
      intro reference h
      obtain ⟨hnext, hrest⟩ := toList_start_eq_cons h
      have hwhole := (Schedule.isLeast_of_next? hnext).1.whole
      rcases hrest with ⟨-, rfl⟩ | ⟨start', hafter, hlater⟩
      · exact List.pairwise_singleton _ _
      · refine List.pairwise_cons.mpr ⟨fun t ht => ?_, ih start' hlater⟩
        -- the later events start a minute after this one
        have hle := (selected_of_mem _ _ hlater t ht).2.2
        rw [(DateTime.seconds_of_nextMinute hwhole hafter).1.startOfMinute_eq] at hle
        exact (lt_of_nextMinute hwhole hafter).trans_le hle

/-- In an ascending list nothing is after the last element. -/
theorem le_getLast_of_pairwise {events : List DateTime} (hasc : events.Pairwise (· < ·))
    {last t : DateTime} (hlast : events.getLast? = some last) (ht : t ∈ events) : t ≤ last := by
  obtain ⟨before, rfl⟩ := List.getLast?_eq_some_iff.mp hlast
  rcases List.mem_append.mp ht with hbefore | hmem
  · exact ((List.pairwise_append.mp hasc).2.2 t hbefore last (List.mem_singleton_self last)).le
  · exact (List.mem_singleton.mp hmem).le

/-- Nothing is missing: a selected minute that is not after some event is an
    event itself. -/
theorem mem_of_selected {s : Schedule} {t last : DateTime} (ht : t.IsWholeMinute)
    (hselected : s.Selects t) (hlast : t ≤ last) :
    ∀ (events : List DateTime) (reference : DateTime),
      (start s reference).toList = events → reference.startOfMinute ≤ t → last ∈ events →
        t ∈ events := by
  intro events
  induction events with
  | nil => intro _ _ _ hmem; cases hmem
  | cons event later ih =>
      intro reference h hle hmem
      obtain ⟨hnext, hrest⟩ := toList_start_eq_cons h
      obtain ⟨⟨hwhole, -, -, hhorizon⟩, hleast⟩ := Schedule.isLeast_of_next? hnext
      rcases lt_trichotomy t event with hlt | rfl | hgt
      · -- before the event, so inside its horizon, and then the event is not the least
        have hyear : t.year ≤ event.year := by
          rw [DateTime.lt_iff] at hlt
          omega
        have hnot := hleast ⟨ht, hselected, hle, by omega⟩
        exact absurd hlt (not_lt.mpr hnot)
      · exact List.mem_cons_self ..
      · refine List.mem_cons_of_mem _ ?_
        have hlater : last ∈ later := by
          rcases List.mem_cons.mp hmem with rfl | hmem
          · exact absurd hgt (not_lt.mpr hlast)
          · exact hmem
        -- the search goes on a minute after the event, and `t` is not before that
        rcases hrest with ⟨-, rfl⟩ | ⟨start', hafter, hlater'⟩
        · cases hlater
        · have hwhole' := (DateTime.seconds_of_nextMinute hwhole hafter).1
          refine ih start' hlater' ?_ hlater
          rw [hwhole'.startOfMinute_eq]
          exact DateTime.le_of_nextMinute hwhole ht hafter hgt

/-! ## The end of the list -/

/-- Where the search after some events starts: at the reference before the first
    event, and sixty seconds after the last one later on. -/
def IsStart (reference : DateTime) (events : List DateTime) (time : DateTime) : Prop :=
  match events.getLast? with
  | none => time = reference
  | some last => time.IsWholeMinute ∧ time.seconds = last.seconds + 60

/-- The start after some events is the start after the later ones, seen from the
    minute after the first one. -/
theorem isStart_cons_iff {reference event start' time : DateTime} (hevent : event.IsWholeMinute)
    (hafter : event.nextMinute? = some start') (taken : List DateTime) :
    IsStart reference (event :: taken) time ↔ IsStart start' taken time := by
  cases taken with
  | nil =>
      show time.IsWholeMinute ∧ time.seconds = event.seconds + 60 ↔ time = start'
      rw [← DateTime.nextMinute?_eq_some_iff hevent, hafter, Option.some.injEq, eq_comm]
  | cons second taken =>
      rw [IsStart, IsStart, List.getLast?_cons_cons]
      cases h : (second :: taken).getLast? with
      | none => exact absurd (List.getLast?_eq_none_iff.mp h) (List.cons_ne_nil _ _)
      | some last => exact Iff.rfl

/-- Some first events are all events when no event is found from the next start
    on. -/
theorem eq_toList_iff {s : Schedule} :
    ∀ (events : List DateTime) (reference : DateTime),
      (start s reference).toList = events → ∀ taken, taken <+: events →
        (taken = events ↔
          ¬ ∃ time, IsStart reference taken time ∧ ∃ t, s.EventFrom time t) := by
  intro events
  induction events with
  | nil =>
      intro reference h taken htaken
      obtain rfl := List.prefix_nil.mp htaken
      have hnone := Schedule.next?_eq_none_iff.mp (toList_start_eq_nil_iff.mp h)
      refine iff_of_true rfl ?_
      rintro ⟨time, rfl, hevent⟩
      exact hnone hevent
  | cons event later ih =>
      intro reference h taken htaken
      obtain ⟨hnext, hrest⟩ := toList_start_eq_cons h
      have hfirst := (Schedule.isLeast_of_next? hnext).1
      -- what is taken first is the event, and the rest is taken from the stream after it
      cases taken with
      | nil =>
          refine iff_of_false (List.cons_ne_nil _ _).symm ?_
          exact fun hnone => hnone ⟨reference, rfl, event, hfirst⟩
      | cons first taken =>
          obtain ⟨rfl, htail⟩ := List.cons_prefix_cons.mp htaken
          rcases hrest with ⟨hafter, rfl⟩ | ⟨start', hafter, hlater⟩
          · obtain rfl := List.prefix_nil.mp htail
            refine iff_of_true rfl ?_
            rintro ⟨time, htime, -⟩
            have hsome := (DateTime.nextMinute?_eq_some_iff hfirst.whole).mpr htime
            rw [hafter] at hsome
            cases hsome
          · rw [List.cons.injEq, eq_self_iff_true, true_and, ih start' hlater taken htail]
            simp only [isStart_cons_iff hfirst.whole hafter]

/-- **EXACTLY THE EVENTS**: the list of a stream is what repeated calls of `next`
    hand out. It ascends; up to its last element it has exactly the minutes that
    the schedule selects from the minute of the reference on. It ends after some
    events exactly when there is no start after them or no event from there on,
    and a count of events is a count of its first elements. -/
theorem toList_enumerates (s : Schedule) (reference : DateTime) :
    (∀ k, ((fun e : Events => e.next.2)^[k] (start s reference)).next.1 =
        (start s reference).toList[k]?) ∧
      (start s reference).toList.Pairwise (· < ·) ∧
      (∀ last ∈ (start s reference).toList.getLast?, ∀ t,
        t ∈ (start s reference).toList ↔
          t.IsWholeMinute ∧ s.Selects t ∧ reference.startOfMinute ≤ t ∧ t ≤ last) ∧
      (∀ taken, taken <+: (start s reference).toList →
        (taken = (start s reference).toList ↔
          ¬ ∃ time, IsStart reference taken time ∧ ∃ t, s.EventFrom time t)) ∧
      (∀ count, s.nextOccurrences reference count =
          (start s reference).toList.take count ∧
        (s.nextOccurrences reference count).length =
          min count (start s reference).toList.length) := by
  refine ⟨fun k => ?_, pairwise_toList _ _ rfl, fun last hlast t => ?_, eq_toList_iff _ _ rfl,
    fun count => ?_⟩
  · rw [(next_eq_toList _).1, toList_iterate_next, List.head?_drop]
  · -- up to the last event the list misses nothing, as it ascends and the last one is in it
    have hmem := List.mem_of_getLast? hlast
    constructor
    · intro ht
      obtain ⟨hwhole, hselected, hle⟩ := selected_of_mem _ _ rfl t ht
      exact ⟨hwhole, hselected, hle, le_getLast_of_pairwise (pairwise_toList _ _ rfl) hlast ht⟩
    · rintro ⟨hwhole, hselected, hle, hlelast⟩
      exact mem_of_selected hwhole hselected hlelast _ _ rfl hle hmem
  · have htake : s.nextOccurrences reference count = (start s reference).toList.take count :=
      take_fst count _
    rw [htake, List.length_take]
    exact ⟨rfl, rfl⟩

end Events

end CronCalendar
