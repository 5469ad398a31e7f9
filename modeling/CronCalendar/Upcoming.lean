import CronCalendar.Occurrence
import CronCalendar.Zone

/-!
# Upcoming — the next event of a schedule in a time zone

The events of a schedule are civil times. Seen from an instant, the upcoming event is the first one
from the local time on that exists in the zone; one that the clock skips is passed over. Where the
clock was set back and an event stands for several instants, the first of them counts if it is not
past, and the last one otherwise.
-/

namespace CronCalendar

/-- A civil time in a zone: what the local clock shows, its offset, and the universal time. -/
structure ZonedTime where
  civil : DateTime
  offset : Int
  utc : DateTime
deriving DecidableEq

/-- Why there is no upcoming event. -/
inductive UpcomingError where
  /-- The schedule has no further event in the zone. -/
  | cron (error : CronError)
  /-- The local time of the given instant cannot be represented. -/
  | unrepresentableNow
  /-- An event was passed over and the minute after it cannot be represented. -/
  | endOfTime
deriving DecidableEq

/-- The civil time at a candidate, if its universal time can be represented. -/
def Candidate.zoned? (civil : DateTime) (c : Candidate) : Option ZonedTime :=
  (DateTime.ofSeconds? c.instant).map fun utc => ⟨civil, c.offset, utc⟩

/-- Whether an instant is not before `now`, whose fraction of a second counts as well. -/
def Candidate.notPast (now : DateTime) (c : Candidate) : Bool :=
  decide (now.seconds < c.instant ∨ now.seconds = c.instant ∧ now.nanosecond = 0)

namespace Zone

/-- What the local clock shows at a universal time, to the second. -/
def localTime? (z : Zone) (utc : DateTime) : Option DateTime :=
  utc.shift? (z.offsetAt utc.seconds)

/-- The instant that a civil time stands for, seen from `now`. If one of the candidates that are
weighed against each other cannot be represented, the civil time counts as skipped. -/
def resolve? (z : Zone) (now civil : DateTime) : Option ZonedTime :=
  match z.candidates civil.seconds with
  | [] => none
  | [only] => only.zoned? civil
  | first :: second :: more =>
    match first.zoned? civil, (more.getLastD second).zoned? civil with
    | some earliest, some latest => some (if first.notPast now then earliest else latest)
    | _, _ => none

end Zone

namespace Schedule

/-- A bound on the number of minutes that remain to be represented. -/
def minutesLeft (t : DateTime) : Nat := ((lastYear + 2) * (12 * 31 * 24 * 60) - t.minuteIndex).toNat

/-- A later minute leaves fewer minutes until the end of time. -/
theorem minutesLeft_lt {t u : DateTime} (h : t.minuteIndex < u.minuteIndex) :
    minutesLeft u < minutesLeft t := by
  have hu := u.component_bounds
  unfold minutesLeft lastYear
  unfold DateTime.minuteIndex at *
  omega

/-- The first event from a reference on that exists in a zone. -/
def upcomingFrom (s : Schedule) (z : Zone) (now reference : DateTime) :
    Except UpcomingError ZonedTime :=
  match _found : s.next? reference with
  | none => .error (.cron (.notFound s.text horizonYears))
  | some event =>
    match z.resolve? now event with
    | some time => .ok time
    | none =>
      match _after : event.nextMinute? with
      | none => .error .endOfTime
      | some start => upcomingFrom s z now start
termination_by minutesLeft reference
decreasing_by
  have := minuteIndex_le_of_next? _found
  have := DateTime.minuteIndex_lt_of_nextMinute _after
  exact minutesLeft_lt (by omega)

/-- The upcoming event in a zone, seen from the universal time `now`. -/
def upcoming (s : Schedule) (z : Zone) (now : DateTime) : Except UpcomingError ZonedTime :=
  match z.localTime? now with
  | some reference => s.upcomingFrom z now reference
  | none => .error .unrepresentableNow

end Schedule

end CronCalendar
