import CronCalendar.DateTime

/-!
# Zones — civil time against universal time

A zone has an offset from universal time, which changes at certain instants. Instants are seconds
since the start of 1970 in universal time. At an instant one offset is in force (`offsetAt`), but a
civil time may stand for no instant, because the clock was set forward over it, or for several,
because the clock was set back (`candidates`).
-/

namespace CronCalendar

/-- A change of the offset: from `instant` on it is `offset` seconds east. -/
structure Transition where
  instant : Int
  offset : Int
deriving DecidableEq

/-- An offset in seconds east, and its changes in the order of their instants. -/
structure Zone where
  base : Int
  transitions : List Transition
  ascending : (transitions.map Transition.instant).Pairwise (· ≤ ·)
deriving DecidableEq

/-- An instant for which a civil time may stand, and the offset in force then. -/
structure Candidate where
  instant : Int
  offset : Int
deriving DecidableEq

namespace Zone

/-- The zone with the given changes, if they are in order. -/
def of? (base : Int) (transitions : List Transition) : Option Zone :=
  if h : (transitions.map Transition.instant).Pairwise (· ≤ ·) then some ⟨base, transitions, h⟩
  else none

/-- The offset in force at an instant, where `offset` holds until the first of the changes. -/
def offsetAfter (instant : Int) (offset : Int) : List Transition → Int
  | [] => offset
  | t :: later => if instant < t.instant then offset else offsetAfter instant t.offset later

/-- The offset at an instant. -/
def offsetAt (z : Zone) (instant : Int) : Int := offsetAfter instant z.base z.transitions

/-- Whether a segment that starts at `from?`, or at no instant at all, has begun at an instant. -/
def hasBegun (from? : Option Int) (instant : Int) : Bool :=
  match from? with
  | none => true
  | some start => decide (start ≤ instant)

/-- The instants for which a civil time stands, from the segment on that starts at `from?` with
`offset` and lasts until the first of the changes. Civil times count seconds as instants do. -/
def candidatesAfter (civil : Int) (from? : Option Int) (offset : Int) :
    List Transition → List Candidate
  | [] => if hasBegun from? (civil - offset) then [⟨civil - offset, offset⟩] else []
  | t :: later =>
    (if hasBegun from? (civil - offset) && decide (civil - offset < t.instant) then
      [⟨civil - offset, offset⟩] else []) ++
      candidatesAfter civil (some t.instant) t.offset later

/-- The instants for which a civil time stands, one segment after the other. -/
def candidates (z : Zone) (civil : Int) : List Candidate :=
  candidatesAfter civil none z.base z.transitions

end Zone

end CronCalendar
