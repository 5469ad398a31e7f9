import CronCalendar.Occurrence

/-!
# Events — the stream of all events of a schedule from a reference on

A stream holds the reference from which its next event is searched. After an event that is the
following minute; once there is no such minute, or no event within the horizon, the stream has
ended and stays so. Streams are read by one event at a time, by skipping events, or by taking
several.
-/

namespace CronCalendar

/-- The events of a schedule that are still to come. -/
structure Events where
  schedule : Schedule
  /-- Where the search for the next event starts; none once the stream has ended. -/
  reference : Option DateTime
deriving DecidableEq

/-- The ways to read a stream. -/
inductive Call where
  | next
  /-- The event after `n` events, which are skipped. -/
  | nth (n : Nat)
  | take (n : Nat)
deriving DecidableEq

/-- What a call hands out. -/
inductive Handed where
  /-- One event, or none after the end. -/
  | one (event : Option DateTime)
  /-- As many events as were asked for, or as were left. -/
  | several (events : List DateTime)
deriving DecidableEq

/-- The events of what was handed out, in their order. -/
def Handed.toList : Handed → List DateTime
  | .one event => event.toList
  | .several events => events

namespace Events

/-- The stream of all events from a reference on. -/
def start (schedule : Schedule) (reference : DateTime) : Events := ⟨schedule, some reference⟩

/-- The next event, and the stream behind it. -/
def next (e : Events) : Option DateTime × Events :=
  match e.reference.bind e.schedule.next? with
  | some event => (some event, { e with reference := event.nextMinute? })
  | none => (none, { e with reference := none })

/-- Skips `n` events and hands out the one after them. -/
def nth : Nat → Events → Option DateTime × Events
  | 0, e => e.next
  | n + 1, e =>
    match e.next with
    | (none, rest) => (none, rest)
    | (some _, rest) => nth n rest

/-- Up to `n` events, and the stream behind them. -/
def take : Nat → Events → List DateTime × Events
  | 0, e => ([], e)
  | n + 1, e =>
    match e.next with
    | (none, rest) => ([], rest)
    | (some event, rest) =>
      let (events, rest) := take n rest
      (event :: events, rest)

/-- Reads a stream by one call. -/
def call (e : Events) : Call → Handed × Events
  | .next =>
    let (event, rest) := e.next
    (.one event, rest)
  | .nth n =>
    let (event, rest) := nth n e
    (.one event, rest)
  | .take n =>
    let (events, rest) := take n e
    (.several events, rest)

end Events

namespace Schedule

/-- Up to `count` events from a reference on. -/
def nextOccurrences (s : Schedule) (reference : DateTime) (count : Nat) : List DateTime :=
  (Events.take count (Events.start s reference)).1

end Schedule

end CronCalendar
