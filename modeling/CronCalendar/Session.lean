import CronCalendar.Events
import CronCalendar.Schedule.Parse

/-!
# Sessions — named schedules and streams, used step by step

A session keeps schedules and streams of events under names, and remembers the last event that any
step handed out. A step that fails leaves the session as it was. A stream has its own copy of the
schedule, so nothing that happens to the schedule later matters to it.
-/

namespace CronCalendar

namespace Session

/-- Where a search of a session starts. -/
inductive Reference where
  | fixed (time : DateTime)
  /-- Some seconds after the last event. -/
  | afterLast (seconds : Int)
deriving DecidableEq

/-- What can be done in a session. -/
inductive Step where
  /-- Reads an expression and keeps its schedule. -/
  | parse (name expression : String)
  | iterate (name schedule : String) (reference : Reference)
  /-- Starts a stream on a schedule, which is given up for it. -/
  | consume (name schedule : String) (reference : Reference)
  | call (stream : String) (call : Call)
  | nextOccurrence (schedule : String) (reference : Reference)
deriving DecidableEq

/-- What a step needs and the session does not have. -/
inductive Missing where
  | reference
  | schedule
  | stream
deriving DecidableEq

/-- What comes back from a step. -/
inductive Answer where
  /-- The canonical text of a schedule that was read. -/
  | parsed (text : String)
  | started
  | handed (events : Handed)
  | found (event : DateTime)
  | refused (error : CronError)
  | missing (what : Missing)
deriving DecidableEq

end Session

/-- Entries under names. -/
abbrev Named (α : Type) := List (String × α)

namespace Named

variable {α : Type}

/-- Takes away what is under a name. -/
def erase (name : String) (entries : Named α) : Named α := entries.filter (·.1 ≠ name)

/-- Puts an entry under a name, in the place of the one before. -/
def put (name : String) (value : α) (entries : Named α) : Named α :=
  (name, value) :: entries.erase name

/-- What is under a name. -/
def get? (name : String) (entries : Named α) : Option α := entries.lookup name

end Named

/-- The schedules and the streams of a session, and the last event that was handed out. -/
structure Session where
  schedules : Named Schedule
  streams : Named Events
  last : Option DateTime
deriving DecidableEq

namespace Session

/-- A session at its start. -/
def empty : Session := ⟨[], [], none⟩

/-- The time of a reference. There is none if it follows an event and there was no event, or if it
cannot be represented. -/
def resolve? (s : Session) : Reference → Option DateTime
  | .fixed time => some time
  | .afterLast seconds => s.last.bind (·.shift? seconds)

/-- Remembers the last of some events, if there is any. -/
def remember (events : List DateTime) (s : Session) : Session :=
  match events.getLast? with
  | some event => { s with last := some event }
  | none => s

/-- Runs an action on a reference and a schedule, of which the reference is looked up first. -/
def withSchedule (s : Session) (name : String) (reference : Reference)
    (action : DateTime → Schedule → Answer × Session) : Answer × Session :=
  match s.resolve? reference with
  | none => (.missing .reference, s)
  | some time =>
    match s.schedules.get? name with
    | none => (.missing .schedule, s)
    | some schedule => action time schedule

/-- One step: the answer to it, and the session that it leaves. -/
def step (s : Session) : Step → Answer × Session
  | .parse name expression =>
    match Schedule.parse expression with
    | .ok schedule =>
      (.parsed schedule.text, { s with schedules := s.schedules.put name schedule })
    | .error e => (.refused (.expression e), s)
  | .iterate name schedule reference =>
    s.withSchedule schedule reference fun time found =>
      (.started, { s with streams := s.streams.put name (Events.start found time) })
  | .consume name schedule reference =>
    s.withSchedule schedule reference fun time found =>
      (.started,
        { s with
          schedules := s.schedules.erase schedule
          streams := s.streams.put name (Events.start found time) })
  | .call stream call =>
    match s.streams.get? stream with
    | none => (.missing .stream, s)
    | some events =>
      let (handed, rest) := events.call call
      (.handed handed, remember handed.toList { s with streams := s.streams.put stream rest })
  | .nextOccurrence schedule reference =>
    s.withSchedule schedule reference fun time found =>
      match found.nextOccurrence time with
      | .ok event => (.found event, remember [event] s)
      | .error e => (.refused e, s)

end Session

end CronCalendar
