import CronCalendar.Display
import CronCalendar.Events
import CronCalendar.Schedule.Parse

/-!
# Expressions — events straight from the text of an expression

These functions read an expression and use its schedule at once.
-/

namespace CronCalendar.Expression

/-- How many events to list if nothing else is asked for. -/
def defaultCount : Nat := 5

/-- The schedule of an expression. -/
def schedule (expression : String) : Except CronError Schedule :=
  match Schedule.parse expression with
  | .ok s => .ok s
  | .error e => .error (.expression e)

/-- The first event of an expression at or after a reference. -/
def nextOccurrence (expression : String) (reference : DateTime) : Except CronError DateTime := do
  (← schedule expression).nextOccurrence reference

/-- The texts of up to `count` events from a reference on; an expression that cannot be read has no
events. -/
def listing (expression : String) (reference : DateTime) (count : Nat) : List String :=
  match schedule expression with
  | .ok s => (s.nextOccurrences reference count).map Display.event
  | .error _ => []

end CronCalendar.Expression
