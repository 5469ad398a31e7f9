import CronCalendar.Field.Grammar
import CronCalendar.Schedule
import CronCalendar.Schedule.Error

/-!
# Reading schedules — from the text of an expression

Every space separates two tokens, and nothing else does. The first five tokens are the fields; the
first field that is refused decides the outcome. A sixth token is the command, unless it is empty.
-/

namespace CronCalendar

/-- Reads the token of a field. An error says which field it is. -/
def Field.read (field : Field) (token : List Char) : Except ExpressionError (Values field.bounds) :=
  match Field.parse field.bounds token with
  | .ok values => .ok values
  | .error error => .error (.field field error)

namespace Schedule

/-- The schedule of five field tokens and a command. -/
def ofTokens (minute hour day month weekday : List Char) (command : Option Command) :
    Except ExpressionError Schedule := do
  let minutes ← Field.minute.read minute
  let hours ← Field.hour.read hour
  let days ← Field.day.read day
  let months ← Field.month.read month
  let weekdays ← Field.weekday.read weekday
  return { minutes, hours, days, months, weekdays, command }

/-- The tokens of an expression. Every space separates, so tokens may be empty. -/
def tokens (expression : String) : List (List Char) := expression.toList.splitOn ' '

/-- The schedule of an expression of five tokens, or of six with a command. -/
def parse (expression : String) : Except ExpressionError Schedule :=
  match tokens expression with
  | [minute, hour, day, month, weekday] => ofTokens minute hour day month weekday none
  | [minute, hour, day, month, weekday, command] =>
    ofTokens minute hour day month weekday (Command.ofToken? command)
  | _ => .error (.tokenCount expression)

end Schedule

end CronCalendar
