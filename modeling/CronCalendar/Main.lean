import CronCalendar.CommandLine
import Std.Time

/-!
# Main — the command line tool

The tool reads the local clock, answers its arguments, and leaves its text and exit code behind.
-/

namespace CronCalendar

/-- The local time, to the second. -/
def localNow : IO (Option DateTime) := do
  let now ← Std.Time.PlainDateTime.now
  return DateTime.of? now.year.toInt now.month.toNat now.day.toNat now.hour.val.toNat
    now.minute.val.toNat now.second.val.toNat 0

end CronCalendar

/-- Runs the arguments with the local time as the reference that is not given. -/
def main (arguments : List String) : IO UInt32 := do
  match ← CronCalendar.localNow with
  | some now =>
    let outcome := CronCalendar.CommandLine.run now arguments
    (← IO.getStdout).putStr outcome.standardOutput
    (← IO.getStderr).putStr outcome.standardError
    return outcome.exitCode.toUInt32
  | none =>
    (← IO.getStderr).putStr "error: the local time cannot be represented\n"
    return 1
