import CronCalendar.Numeral

/-!
# Fields — the five columns of a cron expression

A field has a name, under which its errors are reported, and bounds for its values.
-/

namespace CronCalendar

/-- The least and the greatest value that is allowed. Bounds may be empty; they never leave the
sixteen bits of a field number. -/
structure Bounds where
  low : Nat
  high : Nat
  high_le : high ≤ Numeral.fieldLimit := by decide
deriving DecidableEq

/-- The five fields, in the order in which an expression writes them. -/
inductive Field where
  | minute
  | hour
  | day
  | month
  | weekday
deriving DecidableEq

namespace Field

/-- The name of a field in error messages. -/
def name : Field → String
  | .minute => "minute"
  | .hour => "hour"
  | .day => "day"
  | .month => "month"
  | .weekday => "weekday"

/-- The values a field may have. Weekdays count from Sunday, which is zero. -/
def bounds : Field → Bounds
  | .minute => { low := 0, high := 59 }
  | .hour => { low := 0, high := 23 }
  | .day => { low := 1, high := 31 }
  | .month => { low := 1, high := 12 }
  | .weekday => { low := 0, high := 6 }

end Field

end CronCalendar
