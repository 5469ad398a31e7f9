import CronCalendar.Main
import CronCalendar.Session
import CronCalendar.Upcoming
import CronCalendar.Proofs.Numeral
import CronCalendar.Proofs.Progression
import CronCalendar.Proofs.Field.Grammar
import CronCalendar.Proofs.Field.Lookup
import CronCalendar.Proofs.Field.Step
import CronCalendar.Proofs.Field.Fault
import CronCalendar.Proofs.Schedule.RoundTrip
import CronCalendar.Proofs.Schedule.Parse
import CronCalendar.Proofs.Calendar
import CronCalendar.Proofs.Cursor
import CronCalendar.Proofs.DateTime
import CronCalendar.Proofs.Occurrence
import CronCalendar.Proofs.Events
import CronCalendar.Proofs.CommandLine
import CronCalendar.Proofs.Zone
import CronCalendar.Proofs.Zone.Ordinary
import CronCalendar.Proofs.Upcoming
import CronCalendar.Proofs.Upcoming.Found
import CronCalendar.Proofs.Upcoming.Settled
import CronCalendar.Proofs.Upcoming.Minute
import CronCalendar.Proofs.Upcoming.Order
import CronCalendar.Proofs.Events.Calls
import CronCalendar.Proofs.Upcoming.Outcome
import CronCalendar.Proofs.Occurrence.Horizon
import CronCalendar.Proofs.Calendar.Weekday
import CronCalendar.Proofs.Occurrence.Checked
import CronCalendar.Proofs.Display
import CronCalendar.Proofs.Text.Bytes
import CronCalendar.Proofs.Schedule.Order
import CronCalendar.Proofs.Field.Next
import CronCalendar.Proofs.Occurrence.Steps
import CronCalendar.Proofs.Timestamp
import CronCalendar.Proofs.Session
