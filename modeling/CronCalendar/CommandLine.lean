import CronCalendar.Expression
import CronCalendar.Timestamp

/-!
# Command line — arguments, requests and what they show

The tool takes one expression and two settings, a count and a reference. Its arguments are read
from left to right into a request. A mistake in them ends the reading, and a request for help or
for the version does so too. Only then is the expression looked at.

A value belongs to a setting either in the same argument or as the next argument. The next argument
is a value only if it does not look like an option.
-/

namespace CronCalendar.CommandLine

/-! ## Arguments -/

/-- What the tool can be told besides the expression. -/
inductive Setting where
  | count
  | reference
deriving DecidableEq

/-- What is wrong with some arguments. -/
inductive UsageError where
  | unknownOption (argument : String)
  | unexpectedValue (argument : String)
  | unexpectedArgument (argument : String)
  | missingValue (setting : Setting)
  | repeated (setting : Setting)
  | invalidValue (setting : Setting) (value : String)
  | missingExpression
deriving DecidableEq

/-- What one argument is, as far as it shows on its own. -/
inductive Argument where
  /-- An expression, or the value of the setting before it. -/
  | plain
  /-- The mark after which no argument is an option. -/
  | endOfOptions
  | help
  | version
  | setting (setting : Setting) (value : Option (List Char))
  /-- An option that takes no value, with a value. -/
  | overfull
  | unknown
deriving DecidableEq

namespace Argument

/-- An option with a long name; a value follows the first equals sign. -/
def ofLong (text : List Char) : Argument :=
  let value := (text.dropWhile (· ≠ '=')).tail?
  match String.ofList (text.takeWhile (· ≠ '=')) with
  | "count" => .setting .count value
  | "reference" => .setting .reference value
  | "help" => if value.isSome then .overfull else .help
  | "version" => if value.isSome then .overfull else .version
  | _ => .unknown

/-- The value that is attached to an option with a short name; an equals sign may come before
it. -/
def attached : List Char → Option (List Char)
  | [] => none
  | '=' :: value => some value
  | value => some value

/-- An option with a short name. Options without a value take effect whatever follows them. -/
def ofShort (name : Char) (text : List Char) : Argument :=
  match name with
  | 'n' => .setting .count (attached text)
  | 'r' => .setting .reference (attached text)
  | 'h' => .help
  | 'V' => .version
  | _ => .unknown

/-- Tells what an argument is. A lone hyphen is no option. -/
def ofChars : List Char → Argument
  | ['-', '-'] => .endOfOptions
  | '-' :: '-' :: text => ofLong text
  | '-' :: name :: text => ofShort name text
  | _ => .plain

end Argument

/-! ## Requests -/

/-- What some arguments ask for. -/
inductive Request where
  | help
  | version
  /-- The values of an expression and the given number of events; without a reference from now
  on. -/
  | report (expression : String) (count : Nat) (reference : Option DateTime)
deriving DecidableEq

/-- What the arguments have said so far. -/
structure Given where
  expression : Option String
  count : Option Nat
  reference : Option DateTime
deriving DecidableEq

/-- The greatest number of events that can be asked for. -/
def countLimit : Nat := UInt64.size - 1

namespace Given

/-- Before any argument nothing is given. -/
def nothing : Given := ⟨none, none, none⟩

/-- Takes an argument as the expression, of which there is one. -/
def setExpression (g : Given) (argument : String) : Except UsageError Given :=
  match g.expression with
  | some _ => .error (.unexpectedArgument argument)
  | none => .ok { g with expression := some argument }

/-- Gives a setting its value, which is done at most once. -/
def set (g : Given) (setting : Setting) (value : List Char) : Except UsageError Given :=
  match setting with
  | .count =>
    if g.count.isSome then .error (.repeated .count)
    else
      match (Numeral.read countLimit value).value? with
      | some n => .ok { g with count := some n }
      | none => .error (.invalidValue .count (String.ofList value))
  | .reference =>
    if g.reference.isSome then .error (.repeated .reference)
    else
      match Timestamp.read? (String.ofList value) with
      | some t => .ok { g with reference := some t }
      | none => .error (.invalidValue .reference (String.ofList value))

/-- The request for a report, for which only the expression is needed. -/
def report (g : Given) : Except UsageError Request :=
  match g.expression with
  | some expression => .ok (.report expression (g.count.getD 0) g.reference)
  | none => .error .missingExpression

end Given

/-- Reads the arguments behind the end of the options, which are all plain. -/
def readPlain (g : Given) : List String → Except UsageError Request
  | [] => g.report
  | argument :: later =>
    match g.setExpression argument with
    | .ok g => readPlain g later
    | .error e => .error e

/-- Reads the arguments; `awaiting` is the setting whose value has to come next. -/
def read (g : Given) (awaiting : Option Setting) : List String → Except UsageError Request
  | [] =>
    match awaiting with
    | some setting => .error (.missingValue setting)
    | none => g.report
  | argument :: later =>
    match awaiting, Argument.ofChars argument.toList with
    | some setting, .plain =>
      match g.set setting argument.toList with
      | .ok g => read g none later
      | .error e => .error e
    | some setting, _ => .error (.missingValue setting)
    | none, .plain =>
      match g.setExpression argument with
      | .ok g => read g none later
      | .error e => .error e
    | none, .endOfOptions => readPlain g later
    | none, .help => .ok .help
    | none, .version => .ok .version
    | none, .setting setting (some value) =>
      match g.set setting value with
      | .ok g => read g none later
      | .error e => .error e
    | none, .setting setting none => read g (some setting) later
    | none, .overfull => .error (.unexpectedValue argument)
    | none, .unknown => .error (.unknownOption argument)

/-- Reads all arguments, from left to right. -/
def request (arguments : List String) : Except UsageError Request :=
  read Given.nothing none arguments

/-! ## Reports -/

/-- The values of the fields and the command, one line each. -/
def breakdown (s : Schedule) : List String :=
  ["minutes:  " ++ s.minutes.text,
    "hours:    " ++ s.hours.text,
    "days:     " ++ s.days.text,
    "months:   " ++ s.months.text,
    "weekdays: " ++ s.weekdays.text,
    "command:  " ++ (s.command.map Command.text).getD ""]

/-- The line of an event, whose number is one for the first. -/
def eventLine (event : DateTime) (number : Nat) : String :=
  "next #" ++ Numeral.text number ++ ": " ++ Display.event event

/-- The lines for some events, with their numbers from one on. -/
def eventLines (events : List DateTime) : List String :=
  (events.zipIdx 1).map fun (event, number) => eventLine event number

/-- How a run ends. The lines before a failure have been shown by then. -/
inductive Outcome where
  | shown (lines : List String)
  | failed (lines : List String) (error : CronError)
  | misused (error : UsageError)
deriving DecidableEq

/-- Reports on an expression. The first event has to exist if events are asked for; the list of
events starts with it and ends where the schedule has no more. -/
def report (now : DateTime) (expression : String) (count : Nat) (reference : Option DateTime) :
    Outcome :=
  match Expression.schedule expression with
  | .error e => .failed [] e
  | .ok s =>
    if count = 0 then .shown (breakdown s)
    else
      match s.nextOccurrence (reference.getD now) with
      | .error e => .failed (breakdown s) e
      | .ok first => .shown (breakdown s ++ eventLines (s.nextOccurrences first count))

/-- The line for the version. -/
def versionLine : String := "cron-lookahead 0.1.0"

/-- The lines for the help. -/
def helpLines : List String :=
  ["Shows the structure of a cron expression and its upcoming events",
    "",
    "Usage: cron-lookahead [OPTIONS] <EXPRESSION>",
    "",
    "Arguments:",
    "  <EXPRESSION>  Cron expression: \"<minute> <hour> <day> <month> <weekday> [<command>]\"",
    "",
    "Options:",
    "  -n, --count <COUNT>          Number of upcoming events to show [default: 0]",
    "  -r, --reference <REFERENCE>  Reference time as YYYY-MM-DDTHH:MM, local now by default",
    "  -h, --help                   Print help",
    "  -V, --version                Print version"]

/-- Does what was asked for, with `now` in the place of a reference that is not given. -/
def Request.run (now : DateTime) : Request → Outcome
  | .help => .shown helpLines
  | .version => .shown [versionLine]
  | .report expression count reference => CommandLine.report now expression count reference

/-- Runs the tool on its arguments at the local time `now`. -/
def run (now : DateTime) (arguments : List String) : Outcome :=
  match request arguments with
  | .ok request => request.run now
  | .error e => .misused e

/-! ## What the tool leaves behind -/

/-- An option with its value, as messages name it. -/
def Setting.option : Setting → String
  | .count => "--count <COUNT>"
  | .reference => "--reference <REFERENCE>"

/-- The text of a usage error. -/
def UsageError.message : UsageError → String
  | .unknownOption argument => "unknown option: " ++ argument
  | .unexpectedValue argument => "option takes no value: " ++ argument
  | .unexpectedArgument argument => "unexpected argument: " ++ argument
  | .missingValue setting => "missing value: " ++ setting.option
  | .repeated setting => "given more than once: " ++ setting.option
  | .invalidValue setting value => "invalid value for " ++ setting.option ++ ": " ++ value
  | .missingExpression => "missing argument: <EXPRESSION>"

namespace Outcome

/-- The lines that a run shows. -/
def lines : Outcome → List String
  | .shown lines => lines
  | .failed lines _ => lines
  | .misused _ => []

/-- The message of a run that does not succeed. -/
def errorMessage : Outcome → Option String
  | .shown _ => none
  | .failed _ e => some e.message
  | .misused e => some e.message

/-- The exit code: 0 for success, 1 for a failure, 2 for wrong arguments. -/
def exitCode : Outcome → Nat
  | .shown _ => 0
  | .failed .. => 1
  | .misused _ => 2

/-- All of the standard output, each line with its end. -/
def standardOutput (o : Outcome) : String := String.join (o.lines.map (· ++ "\n"))

/-- All of the standard error, which is empty after success. -/
def standardError (o : Outcome) : String :=
  match o.errorMessage with
  | some message => "error: " ++ message ++ "\n"
  | none => ""

end Outcome

end CronCalendar.CommandLine
