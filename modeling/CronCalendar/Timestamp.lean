import CronCalendar.DateTime

/-!
# Timestamps — civil times as `YYYY-MM-DDTHH:MM` or `YYYY-MM-DDTHH:MM:SS`

White space may stand before every number. A year without a sign has at most four digits, a year
with a sign any number of them, and the other numbers have one or two. The second 60 is the leap
second of the second 59. Both formats are read to the end of the text.
-/

namespace CronCalendar.Timestamp

/-- The characters of white space: those with the Unicode property `White_Space`. -/
def isBlank (c : Char) : Bool :=
  let n := c.toNat
  (9 ≤ n && n ≤ 13) || n = 0x20 || n = 0x85 || n = 0xA0 || n = 0x1680 ||
    (0x2000 ≤ n && n ≤ 0x200A) || n = 0x2028 || n = 0x2029 || n = 0x202F || n = 0x205F ||
    n = 0x3000

/-- A text without the white space in front of it. -/
def dropBlanks (text : List Char) : List Char := text.dropWhile isBlank

/-- Reads one to `width` digits, as many as there are. -/
def digits (width : Nat) (text : List Char) : Option (Nat × List Char) :=
  let number := (text.take width).takeWhile Char.isDigit
  if number = [] then none
  else some (Nat.ofDigitChars 10 number 0, text.drop number.length)

/-- Reads digits to their end, however many there are. -/
def allDigits (text : List Char) : Option (Nat × List Char) := digits text.length text

/-- Reads a year, which may have a sign. -/
def year (text : List Char) : Option (Int × List Char) :=
  match dropBlanks text with
  | '+' :: rest => (allDigits rest).map fun (n, rest) => ((n : Int), rest)
  | '-' :: rest => (allDigits rest).map fun (n, rest) => (-(n : Int), rest)
  | rest => (digits 4 rest).map fun (n, rest) => ((n : Int), rest)

/-- Reads a number of one or two digits, with white space in front of it. -/
def twoDigits (text : List Char) : Option (Nat × List Char) := digits 2 (dropBlanks text)

/-- Reads one character, which has to be `c`. -/
def literal (c : Char) : List Char → Option (List Char)
  | [] => none
  | d :: rest => if d = c then some rest else none

/-- A year, a month, a day, an hour and a minute, before anything is known of them. -/
structure Components where
  year : Int
  month : Nat
  day : Nat
  hour : Nat
  minute : Nat
deriving DecidableEq

/-- Reads a timestamp as far as the minute. -/
def throughMinute (text : List Char) : Option (Components × List Char) := do
  let (year, text) ← year text
  let text ← literal '-' text
  let (month, text) ← twoDigits text
  let text ← literal '-' text
  let (day, text) ← twoDigits text
  let text ← literal 'T' text
  let (hour, text) ← twoDigits text
  let text ← literal ':' text
  let (minute, text) ← twoDigits text
  return (⟨year, month, day, hour, minute⟩, text)

/-- The date-time of some components and a second, which is 60 for a leap second. -/
def Components.withSecond? (c : Components) (second : Nat) : Option DateTime :=
  if second = 60 then DateTime.of? c.year c.month c.day c.hour c.minute 59 1000000000
  else DateTime.of? c.year c.month c.day c.hour c.minute second 0

/-- Reads a timestamp that ends with the minute. -/
def ofMinutes? (text : List Char) : Option DateTime := do
  let (components, rest) ← throughMinute text
  if rest = [] then components.withSecond? 0 else none

/-- Reads a timestamp that ends with the second. -/
def ofSeconds? (text : List Char) : Option DateTime := do
  let (components, rest) ← throughMinute text
  let rest ← literal ':' rest
  let (second, rest) ← twoDigits rest
  if rest = [] then components.withSecond? second else none

/-- Reads a text in one of the two formats. The one without seconds is tried first. -/
def read? (text : String) : Option DateTime := ofMinutes? text.toList <|> ofSeconds? text.toList

end CronCalendar.Timestamp
