/-!
# Numerals — reading and writing decimal numbers

A numeral is one optional `+` followed by ASCII digits. Numbers are read against a limit, from left
to right: a character that is not a digit makes the numeral malformed, and the first digit that
takes the value above the limit makes it too large. Whichever comes first decides, so a numeral can
be too large although a later character is no digit.
-/

namespace CronCalendar.Numeral

/-- The greatest number a field may hold: the numbers of a field fit in sixteen bits. -/
def fieldLimit : Nat := 65535

/-- What reading a text as a number not above a limit finds. -/
inductive Reading where
  | value (n : Nat)
  | tooLarge
  | malformed
deriving DecidableEq

/-- The number that was read, if there is one. -/
def Reading.value? : Reading → Option Nat
  | .value n => some n
  | .tooLarge => none
  | .malformed => none

/-- The value of a digit. -/
def digitValue (c : Char) : Nat := c.toNat - '0'.toNat

/-- Reads the digits that follow a numeral of value `acc`. -/
def readDigits (limit acc : Nat) : List Char → Reading
  | [] => .value acc
  | c :: cs =>
    if c.isDigit then
      if acc * 10 + digitValue c ≤ limit then readDigits limit (acc * 10 + digitValue c) cs
      else .tooLarge
    else .malformed

/-- Reads a numeral without a sign, which has at least one digit. -/
def readUnsigned (limit : Nat) : List Char → Reading
  | [] => .malformed
  | c :: cs => readDigits limit 0 (c :: cs)

/-- Reads a numeral, which may start with one `+`. -/
def read (limit : Nat) : List Char → Reading
  | '+' :: cs => readUnsigned limit cs
  | cs => readUnsigned limit cs

/-- The value of a numeral that is not above the limit of fields. -/
def fieldNumber? (cs : List Char) : Option Nat := (read fieldLimit cs).value?

/-- Reads the size of a step: one that is too large counts as the greatest number. -/
def stepNumber? (cs : List Char) : Option Nat :=
  match read fieldLimit cs with
  | .value n => some n
  | .tooLarge => some fieldLimit
  | .malformed => none

/-- The decimal digits of a number, without leading zeros. -/
def digits (n : Nat) : List Char := Nat.toDigits 10 n

/-- A number in decimal digits, as a text. -/
def text (n : Nat) : String := String.ofList (digits n)

/-- The decimal digits of a number, filled up with zeros on the left to at least `width`. -/
def padded (width n : Nat) : List Char := (digits n).leftpad width '0'

end CronCalendar.Numeral
