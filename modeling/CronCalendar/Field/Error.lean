import CronCalendar.Numeral

/-!
# Field errors — why a part of a field is refused

An error names the part, as it was written, and the first rule that the part breaks. Errors are
ordered by that rule, then by the part, then by the bounds they report.
-/

namespace CronCalendar

/-- The rules that a part can break, in the order in which they are checked. -/
inductive Fault where
  | slashes
  /-- A step that is no positive number. -/
  | step
  /-- A dash that does not join two ascending numbers. -/
  | range
  /-- Neither `*` nor a number. -/
  | number
  /-- Values outside the bounds `low` and `high`. -/
  | bounds (low high : Nat)
deriving DecidableEq

/-- Why a field is refused: one of its parts, and the rule that this part breaks. -/
structure FieldError where
  part : String
  fault : Fault
deriving DecidableEq

/-- The position of a fault in the order of the rules. -/
def Fault.rank : Fault → Nat
  | .slashes => 0
  | .step => 1
  | .range => 2
  | .number => 3
  | .bounds _ _ => 4

/-- The lower bound that a fault reports, if it reports any. -/
def Fault.low : Fault → Nat
  | .bounds low _ => low
  | _ => 0

/-- The upper bound that a fault reports, if it reports any. -/
def Fault.high : Fault → Nat
  | .bounds _ high => high
  | _ => 0

namespace FieldError

/-- The text of the error, which quotes the part. -/
def message (e : FieldError) : String :=
  match e.fault with
  | .slashes => "invalid field syntax: " ++ e.part ++ ", a part can't have more than one slash"
  | .step =>
    "invalid step value in the part: " ++ e.part ++ ", step must be a positive number"
  | .range => "invalid range in the part: " ++ e.part
  | .number =>
    "invalid value in the part: " ++ e.part ++ ", must be a number, `*` or a range"
  | .bounds low high =>
    "invalid value in the part: " ++ e.part ++ ", values must be within the allowed range " ++
      Numeral.text low ++ "-" ++ Numeral.text high

/-- Errors are ordered by their kinds first and then by what they carry. -/
instance : Ord FieldError :=
  ⟨compareLex (compareOn (·.fault.rank)) <| compareLex (compareOn (·.part)) <|
    compareLex (compareOn (·.fault.low)) (compareOn (·.fault.high))⟩

end FieldError

end CronCalendar
