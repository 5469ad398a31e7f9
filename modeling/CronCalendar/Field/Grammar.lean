import CronCalendar.Field.Error
import CronCalendar.Field.Values

/-!
# Field grammar — from the text of a field to its values

A field is a list of parts between commas. A part is a span, `*`, a number or two numbers joined by
a dash, and perhaps a slash and a step. The values of a field are those of all its parts together.

A part is checked by one rule after the other: slashes, step, span, bounds. The first part that
breaks a rule decides the outcome of the field.
-/

namespace CronCalendar

/-- What a part names before its step. -/
inductive Span where
  | every
  | range (first last : Nat)
  /-- One number, or with a step everything from it on. -/
  | single (n : Nat)
deriving DecidableEq

/-- A part of a field as it is written. -/
structure Part where
  span : Span
  step : Option Step
deriving DecidableEq

namespace Span

/-- Reads a span: a text with a dash is a range, and any other one than `*` is a number. -/
def read (text : List Char) : Except Fault Span :=
  if text = ['*'] then .ok .every
  else
    match text.splitOn '-' with
    | [number] =>
      match Numeral.fieldNumber? number with
      | some n => .ok (.single n)
      | none => .error .number
    | [first, last] =>
      match Numeral.fieldNumber? first, Numeral.fieldNumber? last with
      | some m, some n => if m ≤ n then .ok (.range m n) else .error .range
      | _, _ => .error .range
    | _ => .error .range

end Span

namespace Part

/-- Reads the size of a step, which has to be positive. -/
def readStep (text : List Char) : Except Fault Step :=
  match Numeral.stepNumber? text with
  | some n => if h : 0 < n then .ok ⟨n, h⟩ else .error .step
  | none => .error .step

/-- Reads a part. The step is read first, so its fault comes before one of the values. -/
def read (text : List Char) : Except Fault Part :=
  match text.splitOn '/' with
  | [span] => do return ⟨← Span.read span, none⟩
  | [span, step] => do
    let step ← readStep step
    return ⟨← Span.read span, some step⟩
  | _ => .error .slashes

/-- The first value of a part. -/
def start (b : Bounds) (p : Part) : Nat :=
  match p.span with
  | .every => b.low
  | .range first _ => first
  | .single n => n

/-- The last value that a part may have. A single number with a step goes on to the high bound. -/
def stop (b : Bounds) (p : Part) : Nat :=
  match p.span with
  | .every => b.high
  | .range _ last => last
  | .single n => if p.step.isSome then b.high else n

/-- The step from one value of a part to the next, which is 1 if none is written. -/
def stride (p : Part) : Step := p.step.getD ⟨1, Nat.one_pos⟩

/-- The values that a part selects, if it stays inside the bounds. -/
def values (b : Bounds) (p : Part) : Except Fault (Values b) :=
  if h : b.low ≤ p.start b ∧ p.stop b ≤ b.high ∧ p.start b ≤ p.stop b then
    .ok (Values.stretch (p.start b) (p.stop b) p.stride h)
  else .error (.bounds b.low b.high)

end Part

namespace Field

/-- The values of one part; an error carries the text of the part. -/
def partValues (b : Bounds) (text : List Char) : Except FieldError (Values b) :=
  match Part.read text >>= Part.values b with
  | .ok values => .ok values
  | .error fault => .error ⟨String.ofList text, fault⟩

/-- The values of the parts of a field, of which there is at least one. -/
def unionOfParts (b : Bounds) : (parts : List (List Char)) → parts ≠ [] →
    Except FieldError (Values b)
  | [], h => absurd rfl h
  | [part], _ => partValues b part
  | part :: next :: more, _ => do
    let values ← partValues b part
    let others ← unionOfParts b (next :: more) (List.cons_ne_nil next more)
    return values.union others

/-- The parts of a field, between its commas. -/
def parts (text : List Char) : List (List Char) := text.splitOn ','

theorem parts_ne_nil (text : List Char) : parts text ≠ [] := List.splitOn_ne_nil _ _

/-- Reads the text of a field as values inside the given bounds. -/
def parse (b : Bounds) (text : List Char) : Except FieldError (Values b) :=
  unionOfParts b (parts text) (parts_ne_nil text)

end Field

end CronCalendar
