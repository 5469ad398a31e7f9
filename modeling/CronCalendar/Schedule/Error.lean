import CronCalendar.Field
import CronCalendar.Field.Error

/-!
# Errors — expressions that cannot be read and events that cannot be found

An expression is refused for its number of tokens, or for the first field that is refused. A
schedule that was read may still have no event within the horizon.
-/

namespace CronCalendar

/-- Why an expression is no schedule. -/
inductive ExpressionError where
  /-- The expression has neither five nor six tokens. -/
  | tokenCount (expression : String)
  | field (field : Field) (error : FieldError)
deriving DecidableEq

/-- Why there is no event. -/
inductive CronError where
  | expression (error : ExpressionError)
  /-- The schedule with this canonical text has no event for so many years. -/
  | notFound (schedule : String) (years : Nat)
deriving DecidableEq

namespace ExpressionError

/-- The text of the error, with the name of the field that is refused. -/
def message : ExpressionError → String
  | .tokenCount text =>
    "invalid cron expression: " ++ text ++
      ". Expected format: minutes hours days months weekdays [command]"
  | .field f e => "invalid " ++ f.name ++ " field: " ++ e.message

/-- A wrong number of tokens comes first; refused fields compare by the name of the field and then
by what is wrong with it. -/
protected def compare : ExpressionError → ExpressionError → Ordering
  | .tokenCount a, .tokenCount b => Ord.compare a b
  | .tokenCount _, .field .. => .lt
  | .field .., .tokenCount _ => .gt
  | .field f a, .field g b => (Ord.compare f.name g.name).then (Ord.compare a b)

/-- Errors have the order of `compare`. -/
instance : Ord ExpressionError := ⟨ExpressionError.compare⟩

end ExpressionError

namespace CronError

/-- The text of the error. -/
def message : CronError → String
  | .expression e => e.message
  | .notFound text years =>
    "unable to find occurrences within " ++ Numeral.text years ++ " years of the schedule: " ++
      text

/-- Whether nothing was found within the horizon. -/
def isNotFound : CronError → Bool
  | .notFound .. => true
  | .expression _ => false

/-- Whether the expression was not understood. -/
def isSyntax (e : CronError) : Bool := !e.isNotFound

end CronError

/-- Outcomes can be compared for equality where their results and their errors can. -/
instance outcomeDecidableEq {ε α : Type} [DecidableEq ε] [DecidableEq α] :
    DecidableEq (Except ε α)
  | .ok a, .ok b => decidable_of_iff (a = b) ⟨congrArg Except.ok, Except.ok.inj⟩
  | .error e, .error f => decidable_of_iff (e = f) ⟨congrArg Except.error, Except.error.inj⟩
  | .ok _, .error _ => isFalse (by simp)
  | .error _, .ok _ => isFalse (by simp)

/-- Compares two outcomes: every success comes before every failure. -/
def compareOutcomes {ε α : Type} [Ord ε] [Ord α] : Except ε α → Except ε α → Ordering
  | .ok a, .ok b => compare a b
  | .ok _, .error _ => .lt
  | .error _, .ok _ => .gt
  | .error a, .error b => compare a b

end CronCalendar
