import CronCalendar.Expression
import CronCalendar.Proofs.Schedule.RoundTrip

/-!
# Reading schedules — which expressions are read, and which error decides

The tokens of an expression are fixed by the spaces in it, and each of the first
five tokens belongs to a field. Fields are read in their order, so the schedule
stands for all of them and an error for the first one that is refused
(`ofFieldTokens_cases`). `parse_eq_iff` puts this together with the number of tokens
and the command.
-/

namespace CronCalendar

/-! ## Tokens -/

/-- The tokens of an expression: they hold no space, and with one space between
    every two of them they are the expression. -/
structure Tokenizes (expression : String) (tokens : List (List Char)) : Prop where
  nonempty : tokens ≠ []
  joined : expression.toList = [' '].intercalate tokens
  no_space : ∀ token ∈ tokens, ' ' ∉ token

/-- An expression has one list of tokens, which splitting it at its spaces gives. -/
theorem tokenizes_iff {expression : String} {tokens : List (List Char)} :
    Tokenizes expression tokens ↔ tokens = Schedule.tokens expression := by
  constructor
  · rintro ⟨hne, hjoined, hspace⟩
    exact ((Text.splitOn_eq_iff hne).mpr ⟨hjoined, hspace⟩).symm
  · rintro rfl
    have hne : Schedule.tokens expression ≠ [] := List.splitOn_ne_nil _ _
    obtain ⟨hjoined, hspace⟩ := (Text.splitOn_eq_iff hne).mp rfl
    exact ⟨hne, hjoined, hspace⟩

namespace Field

/-- The place of a field among the tokens of an expression. -/
def position : Field → Nat
  | .minute => 0
  | .hour => 1
  | .day => 2
  | .month => 3
  | .weekday => 4

theorem position_injective : Function.Injective position := by
  intro f g h
  cases f <;> cases g <;> first | rfl | cases h

/-- What holds of all fields before a place, and of the field at it, holds of
    all fields before the next place. -/
theorem forall_position_lt_succ {P : Field → Prop} (field : Field)
    (hbefore : ∀ other, other.position < field.position → P other) (hfield : P field) :
    ∀ other, other.position < field.position + 1 → P other := by
  intro other hlt
  rcases Nat.lt_succ_iff_lt_or_eq.mp hlt with hlt | heq
  · exact hbefore other hlt
  · rw [position_injective heq]
    exact hfield

/-- The token that belongs to a field. -/
def token (tokens : List (List Char)) (field : Field) : List Char :=
  tokens.getD field.position []

/-- The first field whose token is refused, and the error of its token. -/
structure FirstRefused (tokens : List (List Char)) (field : Field) (error : FieldError) :
    Prop where
  refused : parse field.bounds (field.token tokens) = .error error
  earlier : ∀ other : Field, other.position < field.position →
    ∃ V, parse other.bounds (other.token tokens) = .ok V

/-- There is one first field that is refused, with one error. -/
theorem FirstRefused.unique {tokens : List (List Char)} {field field' : Field}
    {error error' : FieldError} (h : FirstRefused tokens field error)
    (h' : FirstRefused tokens field' error') : field = field' ∧ error = error' := by
  rcases Nat.lt_trichotomy field.position field'.position with hlt | heq | hlt
  · obtain ⟨V, hV⟩ := h'.earlier field hlt
    rw [h.refused] at hV
    cases hV
  · obtain rfl := position_injective heq
    have herror := h.refused
    rw [h'.refused] at herror
    exact ⟨rfl, (Except.error.inj herror).symm⟩
  · obtain ⟨V, hV⟩ := h.earlier field' hlt
    rw [h'.refused] at hV
    cases hV

/-- A token is refused or accepted by its field. -/
theorem parse_cases (tokens : List (List Char)) (field : Field) :
    (∃ e, parse field.bounds (field.token tokens) = .error e) ∨
      ∃ V, parse field.bounds (field.token tokens) = .ok V := by
  cases parse field.bounds (field.token tokens) with
  | error e => exact Or.inl ⟨e, rfl⟩
  | ok V => exact Or.inr ⟨V, rfl⟩

theorem read_of_ok {field : Field} {token : List Char} {V : Values field.bounds}
    (h : parse field.bounds token = .ok V) : field.read token = .ok V := by
  rw [read, h]

theorem read_of_error {field : Field} {token : List Char} {error : FieldError}
    (h : parse field.bounds token = .error error) :
    field.read token = .error (.field field error) := by
  rw [read, h]

end Field

/-! ## Schedules of tokens -/

namespace Schedule

/-- The values of a field. -/
def values (s : Schedule) : (field : Field) → Values field.bounds
  | .minute => s.minutes
  | .hour => s.hours
  | .day => s.days
  | .month => s.months
  | .weekday => s.weekdays

/-- A schedule is known from the values of its fields and its command. -/
theorem ext_values {s t : Schedule} (hvalues : ∀ field, s.values field = t.values field)
    (hcommand : s.command = t.command) : s = t := by
  obtain ⟨minutes, hours, days, months, weekdays, command⟩ := s
  obtain rfl : minutes = t.minutes := hvalues .minute
  obtain rfl : hours = t.hours := hvalues .hour
  obtain rfl : days = t.days := hvalues .day
  obtain rfl : months = t.months := hvalues .month
  obtain rfl : weekdays = t.weekdays := hvalues .weekday
  obtain rfl : command = t.command := hcommand
  rfl

/-- The schedule of the first five tokens, with a command. -/
def ofFieldTokens (tokens : List (List Char)) (command : Option Command) :
    Except ExpressionError Schedule :=
  ofTokens (Field.minute.token tokens) (Field.hour.token tokens) (Field.day.token tokens)
    (Field.month.token tokens) (Field.weekday.token tokens) command

/-- **ONE OF TWO**: all fields are read, or the first refused one decides. -/
theorem ofFieldTokens_cases (tokens : List (List Char)) (command : Option Command) :
    (∃ s, ofFieldTokens tokens command = .ok s ∧ s.command = command ∧
        ∀ field, Field.parse field.bounds (field.token tokens) = .ok (s.values field)) ∨
      ∃ field error, Field.FirstRefused tokens field error ∧
        ofFieldTokens tokens command = .error (.field field error) := by
  rw [ofFieldTokens, ofTokens]
  have hnone : ∀ other : Field, other.position < 0 →
      ∃ V, Field.parse other.bounds (other.token tokens) = .ok V :=
    fun _ h => absurd h (Nat.not_lt_zero _)
  -- field by field; those before a refused one have all been read by then
  rcases Field.parse_cases tokens .minute with ⟨e, he⟩ | ⟨minutes, hminutes⟩
  · exact Or.inr ⟨.minute, e, ⟨he, hnone⟩, by rw [Field.read_of_error he]; rfl⟩
  rw [Field.read_of_ok hminutes]
  have hminute := Field.forall_position_lt_succ .minute hnone ⟨minutes, hminutes⟩
  rcases Field.parse_cases tokens .hour with ⟨e, he⟩ | ⟨hours, hhours⟩
  · exact Or.inr ⟨.hour, e, ⟨he, hminute⟩, by rw [Field.read_of_error he]; rfl⟩
  rw [Field.read_of_ok hhours]
  have hhour := Field.forall_position_lt_succ .hour hminute ⟨hours, hhours⟩
  rcases Field.parse_cases tokens .day with ⟨e, he⟩ | ⟨days, hdays⟩
  · exact Or.inr ⟨.day, e, ⟨he, hhour⟩, by rw [Field.read_of_error he]; rfl⟩
  rw [Field.read_of_ok hdays]
  have hday := Field.forall_position_lt_succ .day hhour ⟨days, hdays⟩
  rcases Field.parse_cases tokens .month with ⟨e, he⟩ | ⟨months, hmonths⟩
  · exact Or.inr ⟨.month, e, ⟨he, hday⟩, by rw [Field.read_of_error he]; rfl⟩
  rw [Field.read_of_ok hmonths]
  have hmonth := Field.forall_position_lt_succ .month hday ⟨months, hmonths⟩
  rcases Field.parse_cases tokens .weekday with ⟨e, he⟩ | ⟨weekdays, hweekdays⟩
  · exact Or.inr ⟨.weekday, e, ⟨he, hmonth⟩, by rw [Field.read_of_error he]; rfl⟩
  rw [Field.read_of_ok hweekdays]
  refine Or.inl ⟨⟨minutes, hours, days, months, weekdays, command⟩, rfl, rfl, ?_⟩
  intro field
  cases field with
  | minute => exact hminutes
  | hour => exact hhours
  | day => exact hdays
  | month => exact hmonths
  | weekday => exact hweekdays

/-- An expression has five tokens, or six with the last one for the command. -/
def CountAllowed (tokens : List (List Char)) : Prop := tokens.length = 5 ∨ tokens.length = 6

/-- Five tokens can be named one by one. -/
theorem exists_of_length_five {tokens : List (List Char)} (h : tokens.length = 5) :
    ∃ a b c d e, tokens = [a, b, c, d, e] := by
  obtain ⟨a, more, rfl⟩ := List.exists_cons_of_length_eq_add_one h
  rw [List.length_cons, Nat.succ_inj] at h
  obtain ⟨b, more, rfl⟩ := List.exists_cons_of_length_eq_add_one h
  rw [List.length_cons, Nat.succ_inj] at h
  obtain ⟨c, d, e, rfl⟩ := List.length_eq_three.mp h
  exact ⟨a, b, c, d, e, rfl⟩

/-- An expression is refused for the number of its tokens, or it is read from its fields
    and the sixth token. -/
theorem parse_eq_of_count (expression : String) :
    CountAllowed (tokens expression) ∧
        parse expression = ofFieldTokens (tokens expression)
          ((tokens expression)[5]?.bind Command.ofToken?) ∨
      ¬ CountAllowed (tokens expression) ∧
        parse expression = .error (.tokenCount expression) := by
  rw [parse]
  split
  · next heq =>
      rw [heq]
      exact Or.inl ⟨Or.inl rfl, rfl⟩
  · next heq =>
      rw [heq]
      exact Or.inl ⟨Or.inr rfl, rfl⟩
  · next hfive hsix =>
      refine Or.inr ⟨?_, rfl⟩
      rintro (h | h)
      · obtain ⟨a, b, c, d, e, heq⟩ := exists_of_length_five h
        exact hfive a b c d e heq
      · obtain ⟨a, more, heq⟩ := List.exists_cons_of_length_eq_add_one h
        rw [heq, List.length_cons, Nat.succ_inj] at h
        obtain ⟨b, c, d, e, f, rfl⟩ := exists_of_length_five h
        exact hsix a b c d e f heq

/-! ## Commands -/

/-- The token that a command is taken from: the sixth one, unless it is empty. -/
def commandToken? (tokens : List (List Char)) : Option (List Char) :=
  tokens[5]?.filter (· ≠ [])

/-- A token is a command unless it is empty. -/
theorem ofToken?_eq {token : List Char} (h : ' ' ∉ token) :
    (Command.ofToken? token).map (·.text.toList) = (some token).filter (· ≠ []) := by
  rw [Command.ofToken?]
  by_cases hne : token = []
  · subst hne
    rfl
  · rw [dif_pos ⟨hne, h⟩, Option.filter_some, if_pos (decide_eq_true hne)]
    simp

/-- The command of an expression is its sixth token. -/
theorem command_of_tokens (expression : String) :
    ((tokens expression)[5]?.bind Command.ofToken?).map (·.text.toList) =
      commandToken? (tokens expression) := by
  rw [commandToken?]
  cases h : (tokens expression)[5]? with
  | none => rfl
  | some token =>
      have hmem : token ∈ tokens expression := List.mem_of_getElem? h
      exact ofToken?_eq (Text.not_mem_of_mem_splitOn ' ' _ token hmem)

theorem command_injective : Function.Injective fun c : Command => c.text.toList := by
  intro c d h
  obtain ⟨text, _, _⟩ := c
  obtain ⟨text', _, _⟩ := d
  obtain rfl : text = text' := String.toList_injective h
  rfl

/-! ## The outcome -/

/-- The schedule that some tokens stand for: the values of each field are those
    of its token, and the command is the sixth token. -/
structure IsRead (tokens : List (List Char)) (s : Schedule) : Prop where
  count : CountAllowed tokens
  fields : ∀ field : Field, Field.parse field.bounds (field.token tokens) = .ok (s.values field)
  command : s.command.map (·.text.toList) = commandToken? tokens

/-- Why some tokens stand for no schedule: their number, or the first field that
    is refused. -/
inductive IsRefused (expression : String) (tokens : List (List Char)) : ExpressionError → Prop where
  | count : ¬ CountAllowed tokens → IsRefused expression tokens (.tokenCount expression)
  | field {field : Field} {error : FieldError} : CountAllowed tokens →
      field.FirstRefused tokens error → IsRefused expression tokens (.field field error)

/-- Tokens stand for one schedule at most. -/
theorem IsRead.unique {tokens : List (List Char)} {s t : Schedule} (hs : IsRead tokens s)
    (ht : IsRead tokens t) : s = t := by
  refine ext_values (fun field => ?_) ?_
  · exact Except.ok.inj ((hs.fields field).symm.trans (ht.fields field))
  · exact Option.map_injective command_injective (hs.command.trans ht.command.symm)

/-- Tokens are refused for one reason at most. -/
theorem IsRefused.unique {expression : String} {tokens : List (List Char)}
    {e e' : ExpressionError} (h : IsRefused expression tokens e)
    (h' : IsRefused expression tokens e') : e = e' := by
  cases h with
  | count hcount =>
      cases h' with
      | count _ => rfl
      | field hallowed _ => exact absurd hallowed hcount
  | field hallowed hfirst =>
      cases h' with
      | count hcount => exact absurd hallowed hcount
      | field _ hfirst' =>
          obtain ⟨rfl, rfl⟩ := hfirst.unique hfirst'
          rfl

/-- No tokens are read and refused. -/
theorem IsRead.not_isRefused {expression : String} {tokens : List (List Char)} {s : Schedule}
    {e : ExpressionError} (h : IsRead tokens s) : ¬ IsRefused expression tokens e := by
  intro hrefused
  cases hrefused with
  | count hcount => exact hcount h.count
  | field _ hfirst =>
      have herror := hfirst.refused
      rw [h.fields] at herror
      cases herror

/-- What an expression is read as is what its tokens stand for. -/
theorem isRead_or_isRefused (expression : String) :
    (∃ s, parse expression = .ok s ∧ IsRead (tokens expression) s) ∨
      ∃ e, parse expression = .error e ∧ IsRefused expression (tokens expression) e := by
  rcases parse_eq_of_count expression with ⟨hcount, hparse⟩ | ⟨hcount, hparse⟩
  · rcases ofFieldTokens_cases (tokens expression)
        ((tokens expression)[5]?.bind Command.ofToken?) with
      ⟨s, hs, hcommand, hfields⟩ | ⟨field, error, hfirst, herror⟩
    · refine Or.inl ⟨s, hparse.trans hs, hcount, hfields, ?_⟩
      rw [hcommand, command_of_tokens]
    · exact Or.inr ⟨_, hparse.trans herror, .field hcount hfirst⟩
  · exact Or.inr ⟨_, hparse, .count hcount⟩

/-- **READ**: an expression is read as the schedule that its tokens stand for. -/
theorem parse_ok_iff_isRead {expression : String} {s : Schedule} :
    parse expression = .ok s ↔ IsRead (tokens expression) s := by
  rcases isRead_or_isRefused expression with ⟨t, ht, hread⟩ | ⟨e, he, hrefused⟩
  · rw [ht, Except.ok.injEq]
    constructor
    · rintro rfl
      exact hread
    · exact hread.unique
  · rw [he]
    constructor
    · intro h
      cases h
    · intro hread
      exact absurd hrefused hread.not_isRefused

/-- **REFUSED**: an expression is refused for the reason that its tokens give. -/
theorem parse_error_iff_isRefused {expression : String} {e : ExpressionError} :
    parse expression = .error e ↔ IsRefused expression (tokens expression) e := by
  rcases isRead_or_isRefused expression with ⟨t, ht, hread⟩ | ⟨e', he, hrefused⟩
  · rw [ht]
    constructor
    · intro h
      cases h
    · intro hrefused
      exact absurd hrefused hread.not_isRefused
  · rw [he, Except.error.injEq]
    constructor
    · rintro rfl
      exact hrefused
    · exact hrefused.unique

/-! ## The invariant -/

/-- Values between two bounds: there are some, and they ascend. -/
structure ListedWithin (low high : Nat) (listed : List Nat) : Prop where
  nonempty : listed ≠ []
  ascending : listed.Pairwise (· < ·)
  within : ∀ v ∈ listed, low ≤ v ∧ v ≤ high

/-- The values of each field are listed inside its bounds, and a command is a
    word that is not empty. -/
structure IsWellFormed (s : Schedule) : Prop where
  minutes : ListedWithin 0 59 s.minutes.toList
  hours : ListedWithin 0 23 s.hours.toList
  days : ListedWithin 1 31 s.days.toList
  months : ListedWithin 1 12 s.months.toList
  weekdays : ListedWithin 0 6 s.weekdays.toList
  command : ∀ c ∈ s.command, c.text.toList ≠ [] ∧ ' ' ∉ c.text.toList

theorem listedWithin {b : Bounds} (V : Values b) : ListedWithin b.low b.high V.toList :=
  ⟨V.nonempty, V.ascending, V.within⟩

/-- Every schedule is well formed, as its sets and its command are. -/
theorem isWellFormed (s : Schedule) : s.IsWellFormed where
  minutes := listedWithin s.minutes
  hours := listedWithin s.hours
  days := listedWithin s.days
  months := listedWithin s.months
  weekdays := listedWithin s.weekdays
  command := fun c _ => ⟨c.nonempty, c.no_space⟩

/-- **READING EXPRESSIONS**: the tokens of an expression lie between its spaces.
    It is read as the schedule whose fields and command its tokens give, and
    refused for the number of its tokens or else for the first field that is
    refused, with the error of that field. An expression used at once and one
    inside another notation are read in the same way, so all schedules are well
    formed, wherever they come from. -/
theorem parse_eq_iff (expression : String) :
    (∀ tokens, Tokenizes expression tokens ↔ tokens = Schedule.tokens expression) ∧
      (∀ s, parse expression = .ok s ↔ IsRead (tokens expression) s) ∧
      (∀ e, parse expression = .error e ↔ IsRefused expression (tokens expression) e) ∧
      (∀ s, Expression.schedule expression = .ok s ↔ IsRead (tokens expression) s) ∧
      (∀ e, Expression.schedule expression = .error e ↔
        ∃ cause, IsRefused expression (tokens expression) cause ∧ e = .expression cause) ∧
      (∀ (unquote : String → Option String) (source : String) (s : Schedule),
        deserialize unquote source = some (.ok s) ↔
          ∃ string, unquote source = some string ∧ IsRead (tokens string) s) ∧
      ∀ s : Schedule, s.IsWellFormed := by
  refine ⟨fun _ => tokenizes_iff, fun _ => parse_ok_iff_isRead,
    fun _ => parse_error_iff_isRefused, ?_, ?_, ?_, isWellFormed⟩
  · intro s
    rw [← parse_ok_iff_isRead, Expression.schedule]
    cases parse expression <;> simp
  · intro e
    simp only [← parse_error_iff_isRefused, Expression.schedule]
    cases parse expression <;> simp [eq_comm]
  · intro unquote source s
    simp only [← parse_ok_iff_isRead, deserialize, Option.map_eq_some_iff]

end Schedule

end CronCalendar
