import CronCalendar.DateTime
import CronCalendar.Schedule

/-!
# Cursors — rolling over the minutes that a schedule may select

A cursor is a place in the calendar, to the minute. It is plain data: on its way it may stand on a
day that its month does not have. `advance` moves it to the next scheduled minute of the hour, and
where there is none it starts the scheduled minutes again and moves the hour, then the day, the
month and the year.

`before_advance` says that the cursor moves strictly forward.
-/

namespace CronCalendar

open Calendar

/-- A place in the calendar, to the minute; the date need not exist. -/
structure Cursor where
  year : Int
  month : Nat
  day : Nat
  hour : Nat
  minute : Nat
deriving DecidableEq

namespace Cursor

/-- The place of a date-time; its seconds are dropped. -/
def ofDateTime (t : DateTime) : Cursor := ⟨t.year, t.month, t.day, t.hour, t.minute⟩

/-- The date-time at a cursor, if its date exists and can be represented. -/
def toDateTime? (c : Cursor) : Option DateTime :=
  DateTime.of? c.year c.month c.day c.hour c.minute 0 0

/-- Whether a schedule selects the minute at a cursor. The day has to exist before its weekday is
asked for. -/
def isDue (s : Schedule) (c : Cursor) : Bool :=
  decide (c.minute ∈ s.minutes) && decide (c.hour ∈ s.hours) &&
    decide (c.day ≤ monthLength c.year c.month) && decide (c.day ∈ s.days) &&
    decide (weekday c.year c.month c.day ∈ s.weekdays) && decide (c.month ∈ s.months)

/-! ## Rollover -/

/-- Moves to the next scheduled month, and to the next year after the last one. -/
def nextMonth (s : Schedule) (c : Cursor) : Cursor :=
  match s.months.nextOrWrap c.month with
  | .following month => { c with month }
  | .wrapped month => { c with year := c.year + 1, month }

/-- Moves to the next scheduled day that the month has. If the month has none of the scheduled
days, the cursor keeps its day and moves to the next month. -/
def nextDay (s : Schedule) (c : Cursor) : Cursor :=
  match s.days.nextAfter c.day (monthLength c.year c.month) with
  | some (.following day) => { c with day }
  | some (.wrapped day) => nextMonth s { c with day }
  | none => nextMonth s c

/-- The next scheduled hour, of this day or of the next one; the minute is kept. -/
def nextHour (s : Schedule) (c : Cursor) : Cursor :=
  match s.hours.nextOrWrap c.hour with
  | .following hour => { c with hour }
  | .wrapped hour => nextDay s { c with hour }

/-- One step of the search: the next scheduled minute, of this hour or of the next one. -/
def advance (s : Schedule) (c : Cursor) : Cursor :=
  match s.minutes.nextOrWrap c.minute with
  | .following minute => { c with minute }
  | .wrapped minute => nextHour s { c with minute }

/-! ## Progress -/

/-- The order of cursors: by year, month, day, hour and minute. -/
def Before (a b : Cursor) : Prop :=
  a.year < b.year ∨ a.year = b.year ∧
    (a.month < b.month ∨ a.month = b.month ∧
      (a.day < b.day ∨ a.day = b.day ∧
        (a.hour < b.hour ∨ a.hour = b.hour ∧ a.minute < b.minute)))

theorem Before.trans {a b c : Cursor} (hab : Before a b) (hbc : Before b c) : Before a c := by
  rw [Before] at *
  omega

/-- How far each component can still rise below its limit, the slowest one first. -/
def room (horizon : Int) (c : Cursor) : Nat × Nat × Nat × Nat × Nat :=
  ((horizon - c.year).toNat, 12 - c.month, 31 - c.day, 23 - c.hour, 59 - c.minute)

/-- The lexicographic order of five numbers. -/
abbrev RoomLess : Nat × Nat × Nat × Nat × Nat → Nat × Nat × Nat × Nat × Nat → Prop :=
  Prod.Lex (· < ·) <| Prod.Lex (· < ·) <| Prod.Lex (· < ·) <| Prod.Lex (· < ·) (· < ·)

/-- The order on rooms, component by component. -/
theorem roomLess_iff (a b c d e a' b' c' d' e' : Nat) :
    RoomLess (a, b, c, d, e) (a', b', c', d', e') ↔
      a < a' ∨ a = a' ∧ (b < b' ∨ b = b' ∧ (c < c' ∨ c = c' ∧ (d < d' ∨ d = d' ∧ e < e'))) := by
  simp [RoomLess, Prod.lex_def]

/-- The cursor moves to a later month, and a month of the same year is a month of the calendar. -/
theorem nextMonth_later (s : Schedule) (c : Cursor) :
    c.year < (nextMonth s c).year ∨
      c.year = (nextMonth s c).year ∧ c.month < (nextMonth s c).month ∧
        (nextMonth s c).month ≤ 12 := by
  rw [nextMonth]
  split
  · next month h =>
    have := Values.bounds_of_nextOrWrap h
    exact Or.inr ⟨rfl, this⟩
  · exact Or.inl (by simp only; omega)

/-- The next day is a later day of this month, or it lies in a later month or year. -/
theorem nextDay_later (s : Schedule) (c : Cursor) :
    c.year < (nextDay s c).year ∨ c.year = (nextDay s c).year ∧
      (c.month < (nextDay s c).month ∧ (nextDay s c).month ≤ 12 ∨
        c.month = (nextDay s c).month ∧ c.day < (nextDay s c).day ∧ (nextDay s c).day ≤ 31) := by
  rw [nextDay]
  split
  · next day h =>
    have := Values.bounds_of_nextAfter h
    have := monthLength_le c.year c.month
    exact Or.inr ⟨rfl, Or.inr ⟨rfl, by simp only; omega, by simp only; omega⟩⟩
  · next day _ =>
    have := nextMonth_later s { c with day }
    simp only at this
    omega
  · have := nextMonth_later s c
    omega

/-- The next hour is a later hour of this day, or it lies on a later day. -/
theorem nextHour_later (s : Schedule) (c : Cursor) :
    c.year < (nextHour s c).year ∨ c.year = (nextHour s c).year ∧
      (c.month < (nextHour s c).month ∧ (nextHour s c).month ≤ 12 ∨
        c.month = (nextHour s c).month ∧
          (c.day < (nextHour s c).day ∧ (nextHour s c).day ≤ 31 ∨
            c.day = (nextHour s c).day ∧
              c.hour < (nextHour s c).hour ∧ (nextHour s c).hour ≤ 23)) := by
  rw [nextHour]
  split
  · next hour h =>
    have := Values.bounds_of_nextOrWrap h
    exact Or.inr ⟨rfl, Or.inr ⟨rfl, Or.inr ⟨rfl, this⟩⟩⟩
  · next hour _ =>
    have := nextDay_later s { c with hour }
    simp only at this
    omega

/-- A step leads to a later minute of this hour, or to a later hour. -/
theorem advance_later (s : Schedule) (c : Cursor) :
    c.year < (advance s c).year ∨ c.year = (advance s c).year ∧
      (c.month < (advance s c).month ∧ (advance s c).month ≤ 12 ∨
        c.month = (advance s c).month ∧
          (c.day < (advance s c).day ∧ (advance s c).day ≤ 31 ∨
            c.day = (advance s c).day ∧
              (c.hour < (advance s c).hour ∧ (advance s c).hour ≤ 23 ∨
                c.hour = (advance s c).hour ∧
                  c.minute < (advance s c).minute ∧ (advance s c).minute ≤ 59))) := by
  rw [advance]
  split
  · next minute h =>
    have := Values.bounds_of_nextOrWrap h
    exact Or.inr ⟨rfl, Or.inr ⟨rfl, Or.inr ⟨rfl, Or.inr ⟨rfl, this⟩⟩⟩⟩
  · next minute _ =>
    have := nextHour_later s { c with minute }
    simp only at this
    omega

/-- Each step goes forward. -/
theorem before_advance (s : Schedule) (c : Cursor) : Before c (advance s c) := by
  have := advance_later s c
  rw [Before]
  omega

/-- Below the horizon, a step leaves less room. -/
theorem room_advance (s : Schedule) {horizon : Int} {c : Cursor} (h : c.year < horizon) :
    RoomLess (room horizon (advance s c)) (room horizon c) := by
  have := advance_later s c
  rw [room, room]
  rw [roomLess_iff]
  omega

end Cursor

end CronCalendar
