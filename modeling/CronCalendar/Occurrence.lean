import CronCalendar.Cursor
import CronCalendar.Schedule.Error

/-!
# Occurrences — the first minute at or after a reference that a schedule selects

The search starts at the reference, to the minute, and rolls the cursor over until it stands on a
selected minute or leaves the horizon. `minuteIndex_le_of_next?` says that what it finds is not
before the reference's minute.
-/

namespace CronCalendar

/-- The number of calendar years that a search looks through, the reference's year included. -/
def horizonYears : Nat := 11

namespace Cursor

/-- The first selected minute at or after a cursor, before the year of the horizon. -/
def search (s : Schedule) (horizon : Int) (c : Cursor) : Option DateTime :=
  if _h : c.year < horizon then
    if c.isDue s then c.toDateTime? else search s horizon (c.advance s)
  else none
termination_by room horizon c
decreasing_by exact room_advance s _h

/-- What the search finds is at the cursor or later. -/
theorem le_of_search {s : Schedule} {horizon : Int} {c : Cursor} {t : DateTime}
    (h : search s horizon c = some t) : ofDateTime t = c ∨ Before c (ofDateTime t) := by
  fun_induction search s horizon c with
  | case1 c _ _ =>
    obtain ⟨h1, h2, h3, h4, h5, -, -⟩ := DateTime.of?_eq_some h
    left
    simp [ofDateTime, *]
  | case2 c _ _ ih =>
    right
    rcases ih h with he | hb
    · rw [he]; exact before_advance s c
    · exact (before_advance s c).trans hb
  | case3 => simp at h

end Cursor

namespace Schedule

/-- The first event at or after a reference, if there is one within the horizon. Seconds of the
reference are ignored. -/
def next? (s : Schedule) (reference : DateTime) : Option DateTime :=
  Cursor.search s (reference.year + horizonYears) (Cursor.ofDateTime reference)

/-- The first event at or after a reference; it is an error if there is none within the horizon. -/
def nextOccurrence (s : Schedule) (reference : DateTime) : Except CronError DateTime :=
  match s.next? reference with
  | some event => .ok event
  | none => .error (.notFound s.text horizonYears)

/-- No event lies before the minute of the reference. -/
theorem minuteIndex_le_of_next? {s : Schedule} {reference event : DateTime}
    (h : s.next? reference = some event) : reference.minuteIndex ≤ event.minuteIndex := by
  have hr := reference.component_bounds
  have he := event.component_bounds
  rw [DateTime.minuteIndex, DateTime.minuteIndex]
  rcases Cursor.le_of_search h with heq | hlt
  · simp only [Cursor.ofDateTime, Cursor.mk.injEq] at heq
    omega
  · simp only [Cursor.Before, Cursor.ofDateTime] at hlt
    omega

end Schedule

end CronCalendar
