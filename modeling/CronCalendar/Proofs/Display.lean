import CronCalendar.Proofs.CommandLine

/-!
# Display — the text of an event tells the event

The text is a format filled in (`render_format`), and it can be read back: no
number holds a comma, a slash, a colon or a space, so the pieces between these
are the numbers again, whatever their widths are. The hour comes from the clock
and the half of the day together, where twelve stands for the first hour of
either half (`hour?_clockHour`).

So events are told apart by their texts, and a listing tells its events in their
order (`read?_event`).
-/

namespace CronCalendar.Display

open Numeral

/-! ## Filling in a format -/

/-- The text of a specifier; `width` is the least number of digits of a number.
    A year has a width of its own, and a leap second is the second 60. -/
def specified (t : DateTime) (width : Nat) : Char → List Char
  | 'Y' => year t.year
  | 'm' => padded width t.month
  | 'd' => padded width t.day
  | 'I' => padded width (clockHour t.hour)
  | 'M' => padded width t.minute
  | 'S' => padded width (t.second + t.nanosecond / 1000000000)
  | 'p' => halfOfDay t.hour
  | _ => []

/-- Fills in a format. Numbers are filled up to two digits, except where a hyphen
    stands in the specifier. -/
def render (t : DateTime) : List Char → List Char
  | '%' :: '-' :: c :: later => specified t 0 c ++ render t later
  | '%' :: c :: later => specified t 2 c ++ render t later
  | c :: later => c :: render t later
  | [] => []

/-- The format, which is read from left to right, writes the characters of an event. -/
theorem render_format {t : DateTime} (h : t.nanosecond = 0) :
    render t format.toList = eventChars t := by
  have hformat : format.toList =
      ['%', '-', 'm', '/', '%', '-', 'd', '/', '%', 'Y', ',', ' ', '%', '-', 'I', ':', '%', 'M',
        ':', '%', 'S', ' ', '%', 'p'] := rfl
  rw [hformat]
  simp [render, specified, eventChars, padded_zero, h]

/-! ## Reading a text -/

/-- The value of a text of digits. -/
def number? (text : List Char) : Option Nat :=
  if text ≠ [] ∧ text.all Char.isDigit then some (Nat.ofDigitChars 10 text 0) else none

/-- A year, which may have a sign. -/
def year? : List Char → Option Int
  | '-' :: text => (number? text).map fun n : Nat => -(n : Int)
  | '+' :: text => (number? text).map fun n : Nat => (n : Int)
  | text => (number? text).map fun n : Nat => (n : Int)

/-- The hour of the day from an hour of the clock and a half of the day. -/
def hour? (clock : Nat) : List Char → Option Nat
  | ['A', 'M'] => some (clock % 12)
  | ['P', 'M'] => some (clock % 12 + 12)
  | _ => none

/-- Reads month, day and year, between slashes. -/
def date? (text : List Char) : Option (Int × Nat × Nat) :=
  match text.splitOn '/' with
  | [month, day, year] => do return (← year? year, ← number? month, ← number? day)
  | _ => none

/-- Reads hour, minute and second between colons, and the half of the day behind
    them. -/
def time? (text : List Char) : Option (Nat × Nat × Nat) :=
  match text.splitOn ' ' with
  | [[], clock, half] =>
    match clock.splitOn ':' with
    | [hour, minute, second] => do
      return (← hour? (← number? hour) half, ← number? minute, ← number? second)
    | _ => none
  | _ => none

/-- Reads the characters of an event. -/
def readChars? (text : List Char) : Option DateTime :=
  match text.splitOn ',' with
  | [date, time] => do
    let (year, month, day) ← date? date
    let (hour, minute, second) ← time? time
    DateTime.of? year month day hour minute second 0
  | _ => none

/-- The date-time that a text shows. -/
def read? (text : String) : Option DateTime := readChars? text.toList

/-! ## The parts of a text -/

theorem number?_padded (width n : Nat) : number? (padded width n) = some n := by
  have hdigits : (padded width n).all Char.isDigit = true :=
    List.all_eq_true.mpr fun _ => isDigit_of_mem_padded
  rw [number?, if_pos ⟨padded_ne_nil width n, hdigits⟩, ofDigitChars_padded]

theorem number?_digits (n : Nat) : number? (digits n) = some n := by
  rw [← padded_zero]
  exact number?_padded 0 n

/-- A year without a sign is read back. -/
theorem year?_padded (width n : Nat) : year? (padded width n) = some (n : Int) := by
  rw [year?.eq_def]
  split
  · next heq =>
      have hmem : '-' ∈ padded width n := heq ▸ List.mem_cons_self ..
      exact absurd hmem (not_mem_padded rfl)
  · next heq =>
      have hmem : '+' ∈ padded width n := heq ▸ List.mem_cons_self ..
      exact absurd hmem (not_mem_padded rfl)
  · rw [number?_padded, Option.map_some]

/-- A year is read with its sign. -/
theorem year?_year (y : Int) : year? (year y) = some y := by
  rw [year]
  by_cases hneg : y < 0
  · rw [if_pos hneg, year?, number?_padded, Option.map_some, Option.some_inj]
    omega
  · have habs : (y.natAbs : Int) = y := by omega
    rw [if_neg hneg]
    split
    · rw [year?_padded, habs]
    · rw [year?, number?_padded, Option.map_some, habs]

/-- A year has nothing in it but digits and signs. -/
theorem not_mem_year {c : Char} (hdigit : c.isDigit = false) (hminus : c ≠ '-') (hplus : c ≠ '+')
    (y : Int) : c ∉ year y := by
  have hpadded : c ∉ padded 4 y.natAbs := not_mem_padded hdigit
  rw [year]
  split
  · simp [hpadded, hminus]
  · split <;> simp [hpadded, hplus]

/-- **TWELVE** is the first hour of either half of the day, so the clock and the
    half tell the hour. -/
theorem hour?_clockHour {hour : Nat} (h : hour ≤ 23) :
    hour? (clockHour hour) (halfOfDay hour) = some hour := by
  have hclock : clockHour hour % 12 = hour % 12 := by
    rw [clockHour]
    split <;> omega
  rw [halfOfDay]
  split
  · rw [hour?, hclock, Nat.mod_eq_of_lt (by assumption)]
  · rw [hour?, hclock, Option.some_inj]
    omega

/-! ## The whole text -/

/-- The date of an event, as its pieces with slashes between them. -/
def dateChars (t : DateTime) : List Char :=
  ['/'].intercalate [digits t.month, digits t.day, year t.year]

/-- The clock of an event, as its pieces with colons between them. -/
def clockChars (t : DateTime) : List Char :=
  [':'].intercalate [digits (clockHour t.hour), padded 2 t.minute, padded 2 t.second]

/-- The time of an event, as its pieces with spaces between them. -/
def timeChars (t : DateTime) : List Char :=
  [' '].intercalate [[], clockChars t, halfOfDay t.hour]

/-- The characters of an event are a date and a time, with a comma between them. -/
theorem eventChars_eq (t : DateTime) :
    eventChars t = [','].intercalate [dateChars t, timeChars t] := by
  simp [eventChars, dateChars, timeChars, clockChars, List.intercalate]

/-- A clock has nothing in it but digits and colons. -/
theorem not_mem_clockChars {c : Char} (hdigit : c.isDigit = false) (hcolon : c ≠ ':')
    (t : DateTime) : c ∉ clockChars t := by
  have hdigits (n : Nat) : c ∉ digits n := not_mem_digits hdigit
  have hpadded (n : Nat) : c ∉ padded 2 n := not_mem_padded hdigit
  simp [clockChars, List.intercalate, hdigits, hpadded, hcolon]

/-- The half of the day has nothing in it but its three letters. -/
theorem not_mem_halfOfDay {c : Char} (h : c ∉ ['A', 'P', 'M']) (hour : Nat) :
    c ∉ halfOfDay hour := by
  simp only [List.mem_cons, List.not_mem_nil, or_false, not_or] at h
  rw [halfOfDay]
  split <;> simp [h]

/-- The date of an event is read back. -/
theorem date?_dateChars (t : DateTime) : date? (dateChars t) = some (t.year, t.month, t.day) := by
  have hsplit : (dateChars t).splitOn '/' = [digits t.month, digits t.day, year t.year] := by
    refine List.splitOn_intercalate '/' ?_ (List.cons_ne_nil _ _)
    have hdigits (n : Nat) : '/' ∉ digits n := not_mem_digits rfl
    have hyear : '/' ∉ year t.year := not_mem_year rfl (by decide) (by decide) _
    simp [hdigits, hyear]
  rw [date?, hsplit]
  simp [number?_digits, year?_year]

/-- The time of an event is read back: hour and half of the day together tell the
    hour. -/
theorem time?_timeChars (t : DateTime) :
    time? (timeChars t) = some (t.hour, t.minute, t.second) := by
  have hclock : (clockChars t).splitOn ':' =
      [digits (clockHour t.hour), padded 2 t.minute, padded 2 t.second] := by
    refine List.splitOn_intercalate ':' ?_ (List.cons_ne_nil _ _)
    have hdigits (n : Nat) : ':' ∉ digits n := not_mem_digits rfl
    have hpadded (n : Nat) : ':' ∉ padded 2 n := not_mem_padded rfl
    simp [hdigits, hpadded]
  have hsplit : (timeChars t).splitOn ' ' = [[], clockChars t, halfOfDay t.hour] := by
    refine List.splitOn_intercalate ' ' ?_ (List.cons_ne_nil _ _)
    have hclock : ' ' ∉ clockChars t := not_mem_clockChars rfl (by decide) t
    have hhalf : ' ' ∉ halfOfDay t.hour := not_mem_halfOfDay (by decide) _
    simp [hclock, hhalf]
  have hhour : hour? (clockHour t.hour) (halfOfDay t.hour) = some t.hour :=
    hour?_clockHour t.isTimeOfDay.1
  rw [time?, hsplit]
  simp [hclock, number?_digits, number?_padded, hhour]

/-- **READ BACK**: the text of an event shows the event. -/
theorem read?_event_eq {t : DateTime} (h : t.nanosecond = 0) : read? (event t) = some t := by
  have hsplit : (eventChars t).splitOn ',' = [dateChars t, timeChars t] := by
    rw [eventChars_eq]
    refine List.splitOn_intercalate ',' ?_ (List.cons_ne_nil _ _)
    have hdigits (n : Nat) : ',' ∉ digits n := not_mem_digits rfl
    have hyear : ',' ∉ year t.year := not_mem_year rfl (by decide) (by decide) _
    have hclock : ',' ∉ clockChars t := not_mem_clockChars rfl (by decide) t
    have hhalf : ',' ∉ halfOfDay t.hour := not_mem_halfOfDay (by decide) _
    simp [dateChars, timeChars, List.intercalate, hdigits, hyear, hclock, hhalf]
  rw [read?, event, String.toList_ofList, readChars?, hsplit]
  simp only [date?_dateChars, time?_timeChars, Option.bind_eq_bind, Option.bind_some]
  rw [← h]
  exact t.of?_self

/-- Events are told apart by their texts. -/
theorem event_injective {t u : DateTime} (ht : t.nanosecond = 0) (hu : u.nanosecond = 0)
    (h : event t = event u) : t = u := by
  have hread : read? (event t) = read? (event u) := congrArg read? h
  rw [read?_event_eq ht, read?_event_eq hu] at hread
  exact Option.some.inj hread

/-! ## Listings -/

/-- A listing that tells its events: their texts, no two of them the same, and
    each showing its event. -/
structure Tells (listing : List String) (events : List DateTime) : Prop where
  texts : listing = events.map event
  distinct : listing.Nodup
  shown : listing.map read? = events.map some

/-- An event that is found has no fraction of a second. -/
theorem nanosecond_of_mem {s : Schedule} {reference t : DateTime} {count : Nat}
    (h : t ∈ s.nextOccurrences reference count) : t.nanosecond = 0 := by
  rw [Events.nextOccurrences_eq] at h
  exact (Events.selected_of_mem _ _ rfl t (List.mem_of_mem_take h)).1.nanosecond

/-- No event is found twice. -/
theorem nodup_nextOccurrences (s : Schedule) (reference : DateTime) (count : Nat) :
    (s.nextOccurrences reference count).Nodup := by
  have hasc : ((Events.start s reference).toList.take count).Pairwise (· < ·) :=
    (Events.pairwise_toList _ _ rfl).sublist (List.take_sublist _ _)
  rw [Events.nextOccurrences_eq]
  exact hasc.imp ne_of_lt

/-- Events without a fraction of a second are told by their texts if no two of
    them are the same. -/
theorem tells_map_event {events : List DateTime} (h : ∀ t ∈ events, t.nanosecond = 0)
    (hdistinct : events.Nodup) : Tells (events.map event) events where
  texts := rfl
  distinct :=
    (List.nodup_map_iff_inj_on hdistinct).mpr fun t ht u hu => event_injective (h t ht) (h u hu)
  shown := by
    rw [List.map_map]
    refine List.map_congr_left fun t ht => ?_
    rw [Function.comp_apply, read?_event_eq (h t ht)]

/-- **NO EVENT IS LOST**. A date-time without a fraction of a second is shown as
    the format says and can be read back from its text, so no other has the same
    text. The texts of a listing are all different and show the events that the
    schedule of the expression has, in their order. -/
theorem read?_event :
    (∀ t, t.nanosecond = 0 →
      event t = String.ofList (render t format.toList) ∧ read? (event t) = some t) ∧
    (∀ t u, t.nanosecond = 0 → u.nanosecond = 0 → (event t = event u ↔ t = u)) ∧
    ∀ expression reference count,
      (∀ s, Schedule.parse expression = .ok s →
        Tells (Expression.listing expression reference count)
          (s.nextOccurrences reference count)) ∧
      ∀ e, Schedule.parse expression = .error e →
        Expression.listing expression reference count = [] := by
  refine ⟨fun t h => ⟨?_, read?_event_eq h⟩, fun t u ht hu => ⟨event_injective ht hu, ?_⟩, ?_⟩
  · rw [render_format h, event]
  · rintro rfl
    rfl
  · intro expression reference count
    rw [Expression.listing, Expression.schedule]
    constructor
    · intro s hparse
      rw [hparse]
      exact tells_map_event (fun t => nanosecond_of_mem) (nodup_nextOccurrences s reference count)
    · intro e hparse
      rw [hparse]

/-- The first date-time that can be represented. -/
def firstMidnight : DateTime := (DateTime.of? (-262143) 1 1 0 0 0 0).get (by decide)

/-- Noon on the last day that can be represented. -/
def lastNoon : DateTime := (DateTime.of? 262142 12 31 12 0 0 0).get (by decide)

/-- The first and the last year that can be represented, and a list of two events. -/
theorem read?_event_atBothEnds :
    event firstMidnight = "1/1/-262143, 12:00:00 AM" ∧
      read? "1/1/-262143, 12:00:00 AM" = some firstMidnight ∧
      event lastNoon = "12/31/+262142, 12:00:00 PM" ∧
      read? "12/31/+262142, 12:00:00 PM" = some lastNoon ∧
      event firstMidnight ≠ event lastNoon ∧
      Tells (Expression.listing "59 23 * * *" CommandLine.beforeLeapDay 2)
        [CommandLine.beforeLeapDay, CommandLine.endOfLeapDay] ∧
      Expression.listing "59 23" CommandLine.beforeLeapDay 2 = [] := by
  have hfirst : event firstMidnight = "1/1/-262143, 12:00:00 AM" := by decide
  have hlast : event lastNoon = "12/31/+262142, 12:00:00 PM" := by decide
  have hparse : Schedule.parse "59 23 * * *" = .ok (.daily 23 59) := by decide +kernel
  have hrefused : Schedule.parse "59 23" = .error (.tokenCount "59 23") := by decide +kernel
  have hevents : (Schedule.daily 23 59).nextOccurrences CommandLine.beforeLeapDay 2 =
      [CommandLine.beforeLeapDay, CommandLine.endOfLeapDay] := by
    rw [Events.nextOccurrences_eq, CommandLine.take_beforeLeapDay]
  obtain ⟨hshown, hdistinct, hlisted⟩ := read?_event
  refine ⟨hfirst, ?_, hlast, ?_, ?_, ?_, ?_⟩
  · rw [← hfirst]
    exact (hshown firstMidnight (by decide)).2
  · rw [← hlast]
    exact (hshown lastNoon (by decide)).2
  · rw [ne_eq, hdistinct firstMidnight lastNoon (by decide) (by decide)]
    decide
  · rw [← hevents]
    exact (hlisted _ _ _).1 _ hparse
  · exact (hlisted _ _ _).2 _ hrefused

end CronCalendar.Display
