import CronCalendar.Proofs.Calendar.Weekday
import CronCalendar.Proofs.Occurrence
import CronCalendar.Proofs.Schedule.RoundTrip

/-!
# Checked searches — no question of a search is without an answer

On its way a search asks for lengths of months, for weekdays, for values between
two bounds, and adds to years. Not all such questions have an answer: there is
no thirteenth month, a day that does not exist has no weekday, bounds may be the
wrong way round and a sum may not fit. In this module the search is written with
questions that can be refused, each asked exactly where the search asks it. The
cursor does stand on days that do not exist, but the questions it asks there are
never refused, so the checked search always ends as the search does
(`checked_next_eq_ok`).
-/

namespace CronCalendar

open Calendar

/-! ## Questions -/

namespace Checked

/-- Why a question has no answer. -/
inductive Refusal where
  /-- A month or a date that does not exist. -/
  | absence (absence : Absence)
  /-- A number that 32 bits do not hold. -/
  | overflow
  /-- Bounds with nothing between them. -/
  | emptyStretch (low high : Nat)
deriving DecidableEq

/-- A number, which has to be held in 32 bits. -/
def number (n : Int) : Except Refusal Int :=
  match held n with
  | some n => .ok n
  | none => .error .overflow

/-- The length of a month, or the refusal that there is no such month. -/
def monthLength (year : Int) (month : Nat) : Except Refusal Nat :=
  (daysInMonth year month).mapError .absence

/-- The weekday of a date, or the refusal that there is no such date or that its sum
    does not fit. -/
def weekday (year : Int) (month day : Nat) : Except Refusal Nat :=
  match dayOfWeek year month day with
  | .error absence => .error (.absence absence)
  | .ok _ =>
    match heldWeekdaySum year month day with
    | some sum => .ok (sum % 7).toNat
    | none => .error .overflow

section Values

variable {b : Bounds}

/-- The least value above `low` and not above `high`. -/
def leastBetween (s : Values b) (low high : Nat) : Except Refusal (Option Nat) :=
  if h : low < high then .ok (s.leastBetween low high h) else .error (.emptyStretch low high)

/-- The look-up of the next value, which asks between bounds only if they are in
    order. -/
def nextAfter (s : Values b) (current limit : Nat) : Except Refusal (Option Next) :=
  if s.first ≤ limit then do
    let following ← if current < limit then leastBetween s current limit else pure none
    match following with
    | some v => return some (.following v)
    | none => return some (.wrapped s.first)
  else return none

/-- The look-up among all values. -/
def nextOrWrap (s : Values b) (current : Nat) : Except Refusal Next := do
  return (← nextAfter s current b.high).getD (.wrapped s.first)

end Values

/-! ## Searches -/

/-- Whether a cursor is due, with questions about its date only at a scheduled time of
    day. -/
def isDue (s : Schedule) (c : Cursor) : Except Refusal Bool :=
  if c.minute ∈ s.minutes ∧ c.hour ∈ s.hours then do
    let length ← monthLength c.year c.month
    if c.day ≤ length ∧ c.day ∈ s.days then do
      let weekday ← weekday c.year c.month c.day
      return decide (weekday ∈ s.weekdays ∧ c.month ∈ s.months)
    else return false
  else return false

/-- The move to the next month; a year that does not fit is refused. -/
def nextMonth (s : Schedule) (c : Cursor) : Except Refusal Cursor := do
  match ← nextOrWrap s.months c.month with
  | .following month => return { c with month }
  | .wrapped month => return { c with year := ← number (c.year + 1), month }

/-- The move to the next day, which asks for the length of the month first. -/
def nextDay (s : Schedule) (c : Cursor) : Except Refusal Cursor := do
  let length ← monthLength c.year c.month
  match ← nextAfter s.days c.day length with
  | some (.following day) => return { c with day }
  | some (.wrapped day) => nextMonth s { c with day }
  | none => nextMonth s c

/-- The move to the next hour. -/
def nextHour (s : Schedule) (c : Cursor) : Except Refusal Cursor := do
  match ← nextOrWrap s.hours c.hour with
  | .following hour => return { c with hour }
  | .wrapped hour => nextDay s { c with hour }

/-- One step of the search. -/
def advance (s : Schedule) (c : Cursor) : Except Refusal Cursor := do
  match ← nextOrWrap s.minutes c.minute with
  | .following minute => return { c with minute }
  | .wrapped minute => nextHour s { c with minute }

/-! ### Checked steps -/

/-- A checked computation gives this result, and it is refused only where
    something is not safe. -/
def Agrees {α : Type} (safe : Prop) (checked : Except Refusal α) (result : α) : Prop :=
  checked = .ok result ∨ ¬ safe ∧ ∃ refusal, checked = .error refusal

/-- What is safe is not refused and has the plain result. -/
theorem Agrees.eq_ok {α : Type} {safe : Prop} {checked : Except Refusal α} {result : α}
    (h : Agrees safe checked result) (hsafe : safe) : checked = .ok result := by
  rcases h with hok | ⟨hnot, -⟩
  · exact hok
  · exact absurd hsafe hnot

/-- Whatever is not refused has the plain result. -/
theorem Agrees.eq_of_ok {α : Type} {safe : Prop} {checked : Except Refusal α} {result x : α}
    (h : Agrees safe checked result) (hx : checked = .ok x) : x = result := by
  rcases h with hok | ⟨-, refusal, hrefused⟩
  · exact Except.ok.inj (hx.symm.trans hok)
  · rw [hx] at hrefused
    cases hrefused

/-- A computation that agrees under one condition agrees under a stronger one. -/
theorem Agrees.mono {α : Type} {safe safe' : Prop} {checked : Except Refusal α} {result : α}
    (h : Agrees safe checked result) (hsafe : safe' → safe) : Agrees safe' checked result := by
  rcases h with hok | ⟨hnot, hrefused⟩
  · exact Or.inl hok
  · exact Or.inr ⟨fun h => hnot (hsafe h), hrefused⟩

/-- The month of a cursor exists, and its year and the one after it are held in
    32 bits. -/
structure Askable (c : Cursor) : Prop where
  month : 1 ≤ c.month ∧ c.month ≤ 12
  year : -2147483648 < c.year ∧ c.year < 2147483647

theorem number_eq {n : Int} (h : -2147483648 ≤ n ∧ n ≤ 2147483647) : number n = .ok n := by
  rw [number, held_eq_some h]

/-- The length of an existing month is not refused. -/
theorem monthLength_eq {year : Int} {month : Nat} (h : 1 ≤ month ∧ month ≤ 12) :
    monthLength year month = .ok (Calendar.monthLength year month) := by
  rw [monthLength, daysInMonth, if_pos h]
  rfl

/-- The weekday of an existing date in a year of 32 bits is not refused. -/
theorem weekday_eq {year : Int} {month day : Nat}
    (hyear : -2147483648 < year ∧ year ≤ 2147483647) (h : IsDate year month day) :
    weekday year month day = .ok (Calendar.weekday year month day) := by
  have hday : day ≤ 31 := h.2.2.2.trans (monthLength_le year month)
  rw [weekday, dayOfWeek, if_pos h, heldWeekdaySum_eq hyear hday]
  rfl

/-- Values are only looked up between bounds that are the right way round. -/
theorem nextAfter_eq {b : Bounds} (s : Values b) (current limit : Nat) :
    nextAfter s current limit = .ok (s.nextAfter current limit) := by
  rw [nextAfter, Values.nextAfter]
  by_cases hfirst : s.first ≤ limit
  · rw [if_pos hfirst, if_pos hfirst]
    by_cases hlt : current < limit
    · rw [if_pos hlt, leastBetween, dif_pos hlt, dif_pos hlt]
      cases s.leastBetween current limit hlt <;> rfl
    · rw [if_neg hlt, dif_neg hlt]
      rfl
  · rw [if_neg hfirst, if_neg hfirst]
    rfl

/-- A look-up among all values is never refused. -/
theorem nextOrWrap_eq {b : Bounds} (s : Values b) (current : Nat) :
    nextOrWrap s current = .ok (s.nextOrWrap current) := by
  rw [nextOrWrap, nextAfter_eq]
  rfl

/-- The move to the next month agrees with the plain one. -/
theorem nextMonth_agrees (s : Schedule) (c : Cursor) :
    Agrees (Askable c) (nextMonth s c) (c.nextMonth s) := by
  rw [nextMonth, nextOrWrap_eq, Cursor.nextMonth]
  cases s.months.nextOrWrap c.month with
  | following month => exact Or.inl rfl
  | wrapped month =>
      by_cases hyear : -2147483648 ≤ c.year + 1 ∧ c.year + 1 ≤ 2147483647
      · left
        show (number (c.year + 1) >>= fun year => .ok { c with year, month }) = _
        rw [number_eq hyear]
        rfl
      · right
        refine ⟨fun h => hyear ?_, .overflow, ?_⟩
        · have hbounds := h.year
          omega
        · show (number (c.year + 1) >>= fun year => .ok { c with year, month }) = _
          rw [number, held, if_neg hyear]
          rfl

/-- The move to the next day agrees with the plain one. -/
theorem nextDay_agrees (s : Schedule) (c : Cursor) :
    Agrees (Askable c) (nextDay s c) (c.nextDay s) := by
  by_cases hmonth : 1 ≤ c.month ∧ c.month ≤ 12
  · rw [nextDay, monthLength_eq hmonth, Cursor.nextDay]
    show Agrees _ (nextAfter s.days c.day (Calendar.monthLength c.year c.month) >>= _) _
    rw [nextAfter_eq]
    cases s.days.nextAfter c.day (Calendar.monthLength c.year c.month) with
    | none => exact nextMonth_agrees s c
    | some next =>
        cases next with
        | following day => exact Or.inl rfl
        | wrapped day =>
            have hwrapped := nextMonth_agrees s { c with day }
            exact hwrapped.mono fun h => ⟨h.month, h.year⟩
  · right
    refine ⟨fun h => hmonth h.month, .absence (.noMonth c.month), ?_⟩
    rw [nextDay, monthLength, daysInMonth, if_neg hmonth]
    rfl

/-- The move to the next hour agrees with the plain one. -/
theorem nextHour_agrees (s : Schedule) (c : Cursor) :
    Agrees (Askable c) (nextHour s c) (c.nextHour s) := by
  rw [nextHour, nextOrWrap_eq, Cursor.nextHour]
  cases s.hours.nextOrWrap c.hour with
  | following hour => exact Or.inl rfl
  | wrapped hour =>
      have hwrapped := nextDay_agrees s { c with hour }
      exact hwrapped.mono fun h => ⟨h.month, h.year⟩

/-- A checked step is the step, unless the month or the year of the cursor is out
    of range. -/
theorem advance_agrees (s : Schedule) (c : Cursor) :
    Agrees (Askable c) (advance s c) (c.advance s) := by
  rw [advance, nextOrWrap_eq, Cursor.advance]
  cases s.minutes.nextOrWrap c.minute with
  | following minute => exact Or.inl rfl
  | wrapped minute =>
      have hwrapped := nextHour_agrees s { c with minute }
      exact hwrapped.mono fun h => ⟨h.month, h.year⟩

/-- No weekday is asked for before the day is known to exist. -/
theorem isDue_eq {s : Schedule} {c : Cursor} (hrange : c.InRange) (h : Askable c) :
    isDue s c = .ok (c.isDue s) := by
  rw [isDue]
  by_cases htime : c.minute ∈ s.minutes ∧ c.hour ∈ s.hours
  · rw [if_pos htime, monthLength_eq h.month]
    show (if c.day ≤ Calendar.monthLength c.year c.month ∧ c.day ∈ s.days then _ else _) = _
    by_cases hday : c.day ≤ Calendar.monthLength c.year c.month ∧ c.day ∈ s.days
    · have hdate : IsDate c.year c.month c.day :=
        ⟨h.month.1, h.month.2, hrange.day.1, hday.1⟩
      rw [if_pos hday, weekday_eq ⟨h.year.1, h.year.2.le⟩ hdate]
      show Except.ok _ = Except.ok _
      simp [Cursor.isDue, htime, hday]
    · rw [if_neg hday]
      show Except.ok _ = Except.ok _
      simp only [Cursor.isDue]
      grind
  · rw [if_neg htime]
    show Except.ok _ = Except.ok _
    simp only [Cursor.isDue]
    grind

/-! ## Checked searches -/

/-- The search with questions that can be refused. -/
def search (s : Schedule) (horizon : Int) (c : Cursor) : Except Refusal (Option DateTime) :=
  if _h : c.year < horizon then
    match isDue s c with
    | .error refusal => .error refusal
    | .ok true => .ok c.toDateTime?
    | .ok false =>
      match _step : advance s c with
      | .error refusal => .error refusal
      | .ok next => search s horizon next
  else .ok none
termination_by Cursor.room horizon c
decreasing_by
  rw [(advance_agrees s c).eq_of_ok _step]
  exact Cursor.room_advance s _h

/-- The first event at or after a reference; the year of the horizon is a sum. -/
def next? (s : Schedule) (reference : DateTime) : Except Refusal (Option DateTime) := do
  search s (← number (reference.year + horizonYears)) (Cursor.ofDateTime reference)

/-- A search from a cursor in range is never refused, up to a horizon of 32 bits. -/
theorem search_eq {s : Schedule} {horizon : Int} {c : Cursor} (hrange : c.InRange)
    (hyear : -2147483648 < c.year) (hhorizon : horizon ≤ 2147483647) :
    search s horizon c = .ok (c.search s horizon) := by
  fun_induction Cursor.search s horizon c with
  | case1 c hlt hdue =>
      have hask : Askable c := ⟨hrange.month, hyear, hlt.trans_le hhorizon⟩
      rw [search, dif_pos hlt, isDue_eq hrange hask, hdue]
  | case2 c hlt hdue ih =>
      have hask : Askable c := ⟨hrange.month, hyear, hlt.trans_le hhorizon⟩
      have hlater := c.advance_later s
      rw [Bool.not_eq_true] at hdue
      rw [search, dif_pos hlt, isDue_eq hrange hask, hdue]
      dsimp only
      split
      · next refusal hrefused =>
          rw [(advance_agrees s c).eq_ok hask] at hrefused
          cases hrefused
      · next next hnext =>
          rw [(advance_agrees s c).eq_of_ok hnext]
          exact ih (Cursor.inRange_advance hrange) (by omega)
  | case3 c hlt => rw [search, dif_neg hlt]

end Checked

/-! ## The way of a search -/

namespace Cursor

/-- The cursors on which a search stands on its way, with the number of steps
    that lead there. -/
inductive Visits (s : Schedule) (horizon : Int) (start : Cursor) : Nat → Cursor → Prop where
  | start : Visits s horizon start 0 start
  | step {steps : Nat} {c : Cursor} : Visits s horizon start steps c → c.year < horizon →
      c.isDue s = false → Visits s horizon start (steps + 1) (c.advance s)

/-- The number of minutes in a calendar in which every month has 31 days. -/
def minuteIndex (c : Cursor) : Int :=
  (((c.year * 12 + c.month) * 31 + c.day) * 24 + c.hour) * 60 + c.minute

/-- A later cursor in range has a greater index. -/
theorem minuteIndex_lt {c d : Cursor} (hc : InRange c) (hd : InRange d) (h : Before c d) :
    c.minuteIndex < d.minuteIndex := by
  obtain ⟨hcmonth, hcday, hchour, hcminute⟩ := hc
  obtain ⟨hdmonth, hdday, hdhour, hdminute⟩ := hd
  rw [Before] at h
  rw [minuteIndex, minuteIndex]
  omega

namespace Visits

variable {s : Schedule} {horizon : Int} {start c : Cursor} {steps : Nat}

/-- All cursors on the way of a search are in range. -/
theorem inRange (h : Visits s horizon start steps c) (hstart : InRange start) : InRange c := by
  induction h with
  | start => exact hstart
  | step _ _ _ ih => exact inRange_advance ih

/-- All years on the way of a search are between that of its start and the horizon. -/
theorem year_le (h : Visits s horizon start steps c) (hstart : start.year ≤ horizon) :
    start.year ≤ c.year ∧ c.year ≤ horizon := by
  induction h with
  | start => exact ⟨Int.le_refl _, hstart⟩
  | @step steps c _ hlt _ ih =>
      have hlater := c.advance_later s
      have hnext := c.year_advance_le s
      omega

/-- Every step takes one minute at least. -/
theorem minuteIndex_le (h : Visits s horizon start steps c) (hstart : InRange start) :
    start.minuteIndex + steps ≤ c.minuteIndex := by
  induction h with
  | start => exact Int.le_of_eq (Int.add_zero _)
  | @step steps c hvisits _ _ ih =>
      have hrange := hvisits.inRange hstart
      have hnext := minuteIndex_lt hrange (inRange_advance hrange) (before_advance s c)
      push_cast
      omega

/-- From each of its cursors a search goes on to the same end. -/
theorem search_eq (h : Visits s horizon start steps c) :
    search s horizon c = search s horizon start := by
  induction h with
  | start => rfl
  | @step steps c _ hlt hdue ih =>
      have hgoes : search s horizon c = search s horizon (c.advance s) := by
        rw [search, dif_pos hlt, hdue]
        rfl
      exact hgoes.symm.trans ih

end Visits

end Cursor

namespace Schedule

/-- **NO REFUSAL**: asked with questions that can be refused, a search ends as it
    does without. On its way the cursor is a place in the calendar, not later
    than the year of the horizon, and a due cursor in a year that can be
    represented is the date-time with the same components. -/
theorem checked_next_eq_ok (s : Schedule) (reference : DateTime) :
    Checked.next? s reference = .ok (s.next? reference) ∧
      ∀ steps c, Cursor.Visits s (reference.year + 11) (Cursor.ofDateTime reference) steps c →
        ((1 ≤ c.month ∧ c.month ≤ 12) ∧ (1 ≤ c.day ∧ c.day ≤ 31) ∧ c.hour ≤ 23 ∧
            c.minute ≤ 59 ∧ c.year ≤ reference.year + 11) ∧
          steps < 2 ^ 32 ∧
          Cursor.search s (reference.year + 11) c = s.next? reference ∧
          (c.isDue s = true → c.year ≤ 262142 →
            ∃ t, c.toDateTime? = some t ∧ t.year = c.year ∧ t.month = c.month ∧ t.day = c.day ∧
              t.hour = c.hour ∧ t.minute = c.minute ∧ t.second = 0 ∧ t.nanosecond = 0) := by
  have hreference := reference.component_bounds
  have hstart := Cursor.inRange_ofDateTime reference
  have hyear : (Cursor.ofDateTime reference).year = reference.year := rfl
  constructor
  · have hsum : Checked.number (reference.year + horizonYears) =
        .ok (reference.year + horizonYears) := by
      refine Checked.number_eq ?_
      rw [horizonYears]
      omega
    rw [Checked.next?, hsum]
    exact Checked.search_eq hstart (by omega) (by rw [horizonYears]; omega)
  · intro steps c hvisits
    have hrange := hvisits.inRange hstart
    have hle := hvisits.year_le (by omega)
    have hindex := hvisits.minuteIndex_le hstart
    refine ⟨⟨hrange.month, hrange.day, hrange.hour, hrange.minute, hle.2⟩, ?_,
      hvisits.search_eq, ?_⟩
    · obtain ⟨hmonth, hday, hhour, hminute⟩ := hrange
      -- a step costs at least a place on the scale of minutes, and twelve years have fewer
      rw [Cursor.minuteIndex, Cursor.minuteIndex] at hindex
      simp only [Cursor.ofDateTime] at hindex hyear hle
      omega
    · intro hdue hlast
      cases ht : c.toDateTime? with
      | none =>
          -- a due cursor without a date-time lies in a year outside of the range
          have hout := Cursor.year_of_toDateTime?_none hdue ht
          rw [firstYear, lastYear] at hout
          omega
      | some t => exact ⟨t, rfl, DateTime.of?_eq_some ht⟩

/-- The last day of a January, before a February without a leap day. -/
def lastOfJanuary : DateTime := (DateTime.of? 2023 1 31 12 30 0 0).get (by decide)

/-- The way to the next leap day leads over one that does not exist. Its weekday
    would be refused, and is not asked for. -/
theorem checked_next_eq_ok_overAbsentDay :
    (Cursor.Visits leapSunday (lastOfJanuary.year + 11) (Cursor.ofDateTime lastOfJanuary) 1
        ⟨2023, 2, 29, 0, 0⟩ ∧
      Checked.weekday 2023 2 29 = .error (.absence (.noDate 2023 2 29))) ∧
    Checked.next? leapSunday lastOfJanuary = .ok (leapSunday.next? lastOfJanuary) ∧
      Cursor.search leapSunday (lastOfJanuary.year + 11) ⟨2023, 2, 29, 0, 0⟩ =
        leapSunday.next? lastOfJanuary := by
  have hstep : (Cursor.ofDateTime lastOfJanuary).advance leapSunday = ⟨2023, 2, 29, 0, 0⟩ := by
    decide
  have hvisits : Cursor.Visits leapSunday (lastOfJanuary.year + 11)
      (Cursor.ofDateTime lastOfJanuary) 1 ⟨2023, 2, 29, 0, 0⟩ := by
    rw [← hstep]
    exact .step .start (by decide) (by decide)
  obtain ⟨hchecked, hway⟩ := checked_next_eq_ok leapSunday lastOfJanuary
  exact ⟨⟨hvisits, by decide⟩, hchecked, (hway _ _ hvisits).2.2.1⟩

end Schedule

end CronCalendar
