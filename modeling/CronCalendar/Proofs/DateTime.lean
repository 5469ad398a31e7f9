import CronCalendar.DateTime
import CronCalendar.Proofs.Calendar
import Mathlib.Data.Prod.Lex
import Mathlib.Order.Bounds.Basic

/-!
# Date-times — their order, whole minutes and the minute after

Date-times are ordered by their components, the slowest one first, and the line
of seconds has the same order (`lt_iff_seconds`). A date-time without a fraction
is what its number of seconds gives back (`ofSeconds?_eq_some_iff`). The
following minute, which is found by rolling components over, is the one that is
sixty seconds later, and it is missing only where no such date-time can be
represented (`nextMinute?_eq_some_iff`).
-/

namespace CronCalendar.DateTime

open Calendar

/-! ## The order -/

/-- The components of a date-time, in the order of their weight. -/
def components (t : DateTime) : Int ×ₗ Nat ×ₗ Nat ×ₗ Nat ×ₗ Nat ×ₗ Nat ×ₗ Nat :=
  toLex (t.year, toLex (t.month, toLex (t.day, toLex (t.hour, toLex (t.minute,
    toLex (t.second, t.nanosecond))))))

/-- A date-time is known from its components. -/
theorem components_injective : Function.Injective components := by
  intro t u h
  cases t
  cases u
  simp only [components, EmbeddingLike.apply_eq_iff_eq, Prod.mk.injEq] at h
  obtain ⟨rfl, rfl, rfl, rfl, rfl, rfl, rfl⟩ := h
  rfl

/-- Date-times are ordered by year, month, day, hour, minute, second and
    fraction. -/
instance : LinearOrder DateTime := LinearOrder.lift' components components_injective

/-- The order of date-times, component by component. -/
theorem lt_iff {t u : DateTime} :
    t < u ↔ t.year < u.year ∨ t.year = u.year ∧ (t.month < u.month ∨ t.month = u.month ∧
      (t.day < u.day ∨ t.day = u.day ∧ (t.hour < u.hour ∨ t.hour = u.hour ∧
        (t.minute < u.minute ∨ t.minute = u.minute ∧ (t.second < u.second ∨
          t.second = u.second ∧ t.nanosecond < u.nanosecond))))) := by
  show components t < components u ↔ _
  simp only [components, Prod.Lex.toLex_lt_toLex]

/-! ## Whole minutes -/

/-- Date-times that are the start of a minute. -/
structure IsWholeMinute (t : DateTime) : Prop where
  second : t.second = 0
  nanosecond : t.nanosecond = 0

/-- A date-time without its seconds. -/
def startOfMinute (t : DateTime) : DateTime where
  year := t.year
  month := t.month
  day := t.day
  hour := t.hour
  minute := t.minute
  second := 0
  nanosecond := 0
  year_bounds := t.year_bounds
  isDate := t.isDate
  isTimeOfDay := ⟨t.isTimeOfDay.1, t.isTimeOfDay.2.1, by decide, Or.inl (by decide)⟩

theorem isWholeMinute_startOfMinute (t : DateTime) : t.startOfMinute.IsWholeMinute := ⟨rfl, rfl⟩

theorem IsWholeMinute.startOfMinute_eq {t : DateTime} (h : t.IsWholeMinute) :
    t.startOfMinute = t := by
  obtain ⟨hs, hn⟩ := h
  cases t
  simp only at hs hn
  subst hs hn
  rfl

/-! ## The line of seconds -/

/-- Seconds keep the order of the components down to the second. -/
theorem seconds_lt_of_components {t u : DateTime}
    (h : t.year < u.year ∨ t.year = u.year ∧ (t.month < u.month ∨ t.month = u.month ∧
      (t.day < u.day ∨ t.day = u.day ∧ (t.hour < u.hour ∨ t.hour = u.hour ∧
        (t.minute < u.minute ∨ t.minute = u.minute ∧ t.second < u.second))))) :
    t.seconds < u.seconds := by
  have htb := t.component_bounds
  have hub := u.component_bounds
  obtain ⟨-, -, hts, -⟩ := t.isTimeOfDay
  obtain ⟨-, -, hus, -⟩ := u.isTimeOfDay
  rw [seconds, seconds]
  by_cases hdate : t.year = u.year ∧ t.month = u.month ∧ t.day = u.day
  · obtain ⟨hy, hm, hd⟩ := hdate
    rw [hy, hm, hd]
    omega
  · -- a day outweighs every difference in the time of day
    have hday := dayNumber_lt t.isDate u.isDate (by omega)
    omega

/-- A later date-time has more seconds, or the same ones and a greater fraction. -/
theorem seconds_lt_or_eq_of_lt {t u : DateTime} (h : t < u) :
    t.seconds < u.seconds ∨ t.seconds = u.seconds ∧ t.nanosecond < u.nanosecond := by
  rw [lt_iff] at h
  by_cases hsame : t.year = u.year ∧ t.month = u.month ∧ t.day = u.day ∧ t.hour = u.hour ∧
      t.minute = u.minute ∧ t.second = u.second
  · obtain ⟨hy, hm, hd, hh, hmin, hs⟩ := hsame
    right
    rw [seconds, seconds, hy, hm, hd, hh, hmin, hs]
    exact ⟨rfl, by omega⟩
  · left
    exact seconds_lt_of_components (by omega)

/-- **ONE ORDER**: date-times are ordered by their seconds, and by their
    fractions where the seconds agree. -/
theorem lt_iff_seconds {t u : DateTime} :
    t < u ↔ t.seconds < u.seconds ∨ t.seconds = u.seconds ∧ t.nanosecond < u.nanosecond := by
  constructor
  · exact seconds_lt_or_eq_of_lt
  · intro h
    rcases lt_trichotomy t u with hlt | rfl | hgt
    · exact hlt
    · omega
    · have hback := seconds_lt_or_eq_of_lt hgt
      omega

/-- A date-time is known from its seconds and its fraction. -/
theorem eq_of_seconds {t u : DateTime} (h : t.seconds = u.seconds)
    (hfraction : t.nanosecond = u.nanosecond) : t = u := by
  refine le_antisymm ?_ ?_
  · rw [← not_lt, lt_iff_seconds]
    omega
  · rw [← not_lt, lt_iff_seconds]
    omega

/-- Whole minutes are ordered by their seconds alone. -/
theorem seconds_lt_seconds_iff {t u : DateTime} (ht : t.IsWholeMinute)
    (hu : u.IsWholeMinute) : t.seconds < u.seconds ↔ t < u := by
  rw [lt_iff_seconds, ht.nanosecond, hu.nanosecond]
  omega

/-- Whole minutes are in the order of their seconds. -/
theorem seconds_le_seconds_iff {t u : DateTime} (ht : t.IsWholeMinute)
    (hu : u.IsWholeMinute) : t.seconds ≤ u.seconds ↔ t ≤ u := by
  rw [← not_lt, seconds_lt_seconds_iff hu ht, not_lt]

/-- The start of a minute has the seconds rounded down to a whole minute. -/
theorem seconds_startOfMinute (t : DateTime) :
    t.startOfMinute.seconds = t.seconds - t.seconds % 60 := by
  obtain ⟨-, -, hs, -⟩ := t.isTimeOfDay
  have hstart : t.startOfMinute.seconds =
      (dayNumber t.year t.month t.day - epochDay) * 86400 + (t.hour * 3600 + t.minute * 60) := by
    show (dayNumber t.year t.month t.day - epochDay) * 86400 +
      ((t.hour : Int) * 3600 + t.minute * 60 + (0 : Nat)) = _
    omega
  rw [hstart, seconds]
  omega

/-- A date-time to the second. -/
def withoutFraction (t : DateTime) : DateTime where
  year := t.year
  month := t.month
  day := t.day
  hour := t.hour
  minute := t.minute
  second := t.second
  nanosecond := 0
  year_bounds := t.year_bounds
  isDate := t.isDate
  isTimeOfDay := ⟨t.isTimeOfDay.1, t.isTimeOfDay.2.1, t.isTimeOfDay.2.2.1, Or.inl (by decide)⟩

/-- The components of a date-time make it up. -/
theorem of?_self (t : DateTime) :
    of? t.year t.month t.day t.hour t.minute t.second t.nanosecond = some t :=
  dif_pos ⟨t.year_bounds, t.isDate, t.isTimeOfDay⟩

/-- **FROM SECONDS**: a number of seconds gives the date-time that has it and no
    fraction, if there is one. -/
theorem ofSeconds?_eq_some_iff {n : Int} {t : DateTime} :
    ofSeconds? n = some t ↔ t.seconds = n ∧ t.nanosecond = 0 := by
  obtain ⟨year, month, day, hdate, hisDate, hnumber⟩ := ofDayNumber_spec (n / 86400 + epochDay)
  have hof : ofSeconds? n = of? year month day ((n % 86400).toNat / 3600)
      ((n % 86400).toNat / 60 % 60) ((n % 86400).toNat % 60) 0 := by
    rw [ofSeconds?, hdate]
  rw [hof]
  constructor
  · intro h
    obtain ⟨rfl, rfl, rfl, hh, hm, hs, hfraction⟩ := of?_eq_some h
    refine ⟨?_, hfraction⟩
    rw [seconds, hnumber, hh, hm, hs]
    omega
  · rintro ⟨rfl, hfraction⟩
    obtain ⟨hhour, hminute, hsecond, -⟩ := t.isTimeOfDay
    -- the day number leaves only one date, and the rest of the day only one time
    have hday : dayNumber year month day = dayNumber t.year t.month t.day := by
      rw [hnumber, seconds]
      omega
    obtain ⟨rfl, rfl, rfl⟩ := eq_of_dayNumber_eq hisDate t.isDate hday
    have hrest : (t.seconds % 86400).toNat = t.hour * 3600 + t.minute * 60 + t.second := by
      rw [seconds]
      omega
    rw [hrest, ← of?_self t, hfraction]
    congr 1 <;> omega

/-! ## The minute after -/

/-- What the following minute is: the minute rises, or the hour, or the date. -/
theorem nextMinute?_cases (t : DateTime) :
    (t.minute < 59 ∧ t.nextMinute? = of? t.year t.month t.day t.hour (t.minute + 1) 0 0) ∨
      (t.minute = 59 ∧ t.hour < 23 ∧
        t.nextMinute? = of? t.year t.month t.day (t.hour + 1) 0 0 0) ∨
      (t.minute = 59 ∧ t.hour = 23 ∧ ∃ year month day,
        IsNextDate t.year t.month t.day year month day ∧ IsDate year month day ∧
          t.nextMinute? = of? year month day 0 0 0 0) := by
  obtain ⟨hmonth, hmonth', hday, hday'⟩ := t.isDate
  obtain ⟨hhour, hminute, -, -⟩ := t.isTimeOfDay
  rw [nextMinute?]
  by_cases hm : t.minute < 59
  · rw [if_pos hm]
    exact Or.inl ⟨hm, rfl⟩
  · rw [if_neg hm]
    by_cases hh : t.hour < 23
    · rw [if_pos hh]
      exact Or.inr (Or.inl ⟨by omega, hh, rfl⟩)
    · rw [if_neg hh]
      refine Or.inr (Or.inr ⟨by omega, by omega, ?_⟩)
      by_cases hd : t.day < monthLength t.year t.month
      · rw [if_pos hd]
        exact ⟨_, _, _, .day hd, ⟨hmonth, hmonth', by omega, hd⟩, rfl⟩
      · rw [if_neg hd]
        -- the month is over: the first of the next one, which has a first
        have hlast : t.day = monthLength t.year t.month := by omega
        by_cases hmo : t.month < 12
        · rw [if_pos hmo, hlast]
          have hlength : 0 < monthLength t.year (t.month + 1) :=
            monthLength_pos t.year (by omega) (by omega)
          exact ⟨_, _, _, .month hmo, ⟨by omega, by omega, by decide, hlength⟩, rfl⟩
        · rw [if_neg hmo, hlast]
          have hdecember : t.month = 12 := by omega
          rw [hdecember]
          exact ⟨_, _, _, .year, ⟨by decide, by decide, by decide, by rw [monthLength]; decide⟩,
            rfl⟩

/-- The minute after a date-time is missing only at the end of time. -/
theorem last_of_nextMinute {t : DateTime} (h : t.nextMinute? = none) :
    t.year = lastYear ∧ t.month = 12 ∧ t.day = 31 ∧ t.hour = 23 ∧ t.minute = 59 := by
  have hyear := t.year_bounds
  obtain ⟨hhour, hminute, -, -⟩ := t.isTimeOfDay
  rcases t.nextMinute?_cases with
    ⟨hm, hn⟩ | ⟨hm, hh, hn⟩ | ⟨hm, hh, year, month, day, hnext, hdate, hn⟩
  · rw [hn, of?, dif_pos ⟨hyear, t.isDate, hhour, by omega, by omega, by omega⟩] at h
    cases h
  · rw [hn, of?, dif_pos ⟨hyear, t.isDate, by omega, by omega, by omega, by omega⟩] at h
    cases h
  · have hout : ¬ (firstYear ≤ year ∧ year ≤ lastYear) := by
      intro hin
      rw [hn, of?, dif_pos ⟨hin, hdate, by decide, by decide, by decide, by decide⟩] at h
      cases h
    -- only the turn of the year leads out of the years that can be represented
    generalize htyear : t.year = y, htmonth : t.month = m, htday : t.day = d at *
    cases hnext with
    | day _ => exact absurd hyear hout
    | month _ => exact absurd hyear hout
    | year => exact ⟨by omega, rfl, rfl, hh, hm⟩

/-- A whole minute that is put together from its components. -/
theorem seconds_of_of? {year : Int} {month day hour minute : Nat} {u : DateTime}
    (h : of? year month day hour minute 0 0 = some u) :
    u.IsWholeMinute ∧ u.seconds =
      (dayNumber year month day - epochDay) * 86400 + (hour * 3600 + minute * 60) := by
  obtain ⟨rfl, rfl, rfl, rfl, rfl, hs, hn⟩ := of?_eq_some h
  refine ⟨⟨hs, hn⟩, ?_⟩
  rw [seconds, hs]
  omega

/-- **SIXTY SECONDS**: the minute after a date-time is one minute later on the
    line of seconds. -/
theorem seconds_of_nextMinute {t u : DateTime} (ht : t.IsWholeMinute)
    (h : t.nextMinute? = some u) : u.IsWholeMinute ∧ u.seconds = t.seconds + 60 := by
  rcases t.nextMinute?_cases with
    ⟨hm, hn⟩ | ⟨hm, hh, hn⟩ | ⟨hm, hh, year, month, day, hnext, -, hn⟩
  · obtain ⟨hwhole, hseconds⟩ := seconds_of_of? (hn.symm.trans h)
    refine ⟨hwhole, ?_⟩
    rw [hseconds, seconds, ht.second]
    omega
  · obtain ⟨hwhole, hseconds⟩ := seconds_of_of? (hn.symm.trans h)
    refine ⟨hwhole, ?_⟩
    rw [hseconds, seconds, ht.second]
    omega
  · obtain ⟨hwhole, hseconds⟩ := seconds_of_of? (hn.symm.trans h)
    have hnumber := dayNumber_of_isNextDate t.isDate.1 hnext
    refine ⟨hwhole, ?_⟩
    rw [hseconds, hnumber, seconds, ht.second]
    omega

/-- The seconds of a whole minute are whole minutes. -/
theorem seconds_emod_sixty {t : DateTime} (ht : t.IsWholeMinute) : t.seconds % 60 = 0 := by
  rw [seconds, ht.second]
  omega

/-- No whole minute lies between a minute and the one after it. -/
theorem le_of_nextMinute {t u v : DateTime} (ht : t.IsWholeMinute) (hv : v.IsWholeMinute)
    (h : t.nextMinute? = some u) (hlt : t < v) : u ≤ v := by
  obtain ⟨hu, hseconds⟩ := seconds_of_nextMinute ht h
  have hlater := (seconds_lt_seconds_iff ht hv).mpr hlt
  -- later whole minutes are later by sixty seconds at least
  have htm := seconds_emod_sixty ht
  have hvm := seconds_emod_sixty hv
  refine le_of_not_gt fun hgt => ?_
  have hearlier := (seconds_lt_seconds_iff hv hu).mpr hgt
  omega

/-- No whole minute comes after one that has no minute after it. -/
theorem not_lt_of_nextMinute_none {t v : DateTime} (h : t.nextMinute? = none)
    (ht : t.IsWholeMinute) (hv : v.IsWholeMinute) : ¬ t < v := by
  obtain ⟨hy, hm, hd, hh, hmin⟩ := last_of_nextMinute h
  have hvb := v.component_bounds
  have hlast : lastYear = 262142 := rfl
  rw [lt_iff, ht.second, ht.nanosecond, hv.second, hv.nanosecond]
  omega

/-- **THE MINUTE AFTER** is the whole minute sixty seconds later, if there is
    one. -/
theorem nextMinute?_eq_some_iff {t u : DateTime} (ht : t.IsWholeMinute) :
    t.nextMinute? = some u ↔ u.IsWholeMinute ∧ u.seconds = t.seconds + 60 := by
  constructor
  · exact seconds_of_nextMinute ht
  · rintro ⟨hu, hseconds⟩
    -- something is later than `t`, so `t` is not the last minute
    have hlt : t < u := (seconds_lt_seconds_iff ht hu).mp (by omega)
    cases h : t.nextMinute? with
    | none => exact absurd hlt (not_lt_of_nextMinute_none h ht hu)
    | some v =>
        obtain ⟨hv, hvs⟩ := seconds_of_nextMinute ht h
        have hnot : ¬ v < u := by
          rw [← seconds_lt_seconds_iff hv hu]
          omega
        rw [le_antisymm (le_of_nextMinute ht hu h hlt) (le_of_not_gt hnot)]

/-- The minute after is in the same year or in the next one. -/
theorem year_le_of_nextMinute {t u : DateTime} (h : t.nextMinute? = some u) :
    u.year ≤ t.year + 1 := by
  rw [nextMinute?] at h
  split at h
  · have hyear := (of?_eq_some h).1; omega
  · split at h
    · have hyear := (of?_eq_some h).1; omega
    · split at h
      · have hyear := (of?_eq_some h).1; omega
      · split at h
        · have hyear := (of?_eq_some h).1; omega
        · have hyear := (of?_eq_some h).1; omega

/-- The last minute that can be represented. -/
def lastMinute : DateTime := (of? 262142 12 31 23 59 0 0).get (by decide)

/-- Only the last minute has none after it. -/
theorem nextMinute?_eq_none_iff {t : DateTime} (ht : t.IsWholeMinute) :
    t.nextMinute? = none ↔ t = lastMinute := by
  constructor
  · intro h
    obtain ⟨hy, hm, hd, hh, hmin⟩ := last_of_nextMinute h
    obtain ⟨hs, hn⟩ := ht
    cases t
    simp only at hy hm hd hh hmin hs hn
    subst hy hm hd hh hmin hs hn
    rfl
  · rintro rfl
    decide

/-! ## Inside a minute -/

/-- Whole minutes are told by their seconds and their fraction. -/
theorem isWholeMinute_iff {t : DateTime} :
    t.IsWholeMinute ↔ t.seconds % 60 = 0 ∧ t.nanosecond = 0 := by
  obtain ⟨-, -, hs, -⟩ := t.isTimeOfDay
  have hrest : t.seconds % 60 = t.second := by
    rw [seconds]
    omega
  rw [hrest]
  constructor
  · rintro ⟨hsecond, hfraction⟩
    exact ⟨by rw [hsecond]; rfl, hfraction⟩
  · rintro ⟨hsecond, hfraction⟩
    exact ⟨by omega, hfraction⟩

/-- A minute later is the minute after. -/
theorem shift?_sixty {t : DateTime} (ht : t.IsWholeMinute) : t.shift? 60 = t.nextMinute? := by
  have hwhole := seconds_emod_sixty ht
  refine Option.ext fun u => ?_
  rw [shift?, ofSeconds?_eq_some_iff, nextMinute?_eq_some_iff ht, isWholeMinute_iff]
  constructor
  · rintro ⟨hseconds, hfraction⟩
    exact ⟨⟨by omega, hfraction⟩, hseconds⟩
  · rintro ⟨⟨-, hfraction⟩, hseconds⟩
    exact ⟨hseconds, hfraction⟩

/-- Only whole minutes are the start of their minute. -/
theorem startOfMinute_eq_self_iff {t : DateTime} : t.startOfMinute = t ↔ t.IsWholeMinute := by
  constructor
  · intro h
    rw [← h]
    exact t.isWholeMinute_startOfMinute
  · exact IsWholeMinute.startOfMinute_eq

theorem startOfMinute_le (t : DateTime) : t.startOfMinute ≤ t := by
  rw [← not_lt, lt_iff_seconds, seconds_startOfMinute]
  have hfraction : t.startOfMinute.nanosecond = 0 := rfl
  omega

/-- No whole minute lies inside a minute, behind its start. -/
theorem le_iff_of_isWholeMinute {t u : DateTime} (hu : u.IsWholeMinute) :
    t ≤ u ↔ t.startOfMinute < u ∨ t = u := by
  constructor
  · intro hle
    rcases (t.startOfMinute_le.trans hle).lt_or_eq with hlt | heq
    · exact Or.inl hlt
    · exact Or.inr (le_antisymm hle (heq ▸ t.startOfMinute_le))
  · rintro (hlt | rfl)
    · have hseconds := (seconds_lt_seconds_iff t.isWholeMinute_startOfMinute hu).mpr hlt
      have hwhole := seconds_emod_sixty hu
      rw [seconds_startOfMinute] at hseconds
      exact le_of_lt (lt_iff_seconds.mpr (Or.inl (by omega)))
    · exact le_refl _

/-- A second of the minute of a date-time. -/
def atSecond (t : DateTime) (second : Nat) (h : second ≤ 59) : DateTime where
  year := t.year
  month := t.month
  day := t.day
  hour := t.hour
  minute := t.minute
  second := second
  nanosecond := 0
  year_bounds := t.year_bounds
  isDate := t.isDate
  isTimeOfDay := ⟨t.isTimeOfDay.1, t.isTimeOfDay.2.1, h, Or.inl (by decide)⟩

/-- A second of a minute is so many seconds after its start. -/
theorem seconds_atSecond {t : DateTime} (ht : t.IsWholeMinute) (second : Nat) (h : second ≤ 59) :
    (t.atSecond second h).seconds = t.seconds + second := by
  rw [seconds, seconds, ht.second]
  show (dayNumber t.year t.month t.day - epochDay) * 86400 +
    ((t.hour : Int) * 3600 + t.minute * 60 + second) = _
  omega

/-- The minutes that can be represented are those with a second that can be. -/
theorem ofSeconds?_startOfMinute (n : Int) :
    ofSeconds? (n - n % 60) = (ofSeconds? n).map startOfMinute := by
  cases h : ofSeconds? n with
  | some t =>
      obtain ⟨rfl, -⟩ := ofSeconds?_eq_some_iff.mp h
      exact ofSeconds?_eq_some_iff.mpr ⟨t.seconds_startOfMinute, rfl⟩
  | none =>
      cases hstart : ofSeconds? (n - n % 60) with
      | none => rfl
      | some start =>
          obtain ⟨hseconds, hfraction⟩ := ofSeconds?_eq_some_iff.mp hstart
          have hwhole : start.IsWholeMinute := isWholeMinute_iff.mpr ⟨by omega, hfraction⟩
          have hsome : ofSeconds? n = some (start.atSecond (n % 60).toNat (by omega)) := by
            refine ofSeconds?_eq_some_iff.mpr ⟨?_, rfl⟩
            rw [seconds_atSecond hwhole]
            omega
          rw [h] at hsome
          cases hsome

end CronCalendar.DateTime
