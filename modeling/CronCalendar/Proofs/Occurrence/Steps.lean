import CronCalendar.Proofs.Occurrence.Checked

/-!
# Steps — each step of a search goes strictly forward and misses nothing

A search looks at one cursor after the other, and a step may lower components and
raise others. Here the step is seen as a whole. From a cursor that is ready, which
every date-time is, it leads to a later cursor that is ready again, in the same
year or the next one, and no cursor in between is due.

The places before the end of the horizon are finitely many, and a step goes to a
later one. So no way is longer than that (`exists_stops`), also for a schedule that
selects nothing at all.
-/

namespace CronCalendar.Cursor

open Calendar

/-- A cursor from which a search can go on: its components are in range, and its day
    exists in its month or is not above the first scheduled day. -/
structure Ready (s : Schedule) (c : Cursor) : Prop where
  inRange : InRange c
  dayFits : DayFits s c

theorem ready_ofDateTime (s : Schedule) (t : DateTime) : Ready s (ofDateTime t) :=
  ⟨inRange_ofDateTime t, s.dayFits_ofDateTime t⟩

theorem Ready.advance {s : Schedule} {c : Cursor} (h : Ready s c) : Ready s (advance s c) :=
  ⟨inRange_advance h.inRange, dayFits_advance h.dayFits⟩

/-- Nothing between a cursor and the next one is due. -/
theorem isDue_between {s : Schedule} {c x : Cursor} (h : DayFits s c) (hcx : Before c x)
    (hx : Before x (advance s c)) : x.isDue s = false := by
  cases hdue : x.isDue s with
  | false => rfl
  | true => exact absurd hx (not_before_advance h hdue hcx)

/-! ## The way ends -/

/-- Where a search stops: at the year of the horizon, or at a due cursor. -/
def Stops (s : Schedule) (horizon : Int) (c : Cursor) : Prop :=
  horizon ≤ c.year ∨ c.isDue s = true

/-- A number of places that is not smaller than that of all places from a year to the
    one of the horizon. -/
def places (year horizon : Int) : Nat := (horizon + 1 - year).toNat * (12 * 31 * 24 * 60)

/-- No cursor up to the year of the horizon is more places away than there are. -/
theorem minuteIndex_lt_add_places {horizon : Int} {c d : Cursor} (hc : InRange c)
    (hd : InRange d) (hyear : c.year ≤ horizon) (hle : d.year ≤ horizon) :
    d.minuteIndex < c.minuteIndex + places c.year horizon := by
  obtain ⟨⟨hcmonth, -⟩, ⟨hcday, -⟩, -, -⟩ := hc
  obtain ⟨⟨-, hdmonth⟩, ⟨-, hdday⟩, hdhour, hdminute⟩ := hd
  rw [minuteIndex, minuteIndex, places]
  omega

variable {s : Schedule} {horizon : Int} {start : Cursor}

/-- A search has gone so many steps, or it has stopped before. -/
theorem visits_or_stops (s : Schedule) (horizon : Int) (start : Cursor) (n : Nat) :
    (∃ c, Visits s horizon start n c) ∨
      ∃ steps c, steps ≤ n ∧ Visits s horizon start steps c ∧ Stops s horizon c := by
  induction n with
  | zero => exact Or.inl ⟨start, .start⟩
  | succ n ih =>
      rcases ih with ⟨c, hc⟩ | ⟨steps, c, hle, hc, hstops⟩
      · by_cases hstops : Stops s horizon c
        · exact Or.inr ⟨n, c, Nat.le_succ n, hc, hstops⟩
        · rw [Stops, not_or, not_le, Bool.not_eq_true] at hstops
          exact Or.inl ⟨c.advance s, .step hc hstops.1 hstops.2⟩
      · exact Or.inr ⟨steps, c, Nat.le_succ_of_le hle, hc, hstops⟩

/-- Every cursor on the way of a search is ready if the first one is. -/
theorem Visits.ready {steps : Nat} {c : Cursor} (h : Visits s horizon start steps c)
    (hstart : Ready s start) : Ready s c := by
  induction h with
  | start => exact hstart
  | step _ _ _ ih => exact ih.advance

/-- **THE END**: a search stops, after no more steps than there are places. -/
theorem exists_stops (s : Schedule) (horizon : Int) (hstart : InRange start) :
    ∃ steps c, steps ≤ places start.year horizon ∧ Visits s horizon start steps c ∧
      Stops s horizon c := by
  by_cases hyear : start.year ≤ horizon
  · rcases visits_or_stops s horizon start (places start.year horizon) with ⟨c, hc⟩ | hstops
    · -- every step takes a place, and after so many of them none is left
      have hindex := hc.minuteIndex_le hstart
      have hlast := minuteIndex_lt_add_places hstart (hc.inRange hstart) hyear
        (hc.year_le hyear).2
      omega
    · exact hstops
  · exact ⟨0, start, Nat.zero_le _, .start, Or.inl (by omega)⟩

/-- What a search finds, from where it stops. -/
theorem search_of_stops {c : Cursor} (h : Stops s horizon c) :
    search s horizon c = if c.year < horizon then c.toDateTime? else none := by
  rw [search]
  by_cases hlt : c.year < horizon
  · have hdue : c.isDue s = true := h.resolve_left (not_le.mpr hlt)
    rw [dif_pos hlt, if_pos hlt, if_pos hdue]
  · rw [dif_neg hlt, if_neg hlt]

/-- **A STEP** from a ready cursor is a strict advance that passes nothing over. Every
    date-time is ready, and a step leads to a ready cursor that is later, in the
    same year or the next, with nothing due in between. So all of a search from a
    ready cursor is ready, and it stops, whatever the schedule is. What it finds is
    read off the cursor where it stops. -/
theorem advance_gapFree (s : Schedule) :
    (∀ t, Ready s (ofDateTime t)) ∧
      ∀ c, Ready s c →
        (Before c (advance s c) ∧ Ready s (advance s c) ∧
          (advance s c).year ≤ c.year + 1 ∧
          ∀ x, Before c x → Before x (advance s c) → x.isDue s = false) ∧
        ∀ horizon, (∀ steps d, Visits s horizon c steps d → Ready s d) ∧
          ∃ steps d, steps ≤ places c.year horizon ∧ Visits s horizon c steps d ∧
            Stops s horizon d ∧
            search s horizon c = if d.year < horizon then d.toDateTime? else none := by
  refine ⟨ready_ofDateTime s, fun c hc => ⟨⟨before_advance s c, hc.advance,
    year_advance_le s c, fun x => isDue_between hc.dayFits⟩, fun horizon =>
    ⟨fun steps d hvisits => hvisits.ready hc, ?_⟩⟩⟩
  obtain ⟨steps, d, hle, hvisits, hstops⟩ := exists_stops s horizon hc.inRange
  exact ⟨steps, d, hle, hvisits, hstops, hvisits.search_eq.symm.trans (search_of_stops hstops)⟩

/-- The thirty-first of April, which never comes, at one time of day. -/
def thirtyFirstOfApril (hour : Fin 24) (minute : Fin 60) : Schedule :=
  { Schedule.daily hour minute with
    days := Schedule.oneValue 31 (by decide)
    months := Schedule.oneValue 4 (by decide) }

/-- From a day that does not exist a step leads to the next one of this kind, and the
    search ends all the same. -/
theorem advance_gapFree_thirtyFirstOfApril :
    (Ready (thirtyFirstOfApril 0 0) ⟨2023, 4, 31, 0, 0⟩ ∧ ¬ IsDate 2023 4 31) ∧
      advance (thirtyFirstOfApril 0 0) ⟨2023, 4, 31, 0, 0⟩ = ⟨2024, 4, 31, 0, 0⟩ ∧
      Ready (thirtyFirstOfApril 0 0) ⟨2024, 4, 31, 0, 0⟩ ∧
      (∀ x, Before ⟨2023, 4, 31, 0, 0⟩ x → Before x ⟨2024, 4, 31, 0, 0⟩ →
        x.isDue (thirtyFirstOfApril 0 0) = false) ∧
      ∃ steps d, Visits (thirtyFirstOfApril 0 0) 2034 ⟨2023, 4, 31, 0, 0⟩ steps d ∧
        Stops (thirtyFirstOfApril 0 0) 2034 d := by
  have hready : Ready (thirtyFirstOfApril 0 0) ⟨2023, 4, 31, 0, 0⟩ :=
    ⟨⟨by decide, by decide, by decide, by decide⟩, Or.inr (by decide)⟩
  have hstep : advance (thirtyFirstOfApril 0 0) ⟨2023, 4, 31, 0, 0⟩ = ⟨2024, 4, 31, 0, 0⟩ := by
    decide
  obtain ⟨-, hsteps⟩ := advance_gapFree (thirtyFirstOfApril 0 0)
  obtain ⟨⟨-, hnext, -, hbetween⟩, hsearch⟩ := hsteps _ hready
  rw [hstep] at hnext hbetween
  obtain ⟨-, steps, d, -, hvisits, hstops, -⟩ := hsearch 2034
  exact ⟨⟨hready, by decide⟩, hstep, hnext, hbetween, steps, d, hvisits, hstops⟩

end CronCalendar.Cursor
