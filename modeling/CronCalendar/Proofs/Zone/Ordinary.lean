import CronCalendar.Proofs.Zone
import Mathlib.Data.Int.LeastGreatest

/-!
# Ordinary times — civil times that the clock comes to

From one second to the next the clock goes on by a second, unless the offset
changes there. So it leaves a civil time behind by showing it, or by a change
that jumps over it. Times that no change jumps over, and that are not shown more
than twice, are the ordinary ones: from an instant with a clock that is not past
such a time, the first instant at which the clock is not behind it shows it
(`Ordinary.exists_isLeast`).

A time may be jumped over and yet be shown, or be shown three times, only where
two changes follow each other closely. Where they are further apart than both of
them move the clock, all times that are shown at all are ordinary
(`Spaced.ordinary`).
-/

namespace CronCalendar

namespace Zone

variable {z : Zone} {civil c u v w : Int} {offset : Int} {t : Transition}
  {later : List Transition}

/-! ## Coming to a civil time -/

/-- A civil time that the clock never jumps over and that it shows twice at most. -/
structure Ordinary (z : Zone) (civil : Int) : Prop where
  not_jumped : ∀ u, u + z.offsetAt u < civil → u + 1 + z.offsetAt (u + 1) ≤ civil
  not_thrice : ∀ u ∈ z.instants civil, ∀ v ∈ z.instants civil, ∀ w ∈ z.instants civil,
    u < v → ¬ v < w

/-- The instants from `c` on at which the clock is not behind a civil time. -/
def notBehind (z : Zone) (c civil : Int) : Set Int := {u | c ≤ u ∧ civil ≤ u + z.offsetAt u}

/-- The offset does not change any more after the last change. -/
theorem exists_last_offset :
    ∀ (later : List Transition) (offset : Int),
      ∃ last start, ∀ u, start ≤ u → offsetAfter u offset later = last := by
  intro later
  induction later with
  | nil => exact fun offset => ⟨offset, 0, fun u _ => rfl⟩
  | cons t later ih =>
      intro offset
      obtain ⟨last, start, hlast⟩ := ih t.offset
      refine ⟨last, max t.instant start, fun u hu => ?_⟩
      rw [offsetAfter_of_le ((le_max_left ..).trans hu)]
      exact hlast u ((le_max_right ..).trans hu)

/-- However far ahead a civil time is, the clock does not stay behind it. -/
theorem nonempty_notBehind (z : Zone) (c civil : Int) : (z.notBehind c civil).Nonempty := by
  obtain ⟨last, start, hlast⟩ := exists_last_offset z.transitions z.base
  refine ⟨max (max c start) (civil - last), ?_, ?_⟩
  · omega
  · rw [offsetAt, hlast _ (by omega)]
    omega

/-- There is a first instant at which the clock is not behind a civil time. -/
theorem exists_isLeast_notBehind (z : Zone) (c civil : Int) :
    ∃ u, IsLeast (z.notBehind c civil) u := by
  obtain ⟨u, hmem, hleast⟩ := Int.exists_least_of_bdd (P := (· ∈ z.notBehind c civil))
    ⟨c, fun u hu => hu.1⟩ (z.nonempty_notBehind c civil)
  exact ⟨u, hmem, hleast⟩

/-- **NOTHING IS JUMPED OVER**: the clock comes to an ordinary time that it is not past. -/
theorem Ordinary.exists_isLeast (h : z.Ordinary civil)
    (hc : c + z.offsetAt c ≤ civil) :
    ∃ u ∈ z.instants civil, IsLeast (z.notBehind c civil) u := by
  obtain ⟨u, ⟨hcu, hu⟩, hleast⟩ := z.exists_isLeast_notBehind c civil
  refine ⟨u, le_antisymm ?_ hu, ⟨hcu, hu⟩, hleast⟩
  rcases hcu.eq_or_lt with rfl | hlt
  · exact hc
  · -- one second earlier the clock was still behind
    have hbehind : u - 1 + z.offsetAt (u - 1) < civil := by
      by_contra! hnot
      have hle := hleast ⟨Int.le_sub_one_of_lt hlt, hnot⟩
      omega
    have hnext := h.not_jumped (u - 1) hbehind
    rw [sub_add_cancel] at hnext
    exact hnext

/-- **TWO FIRST INSTANTS** are in the order of the civil times that they show, or the
    first of them has passed before the second one is looked for. -/
theorem le_iff_of_isLeast_notBehind {c' civil' u' : Int} (hc : c ≤ c')
    (hu : IsLeast (z.notBehind c civil) u) (hu' : IsLeast (z.notBehind c' civil') u')
    (hshown : u ∈ z.instants civil) (hshown' : u' ∈ z.instants civil') :
    u ≤ u' ↔ u ≤ c' ∨ civil ≤ civil' := by
  rw [mem_instants] at hshown hshown'
  constructor
  · intro hle
    by_contra! hnot
    obtain ⟨hlater, hbehind⟩ := hnot
    -- at `u` the clock is past the earlier civil time, so `u'` is not after it
    have hback := hu'.2 ⟨hlater.le, by omega⟩
    have heq := le_antisymm hle hback
    rw [heq] at hshown
    omega
  · rintro (hpast | hle)
    · exact hpast.trans hu'.1.1
    · exact hu.2 ⟨hc.trans hu'.1.1, by omega⟩

/-! ## Changes that are far apart -/

/-- Two changes in a row are further apart than both of them move the clock; `offset`
    is in force before the first change. -/
def SpacedAfter (offset : Int) : List Transition → Prop
  | [] => True
  | t :: later =>
      (∀ next ∈ later.head?,
        t.instant + (t.offset - offset).natAbs + (next.offset - t.offset).natAbs < next.instant) ∧
          SpacedAfter t.offset later

/-- Two changes in a row are further apart than both of them move the clock. -/
def Spaced (z : Zone) : Prop := SpacedAfter z.base z.transitions

/-- What a change sets the clock to is not reached again by setting it back. -/
theorem SpacedAfter.le_clock (hspaced : SpacedAfter offset (t :: later)) (hu : t.instant ≤ u) :
    t.instant + t.offset ≤ u + offsetAfter u t.offset later := by
  induction later generalizing t offset with
  | nil =>
      rw [offsetAfter]
      omega
  | cons next later ih =>
      obtain ⟨hfar, hspaced'⟩ := hspaced
      have hnext := hfar next rfl
      rcases lt_or_ge u next.instant with hlt | hge
      · rw [offsetAfter_of_lt hlt]
        omega
      · rw [offsetAfter_of_le hge]
        have hclock := ih hspaced' hge
        omega

/-- While the clock is behind what it showed before a change, there is no other change,
    and not in the second after it either. -/
theorem SpacedAfter.offsetAfter_eq (hspaced : SpacedAfter offset (t :: later))
    (hbehind : u + offsetAfter u t.offset later < t.instant + offset) (hu : t.instant ≤ u)
    (hvu : v ≤ u + 1) : offsetAfter v t.offset later = t.offset := by
  cases later with
  | nil => rfl
  | cons next later =>
      obtain ⟨hfar, hspaced'⟩ := hspaced
      have hnext := hfar next rfl
      refine offsetAfter_of_lt (lt_of_not_ge fun hge => ?_)
      rcases lt_or_ge u next.instant with hlt | hge'
      · rw [offsetAfter_of_lt hlt] at hbehind
        omega
      · rw [offsetAfter_of_le hge'] at hbehind
        have hclock := hspaced'.le_clock hge'
        omega

/-- A change is in force when it comes. -/
theorem SpacedAfter.offsetAfter_instant (hspaced : SpacedAfter offset (t :: later)) :
    offsetAfter t.instant t.offset later = t.offset := by
  cases later with
  | nil => rfl
  | cons next later =>
      have hnext := hspaced.1 next rfl
      exact offsetAfter_of_lt (by omega)

/-- From a segment on, the clock does not jump over a time that it shows. -/
theorem SpacedAfter.not_jumped :
    ∀ (later : List Transition) (offset : Int), SpacedAfter offset later →
      u + offsetAfter u offset later < v + offsetAfter v offset later →
        u + 1 + offsetAfter (u + 1) offset later ≤ v + offsetAfter v offset later := by
  intro later
  induction later with
  | nil =>
      intro offset _ hlt
      simp only [offsetAfter] at hlt ⊢
      omega
  | cons t later ih =>
      intro offset hspaced hlt
      rcases lt_or_ge u t.instant with hu | hu
      · rw [offsetAfter_of_lt hu] at hlt
        rcases lt_or_ge (u + 1) t.instant with hu' | hu'
        · rw [offsetAfter_of_lt hu']
          omega
        · -- what the clock is set to is not past what is shown from the change on
          have hat : u + 1 = t.instant := by omega
          rcases lt_or_ge v t.instant with hv | hv
          · rw [offsetAfter_of_lt hv] at hlt
            omega
          · rw [hat, offsetAfter_of_le le_rfl, offsetAfter_of_le hv, hspaced.offsetAfter_instant]
            exact hspaced.le_clock hv
      · rw [offsetAfter_of_le hu] at hlt
        rw [offsetAfter_of_le (by omega : t.instant ≤ u + 1)]
        rcases lt_or_ge v t.instant with hv | hv
        · -- a time before the change is ahead, so the clock has only been catching up since
          rw [offsetAfter_of_lt hv] at hlt ⊢
          have hbehind : u + offsetAfter u t.offset later < t.instant + offset := by omega
          rw [hspaced.offsetAfter_eq hbehind hu (by omega)] at hlt
          rw [hspaced.offsetAfter_eq hbehind hu le_rfl]
          omega
        · rw [offsetAfter_of_le hv] at hlt ⊢
          exact ih t.offset hspaced.2 hlt

/-- From a segment on, no time is shown a third time. -/
theorem SpacedAfter.not_thrice (huv : u < v) (hvw : v < w) :
    ∀ (later : List Transition) (offset : Int), SpacedAfter offset later →
      u + offsetAfter u offset later = w + offsetAfter w offset later →
        v + offsetAfter v offset later ≠ w + offsetAfter w offset later := by
  intro later
  induction later with
  | nil =>
      intro offset _ _
      simp only [offsetAfter]
      omega
  | cons t later ih =>
      intro offset hspaced heq
      rcases lt_or_ge u t.instant with hu | hu
      · rw [offsetAfter_of_lt hu] at heq
        rcases lt_or_ge w t.instant with hw | hw
        · rw [offsetAfter_of_lt hw] at heq
          omega
        · -- the clock only catches up from the change to the last showing
          rw [offsetAfter_of_le hw] at heq ⊢
          have hbehind : w + offsetAfter w t.offset later < t.instant + offset := by omega
          rw [hspaced.offsetAfter_eq hbehind hw (by omega)] at heq ⊢
          rcases lt_or_ge v t.instant with hv | hv
          · rw [offsetAfter_of_lt hv]
            omega
          · rw [offsetAfter_of_le hv, hspaced.offsetAfter_eq hbehind hw (by omega)]
            omega
      · rw [offsetAfter_of_le hu, offsetAfter_of_le (by omega : t.instant ≤ w)] at heq
        rw [offsetAfter_of_le (by omega : t.instant ≤ v),
          offsetAfter_of_le (by omega : t.instant ≤ w)]
        exact ih t.offset hspaced.2 heq

/-- **SPACED ZONES**: where changes are far apart, all times that are shown are ordinary. -/
theorem Spaced.ordinary (hspaced : z.Spaced) (hcivil : (z.instants civil).Nonempty) :
    z.Ordinary civil := by
  obtain ⟨v, rfl⟩ := hcivil
  refine ⟨fun u hlt => SpacedAfter.not_jumped z.transitions z.base hspaced hlt, ?_⟩
  intro u hu v hv w hw huv hvw
  exact SpacedAfter.not_thrice huv hvw z.transitions z.base hspaced (hu.trans hw.symm)
    (hv.trans hw.symm)

end Zone

end CronCalendar
