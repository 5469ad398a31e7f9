import CronCalendar.Zone
import Mathlib.Data.List.Pairwise
import Mathlib.Order.Bounds.Basic

/-!
# Zones — the instants at which a civil time is shown

At every instant the local clock shows one civil time, but it may show a civil
time at several instants or at none. These instants are said here without
segments (`instants`), and the candidates of a civil time are exactly these
instants, in ascending order and with the offset in force (`mem_candidates_iff`,
`pairwise_candidates`).

Zones whose clock catches up after it was set back, before it changes again,
are the settled ones. In such a zone a civil time that was shown earlier, and
that is not behind the clock of a later instant, is shown again from that
instant on (`exists_later_instant`).
-/

namespace CronCalendar

namespace Zone

/-- The instants at which the local clock shows a civil time. -/
def instants (z : Zone) (civil : Int) : Set Int := {u | u + z.offsetAt u = civil}

theorem mem_instants {z : Zone} {civil u : Int} :
    u ∈ z.instants civil ↔ u + z.offsetAt u = civil := Iff.rfl

/-! ## The offset in force -/

theorem offsetAfter_of_lt {u offset : Int} {t : Transition} {later : List Transition}
    (h : u < t.instant) : offsetAfter u offset (t :: later) = offset := by
  rw [offsetAfter, if_pos h]

theorem offsetAfter_of_le {u offset : Int} {t : Transition} {later : List Transition}
    (h : t.instant ≤ u) : offsetAfter u offset (t :: later) = offsetAfter u t.offset later := by
  rw [offsetAfter, if_neg (not_lt.mpr h)]

/-! ## Candidates -/

theorem hasBegun_some {start u : Int} : hasBegun (some start) u = true ↔ start ≤ u := by
  rw [hasBegun, decide_eq_true_iff]

/-- A segment begins not later than the changes that come after it. -/
def BeginsBefore (from? : Option Int) (later : List Transition) : Prop :=
  ∀ start ∈ from?, ∀ t ∈ later, start ≤ t.instant

/-- The segment after a change begins not later than the changes after it. -/
theorem beginsBefore_of_pairwise {t : Transition} {later : List Transition}
    (hasc : ((t :: later).map Transition.instant).Pairwise (· ≤ ·)) :
    BeginsBefore (some t.instant) later := by
  rintro start ⟨⟩ next hnext
  exact (List.pairwise_cons.mp hasc).1 next.instant (List.mem_map_of_mem hnext)

/-- At a later change the segment has begun. -/
theorem hasBegun_of_le {from? : Option Int} {t : Transition} {later : List Transition} {u : Int}
    (hfrom : BeginsBefore from? (t :: later)) (h : t.instant ≤ u) : hasBegun from? u = true := by
  cases from? with
  | none => rfl
  | some start =>
      rw [hasBegun_some]
      exact (hfrom start rfl t (List.mem_cons_self ..)).trans h

/-- The candidate of a segment is the one with its offset. -/
theorem eq_candidate_iff {civil offset : Int} {c : Candidate} :
    c = ⟨civil - offset, offset⟩ ↔ c.instant + c.offset = civil ∧ c.offset = offset := by
  constructor
  · rintro rfl
    exact ⟨by simp, rfl⟩
  · obtain ⟨u, o⟩ := c
    rintro ⟨rfl, rfl⟩
    simp

/-- From a segment on, the candidates are the instants at which the civil time is
    shown, with the offset in force. -/
theorem mem_candidatesAfter {civil : Int} {c : Candidate} :
    ∀ (later : List Transition) (from? : Option Int) (offset : Int),
      (later.map Transition.instant).Pairwise (· ≤ ·) → BeginsBefore from? later →
        (c ∈ candidatesAfter civil from? offset later ↔
          hasBegun from? c.instant = true ∧ c.instant + c.offset = civil ∧
            c.offset = offsetAfter c.instant offset later) := by
  intro later
  induction later with
  | nil =>
      intro from? offset _ _
      rw [candidatesAfter, List.mem_ite_nil_right, List.mem_singleton, offsetAfter]
      constructor
      · rintro ⟨hbegun, rfl⟩
        exact ⟨hbegun, eq_candidate_iff.mp rfl⟩
      · rintro ⟨hbegun, hc⟩
        obtain rfl := eq_candidate_iff.mpr hc
        exact ⟨hbegun, rfl⟩
  | cons t later ih =>
      intro from? offset hasc hfrom
      have hasc' := (List.pairwise_cons.mp hasc).2
      have hbegins := beginsBefore_of_pairwise hasc
      rw [candidatesAfter, List.mem_append, List.mem_ite_nil_right, List.mem_singleton,
        ih (some t.instant) t.offset hasc' hbegins, hasBegun_some, Bool.and_eq_true,
        decide_eq_true_iff]
      -- an instant belongs to this segment or to a later one, by the change that ends it
      constructor
      · rintro (⟨⟨hbegun, hlt⟩, rfl⟩ | ⟨hle, hc, hoffset⟩)
        · rw [offsetAfter_of_lt hlt]
          exact ⟨hbegun, eq_candidate_iff.mp rfl⟩
        · rw [offsetAfter_of_le hle]
          exact ⟨hasBegun_of_le hfrom hle, hc, hoffset⟩
      · rintro ⟨hbegun, hc, hoffset⟩
        by_cases hlt : c.instant < t.instant
        · rw [offsetAfter_of_lt hlt] at hoffset
          obtain rfl := eq_candidate_iff.mpr ⟨hc, hoffset⟩
          exact Or.inl ⟨⟨hbegun, hlt⟩, rfl⟩
        · have hle : t.instant ≤ c.instant := not_lt.mp hlt
          rw [offsetAfter_of_le hle] at hoffset
          exact Or.inr ⟨hle, hc, hoffset⟩

/-- **CANDIDATES** are the instants at which a civil time is shown. -/
theorem mem_candidates_iff {z : Zone} {civil : Int} {c : Candidate} :
    c ∈ z.candidates civil ↔ c.instant ∈ z.instants civil ∧ c.offset = z.offsetAt c.instant := by
  have hfrom : BeginsBefore none z.transitions := by
    rintro start ⟨⟩
  rw [candidates, mem_candidatesAfter _ _ _ z.ascending hfrom, mem_instants, offsetAt]
  constructor
  · rintro ⟨-, hc, hoffset⟩
    rw [← hoffset]
    exact ⟨hc, rfl⟩
  · rintro ⟨hc, hoffset⟩
    rw [← hoffset] at hc
    exact ⟨rfl, hc, hoffset⟩

/-- The candidates of the later segments ascend, as each lies in a segment of its
    own. -/
theorem pairwise_candidatesAfter {civil : Int} :
    ∀ (later : List Transition) (from? : Option Int) (offset : Int),
      (later.map Transition.instant).Pairwise (· ≤ ·) →
        (candidatesAfter civil from? offset later).Pairwise (·.instant < ·.instant) := by
  intro later
  induction later with
  | nil =>
      intro from? offset _
      rw [candidatesAfter]
      split
      · exact List.pairwise_singleton _ _
      · exact List.Pairwise.nil
  | cons t later ih =>
      intro from? offset hasc
      have hasc' := (List.pairwise_cons.mp hasc).2
      have hbegins := beginsBefore_of_pairwise hasc
      rw [candidatesAfter, List.pairwise_append]
      refine ⟨?_, ih _ _ hasc', ?_⟩
      · split
        · exact List.pairwise_singleton _ _
        · exact List.Pairwise.nil
      · intro c hc d hd
        -- this segment ends at the change, and the later ones begin there
        rw [List.mem_ite_nil_right, List.mem_singleton, Bool.and_eq_true,
          decide_eq_true_iff] at hc
        obtain ⟨⟨-, hlt⟩, rfl⟩ := hc
        have hbegun := ((mem_candidatesAfter later _ _ hasc' hbegins).mp hd).1
        exact hlt.trans_le (hasBegun_some.mp hbegun)

/-- **IN ORDER**: the candidates of a civil time ascend. -/
theorem pairwise_candidates (z : Zone) (civil : Int) :
    (z.candidates civil).Pairwise (·.instant < ·.instant) :=
  pairwise_candidatesAfter _ _ _ z.ascending

/-- A civil time has no candidate exactly when it is never shown. -/
theorem candidates_eq_nil_iff {z : Zone} {civil : Int} :
    z.candidates civil = [] ↔ z.instants civil = ∅ := by
  rw [List.eq_nil_iff_forall_not_mem, Set.eq_empty_iff_forall_notMem]
  constructor
  · intro h u hu
    exact h ⟨u, z.offsetAt u⟩ (mem_candidates_iff.mpr ⟨hu, rfl⟩)
  · intro h c hc
    exact h c.instant (mem_candidates_iff.mp hc).1

/-- The first candidate has the earliest instant. -/
theorem isLeast_of_candidates {z : Zone} {civil : Int} {first : Candidate}
    {more : List Candidate} (h : z.candidates civil = first :: more) :
    IsLeast (z.instants civil) first.instant := by
  have hasc := z.pairwise_candidates civil
  have hmem : first ∈ z.candidates civil := by
    rw [h]
    exact List.mem_cons_self ..
  refine ⟨(mem_candidates_iff.mp hmem).1, ?_⟩
  intro u hu
  have hcandidate : ⟨u, z.offsetAt u⟩ ∈ z.candidates civil := mem_candidates_iff.mpr ⟨hu, rfl⟩
  rw [h] at hasc hcandidate
  rcases List.mem_cons.mp hcandidate with rfl | hmore
  · exact le_refl _
  · exact ((List.pairwise_cons.mp hasc).1 _ hmore).le

/-- The last candidate has the latest instant. -/
theorem isGreatest_of_candidates {z : Zone} {civil : Int} {first : Candidate}
    {more : List Candidate} (h : z.candidates civil = first :: more) :
    IsGreatest (z.instants civil) (more.getLastD first).instant := by
  have hmem : more.getLastD first ∈ z.candidates civil := by
    rw [h]
    exact List.getLastD_mem_cons
  refine ⟨(mem_candidates_iff.mp hmem).1, ?_⟩
  intro u hu
  have hcandidate : ⟨u, z.offsetAt u⟩ ∈ z.candidates civil := mem_candidates_iff.mpr ⟨hu, rfl⟩
  have hle : ((z.candidates civil).map Candidate.instant).Pairwise (· ≤ ·) :=
    List.pairwise_map.mpr ((z.pairwise_candidates civil).imp le_of_lt)
  rw [h] at hcandidate hle
  have hlast := hle.rel_getLast (List.mem_map_of_mem hcandidate)
  rw [List.getLast_map, List.getLast_eq_getLastD] at hlast
  exact hlast

/-! ## Settled zones -/

/-- Every change that sets the clock back is followed by no other change until
    the clock has caught up; `offset` is in force before the first change. -/
def SettlesAfter (offset : Int) : List Transition → Prop
  | [] => True
  | t :: later =>
      (∀ next ∈ later, t.offset < offset → t.instant + (offset - t.offset) ≤ next.instant) ∧
        SettlesAfter t.offset later

/-- A clock that is set back catches up before it changes again. -/
def Settles (z : Zone) : Prop := SettlesAfter z.base z.transitions

/-- At a later change the clock is not behind what it showed before an earlier
    one, since it has caught up or was not set back. -/
theorem SettlesAfter.caught_up {offset : Int} {t next : Transition} {later : List Transition}
    (hsettles : SettlesAfter offset (t :: later))
    (hasc : ((t :: later).map Transition.instant).Pairwise (· ≤ ·)) (hnext : next ∈ later) :
    t.instant + offset ≤ next.instant + t.offset := by
  have hle := (List.pairwise_cons.mp hasc).1 next.instant (List.mem_map_of_mem hnext)
  have hback := hsettles.1 next hnext
  omega

/-- From a segment on, at whose changes the clock is past some civil time, this
    time is shown after every instant with a clock that is not past it. -/
theorem exists_instant_of_past {civil c : Int} :
    ∀ (later : List Transition) (offset : Int), SettlesAfter offset later →
      (later.map Transition.instant).Pairwise (· ≤ ·) →
        (∀ t ∈ later, civil < t.instant + offset) → c + offsetAfter c offset later ≤ civil →
          ∃ u, c ≤ u ∧ u + offsetAfter u offset later = civil := by
  intro later
  induction later with
  | nil =>
      intro offset _ _ _ hc
      rw [offsetAfter] at hc
      refine ⟨civil - offset, by omega, ?_⟩
      rw [offsetAfter]
      omega
  | cons t later ih =>
      intro offset hsettles hasc hpast hc
      have hbefore := hpast t (List.mem_cons_self ..)
      by_cases hlt : c < t.instant
      · -- the clock runs on to the civil time before the change
        rw [offsetAfter_of_lt hlt] at hc
        refine ⟨civil - offset, by omega, ?_⟩
        rw [offsetAfter_of_lt (by omega)]
        omega
      · have hle : t.instant ≤ c := not_lt.mp hlt
        rw [offsetAfter_of_le hle] at hc
        have hpast' : ∀ next ∈ later, civil < next.instant + t.offset := by
          intro next hnext
          exact hbefore.trans_le (hsettles.caught_up hasc hnext)
        obtain ⟨u, hcu, hu⟩ := ih t.offset hsettles.2 (List.pairwise_cons.mp hasc).2 hpast' hc
        exact ⟨u, hcu, by rw [offsetAfter_of_le (hle.trans hcu)]; exact hu⟩

/-- From a segment on, the clock shows again what it showed before an instant at which
    it is not past it. -/
theorem exists_later_instantAfter {v c : Int} (hvc : v < c) :
    ∀ (later : List Transition) (offset : Int), SettlesAfter offset later →
      (later.map Transition.instant).Pairwise (· ≤ ·) →
        c + offsetAfter c offset later ≤ v + offsetAfter v offset later →
          ∃ u, c ≤ u ∧ u + offsetAfter u offset later = v + offsetAfter v offset later := by
  intro later
  induction later with
  | nil =>
      intro offset _ _ hle
      rw [offsetAfter, offsetAfter] at hle
      omega
  | cons t later ih =>
      intro offset hsettles hasc hle
      have hasc' := (List.pairwise_cons.mp hasc).2
      rcases lt_or_ge c t.instant with hc | hc
      · -- no change lies between the two instants
        rw [offsetAfter_of_lt hc, offsetAfter_of_lt (hvc.trans hc)] at hle
        omega
      · rw [offsetAfter_of_le hc] at hle
        have hback : ∃ u, c ≤ u ∧ u + offsetAfter u t.offset later =
            v + offsetAfter v offset (t :: later) := by
          rcases lt_or_ge v t.instant with hv | hv
          · rw [offsetAfter_of_lt hv] at hle ⊢
            refine exists_instant_of_past later t.offset hsettles.2 hasc' ?_ hle
            intro next hnext
            have hcaught := hsettles.caught_up hasc hnext
            omega
          · rw [offsetAfter_of_le hv] at hle ⊢
            exact ih t.offset hsettles.2 hasc' hle
        obtain ⟨u, hcu, hu⟩ := hback
        exact ⟨u, hcu, by rw [offsetAfter_of_le (hc.trans hcu)]; exact hu⟩

/-- **NO TIME IS LOST**: in a settled zone, what the clock showed earlier it shows
    again from an instant on at which it is not past it. -/
theorem exists_later_instant {z : Zone} (hz : z.Settles) {v c : Int} (hvc : v < c)
    (hle : c + z.offsetAt c ≤ v + z.offsetAt v) :
    ∃ u, c ≤ u ∧ u ∈ z.instants (v + z.offsetAt v) :=
  exists_later_instantAfter hvc z.transitions z.base hz z.ascending hle

/-! ## Whole minutes -/

/-- All offsets and all instants of changes are whole minutes. -/
structure WholeMinutes (z : Zone) : Prop where
  base : z.base % 60 = 0
  transitions : ∀ t ∈ z.transitions, t.instant % 60 = 0 ∧ t.offset % 60 = 0

/-- From a segment on, whole offsets that change at whole minutes stay so inside a
    minute. -/
theorem offsetAfter_whole {u : Int} :
    ∀ (later : List Transition) (offset : Int), offset % 60 = 0 →
      (∀ t ∈ later, t.instant % 60 = 0 ∧ t.offset % 60 = 0) →
        offsetAfter u offset later % 60 = 0 ∧
          offsetAfter (u - u % 60) offset later = offsetAfter u offset later := by
  intro later
  induction later with
  | nil => intro offset h _; exact ⟨h, rfl⟩
  | cons t later ih =>
      intro offset h hall
      obtain ⟨⟨hinstant, hoffset⟩, hlater⟩ := List.forall_mem_cons.mp hall
      rcases lt_or_ge u t.instant with hu | hu
      · rw [offsetAfter_of_lt hu, offsetAfter_of_lt (by omega)]
        exact ⟨h, rfl⟩
      · -- the change is a whole minute, so the minute of `u` does not begin before it
        rw [offsetAfter_of_le hu, offsetAfter_of_le (by omega)]
        exact ih t.offset hoffset hlater

/-- Inside a minute the offset does not change, and it is a whole minute. -/
theorem WholeMinutes.offsetAt {z : Zone} (hz : z.WholeMinutes) (u : Int) :
    z.offsetAt u % 60 = 0 ∧ z.offsetAt (u - u % 60) = z.offsetAt u :=
  offsetAfter_whole z.transitions z.base hz.base hz.transitions

end Zone

end CronCalendar
