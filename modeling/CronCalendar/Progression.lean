import CronCalendar.Numeral

/-!
# Progressions — every `step`-th number from a start to a stop

A progression hands out its numbers one by one. It ends at the first number above its stop, and
also where the following number would leave the sixteen bits that a field number has.

`mem_toList` says that nothing outside the stretch is handed out, `pairwise_toList` that the
numbers ascend.
-/

namespace CronCalendar

/-- The size of a step, which is never zero. -/
abbrev Step := { n : Nat // 0 < n }

/-- The numbers of a progression that are still to come. -/
structure Progression where
  /-- The candidate for the next number; none once the sixteen bits are exhausted. -/
  upcoming : Option Nat
  stop : Nat
  step : Step
deriving DecidableEq

namespace Progression

/-- The progression `start`, `start + step`, … up to and including `stop`. -/
def ofStep (start stop : Nat) (step : Step) : Progression := ⟨some start, stop, step⟩

/-- The progression for a step given as a plain number; a step of zero leads nowhere. -/
def ofStep? (start stop step : Nat) : Option Progression :=
  if h : 0 < step then some (ofStep start stop ⟨step, h⟩) else none

/-- The sum of two field numbers, if it is a field number. -/
def sum? (a b : Nat) : Option Nat :=
  if a + b ≤ Numeral.fieldLimit then some (a + b) else none

/-- Hands out the next number. A progression that has ended stays as it is. -/
def next (p : Progression) : Option Nat × Progression :=
  match p.upcoming with
  | none => (none, p)
  | some v => if v ≤ p.stop then (some v, { p with upcoming := sum? v p.step }) else (none, p)

/-- A bound on how many numbers are still to come. -/
def remaining (p : Progression) : Nat :=
  match p.upcoming with
  | none => 0
  | some v => p.stop + 1 - v

/-- A number that is handed out leaves less to hand out. -/
theorem remaining_next {p q : Progression} {v : Nat} (h : p.next = (some v, q)) :
    q.remaining < p.remaining := by
  obtain ⟨upcoming, stop, step, hstep⟩ := p
  cases upcoming with
  | none => simp [next] at h
  | some w =>
    simp only [next] at h
    split at h
    · next hle =>
      simp only [Prod.mk.injEq, Option.some.injEq] at h
      obtain ⟨-, rfl⟩ := h
      simp only [remaining, sum?]
      by_cases hs : w + step ≤ Numeral.fieldLimit
      · simp only [hs, if_true]; omega
      · simp only [hs, if_false]; omega
    · simp at h

/-- All numbers still to come, in order. -/
def toList (p : Progression) : List Nat :=
  match _h : p.next with
  | (none, _) => []
  | (some v, q) => v :: q.toList
termination_by p.remaining
decreasing_by exact remaining_next _h

theorem toList_of_next_none {p q : Progression} (h : p.next = (none, q)) : p.toList = [] := by
  rw [toList]
  split <;> simp_all

theorem toList_of_next_some {p q : Progression} {v : Nat} (h : p.next = (some v, q)) :
    p.toList = v :: q.toList := by
  rw [toList]
  split <;> simp_all

theorem toList_of_none {p : Progression} (h : p.upcoming = none) : p.toList = [] :=
  toList_of_next_none (q := p) (by simp [next, h])

/-- A candidate that is not above the stop is the first number, and the next candidate is a step
later. -/
theorem toList_of_some {p : Progression} {v : Nat} (h : p.upcoming = some v) :
    p.toList =
      if v ≤ p.stop then v :: toList { p with upcoming := sum? v p.step } else [] := by
  split
  · next hv => exact toList_of_next_some (by simp [next, h, hv])
  · next hv => exact toList_of_next_none (q := p) (by simp [next, h, hv])

/-- Every number handed out lies between the candidate and the stop. -/
theorem mem_toList {p : Progression} {x : Nat} (hx : x ∈ p.toList) :
    ∃ v, p.upcoming = some v ∧ v ≤ x ∧ x ≤ p.stop := by
  induction hn : p.remaining using Nat.strongRecOn generalizing p with
  | ind n ih =>
    cases hu : p.upcoming with
    | none => simp [toList_of_none hu] at hx
    | some v =>
      rw [toList_of_some hu] at hx
      split at hx
      · next hle =>
        refine ⟨v, rfl, ?_⟩
        rcases List.mem_cons.mp hx with rfl | hx
        · exact ⟨Nat.le_refl _, hle⟩
        · have hlt : Progression.remaining { p with upcoming := sum? v p.step } < n := by
            rw [← hn]
            exact remaining_next (v := v) (by simp [next, hu, hle])
          obtain ⟨w, hw, hwx, hxs⟩ := ih _ hlt hx rfl
          have hstep := p.step.2
          simp only [sum?] at hw
          split at hw <;> simp at hw
          exact ⟨by omega, hxs⟩
      · simp at hx

/-- The numbers ascend. -/
theorem pairwise_toList (p : Progression) : p.toList.Pairwise (· < ·) := by
  induction hn : p.remaining using Nat.strongRecOn generalizing p with
  | ind n ih =>
    cases hu : p.upcoming with
    | none => simp [toList_of_none hu]
    | some v =>
      rw [toList_of_some hu]
      split
      · next hle =>
        have hlt : Progression.remaining { p with upcoming := sum? v p.step } < n := by
          rw [← hn]
          exact remaining_next (v := v) (by simp [next, hu, hle])
        refine List.pairwise_cons.mpr ⟨fun x hx => ?_, ih _ hlt _ rfl⟩
        obtain ⟨w, hw, hwx, -⟩ := mem_toList hx
        have hstep := p.step.2
        simp only [sum?] at hw
        split at hw <;> simp at hw
        omega
      · exact List.Pairwise.nil

/-- A progression whose start is not above its stop is not empty. -/
theorem toList_ofStep_ne_nil {start stop : Nat} (step : Step) (h : start ≤ stop) :
    (ofStep start stop step).toList ≠ [] := by
  rw [toList_of_some (v := start) rfl]
  simp [ofStep, h]

/-- No number is below the start or above the stop. -/
theorem bounds_of_mem_ofStep {start stop v : Nat} {step : Step}
    (h : v ∈ (ofStep start stop step).toList) : start ≤ v ∧ v ≤ stop := by
  obtain ⟨w, hw, hwv, hvs⟩ := mem_toList h
  obtain rfl := Option.some.inj hw
  exact ⟨hwv, hvs⟩

end Progression

end CronCalendar
