import CronCalendar.Field.Values
import Mathlib.Order.Bounds.Basic

/-!
# Looking up the next value — least members, and what a wrap means

Sets are held as ascending lists, so the first member that a search meets is
the least one. A following value is the least member between the current value
and the limit; a wrap hands out the least member of all, and happens only when
no member lies in between.
-/

namespace CronCalendar.Values

variable {b : Bounds}

theorem first_le (s : Values b) : ∀ v ∈ s, s.first ≤ v := by
  intro v hv
  have hasc := s.ascending
  have hfirst : s.toList = s.first :: s.toList.tail := (List.cons_head_tail s.nonempty).symm
  have hmem : v ∈ s.toList := hv
  rw [hfirst] at hasc hmem
  rcases List.mem_cons.mp hmem with rfl | htail
  · exact Nat.le_refl _
  · exact Nat.le_of_lt ((List.pairwise_cons.mp hasc).1 v htail)

/-- In an ascending list the first number with a property is the least. -/
theorem isLeast_of_find? {p : Nat → Bool} {l : List Nat} (hasc : l.Pairwise (· < ·)) {v : Nat}
    (h : l.find? p = some v) : IsLeast {w | w ∈ l ∧ p w = true} v := by
  obtain ⟨hp, before, after, rfl, hbefore⟩ := List.find?_eq_some_iff_append.mp h
  refine ⟨⟨List.mem_append_right _ (List.mem_cons_self ..), hp⟩, ?_⟩
  rintro w ⟨hw, hpw⟩
  rcases List.mem_append.mp hw with hw | hw
  · have hno := hbefore w hw
    rw [hpw] at hno
    cases hno
  · rcases List.mem_cons.mp hw with rfl | hw
    · exact Nat.le_refl _
    · have hrest := (List.pairwise_append.mp hasc).2.1
      exact Nat.le_of_lt ((List.pairwise_cons.mp hrest).1 w hw)

/-- What is found between two bounds is the least value between them. -/
theorem isLeast_leastBetween {s : Values b} {low high v : Nat} {h : low < high}
    (hv : s.leastBetween low high h = some v) :
    IsLeast {w | w ∈ s ∧ low < w ∧ w ≤ high} v := by
  have hleast := isLeast_of_find? s.ascending hv
  simp only [Bool.and_eq_true, decide_eq_true_eq] at hleast
  exact hleast

/-- If nothing is found between two bounds, no value is between them. -/
theorem leastBetween_eq_none {s : Values b} {low high : Nat} {h : low < high}
    (hn : s.leastBetween low high h = none) : ∀ w ∈ s, low < w → high < w := by
  intro w hw hlow
  have hno := List.find?_eq_none.mp hn w hw
  simp only [Bool.and_eq_true, decide_eq_true_eq, not_and, not_le] at hno
  exact hno hlow

/-- **THE THREE OUTCOMES** of a look-up, with what each says about the set. -/
theorem nextAfter_cases (s : Values b) (current limit : Nat) :
    (s.nextAfter current limit = none ∧ ∀ w ∈ s, limit < w) ∨
      (∃ v, s.nextAfter current limit = some (.following v) ∧
        IsLeast {w | w ∈ s ∧ current < w ∧ w ≤ limit} v) ∨
      (s.nextAfter current limit = some (.wrapped s.first) ∧ s.first ≤ limit ∧
        ∀ w ∈ s, current < w → limit < w) := by
  rw [nextAfter]
  by_cases hfirst : s.first ≤ limit
  · rw [if_pos hfirst]
    right
    by_cases hlt : current < limit
    · rw [dif_pos hlt]
      cases hb : s.leastBetween current limit hlt with
      | none => exact Or.inr ⟨rfl, hfirst, leastBetween_eq_none hb⟩
      | some v => exact Or.inl ⟨v, rfl, isLeast_leastBetween hb⟩
    · rw [dif_neg hlt]
      exact Or.inr ⟨rfl, hfirst, fun w _ hw => by omega⟩
  · rw [if_neg hfirst]
    left
    refine ⟨rfl, fun w hw => ?_⟩
    have hle := s.first_le w hw
    omega

/-- Among all values the look-up always finds one, and its fallback is never
    taken. -/
theorem nextOrWrap_cases (s : Values b) (current : Nat) :
    (∃ v, s.nextOrWrap current = .following v ∧ IsLeast {w | w ∈ s ∧ current < w} v) ∨
      (s.nextOrWrap current = .wrapped s.first ∧ ∀ w ∈ s, w ≤ current) := by
  rw [nextOrWrap]
  rcases s.nextAfter_cases current b.high with ⟨-, hall⟩ | ⟨v, h, hmem, hle⟩ | ⟨h, -, hall⟩
  · have hin := (s.within s.first s.first_mem).2
    have hout := hall s.first s.first_mem
    omega
  · rw [h]
    refine Or.inl ⟨v, rfl, ⟨hmem.1, hmem.2.1⟩, ?_⟩
    rintro w ⟨hw, hlt⟩
    exact hle ⟨hw, hlt, (s.within w hw).2⟩
  · rw [h]
    refine Or.inr ⟨rfl, fun w hw => ?_⟩
    have hin := (s.within w hw).2
    by_contra hlt
    have hout := hall w hw (by omega)
    omega

end CronCalendar.Values
