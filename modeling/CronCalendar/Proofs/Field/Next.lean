import CronCalendar.Proofs.Occurrence.Checked

/-!
# Next values — a look-up has exactly one outcome, and it is never refused

What comes after a value among those up to a limit is said without a look-up:
nothing is up to the limit, or the least value in between follows, or there is no
value in between and the least value of all comes again (`ComesNext`). Whatever
the value and the limit are, also if they are the wrong way round or outside the
bounds of the field, one of the three holds and no other (`ComesNext.unique`), and
the look-up finds it (`nextAfter_eq_iff`).
-/

namespace CronCalendar.Values

variable {b : Bounds} {s : Values b} {current limit : Nat}

/-- What comes after a value among those not above a limit. -/
inductive ComesNext (s : Values b) (current limit : Nat) : Option Next → Prop where
  | nothing : (∀ w ∈ s, limit < w) → ComesNext s current limit none
  | following {v : Nat} : IsLeast {w | w ∈ s ∧ current < w ∧ w ≤ limit} v →
      ComesNext s current limit (some (.following v))
  | wrapped {f : Nat} : (¬ ∃ w ∈ s, current < w ∧ w ≤ limit) → IsLeast {w | w ∈ s} f →
      f ≤ limit → ComesNext s current limit (some (.wrapped f))

/-- **EXCLUSIVE**: no two outcomes hold of the same set, value and limit. -/
theorem ComesNext.unique {n m : Option Next} (hn : ComesNext s current limit n)
    (hm : ComesNext s current limit m) : n = m := by
  cases hn with
  | nothing hall =>
      cases hm with
      | nothing _ => rfl
      | following hv => exact absurd hv.1.2.2 (not_le.mpr (hall _ hv.1.1))
      | wrapped _ hf hle => exact absurd hle (not_le.mpr (hall _ hf.1))
  | following hv =>
      cases hm with
      | nothing hall => exact absurd hv.1.2.2 (not_le.mpr (hall _ hv.1.1))
      | following hv' => rw [hv.unique hv']
      | wrapped hnone _ _ => exact absurd ⟨_, hv.1⟩ hnone
  | wrapped hnone hf hle =>
      cases hm with
      | nothing hall => exact absurd hle (not_le.mpr (hall _ hf.1))
      | following hv => exact absurd ⟨_, hv.1⟩ hnone
      | wrapped _ hf' _ => rw [hf.unique hf']

theorem isLeast_first (s : Values b) : IsLeast {w | w ∈ s} s.first := ⟨s.first_mem, s.first_le⟩

/-- **EXHAUSTIVE**: what the look-up finds is one of the outcomes. -/
theorem comesNext_nextAfter (s : Values b) (current limit : Nat) :
    ComesNext s current limit (s.nextAfter current limit) := by
  rcases s.nextAfter_cases current limit with ⟨h, hall⟩ | ⟨v, h, hleast⟩ | ⟨h, hle, hall⟩
  · rw [h]
    exact .nothing hall
  · rw [h]
    exact .following hleast
  · rw [h]
    refine .wrapped ?_ s.isLeast_first hle
    rintro ⟨w, hw, hlt, hwle⟩
    exact absurd hwle (not_le.mpr (hall w hw hlt))

/-- The look-up finds just what comes next. -/
theorem nextAfter_eq_iff {n : Option Next} :
    s.nextAfter current limit = n ↔ ComesNext s current limit n := by
  constructor
  · rintro rfl
    exact s.comesNext_nextAfter current limit
  · exact (s.comesNext_nextAfter current limit).unique

/-- No set is empty and all values are up to the high bound, so up to there
    something comes next. -/
theorem nextAfter_high (s : Values b) (current : Nat) :
    s.nextAfter current b.high = some (s.nextOrWrap current) := by
  cases h : s.nextAfter current b.high with
  | none =>
      obtain ⟨hall⟩ := nextAfter_eq_iff.mp h
      exact absurd (s.within _ s.first_mem).2 (not_le.mpr (hall _ s.first_mem))
  | some n => rw [nextOrWrap, h, Option.getD_some]

/-- **THE NEXT VALUE**: for every set of values of a field, every value and every limit,
    the look-up says that nothing is up to the limit, or that the least value in
    between follows, or that the first value comes again, each exactly when it is
    so. It asks for nothing between bounds that are the wrong way round, and the
    look-up among all values needs no fallback: it finds something, as there is a
    first value. -/
theorem nextAfter_outcomes (s : Values b) (current limit : Nat) :
    (s.nextAfter current limit = none ↔ ∀ w ∈ s, limit < w) ∧
      (∀ v, s.nextAfter current limit = some (.following v) ↔
        IsLeast {w | w ∈ s ∧ current < w ∧ w ≤ limit} v) ∧
      (∀ f, s.nextAfter current limit = some (.wrapped f) ↔
        (¬ ∃ w ∈ s, current < w ∧ w ≤ limit) ∧ IsLeast {w | w ∈ s} f ∧ f ≤ limit) ∧
      Checked.nextAfter s current limit = .ok (s.nextAfter current limit) ∧
      Checked.nextOrWrap s current = .ok (s.nextOrWrap current) ∧
      s.nextAfter current b.high = some (s.nextOrWrap current) ∧
      s.toList.head? = some s.first := by
  refine ⟨?_, fun v => ?_, fun f => ?_, Checked.nextAfter_eq s current limit,
    Checked.nextOrWrap_eq s current, s.nextAfter_high current,
    List.head?_eq_some_head s.nonempty⟩
  · rw [nextAfter_eq_iff]
    constructor
    · rintro ⟨hall⟩
      exact hall
    · exact .nothing
  · rw [nextAfter_eq_iff]
    constructor
    · rintro (_ | hv)
      exact hv
    · exact .following
  · rw [nextAfter_eq_iff]
    constructor
    · rintro (_ | _ | ⟨hnone, hf, hle⟩)
      exact ⟨hnone, hf, hle⟩
    · rintro ⟨hnone, hf, hle⟩
      exact .wrapped hnone hf hle

end CronCalendar.Values
