import CronCalendar.Field
import CronCalendar.Progression

/-!
# Values — the non-empty ascending sets that fields select

A set of values is held as its ascending list, inside the bounds of its field. The union of two
sets is one merge of their lists (`mem_union`), and a look-up finds the next value after a given
one: a following value of the same period, or the first value, which starts the next period.
-/

namespace CronCalendar

/-! ## Merging ascending lists -/

namespace Ascending

/-- Merges a list that starts with `x` into another one; `tail` merges what follows `x`. -/
def mergeHead (x : Nat) (tail : List Nat → List Nat) : List Nat → List Nat
  | [] => x :: tail []
  | y :: ys =>
    if x < y then x :: tail (y :: ys)
    else if y < x then y :: mergeHead x tail ys
    else x :: tail ys

/-- Merges two ascending lists; a number that is in both is kept once. -/
def merge : List Nat → List Nat → List Nat
  | [], ys => ys
  | x :: xs, ys => mergeHead x (merge xs) ys

/-- A merge holds the numbers of both lists. -/
theorem mem_merge (xs ys : List Nat) (v : Nat) : v ∈ merge xs ys ↔ v ∈ xs ∨ v ∈ ys := by
  induction xs generalizing ys with
  | nil => simp [merge]
  | cons x xs ih =>
    rw [merge]
    induction ys with
    | nil => simp [mergeHead, ih]
    | cons y ys ihy =>
      rw [mergeHead]
      split
      · simp only [List.mem_cons, ih, or_assoc]
      · split
        · simp only [List.mem_cons, ihy, or_left_comm]
        · have hxy : x = y := by omega
          subst hxy
          simp only [List.mem_cons, ih]
          constructor
          · rintro (h | h | h) <;> simp [h]
          · rintro ((h | h) | h | h) <;> simp [h]

/-- The merge of ascending lists is ascending. -/
theorem pairwise_merge {xs ys : List Nat} (hx : xs.Pairwise (· < ·)) (hy : ys.Pairwise (· < ·)) :
    (merge xs ys).Pairwise (· < ·) := by
  induction xs generalizing ys with
  | nil => simpa [merge] using hy
  | cons x xs ih =>
    obtain ⟨hmin, hxs⟩ := List.pairwise_cons.mp hx
    rw [merge]
    -- the tail of `xs` is merged with every `ys`, so this induction runs inside the first
    induction ys with
    | nil =>
      rw [mergeHead]
      refine List.pairwise_cons.mpr ⟨fun v hv => ?_, ih hxs List.Pairwise.nil⟩
      simp only [mem_merge, List.not_mem_nil, or_false] at hv
      exact hmin v hv
    | cons y ys ihy =>
      obtain ⟨hymin, hys⟩ := List.pairwise_cons.mp hy
      rw [mergeHead]
      split
      · next hlt =>
        refine List.pairwise_cons.mpr ⟨fun v hv => ?_, ih hxs hy⟩
        simp only [mem_merge, List.mem_cons] at hv
        rcases hv with hv | rfl | hv
        · exact hmin v hv
        · exact hlt
        · exact Nat.lt_trans hlt (hymin v hv)
      · split
        · next hlt =>
          refine List.pairwise_cons.mpr ⟨fun v hv => ?_, ihy hys⟩
          have hv' : v ∈ merge (x :: xs) ys := hv
          simp only [mem_merge, List.mem_cons] at hv'
          rcases hv' with (rfl | hv') | hv'
          · exact hlt
          · exact Nat.lt_trans hlt (hmin v hv')
          · exact hymin v hv'
        · -- the heads are the same: only one of them is kept
          have hxy : x = y := by omega
          subst hxy
          refine List.pairwise_cons.mpr ⟨fun v hv => ?_, ih hxs hys⟩
          simp only [mem_merge] at hv
          exact hv.elim (hmin v) (hymin v)

end Ascending

/-! ## Sets of values -/

/-- A non-empty set of numbers inside bounds. -/
structure Values (b : Bounds) where
  toList : List Nat
  ascending : toList.Pairwise (· < ·)
  nonempty : toList ≠ []
  within : ∀ v ∈ toList, b.low ≤ v ∧ v ≤ b.high
deriving DecidableEq

/-- What comes after a value: another value of the same period, or the first value, which starts
the next period. -/
inductive Next where
  | following (n : Nat)
  | wrapped (n : Nat)
deriving DecidableEq

namespace Values

variable {b : Bounds}

/-- A set has the values of its list. -/
instance : Membership Nat (Values b) := ⟨fun s v => v ∈ s.toList⟩

theorem mem_def {s : Values b} {v : Nat} : v ∈ s ↔ v ∈ s.toList := Iff.rfl

/-- Whether a value is in a set can be computed. -/
instance (v : Nat) (s : Values b) : Decidable (v ∈ s) :=
  inferInstanceAs (Decidable (v ∈ s.toList))

/-- Sets compare as their ascending lists, where a shorter list is less than its extensions. -/
instance : Ord (Values b) := ⟨compareOn toList⟩

/-- Every `step`-th value from `start` to `stop`. -/
def stretch (start stop : Nat) (step : Step)
    (h : b.low ≤ start ∧ stop ≤ b.high ∧ start ≤ stop) : Values b where
  toList := (Progression.ofStep start stop step).toList
  ascending := Progression.pairwise_toList _
  nonempty := Progression.toList_ofStep_ne_nil step h.2.2
  within _ hv :=
    ⟨Nat.le_trans h.1 (Progression.bounds_of_mem_ofStep hv).1,
      Nat.le_trans (Progression.bounds_of_mem_ofStep hv).2 h.2.1⟩

/-- All values of either set. -/
def union (s t : Values b) : Values b where
  toList := Ascending.merge s.toList t.toList
  ascending := Ascending.pairwise_merge s.ascending t.ascending
  nonempty h := s.nonempty <| List.eq_nil_iff_forall_not_mem.mpr fun v hv => by
    have := (Ascending.mem_merge s.toList t.toList v).mpr (Or.inl hv)
    simp [h] at this
  within v hv := ((Ascending.mem_merge _ _ v).mp hv).elim (s.within v) (t.within v)

/-- A union has the values of both sets. -/
@[simp] theorem mem_union {s t : Values b} {v : Nat} : v ∈ s.union t ↔ v ∈ s ∨ v ∈ t :=
  Ascending.mem_merge _ _ v

/-- The least value. -/
def first (s : Values b) : Nat := s.toList.head s.nonempty

theorem first_mem (s : Values b) : s.first ∈ s := List.head_mem s.nonempty

/-- The least value above `low` and not above `high`; the stretch between them is not empty. -/
def leastBetween (s : Values b) (low high : Nat) (_ : low < high) : Option Nat :=
  s.toList.find? fun v => low < v && v ≤ high

/-- The next value after `current` among those not above `limit`; none if all are above it. -/
def nextAfter (s : Values b) (current limit : Nat) : Option Next :=
  if s.first ≤ limit then
    match if h : current < limit then s.leastBetween current limit h else none with
    | some v => some (.following v)
    | none => some (.wrapped s.first)
  else none

/-- The next value after `current` among all values. -/
def nextOrWrap (s : Values b) (current : Nat) : Next :=
  (s.nextAfter current b.high).getD (.wrapped s.first)

/-- A least value between two bounds lies between them. -/
theorem leastBetween_bounds {s : Values b} {low high v : Nat} {h : low < high}
    (hv : s.leastBetween low high h = some v) : low < v ∧ v ≤ high := by
  have := List.find?_some hv
  simpa using this

/-- A following value is greater than the current one and not above the limit. -/
theorem bounds_of_nextAfter {s : Values b} {current limit v : Nat}
    (h : s.nextAfter current limit = some (.following v)) : current < v ∧ v ≤ limit := by
  simp only [nextAfter] at h
  split at h
  · split at h
    · next w hw =>
      split at hw
      · simp only [Option.some.injEq, Next.following.injEq] at h
        subst h
        exact leastBetween_bounds hw
      · simp at hw
    · simp at h
  · simp at h

/-- A following value is greater than the current one and inside the bounds. -/
theorem bounds_of_nextOrWrap {s : Values b} {current v : Nat}
    (h : s.nextOrWrap current = .following v) : current < v ∧ v ≤ b.high := by
  simp only [nextOrWrap] at h
  cases hn : s.nextAfter current b.high with
  | none => simp [hn] at h
  | some n =>
    simp only [hn, Option.getD_some] at h
    subst h
    exact bounds_of_nextAfter hn

end Values

end CronCalendar
