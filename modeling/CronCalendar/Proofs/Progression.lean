import CronCalendar.Progression
import Mathlib.Data.List.Basic
import Mathlib.Logic.Function.Iterate

/-!
# Progressions — the numbers that are handed out

A progression hands out `start + k * step` for every `k` that keeps it at or
below the stop. The end at the sixteen bits removes none of them as long as the
stop is a field number: a number that does not fit is above the stop as well. So
each place of the list of all numbers is known (`getElem?_toList`), and calls go
through this list one by one and then stand still (`next_after`, `next_after_of_length_le`).
-/

namespace CronCalendar.Progression

/-- A sum is there when it is within the limit. -/
theorem sum?_eq_some_iff {a b n : Nat} :
    sum? a b = some n ↔ a + b = n ∧ n ≤ Numeral.fieldLimit := by
  rw [sum?]
  by_cases h : a + b ≤ Numeral.fieldLimit
  · rw [if_pos h, Option.some.injEq]
    exact ⟨fun heq => ⟨heq, heq ▸ h⟩, fun heq => heq.1⟩
  · rw [if_neg h]
    constructor
    · intro hn
      cases hn
    · rintro ⟨rfl, hle⟩
      exact absurd hle h

/-- A sum is missing when it is above the limit. -/
theorem sum?_eq_none_iff {a b : Nat} : sum? a b = none ↔ Numeral.fieldLimit < a + b := by
  rw [sum?, ite_eq_right_iff, ← Nat.not_le]
  simp

/-! ## The list of all numbers -/

/-- **EVERY PLACE**: behind a candidate stands the number that is so many steps
    later, unless it is above the stop. -/
theorem getElem?_toList (k : Nat) :
    ∀ {p : Progression} {v : Nat}, p.upcoming = some v → p.stop ≤ Numeral.fieldLimit →
      p.toList[k]? = if v + k * p.step ≤ p.stop then some (v + k * p.step) else none := by
  induction k with
  | zero =>
      intro p v hu _
      rw [toList_of_some hu, Nat.zero_mul, Nat.add_zero]
      split <;> rfl
  | succ k ih =>
      intro p v hu hstop
      rw [toList_of_some hu, Nat.succ_mul]
      by_cases hle : v ≤ p.stop
      · rw [if_pos hle, List.getElem?_cons_succ]
        cases hs : sum? v p.step with
        | some w =>
            obtain ⟨rfl, -⟩ := sum?_eq_some_iff.mp hs
            have hplace : v + p.step + k * p.step = v + (k * p.step + p.step) := by omega
            rw [← hplace]
            exact ih (p := ⟨some (v + p.step), p.stop, p.step⟩) rfl hstop
        | none =>
            -- the next number does not fit, so it is above the stop
            have hover := sum?_eq_none_iff.mp hs
            rw [toList_of_none rfl, if_neg (by omega)]
            rfl
      · rw [if_neg hle, if_neg (by omega)]
        rfl

/-- The numbers handed out are those a whole number of steps after the candidate,
    up to the stop. -/
theorem mem_toList_iff {p : Progression} (hstop : p.stop ≤ Numeral.fieldLimit) {x : Nat} :
    x ∈ p.toList ↔ ∃ v, p.upcoming = some v ∧ ∃ k, x = v + k * p.step ∧ x ≤ p.stop := by
  cases hu : p.upcoming with
  | none =>
      rw [toList_of_none hu]
      constructor
      · intro h
        cases h
      · rintro ⟨v, h, -⟩
        cases h
  | some v =>
      rw [List.mem_iff_getElem?]
      constructor
      · rintro ⟨k, hk⟩
        rw [getElem?_toList k hu hstop, Option.ite_none_right_eq_some] at hk
        obtain ⟨hle, hx⟩ := hk
        obtain rfl := Option.some.inj hx
        exact ⟨v, rfl, k, rfl, hle⟩
      · rintro ⟨w, hw, k, rfl, hle⟩
        obtain rfl := Option.some.inj hw
        exact ⟨k, by rw [getElem?_toList k hu hstop, if_pos hle]⟩

/-- The number of numbers from `start` to `stop`. -/
def count (start stop : Nat) (step : Step) : Nat := (stop + step - start) / step

/-- The places of the numbers are those below the count. -/
theorem lt_count_iff {start stop k : Nat} (step : Step) :
    k < count start stop step ↔ start + k * step ≤ stop := by
  have hstep := step.2
  rw [count, ← Nat.succ_le_iff, Nat.le_div_iff_mul_le hstep, Nat.succ_mul]
  omega

/-- The list of a progression is an arithmetic one, up to the count. -/
theorem toList_ofStep {start stop : Nat} (step : Step) (hstop : stop ≤ Numeral.fieldLimit) :
    (ofStep start stop step).toList =
      (List.range (count start stop step)).map fun k => start + k * step := by
  refine List.ext_getElem? fun k => ?_
  rw [getElem?_toList k rfl hstop, List.getElem?_map]
  by_cases hle : start + k * step ≤ stop
  · rw [List.getElem?_range ((lt_count_iff step).mpr hle)]
    exact if_pos hle
  · have hout : (List.range (count start stop step))[k]? = none := by
      rw [List.getElem?_eq_none_iff, List.length_range, ← Nat.not_lt, lt_count_iff]
      exact hle
    rw [hout]
    exact if_neg hle

/-! ## One call after the other -/

/-- What is left of a progression after `n` calls. -/
def after (n : Nat) (p : Progression) : Progression := (fun q : Progression => q.next.2)^[n] p

/-- A call that hands out nothing changes nothing. -/
theorem eq_of_next_none {p q : Progression} (h : p.next = (none, q)) : q = p := by
  rw [next.eq_def] at h
  split at h
  · exact (congrArg Prod.snd h).symm
  · split at h
    · cases congrArg Prod.fst h
    · exact (congrArg Prod.snd h).symm

/-- A call hands out the first number and leaves the others. -/
theorem next_eq_toList (p : Progression) :
    p.next.1 = p.toList.head? ∧ p.next.2.toList = p.toList.tail := by
  rcases h : p.next with ⟨_ | v, q⟩
  · rw [eq_of_next_none h, toList_of_next_none h]
    exact ⟨rfl, rfl⟩
  · rw [toList_of_next_some h]
    exact ⟨rfl, rfl⟩

/-- So many calls leave the list without so many numbers. -/
theorem toList_after (n : Nat) : ∀ p : Progression, (after n p).toList = p.toList.drop n := by
  induction n with
  | zero => intro p; rfl
  | succ n ih =>
      intro p
      rw [after, Function.iterate_succ_apply, ← after, ih, (next_eq_toList p).2, List.drop_tail]

/-- What is handed out after `n` calls stands at the place `n`. -/
theorem next_after (n : Nat) (p : Progression) : (after n p).next.1 = p.toList[n]? := by
  rw [(next_eq_toList _).1, toList_after, List.head?_drop]

/-- Where no number is left, a call hands out nothing and changes nothing. -/
theorem next_of_toList_eq_nil {p : Progression} (h : p.toList = []) : p.next = (none, p) := by
  rcases hn : p.next with ⟨_ | v, q⟩
  · rw [eq_of_next_none hn]
  · rw [toList_of_next_some hn] at h
    cases h

/-- **THE END LASTS**: once all numbers are handed out, a call hands out nothing and
    the progression stays as it is. -/
theorem next_after_of_length_le {p : Progression} {n : Nat} (h : p.toList.length ≤ n) :
    (after n p).next = (none, after p.toList.length p) := by
  obtain ⟨m, rfl⟩ := Nat.exists_eq_add_of_le' h
  have hnil : (after p.toList.length p).toList = [] := by
    rw [toList_after, List.drop_length]
  have hnext : (after p.toList.length p).next.2 = after p.toList.length p := by
    rw [next_of_toList_eq_nil hnil]
  have hsame : after (m + p.toList.length) p = after p.toList.length p := by
    rw [after, Function.iterate_add_apply]
    exact Function.iterate_fixed hnext m
  rw [hsame, next_of_toList_eq_nil hnil]

/-- **A STEPPED PROGRESSION** up to a field number hands out, call by call, the numbers
    `start + k * step` up to the stop, whose number is finite, and then nothing for
    ever. That its numbers have to fit in sixteen bits loses none of them. -/
theorem ofStep?_handsOut {start stop step : Nat} (hstep : 0 < step)
    (hstop : stop ≤ Numeral.fieldLimit) :
    ∃ p count, ofStep? start stop step = some p ∧
      (∀ k, k < count ↔ start + k * step ≤ stop) ∧
      (p.toList = (List.range count).map fun k => start + k * step) ∧
      p.toList.Pairwise (· < ·) ∧ (p.toList = [] ↔ stop < start) ∧
      (∀ n, (after n p).next.1 =
        if start + n * step ≤ stop then some (start + n * step) else none) ∧
      ∀ n, count ≤ n → (after n p).next = (none, after count p) := by
  have hlist : (ofStep start stop ⟨step, hstep⟩).toList = _ := toList_ofStep _ hstop
  have hlength : (ofStep start stop ⟨step, hstep⟩).toList.length =
      count start stop ⟨step, hstep⟩ := by
    rw [hlist, List.length_map, List.length_range]
  refine ⟨ofStep start stop ⟨step, hstep⟩, count start stop ⟨step, hstep⟩, dif_pos hstep,
    fun k => lt_count_iff _, hlist, pairwise_toList _, ?_, fun n => ?_, fun n hn => ?_⟩
  · have hfirst : 0 < count start stop ⟨step, hstep⟩ ↔ start + 0 * step ≤ stop := lt_count_iff _
    rw [← List.length_eq_zero_iff, hlength]
    omega
  · rw [next_after]
    exact getElem?_toList n rfl hstop
  · rw [← hlength] at hn ⊢
    exact next_after_of_length_le hn

/-- At the greatest field number the number after the last one does not fit. -/
theorem ofStep?_handsOut_upToLimit :
    (0 < 2 ∧ 65535 ≤ Numeral.fieldLimit ∧ sum? 65535 2 = none) ∧
      ∃ p, ofStep? 65531 65535 2 = some p ∧ p.toList = [65531, 65533, 65535] ∧
        (after 2 p).next.1 = some 65535 ∧ ∀ n, 3 ≤ n → (after n p).next = (none, after 3 p) := by
  refine ⟨by decide, ?_⟩
  obtain ⟨p, count, hp, hcount, hlist, -, -, hcalls, hend⟩ :=
    @ofStep?_handsOut 65531 65535 2 (by decide) (by decide)
  obtain rfl : count = 3 := by
    have hsecond := hcount 2
    have hthird := hcount 3
    omega
  exact ⟨p, hp, hlist, hcalls 2, hend⟩

end CronCalendar.Progression
