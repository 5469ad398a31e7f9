import CronCalendar.Proofs.Field.Grammar

/-!
# Steps — which texts are steps, and what a large step selects

A step is read like any number of a field, but one that is too large counts as
the greatest field number. This shows in two ways. What is too large is noticed
before the text has been read to its end, so behind such digits anything may
follow, and the text is a step all the same (`exists_parse_iff_steps`). And the
greatest field number is itself a distance between two field numbers, the least
one and the greatest one: over exactly this stretch a step beyond all field
numbers selects the stop as well, and over any other stretch it selects what its
true size selects (`mem_iff_of_numeral_steps`).
-/

namespace CronCalendar

open Numeral

/-! ## The texts of steps -/

/-- Texts with digits that pass the limit before a character is met that is no
    digit. -/
def OverflowsEarly (text : List Char) : Prop :=
  PassesLimit fieldLimit text ∧ ∃ c ∈ unsigned text, c.isDigit = false

/-- A text that passes the limit before a character that is no digit is no numeral. -/
theorem OverflowsEarly.not_isNumeral {text : List Char} (h : OverflowsEarly text) (n : Nat) :
    ¬ IsNumeral text n := by
  intro hn
  obtain ⟨-, c, hc, hdigit⟩ := h
  rw [hn.digits c hc] at hdigit
  cases hdigit

/-- A text that passes the limit is a numeral, or it does so early. -/
theorem isNumeral_or_overflowsEarly {text : List Char} (h : PassesLimit fieldLimit text) :
    (∃ n, IsNumeral text n) ∨ OverflowsEarly text := by
  by_cases hdigits : ∀ c ∈ unsigned text, c.isDigit = true
  · exact Or.inl (exists_isNumeral_iff.mpr ⟨h.unsigned_ne_nil, hdigits⟩)
  · push Not at hdigits
    obtain ⟨c, hc, hdigit⟩ := hdigits
    exact Or.inr ⟨h, c, hc, Bool.eq_false_iff.mpr hdigit⟩

/-- The size that a numeral has as a step is its value, cut off at the limit. -/
theorem stepText_iff_of_isNumeral {text : List Char} {n size : Nat} (h : IsNumeral text n) :
    StepText text size ↔ 0 < n ∧ size = min n fieldLimit := by
  constructor
  · intro hstep
    cases hstep with
    | number hn hpos =>
        obtain rfl : n = size := h.value.symm.trans hn.1.value
        exact ⟨hpos, (min_eq_left hn.2).symm⟩
    | tooLarge hl =>
        have hlt := hl.lt_of_isNumeral h
        exact ⟨(Nat.zero_le _).trans_lt hlt, (min_eq_right hlt.le).symm⟩
  · rintro ⟨hpos, rfl⟩
    rcases le_or_gt n fieldLimit with hle | hlt
    · rw [min_eq_left hle]
      exact .number ⟨h, hle⟩ hpos
    · rw [min_eq_right hlt.le]
      exact .tooLarge (h.passesLimit hlt)

/-- The texts of steps are the positive numerals of any size, and what overflows
    early. -/
theorem exists_stepText_iff {text : List Char} :
    (∃ size, StepText text size) ↔
      (∃ n, 0 < n ∧ IsNumeral text n) ∨ OverflowsEarly text := by
  constructor
  · rintro ⟨size, hstep⟩
    cases hstep with
    | number hn hpos => exact Or.inl ⟨size, hpos, hn.1⟩
    | tooLarge hl =>
        rcases isNumeral_or_overflowsEarly hl with ⟨n, hn⟩ | hearly
        · exact Or.inl ⟨n, (Nat.zero_le _).trans_lt (hl.lt_of_isNumeral hn), hn⟩
        · exact Or.inr hearly
  · rintro (⟨n, hpos, hn⟩ | hearly)
    · exact ⟨_, (stepText_iff_of_isNumeral hn).mpr ⟨hpos, rfl⟩⟩
    · exact ⟨_, .tooLarge hearly.1⟩

/-- The ends that a span names are in order and inside the bounds. -/
structure SpanInside (b : Bounds) (stepped : Bool) (text : List Char) (start stop : Nat) :
    Prop where
  span : SpanText b stepped text start stop
  low_le : b.low ≤ start
  start_le : start ≤ stop
  le_high : stop ≤ b.high

/-- What an accepted part looks like: a span alone, or a span, a slash and a
    step. -/
theorem acceptedPart_iff {b : Bounds} {text : List Char} {start stop size : Nat} :
    AcceptedPart b text start stop size ↔
      SpanInside b false text start stop ∧ size = 1 ∨
        ∃ span step, text = span ++ '/' :: step ∧ '/' ∉ step ∧
          SpanInside b true span start stop ∧ StepText step size := by
  constructor
  · rintro ⟨hpart, hlow, hle, hhigh⟩
    cases hpart with
    | plain hspan => exact Or.inl ⟨⟨hspan, hlow, hle, hhigh⟩, rfl⟩
    | stepped hspan hslash hstep =>
        exact Or.inr ⟨_, _, rfl, hslash, ⟨hspan, hlow, hle, hhigh⟩, hstep⟩
  · rintro (⟨⟨hspan, hlow, hle, hhigh⟩, rfl⟩ |
      ⟨span, step, rfl, hslash, ⟨hspan, hlow, hle, hhigh⟩, hstep⟩)
    · exact ⟨.plain hspan, hlow, hle, hhigh⟩
    · exact ⟨.stepped hspan hslash hstep, hlow, hle, hhigh⟩

namespace Field

/-- **WHICH STEPS ARE ACCEPTED**: a field is read exactly when every part is a span
    inside the bounds, alone or with a slash and a step, and this step is a
    positive numeral of any size. Only a text that overflows early is accepted
    as a step besides, although it is no number. -/
theorem exists_parse_iff_steps (b : Bounds) (text : List Char) :
    (∃ V, parse b text = .ok V) ↔
      ∀ part ∈ text.splitOn ',',
        (∃ start stop, SpanInside b false part start stop) ∨
          ∃ span step, part = span ++ '/' :: step ∧ '/' ∉ step ∧
            (∃ start stop, SpanInside b true span start stop) ∧
            ((∃ n, 0 < n ∧ IsNumeral step n) ∨ OverflowsEarly step) := by
  rw [exists_parse_iff_parts]
  refine forall₂_congr fun part _ => ?_
  rw [exists_partValues_iff]
  constructor
  · rintro ⟨start, stop, size, haccepted⟩
    rcases acceptedPart_iff.mp haccepted with
      ⟨hspan, -⟩ | ⟨span, step, rfl, hslash, hspan, hstep⟩
    · exact Or.inl ⟨start, stop, hspan⟩
    · exact Or.inr ⟨span, step, rfl, hslash, ⟨start, stop, hspan⟩,
        exists_stepText_iff.mp ⟨size, hstep⟩⟩
  · rintro (⟨start, stop, hspan⟩ | ⟨span, step, rfl, hslash, ⟨start, stop, hspan⟩, hstep⟩)
    · exact ⟨start, stop, 1, acceptedPart_iff.mpr (Or.inl ⟨hspan, rfl⟩)⟩
    · obtain ⟨size, hsize⟩ := exists_stepText_iff.mpr hstep
      exact ⟨start, stop, size,
        acceptedPart_iff.mpr (Or.inr ⟨span, step, rfl, hslash, hspan, hsize⟩)⟩

/-- A step of five nines and a letter is accepted, and it is no number. -/
theorem exists_parse_ninesAndLetter :
    (∃ V, parse Field.minute.bounds ['*', '/', '9', '9', '9', '9', '9', 'x'] = .ok V) ∧
      ∀ n, ¬ IsNumeral ['9', '9', '9', '9', '9', 'x'] n := by
  have hearly : OverflowsEarly ['9', '9', '9', '9', '9', 'x'] :=
    ⟨⟨['9', '9', '9', '9', '9'], ['x'], rfl, List.all_eq_true.mp rfl, by decide⟩, 'x',
      by decide, by decide⟩
  refine ⟨exists_parse_iff_parts.mpr ?_, hearly.not_isNumeral⟩
  have hparts : parts ['*', '/', '9', '9', '9', '9', '9', 'x'] =
      [['*', '/', '9', '9', '9', '9', '9', 'x']] := by decide
  rw [hparts, List.forall_mem_singleton, exists_partValues_iff]
  exact ⟨0, 59, fieldLimit, acceptedPart_iff.mpr (Or.inr ⟨['*'], _, rfl, by decide,
    ⟨.every, by decide, by decide, by decide⟩, .tooLarge hearly.1⟩)⟩

/-! ## The values that a step selects -/

/-- Up to a field number, steps that are cut off at the limit reach the same numbers,
    except for the greatest field number, which they reach from the least one. -/
theorem exists_steps_min_iff {start stop n v : Nat} (hstop : stop ≤ fieldLimit) :
    (∃ k, v = start + k * min n fieldLimit ∧ v ≤ stop) ↔
      (∃ k, v = start + k * n ∧ v ≤ stop) ∨
        fieldLimit < n ∧ start = 0 ∧ stop = fieldLimit ∧ v = fieldLimit := by
  have hlimit : fieldLimit = 65535 := rfl
  rcases le_or_gt n fieldLimit with hle | hlt
  · rw [min_eq_left hle]
    constructor
    · exact Or.inl
    · rintro (h | ⟨hlt, -⟩)
      · exact h
      · exact absurd hle (not_le.mpr hlt)
  · rw [min_eq_right hlt.le]
    constructor
    · rintro ⟨k, rfl, hk⟩
      -- one step leads through all field numbers, and two steps lead beyond them
      rcases k with _ | _ | k
      · exact Or.inl ⟨0, by omega, hk⟩
      · exact Or.inr ⟨hlt, by omega, by omega, by omega⟩
      · rw [Nat.add_mul, Nat.add_mul] at hk
        omega
    · rintro (⟨k, rfl, hk⟩ | ⟨-, rfl, rfl, rfl⟩)
      · cases k with
        | zero => exact ⟨0, by omega, hk⟩
        | succ k =>
            rw [Nat.succ_mul] at hk
            omega
      · exact ⟨1, by omega, le_refl _⟩

/-- What is split at the last slash of a stepped part are its span and its step. -/
theorem AcceptedPart.of_slash {b : Bounds} {span step : List Char} {start stop size : Nat}
    (h : AcceptedPart b (span ++ '/' :: step) start stop size) :
    SpanInside b true span start stop ∧ StepText step size := by
  rcases acceptedPart_iff.mp h with ⟨hspan, -⟩ | ⟨span', step', htext, hslash, hspan, hstep⟩
  · exact absurd (List.mem_append_right _ (List.mem_cons_self ..)) hspan.span.not_mem_slash
  · obtain ⟨rfl, -, rfl⟩ :=
      (List.append_cons_inj_of_notMem hspan.span.not_mem_slash hslash).mp htext.symm
    exact ⟨hspan, hstep⟩

/-- The values of a part whose step is a numeral. -/
theorem mem_iff_of_partValues {b : Bounds} {span step : List Char} {n : Nat} {W : Values b}
    (hnumeral : IsNumeral step n) (hW : partValues b (span ++ '/' :: step) = .ok W) :
    ∃ start stop, SpanInside b true span start stop ∧ 0 < n ∧
      ∀ v, v ∈ W ↔ (∃ k, v = start + k * n ∧ v ≤ stop) ∨
        fieldLimit < n ∧ start = 0 ∧ stop = fieldLimit ∧ v = fieldLimit := by
  obtain ⟨start, stop, size, haccepted, hmem⟩ := exists_stretch_of_partValues hW
  obtain ⟨hspan, hstep⟩ := AcceptedPart.of_slash haccepted
  obtain ⟨hpos, rfl⟩ := (stepText_iff_of_isNumeral hnumeral).mp hstep
  refine ⟨start, stop, hspan, hpos, fun v => ?_⟩
  rw [hmem, exists_steps_min_iff (hspan.le_high.trans b.high_le)]

/-- **WHAT A STEP SELECTS**: the values of a field are those of its parts, and a part
    with a numeral as its step has the numbers that are a whole number of steps
    of this size into its stretch. A step beyond all field numbers selects one
    number more, the greatest field number, if the stretch has all field
    numbers, and no other stretch and no other step shows that sizes are cut
    off. -/
theorem mem_iff_of_numeral_steps {b : Bounds} {text : List Char} {V : Values b}
    (hV : parse b text = .ok V) :
    (∀ v, v ∈ V ↔ ∃ part ∈ text.splitOn ',', ∃ W, partValues b part = .ok W ∧ v ∈ W) ∧
      ∀ span step n, span ++ '/' :: step ∈ text.splitOn ',' → IsNumeral step n →
        ∃ start stop W, SpanInside b true span start stop ∧ 0 < n ∧
          partValues b (span ++ '/' :: step) = .ok W ∧
            ∀ v, v ∈ W ↔ (∃ k, v = start + k * n ∧ v ≤ stop) ∨
              fieldLimit < n ∧ start = 0 ∧ stop = fieldLimit ∧ v = fieldLimit := by
  obtain ⟨hall, hmem⟩ := parse_eq_ok_iff_parts.mp hV
  refine ⟨hmem, fun span step n hpart hnumeral => ?_⟩
  obtain ⟨W, hW⟩ := hall _ hpart
  obtain ⟨start, stop, hspan, hpos, hvalues⟩ := mem_iff_of_partValues hnumeral hW
  exact ⟨start, stop, W, hspan, hpos, hW, hvalues⟩

/-- All field numbers. -/
def allNumbers : Bounds := { low := 0, high := fieldLimit }

/-- The digits of seventy thousand. -/
def seventyThousand : List Char := ['7', '0', '0', '0', '0']

/-- They are a numeral, which is above the limit. -/
theorem isNumeral_seventyThousand : IsNumeral seventyThousand 70000 :=
  ⟨by decide, List.all_eq_true.mp rfl, by decide⟩

/-- Every seventy-thousandth number is accepted as a field, and the limit is one of its
    values. -/
theorem exists_parse_everySeventyThousandth :
    ∃ V, parse allNumbers ('*' :: '/' :: seventyThousand) = .ok V ∧ fieldLimit ∈ V := by
  have hparse : parse allNumbers ('*' :: '/' :: seventyThousand) =
      .ok (Values.stretch 0 fieldLimit ⟨fieldLimit, by decide⟩ (by decide)) := by rfl
  exact ⟨_, hparse, (Values.mem_stretch _).mpr ⟨1, rfl, le_refl _⟩⟩

/-- Of every seventy-thousandth number only the first is in range, and the limit comes
    in addition. -/
theorem mem_iff_of_numeral_steps_seventyThousand :
    ∃ V, parse allNumbers ('*' :: '/' :: seventyThousand) = .ok V ∧
      ∃ start stop W, SpanInside allNumbers true ['*'] start stop ∧ 0 < 70000 ∧
        partValues allNumbers ('*' :: '/' :: seventyThousand) = .ok W ∧
          ∀ v, v ∈ W ↔ (∃ k, v = start + k * 70000 ∧ v ≤ stop) ∨
            fieldLimit < 70000 ∧ start = 0 ∧ stop = fieldLimit ∧ v = fieldLimit := by
  obtain ⟨V, hV, -⟩ := exists_parse_everySeventyThousandth
  exact ⟨V, hV, (mem_iff_of_numeral_steps hV).2 ['*'] seventyThousand 70000 (by decide)
    isNumeral_seventyThousand⟩

/-- Of all field numbers, every seventy thousandth is only the first, but the last
    one is selected as well. -/
theorem fieldLimit_mem_everySeventyThousandth :
    (∃ V, parse allNumbers ('*' :: '/' :: seventyThousand) = .ok V ∧ fieldLimit ∈ V) ∧
      IsNumeral seventyThousand 70000 ∧ ¬ ∃ k, fieldLimit = allNumbers.low + k * 70000 := by
  refine ⟨exists_parse_everySeventyThousandth, isNumeral_seventyThousand, ?_⟩
  rintro ⟨k, hk⟩
  have hlow : allNumbers.low = 0 := rfl
  have hlimit : fieldLimit = 65535 := rfl
  omega

end Field

end CronCalendar
