import CronCalendar.Numeral
import Mathlib.Algebra.Group.Nat.Defs

/-!
# Numerals — which texts are numbers, and which become too large

Reading goes from left to right and keeps only the value so far. Here the same
is said without a reader: a text is a numeral of some value (`IsNumeral`), or
its digits pass the limit before anything else can be noticed (`PassesLimit`).
`read_eq_value_iff` and `read_eq_tooLarge_iff` say that the reader finds exactly
these, so what is neither is malformed.
-/

namespace CronCalendar.Numeral

/-- A text without the one plus sign that may stand before its digits. -/
def unsigned : List Char → List Char
  | '+' :: rest => rest
  | text => text

/-- Numerals of the value `n`: at least one digit, and nothing but digits. -/
structure IsNumeral (text : List Char) (n : Nat) : Prop where
  nonempty : unsigned text ≠ []
  digits : ∀ c ∈ unsigned text, c.isDigit = true
  value : Nat.ofDigitChars 10 (unsigned text) 0 = n

/-- Texts that start with digits whose value is above the limit. What follows
    those digits may be anything. -/
def PassesLimit (limit : Nat) (text : List Char) : Prop :=
  ∃ run rest, unsigned text = run ++ rest ∧ (∀ c ∈ run, c.isDigit = true) ∧
    limit < Nat.ofDigitChars 10 run 0

/-! ## The digits after a value -/

/-- Further digits do not make a value less. -/
theorem le_ofDigitChars (cs : List Char) (acc : Nat) : acc ≤ Nat.ofDigitChars 10 cs acc := by
  rw [Nat.ofDigitChars_eq_ofDigitChars_zero]
  have h : 1 * acc ≤ 10 ^ cs.length * acc :=
    Nat.mul_le_mul_right acc (Nat.pow_pos (by decide))
  omega

/-- A digit multiplies the value before it by ten and adds its own. -/
theorem ofDigitChars_cons_digit (c : Char) (cs : List Char) (acc : Nat) :
    Nat.ofDigitChars 10 (c :: cs) acc = Nat.ofDigitChars 10 cs (acc * 10 + digitValue c) := by
  rw [Nat.ofDigitChars_cons, Nat.mul_comm 10 acc]
  rfl

/-- Digits are read to a value when they end without passing the limit. -/
theorem readDigits_eq_value_iff {limit n : Nat} :
    ∀ (cs : List Char) (acc : Nat), acc ≤ limit →
      (readDigits limit acc cs = .value n ↔
        (∀ c ∈ cs, c.isDigit = true) ∧ Nat.ofDigitChars 10 cs acc = n ∧ n ≤ limit) := by
  intro cs
  induction cs with
  | nil =>
      intro acc hacc
      rw [readDigits, Reading.value.injEq, Nat.ofDigitChars_nil]
      constructor
      · rintro rfl
        exact ⟨by simp, rfl, hacc⟩
      · rintro ⟨-, rfl, -⟩
        rfl
  | cons c cs ih =>
      intro acc _
      rw [readDigits, ofDigitChars_cons_digit, List.forall_mem_cons]
      by_cases hc : c.isDigit = true
      · rw [if_pos hc]
        by_cases hle : acc * 10 + digitValue c ≤ limit
        · rw [if_pos hle, ih _ hle]
          simp only [hc, true_and]
        · rw [if_neg hle]
          -- the value only grows, so it cannot come back under the limit
          have hgrow := le_ofDigitChars cs (acc * 10 + digitValue c)
          constructor
          · intro h
            cases h
          · rintro ⟨-, rfl, hn⟩
            omega
      · rw [if_neg hc]
        constructor
        · intro h
          cases h
        · rintro ⟨⟨h, -⟩, -⟩
          exact absurd h hc

/-- Digits are too large when some of them pass the limit before a character
    that is no digit. -/
theorem readDigits_eq_tooLarge_iff {limit : Nat} :
    ∀ (cs : List Char) (acc : Nat), acc ≤ limit →
      (readDigits limit acc cs = .tooLarge ↔
        ∃ run rest, cs = run ++ rest ∧ (∀ c ∈ run, c.isDigit = true) ∧
          limit < Nat.ofDigitChars 10 run acc) := by
  intro cs
  induction cs with
  | nil =>
      intro acc hacc
      constructor
      · intro h
        cases h
      · rintro ⟨run, rest, h, -, hlt⟩
        obtain ⟨rfl, -⟩ := List.append_eq_nil_iff.mp h.symm
        rw [Nat.ofDigitChars_nil] at hlt
        omega
  | cons c cs ih =>
      intro acc hacc
      rw [readDigits]
      by_cases hc : c.isDigit = true
      · rw [if_pos hc]
        by_cases hle : acc * 10 + digitValue c ≤ limit
        · rw [if_pos hle, ih _ hle]
          constructor
          · rintro ⟨run, rest, rfl, hrun, hlt⟩
            refine ⟨c :: run, rest, rfl, List.forall_mem_cons.mpr ⟨hc, hrun⟩, ?_⟩
            rw [ofDigitChars_cons_digit]
            exact hlt
          · rintro ⟨run, rest, heq, hrun, hlt⟩
            cases run with
            | nil =>
                rw [Nat.ofDigitChars_nil] at hlt
                omega
            | cons d run =>
                rw [List.cons_append, List.cons.injEq] at heq
                obtain ⟨rfl, rfl⟩ := heq
                rw [ofDigitChars_cons_digit] at hlt
                exact ⟨run, rest, rfl, (List.forall_mem_cons.mp hrun).2, hlt⟩
        · rw [if_neg hle]
          -- with this digit the limit is passed, so the run ends here
          refine ⟨fun _ => ⟨[c], cs, rfl, by simpa using hc, ?_⟩, fun _ => rfl⟩
          rw [ofDigitChars_cons_digit, Nat.ofDigitChars_nil]
          omega
      · rw [if_neg hc]
        constructor
        · intro h
          cases h
        · rintro ⟨run, rest, heq, hrun, hlt⟩
          cases run with
          | nil =>
              rw [Nat.ofDigitChars_nil] at hlt
              omega
          | cons d run =>
              rw [List.cons_append, List.cons.injEq] at heq
              obtain ⟨rfl, -⟩ := heq
              exact absurd (List.forall_mem_cons.mp hrun).1 hc

/-! ## Whole numerals -/

/-- A plus sign in front does not count. -/
theorem read_eq_readUnsigned (limit : Nat) (text : List Char) :
    read limit text = readUnsigned limit (unsigned text) := by
  rw [read.eq_def]
  split
  · rfl
  · next hplus =>
      rw [unsigned]
      exact hplus

/-- **A VALUE IS READ** from the numerals within the limit. -/
theorem read_eq_value_iff {limit n : Nat} {text : List Char} :
    read limit text = .value n ↔ IsNumeral text n ∧ n ≤ limit := by
  rw [read_eq_readUnsigned]
  cases hu : unsigned text with
  | nil =>
      constructor
      · intro h
        cases h
      · rintro ⟨h, -⟩
        exact absurd hu h.nonempty
  | cons c cs =>
      rw [readUnsigned, readDigits_eq_value_iff _ _ (Nat.zero_le _)]
      constructor
      · rintro ⟨hd, hv, hn⟩
        exact ⟨⟨by simp [hu], by rwa [hu], by rwa [hu]⟩, hn⟩
      · rintro ⟨⟨-, hd, hv⟩, hn⟩
        rw [hu] at hd hv
        exact ⟨hd, hv, hn⟩

/-- **TOO LARGE** is what passes the limit, whatever comes after. -/
theorem read_eq_tooLarge_iff {limit : Nat} {text : List Char} :
    read limit text = .tooLarge ↔ PassesLimit limit text := by
  rw [read_eq_readUnsigned, PassesLimit]
  cases unsigned text with
  | nil =>
      constructor
      · intro h
        cases h
      · rintro ⟨run, rest, h, -, hlt⟩
        obtain ⟨rfl, -⟩ := List.append_eq_nil_iff.mp h.symm
        exact absurd hlt (Nat.not_lt_zero _)
  | cons c cs => exact readDigits_eq_tooLarge_iff _ _ (Nat.zero_le _)

/-- Fields take the numerals within the limit. -/
theorem fieldNumber?_eq_some_iff {text : List Char} {n : Nat} :
    fieldNumber? text = some n ↔ IsNumeral text n ∧ n ≤ fieldLimit := by
  rw [← read_eq_value_iff, fieldNumber?]
  cases read fieldLimit text <;> simp [Reading.value?]

/-- The size of a step is a numeral within the limit, or the limit itself for
    a text that passes it. -/
theorem stepNumber?_eq_some_iff {text : List Char} {n : Nat} :
    stepNumber? text = some n ↔
      IsNumeral text n ∧ n ≤ fieldLimit ∨ PassesLimit fieldLimit text ∧ n = fieldLimit := by
  rw [← read_eq_value_iff, ← read_eq_tooLarge_iff, stepNumber?]
  cases read fieldLimit text <;> simp [eq_comm]

/-! ## Numerals of any size -/

/-- Texts of digits, behind a plus sign or not, are numerals of some value, and no
    others. -/
theorem exists_isNumeral_iff {text : List Char} :
    (∃ n, IsNumeral text n) ↔ unsigned text ≠ [] ∧ ∀ c ∈ unsigned text, c.isDigit = true := by
  constructor
  · rintro ⟨n, h⟩
    exact ⟨h.nonempty, h.digits⟩
  · rintro ⟨hne, hdigits⟩
    exact ⟨_, hne, hdigits, rfl⟩

/-- A numeral above the limit passes it, with all of its digits. -/
theorem IsNumeral.passesLimit {limit n : Nat} {text : List Char} (h : IsNumeral text n)
    (hlt : limit < n) : PassesLimit limit text := by
  refine ⟨unsigned text, [], (List.append_nil _).symm, h.digits, ?_⟩
  rw [h.value]
  exact hlt

/-- A numeral that passes the limit is above it: further digits only add to the
    value. -/
theorem PassesLimit.lt_of_isNumeral {limit n : Nat} {text : List Char}
    (h : PassesLimit limit text) (hn : IsNumeral text n) : limit < n := by
  obtain ⟨run, rest, hsplit, -, hlt⟩ := h
  have hvalue := hn.value
  rw [hsplit, Nat.ofDigitChars_append] at hvalue
  have hgrow := le_ofDigitChars rest (Nat.ofDigitChars 10 run 0)
  omega

/-- What passes the limit has a digit. -/
theorem PassesLimit.unsigned_ne_nil {limit : Nat} {text : List Char}
    (h : PassesLimit limit text) : unsigned text ≠ [] := by
  obtain ⟨run, rest, hsplit, -, hlt⟩ := h
  intro hnil
  obtain ⟨rfl, -⟩ := List.append_eq_nil_iff.mp (hsplit.symm.trans hnil)
  exact absurd hlt (Nat.not_lt_zero _)

/-! ## Written numbers -/

theorem digits_ne_nil (n : Nat) : digits n ≠ [] := Nat.toDigits_ne_nil

theorem isDigit_of_mem_digits {n : Nat} {c : Char} (h : c ∈ digits n) : c.isDigit = true :=
  Nat.isDigit_of_mem_toDigits (by decide) (by decide) h

theorem not_mem_digits {n : Nat} {c : Char} (h : c.isDigit = false) : c ∉ digits n := by
  intro hc
  rw [isDigit_of_mem_digits hc] at h
  cases h

/-- A number is a numeral of itself. -/
theorem isNumeral_digits (n : Nat) : IsNumeral (digits n) n := by
  have hu : unsigned (digits n) = digits n := by
    cases h : digits n with
    | nil => rfl
    | cons c cs =>
        rw [unsigned.eq_def]
        split
        · next heq =>
            have hplus : ('+' : Char) ∈ digits n := by rw [h, heq]; exact List.mem_cons_self ..
            exact absurd hplus (not_mem_digits rfl)
        · rfl
  refine ⟨?_, ?_, ?_⟩
  · rw [hu]
    exact digits_ne_nil n
  · rw [hu]
    intro c hc
    exact isDigit_of_mem_digits hc
  · rw [hu]
    exact Nat.ofDigitChars_ten_toDigits

/-! ## Numbers that are filled up -/

theorem padded_ne_nil (width n : Nat) : padded width n ≠ [] :=
  List.append_ne_nil_of_right_ne_nil _ (digits_ne_nil n)

theorem isDigit_of_mem_padded {width n : Nat} {c : Char} (h : c ∈ padded width n) :
    c.isDigit = true := by
  rcases List.mem_append.mp h with h | h
  · rw [List.eq_of_mem_replicate h]
    rfl
  · exact isDigit_of_mem_digits h

theorem not_mem_padded {width n : Nat} {c : Char} (h : c.isDigit = false) :
    c ∉ padded width n := by
  intro hc
  rw [isDigit_of_mem_padded hc] at h
  cases h

/-- The zeros on the left do not count. -/
theorem ofDigitChars_padded (width n : Nat) : Nat.ofDigitChars 10 (padded width n) 0 = n := by
  rw [padded, List.leftpad, Nat.ofDigitChars_append, Nat.ofDigitChars_replicate_zero, Nat.mul_zero]
  exact Nat.ofDigitChars_ten_toDigits

/-- Up to the width a number is filled up, and it is not cut off. -/
theorem length_padded_le {width n : Nat} (hwidth : 0 < width) (h : n < 10 ^ width) :
    (padded width n).length ≤ width := by
  rw [padded, List.length_leftpad]
  exact Nat.max_le.mpr
    ⟨Nat.le_refl width, (Nat.length_toDigits_le_iff (by decide) hwidth).mpr h⟩

theorem padded_zero (n : Nat) : padded 0 n = digits n := by
  rw [padded, List.leftpad, Nat.zero_sub]
  rfl

end CronCalendar.Numeral
