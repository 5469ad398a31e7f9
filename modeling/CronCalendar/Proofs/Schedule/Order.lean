import CronCalendar.Proofs.Schedule.Parse
import CronCalendar.Proofs.Text.Bytes

/-!
# Order — what expressions are read as stands in a total order

For every kind of data that is compared, a relation says what comes before what:
the values of a schedule column by column and then its command, an error by its
kind and then by what it reports, texts by their bytes. Comparing finds exactly
this relation, level by level (`compareOutcomes_eq_lt_iff`), and never takes two
different outcomes for equal.

Each comparison is put together from comparisons of numbers, lists and texts by
"first this, then that" or by "one kind before the other", both of which keep the
laws of a total order.
-/

namespace CronCalendar

open Text (bytes)

/-! ## Schedules -/

/-- Lists of numbers compare as their order says. -/
theorem Values.compare_toList_eq_lt_iff :
    ∀ first second : List Nat, compare first second = .lt ↔ first < second := by
  intro first
  induction first with
  | nil =>
      intro second
      cases second <;> simp
  | cons v first ih =>
      intro second
      cases second with
      | nil => simp
      | cons w second =>
          rw [List.compare_cons_cons, Ordering.then_eq_lt, List.cons_lt_cons_iff, ih,
            Nat.compare_eq_lt, Nat.compare_eq_eq]

namespace Values

variable {b : Bounds}

theorem toList_injective : Function.Injective (toList (b := b)) := by
  intro V W h
  exact ext_mem fun v => by rw [mem_def, mem_def, h]

/-- Sets of values are in a transitive order, that of their lists. -/
instance : Std.TransOrd (Values b) := inferInstanceAs (Std.TransCmp (compareOn toList))

/-- Only equal sets compare as equal. -/
instance : Std.LawfulEqOrd (Values b) where
  eq_of_compare h := toList_injective (Std.LawfulEqOrd.eq_of_compare (α := List Nat) h)

/-- Sets compare as their lists do. -/
theorem compare_eq_lt_iff {V W : Values b} : compare V W = .lt ↔ V.toList < W.toList :=
  compare_toList_eq_lt_iff _ _

end Values

namespace Command

/-- Commands are in a transitive order, that of their texts. -/
instance : Std.TransOrd Command := inferInstanceAs (Std.TransCmp (compareOn text))

/-- Only equal commands compare as equal. -/
instance : Std.LawfulEqOrd Command where
  eq_of_compare {c d} h := by
    have htext : c.text = d.text := Std.LawfulEqOrd.eq_of_compare (α := String) h
    exact Schedule.command_injective (congrArg String.toList htext)

/-- No command comes before any command, and commands go by their bytes. -/
inductive Precedes : Option Command → Option Command → Prop
  | none (c : Command) : Precedes none (some c)
  | some {c d : Command} (h : bytes c.text < bytes d.text) : Precedes (some c) (some d)

/-- Commands that may be missing compare as `Precedes` says. -/
theorem compare_eq_lt_iff {c d : Option Command} : compare c d = .lt ↔ Precedes c d := by
  constructor
  · intro h
    cases c with
    | none =>
        cases d with
        | none => cases h
        | some d => exact .none d
    | some c =>
        cases d with
        | none => cases h
        | some d => exact .some (Text.compare_eq_lt_iff_bytes.mp h)
  · rintro (_ | h)
    · rfl
    · exact Text.compare_eq_lt_iff_bytes.mpr h

end Command

namespace Schedule

/-- The ascending values of the fields, in the order of the fields. -/
def columns (s : Schedule) : List (List Nat) :=
  [s.minutes.toList, s.hours.toList, s.days.toList, s.months.toList, s.weekdays.toList]

/-- Schedules go by their columns, and where these are the same by their
    commands. -/
inductive Precedes (s t : Schedule) : Prop
  | columns (h : s.columns < t.columns)
  | command (hcolumns : s.columns = t.columns) (h : Command.Precedes s.command t.command)

theorem compare_eq (s t : Schedule) :
    compare s t = (compare s.minutes t.minutes).then ((compare s.hours t.hours).then
      ((compare s.days t.days).then ((compare s.months t.months).then
        ((compare s.weekdays t.weekdays).then (compare s.command t.command))))) := rfl

/-- Schedules are in a transitive order. -/
instance : Std.TransOrd Schedule := inferInstanceAs (Std.TransCmp (compareLex _ _))

/-- Only equal schedules compare as equal. -/
instance : Std.LawfulEqOrd Schedule where
  eq_of_compare {s t} h := by
    simp only [compare_eq, Ordering.then_eq_eq, Std.LawfulEqCmp.compare_eq_iff_eq] at h
    obtain ⟨hminutes, hhours, hdays, hmonths, hweekdays, hcommand⟩ := h
    refine ext_values (fun field => ?_) hcommand
    cases field with
    | minute => exact hminutes
    | hour => exact hhours
    | day => exact hdays
    | month => exact hmonths
    | weekday => exact hweekdays

/-- Both ways to precede, as one statement. -/
theorem precedes_iff {s t : Schedule} :
    Precedes s t ↔
      s.columns < t.columns ∨ s.columns = t.columns ∧ Command.Precedes s.command t.command := by
  constructor
  · rintro (h | ⟨hcolumns, h⟩)
    · exact Or.inl h
    · exact Or.inr ⟨hcolumns, h⟩
  · rintro (h | ⟨hcolumns, h⟩)
    · exact .columns h
    · exact .command hcolumns h

/-- Schedules compare as `Precedes` says. -/
theorem compare_eq_lt_iff {s t : Schedule} : compare s t = .lt ↔ Precedes s t := by
  rw [precedes_iff]
  simp only [compare_eq, Ordering.then_eq_lt, Values.compare_eq_lt_iff,
    Command.compare_eq_lt_iff, Std.LawfulEqCmp.compare_eq_iff_eq, columns, List.cons_lt_cons_iff,
    List.cons.injEq, Values.toList_injective.eq_iff, List.lt_irrefl]
  tauto

end Schedule

/-! ## Errors -/

namespace FieldError

/-- Errors of fields go by the rule that is broken, then by the bytes of the part
    and then by the bounds that are reported. -/
inductive Precedes (d e : FieldError) : Prop
  | fault (h : d.fault.rank < e.fault.rank)
  | part (hfault : d.fault.rank = e.fault.rank) (h : bytes d.part < bytes e.part)
  | low (hfault : d.fault.rank = e.fault.rank) (hpart : d.part = e.part)
      (h : d.fault.low < e.fault.low)
  | high (hfault : d.fault.rank = e.fault.rank) (hpart : d.part = e.part)
      (hlow : d.fault.low = e.fault.low) (h : d.fault.high < e.fault.high)

/-- Errors of fields are in a transitive order. -/
instance : Std.TransOrd FieldError := inferInstanceAs (Std.TransCmp (compareLex _ _))

theorem compare_eq (d e : FieldError) :
    compare d e = (compare d.fault.rank e.fault.rank).then ((compare d.part e.part).then
      ((compare d.fault.low e.fault.low).then (compare d.fault.high e.fault.high))) := rfl

/-- A fault is known from its rule and its bounds. -/
theorem fault_ext {f g : Fault} (hrank : f.rank = g.rank) (hlow : f.low = g.low)
    (hhigh : f.high = g.high) : f = g := by
  cases f with
  | bounds low high =>
      cases g with
      | bounds low' high' =>
          obtain rfl : low = low' := hlow
          obtain rfl : high = high' := hhigh
          rfl
      | _ => cases hrank
  | _ => cases g <;> first | rfl | cases hrank

/-- Only equal errors of fields compare as equal. -/
instance : Std.LawfulEqOrd FieldError where
  eq_of_compare {d e} h := by
    simp only [compare_eq, Ordering.then_eq_eq, Std.LawfulEqCmp.compare_eq_iff_eq] at h
    obtain ⟨hrank, hpart, hlow, hhigh⟩ := h
    obtain ⟨part, fault⟩ := d
    obtain rfl : part = e.part := hpart
    obtain rfl : fault = e.fault := fault_ext hrank hlow hhigh
    rfl

/-- Errors of fields compare as `Precedes` says. -/
theorem compare_eq_lt_iff {d e : FieldError} : compare d e = .lt ↔ Precedes d e := by
  simp only [compare_eq, Ordering.then_eq_lt, Nat.compare_eq_lt,
    Text.compare_eq_lt_iff_bytes, Std.LawfulEqCmp.compare_eq_iff_eq]
  constructor
  · rintro (h | ⟨hfault, h | ⟨hpart, h | ⟨hlow, h⟩⟩⟩)
    · exact .fault h
    · exact .part hfault h
    · exact .low hfault hpart h
    · exact .high hfault hpart hlow h
  · rintro (h | ⟨hfault, h⟩ | ⟨hfault, hpart, h⟩ | ⟨hfault, hpart, hlow, h⟩)
    · exact Or.inl h
    · exact Or.inr ⟨hfault, Or.inl h⟩
    · exact Or.inr ⟨hfault, Or.inr ⟨hpart, Or.inl h⟩⟩
    · exact Or.inr ⟨hfault, Or.inr ⟨hpart, Or.inr ⟨hlow, h⟩⟩⟩

end FieldError

/-! ## One kind before the other -/

section Outcomes

variable {ε α : Type} [Ord ε] [Ord α]

/-- Outcomes are in a transitive order if their results and their errors are. -/
instance [Std.TransOrd ε] [Std.TransOrd α] : Std.TransCmp (compareOutcomes (ε := ε) (α := α)) where
  eq_swap {x y} := by
    cases x with
    | ok a =>
        cases y with
        | ok b => exact Std.OrientedOrd.eq_swap
        | error e => rfl
    | error d =>
        cases y with
        | ok b => rfl
        | error e => exact Std.OrientedOrd.eq_swap
  isLE_trans {x y z} hxy hyz := by
    -- after an error there is no success, so a step down to one is excluded
    cases x with
    | ok a =>
        cases z with
        | error g => rfl
        | ok c =>
            cases y with
            | ok b => exact Std.TransOrd.isLE_trans (a := a) hxy hyz
            | error e => cases hyz
    | error d =>
        cases y with
        | ok b => cases hxy
        | error e =>
            cases z with
            | ok c => cases hyz
            | error g => exact Std.TransOrd.isLE_trans (a := d) hxy hyz

/-- Only equal outcomes compare as equal if this holds of their results and their
    errors. -/
instance [Std.LawfulEqOrd ε] [Std.LawfulEqOrd α] [Std.TransOrd ε] [Std.TransOrd α] :
    Std.LawfulEqCmp (compareOutcomes (ε := ε) (α := α)) where
  eq_of_compare {x y} h := by
    cases x with
    | ok a =>
        cases y with
        | ok b => exact congrArg Except.ok (Std.LawfulEqOrd.eq_of_compare h)
        | error e => cases h
    | error d =>
        cases y with
        | ok b => cases h
        | error e => exact congrArg Except.error (Std.LawfulEqOrd.eq_of_compare h)

end Outcomes

namespace Field

theorem name_injective : Function.Injective name := by
  intro f g h
  cases f <;> cases g <;> first | rfl | exact absurd h (by decide)

end Field

namespace ExpressionError

/-- Errors of expressions go by their kind, then by the bytes of what was written
    or of the name of the field, and then by what is wrong with the field. -/
inductive Precedes : ExpressionError → ExpressionError → Prop
  | tokenCount {a b : String} (h : bytes a < bytes b) : Precedes (.tokenCount a) (.tokenCount b)
  | kind (a : String) (f : Field) (e : FieldError) : Precedes (.tokenCount a) (.field f e)
  | name {f g : Field} {d e : FieldError} (h : bytes f.name < bytes g.name) :
      Precedes (.field f d) (.field g e)
  | error {f : Field} {d e : FieldError} (h : d.Precedes e) : Precedes (.field f d) (.field f e)

/-- Refused fields compare by their names, and then by their errors. -/
instance : Ord (Field × FieldError) :=
  ⟨compareLex (compareOn fun refused => refused.1.name) (compareOn Prod.snd)⟩

/-- Refused fields are in a transitive order. -/
instance : Std.TransOrd (Field × FieldError) := inferInstanceAs (Std.TransCmp (compareLex _ _))

/-- Only equal refused fields compare as equal. -/
instance : Std.LawfulEqOrd (Field × FieldError) where
  eq_of_compare {x y} h := by
    obtain ⟨hname, herror⟩ := compareLex_eq_eq.mp h
    have hfield : x.1 = y.1 :=
      Field.name_injective (Std.LawfulEqOrd.eq_of_compare (α := String) hname)
    exact Prod.ext hfield (Std.LawfulEqOrd.eq_of_compare (α := FieldError) herror)

/-- An error as one of two kinds. -/
def kinds : ExpressionError → Except (Field × FieldError) String
  | .tokenCount a => .ok a
  | .field f e => .error (f, e)

theorem kinds_injective : Function.Injective kinds := by
  intro d e h
  cases d <;> cases e <;> cases h <;> rfl

/-- Errors of expressions compare as outcomes do, with a wrong number of tokens in the
    place of success. -/
theorem compare_eq (d e : ExpressionError) : compare d e = compareOutcomes d.kinds e.kinds := by
  cases d <;> cases e <;> rfl

/-- Errors of expressions are in a transitive order, that of outcomes. -/
instance : Std.TransOrd ExpressionError where
  eq_swap {d e} := by
    rw [compare_eq, compare_eq]
    exact Std.OrientedCmp.eq_swap
  isLE_trans {d e f} := by
    rw [compare_eq, compare_eq, compare_eq]
    exact Std.TransCmp.isLE_trans

/-- Only equal errors of expressions compare as equal. -/
instance : Std.LawfulEqOrd ExpressionError where
  eq_of_compare {d e} h := by
    rw [compare_eq] at h
    exact kinds_injective (Std.LawfulEqCmp.eq_of_compare h)

/-- Errors of expressions compare as `Precedes` says. -/
theorem compare_eq_lt_iff {d e : ExpressionError} : compare d e = .lt ↔ Precedes d e := by
  constructor
  · intro h
    cases d with
    | tokenCount a =>
        cases e with
        | tokenCount b => exact .tokenCount (Text.compare_eq_lt_iff_bytes.mp h)
        | field g e => exact .kind a g e
    | field f d =>
        cases e with
        | tokenCount b => cases h
        | field g e =>
            rcases Ordering.then_eq_lt.mp h with hname | ⟨hname, herror⟩
            · exact .name (Text.compare_eq_lt_iff_bytes.mp hname)
            · -- fields compare by their names, and a name belongs to one field only
              obtain rfl := Field.name_injective (Std.LawfulEqOrd.eq_of_compare hname)
              exact .error (FieldError.compare_eq_lt_iff.mp herror)
  · intro h
    cases h with
    | tokenCount h => exact Text.compare_eq_lt_iff_bytes.mpr h
    | kind => rfl
    | name h => exact Ordering.then_eq_lt.mpr (Or.inl (Text.compare_eq_lt_iff_bytes.mpr h))
    | error h =>
        refine Ordering.then_eq_lt.mpr (Or.inr ⟨Std.ReflOrd.compare_self, ?_⟩)
        exact FieldError.compare_eq_lt_iff.mpr h

end ExpressionError

/-! ## Outcomes -/

namespace Schedule

/-- What expressions are read as: every schedule comes before every error. -/
inductive OutcomePrecedes :
    Except ExpressionError Schedule → Except ExpressionError Schedule → Prop
  | ok {s t : Schedule} (h : s.Precedes t) : OutcomePrecedes (.ok s) (.ok t)
  | kind (s : Schedule) (e : ExpressionError) : OutcomePrecedes (.ok s) (.error e)
  | error {d e : ExpressionError} (h : d.Precedes e) : OutcomePrecedes (.error d) (.error e)

variable {A B C : Except ExpressionError Schedule}

/-- Outcomes compare as less when the first one precedes. -/
theorem compareOutcomes_eq_lt_iff : compareOutcomes A B = .lt ↔ OutcomePrecedes A B := by
  constructor
  · intro h
    cases A with
    | ok s =>
        cases B with
        | ok t => exact .ok (compare_eq_lt_iff.mp h)
        | error e => exact .kind s e
    | error d =>
        cases B with
        | ok t => cases h
        | error e => exact .error (ExpressionError.compare_eq_lt_iff.mp h)
  · intro h
    cases h with
    | ok h => exact compare_eq_lt_iff.mpr h
    | kind => rfl
    | error h => exact ExpressionError.compare_eq_lt_iff.mpr h

/-- Outcomes compare as greater when the second one precedes. -/
theorem compareOutcomes_eq_gt_iff : compareOutcomes A B = .gt ↔ OutcomePrecedes B A := by
  rw [← compareOutcomes_eq_lt_iff]
  exact Std.OrientedCmp.gt_iff_lt

/-- Three outcomes in a total order that agrees with equality. -/
structure InTotalOrder (A B C : Except ExpressionError Schedule) : Prop where
  oneOfThree : OutcomePrecedes A B ∧ A ≠ B ∧ ¬ OutcomePrecedes B A ∨
    ¬ OutcomePrecedes A B ∧ A = B ∧ ¬ OutcomePrecedes B A ∨
    ¬ OutcomePrecedes A B ∧ A ≠ B ∧ OutcomePrecedes B A
  lt_iff : compareOutcomes A B = .lt ↔ OutcomePrecedes A B
  eq_iff : compareOutcomes A B = .eq ↔ A = B
  gt_iff : compareOutcomes A B = .gt ↔ OutcomePrecedes B A
  swap : compareOutcomes B A = (compareOutcomes A B).swap
  le_trans : (compareOutcomes A B).isLE → (compareOutcomes B C).isLE →
    (compareOutcomes A C).isLE

/-- **A TOTAL ORDER**: any three outcomes are in it. -/
theorem inTotalOrder (A B C : Except ExpressionError Schedule) : InTotalOrder A B C where
  oneOfThree := by
    have heq : compareOutcomes A B = .eq ↔ A = B := Std.LawfulEqCmp.compare_eq_iff_eq
    rw [← compareOutcomes_eq_lt_iff, ← compareOutcomes_eq_gt_iff, ne_eq, ← heq]
    cases compareOutcomes A B <;> decide
  lt_iff := compareOutcomes_eq_lt_iff
  eq_iff := Std.LawfulEqCmp.compare_eq_iff_eq
  gt_iff := compareOutcomes_eq_gt_iff
  swap := Std.OrientedCmp.eq_swap
  le_trans := Std.TransCmp.isLE_trans

/-- **A TOTAL ORDER** on what expressions are read as. Of two outcomes one comes
    before the other, unless they are equal, and the other way round the
    comparison is reversed. Two schedules are equal exactly when their canonical
    texts are, and every schedule comes before every error. -/
theorem parse_inTotalOrder (a b c : String) :
    InTotalOrder (parse a) (parse b) (parse c) ∧
      (∀ s t, parse a = .ok s → parse b = .ok t →
        (compareOutcomes (parse a) (parse b) = .eq ↔ s.text = t.text)) ∧
      ∀ s e, parse a = .ok s → parse b = .error e →
        compareOutcomes (parse a) (parse b) = .lt := by
  refine ⟨inTotalOrder _ _ _, ?_, ?_⟩
  · intro s t hs ht
    rw [(inTotalOrder (parse a) (parse b) (parse c)).eq_iff, hs, ht, Except.ok.injEq]
    constructor
    · rintro rfl
      rfl
    · exact text_injective
  · intro s e hs he
    rw [hs, he]
    rfl

/-- Two ways to write one schedule, and an expression that cannot be read. -/
theorem parse_inTotalOrder_leapSunday :
    compareOutcomes (parse "0 0 29 2 0 leap") (parse "00 */24 29 2 */7 leap") = .eq ∧
      compareOutcomes (parse "0 0 29 2 0 leap") (parse "0 0") = .lt ∧
      (compareOutcomes (parse "00 */24 29 2 */7 leap") (parse "0 0")).isLE := by
  have hshort : parse "0 0 29 2 0 leap" = .ok leapSunday := by decide +kernel
  have hlong : parse "00 */24 29 2 */7 leap" = .ok leapSunday := by decide +kernel
  have hrefused : parse "0 0" = .error (.tokenCount "0 0") := by decide +kernel
  obtain ⟨-, htexts, -⟩ := parse_inTotalOrder "0 0 29 2 0 leap" "00 */24 29 2 */7 leap" "0 0"
  obtain ⟨-, -, hbelow⟩ := parse_inTotalOrder "0 0 29 2 0 leap" "0 0" "0 0"
  obtain ⟨horder, -, -⟩ := parse_inTotalOrder "00 */24 29 2 */7 leap" "0 0 29 2 0 leap" "0 0"
  have hlt := hbelow _ _ hshort hrefused
  refine ⟨(htexts _ _ hshort hlong).mpr rfl, hlt, horder.le_trans ?_ ?_⟩
  · rw [horder.eq_iff.mpr (hlong.trans hshort.symm)]
    rfl
  · rw [hlt]
    rfl

end Schedule

end CronCalendar
