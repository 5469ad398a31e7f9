import CronCalendar.Proofs.Field.Grammar
import Mathlib.Data.List.TakeWhile

/-!
# Faults — which error a refused field carries

The rules for a part are said here one by one, each by what breaks it
(`Breaks`), and a part can break several of them at once. Reading goes through
the rules in order, so the error of a part names the first one that the part
breaks (`partValues_eq_error_iff`). A field is read part by part, so its error is
that of the first part that is refused alone, and what is read before and after
a comma does not depend on the other side (`parse_append`). From both it follows
which error a field carries (`parse_errors`).
-/

namespace CronCalendar

open Numeral

/-! ## The rules for a part -/

/-- What stands before the first slash. -/
def beforeSlash (text : List Char) : List Char := text.takeWhile (· != '/')

/-- What stands behind the first slash, if there is one. -/
def afterSlash? (text : List Char) : Option (List Char) :=
  match text.dropWhile (· != '/') with
  | [] => none
  | _ :: step => some step

/-- Exactly two numbers in ascending order, with a dash between them. -/
def IsRange (text : List Char) : Prop :=
  ∃ first last m n, text = first ++ '-' :: last ∧ IsFieldNumber first m ∧
    IsFieldNumber last n ∧ m ≤ n

/-- The rules that a part breaks, whatever other rules it breaks. -/
inductive Breaks (b : Bounds) (text : List Char) : Fault → Prop where
  /-- More than one slash. -/
  | slashes : 1 < text.count '/' → Breaks b text .slashes
  /-- A slash, and behind it nothing that is a step. -/
  | step {step : List Char} :
      afterSlash? text = some step → (¬ ∃ size, StepText step size) → Breaks b text .step
  /-- A dash that makes no range. -/
  | range : '-' ∈ beforeSlash text → ¬ IsRange (beforeSlash text) → Breaks b text .range
  /-- No dash, and neither `*` nor a number. -/
  | number :
      '-' ∉ beforeSlash text → beforeSlash text ≠ ['*'] →
      (¬ ∃ n, IsFieldNumber (beforeSlash text) n) → Breaks b text .number
  /-- Two ends that are out of order or out of the bounds. -/
  | bounds {start stop size : Nat} :
      PartText b text start stop size → ¬ (b.low ≤ start ∧ start ≤ stop ∧ stop ≤ b.high) →
      Breaks b text (.bounds b.low b.high)

/-- The first rule that a part breaks, in the order of the rules. -/
structure FirstBroken (b : Bounds) (text : List Char) (fault : Fault) : Prop where
  broken : Breaks b text fault
  first : ∀ other, Breaks b text other → fault.rank ≤ other.rank

/-- A part has one first rule that it breaks. -/
theorem FirstBroken.unique {b : Bounds} {text : List Char} {fault fault' : Fault}
    (h : FirstBroken b text fault) (h' : FirstBroken b text fault') : fault = fault' := by
  have hrank := Nat.le_antisymm (h.first _ h'.broken) (h'.first _ h.broken)
  cases h.broken <;> cases h'.broken <;> first | rfl | simp [Fault.rank] at hrank

/-! ## Reading by the rules -/

theorem bne_slash_of_not_mem {text : List Char} (h : '/' ∉ text) :
    ∀ c ∈ text, (c != '/') = true := by
  intro c hc
  rw [bne_iff_ne]
  rintro rfl
  exact h hc

/-- Without a slash all of a text stands before it, and nothing behind it. -/
theorem beforeSlash_of_not_mem {text : List Char} (h : '/' ∉ text) :
    beforeSlash text = text ∧ afterSlash? text = none := by
  have hall := bne_slash_of_not_mem h
  rw [beforeSlash, afterSlash?, List.takeWhile_eq_self_iff.mpr hall,
    List.dropWhile_eq_nil_iff.mpr hall]
  exact ⟨rfl, rfl⟩

/-- A slash divides a text into what is before it and what is behind it. -/
theorem beforeSlash_append {span : List Char} (h : '/' ∉ span) (step : List Char) :
    beforeSlash (span ++ '/' :: step) = span ∧ afterSlash? (span ++ '/' :: step) = some step := by
  have hall := bne_slash_of_not_mem h
  rw [beforeSlash, afterSlash?, List.takeWhile_append_of_pos hall,
    List.dropWhile_append_of_pos hall]
  exact ⟨List.append_nil span, rfl⟩

/-- **RULE BY RULE**: a part is read by its slashes first, then by its step, and by its
    span last. -/
theorem Part.read_eq (text : List Char) :
    Part.read text =
      if 1 < text.count '/' then .error .slashes
      else
        match afterSlash? text with
        | none => Span.read (beforeSlash text) >>= fun span => .ok ⟨span, none⟩
        | some step =>
            Part.readStep step >>= fun size =>
              Span.read (beforeSlash text) >>= fun span => .ok ⟨span, some size⟩ := by
  -- the pieces of the split are counted: none is impossible, a third one is a second slash
  rcases hsplit : text.splitOn '/' with _ | ⟨span, _ | ⟨step, _ | ⟨more, others⟩⟩⟩
  · exact absurd hsplit (List.splitOn_ne_nil _ _)
  · obtain ⟨rfl, hslash⟩ := Text.splitOn_eq_one_iff.mp hsplit
    obtain ⟨hbefore, hafter⟩ := beforeSlash_of_not_mem hslash
    have hcount : ¬ 1 < text.count '/' := by
      rw [List.count_eq_zero.mpr hslash]
      decide
    rw [Part.read, hsplit, if_neg hcount, hbefore, hafter]
    rfl
  · obtain ⟨rfl, hspan, hslash⟩ := Text.splitOn_eq_two_iff.mp hsplit
    obtain ⟨hbefore, hafter⟩ := beforeSlash_append hspan step
    have hcount : ¬ 1 < (span ++ '/' :: step).count '/' := by
      rw [List.count_append, List.count_cons_self, List.count_eq_zero.mpr hspan,
        List.count_eq_zero.mpr hslash]
      decide
    rw [Part.read, hsplit, if_neg hcount, hbefore, hafter]
    rfl
  · have hcount : 1 < text.count '/' := by
      rw [((Text.splitOn_eq_iff (List.cons_ne_nil _ _)).mp hsplit).1, List.intercalate_cons_cons,
        List.intercalate_cons_cons]
      simp only [List.count_append, List.count_singleton_self]
      omega
    rw [Part.read, hsplit, if_pos hcount]

/-- What a refused span looks like: it is neither `*` nor a range nor a number, and a dash
    decides which of the two faults it is. -/
theorem Span.read_eq_error {text : List Char} {fault : Fault} (h : Span.read text = .error fault) :
    text ≠ ['*'] ∧ ¬ IsRange text ∧ (¬ ∃ n, IsFieldNumber text n) ∧
      ('-' ∈ text ∧ fault = .range ∨ '-' ∉ text ∧ fault = .number) := by
  have hrange : ¬ IsRange text := by
    rintro ⟨first, last, m, n, rfl, hm, hn, hle⟩
    rw [Span.read_of_range hm hn hle] at h
    cases h
  have hnumber : ¬ ∃ n, IsFieldNumber text n := by
    rintro ⟨n, hn⟩
    rw [Span.read_of_number hn] at h
    cases h
  rw [Span.read] at h
  by_cases hstar : text = ['*']
  · rw [if_pos hstar] at h
    cases h
  · rw [if_neg hstar] at h
    refine ⟨hstar, hrange, hnumber, ?_⟩
    by_cases hdash : '-' ∈ text
    · -- with a dash there are two pieces or more, and each way to refuse them is the range
      refine Or.inl ⟨hdash, ?_⟩
      split at h
      · next number hsplit =>
          obtain ⟨rfl, hno⟩ := Text.splitOn_eq_one_iff.mp hsplit
          exact absurd hdash hno
      · split at h
        · split at h
          · cases h
          · exact (Except.error.inj h).symm
        · exact (Except.error.inj h).symm
      · exact (Except.error.inj h).symm
    · -- without one the whole text is a single number
      refine Or.inr ⟨hdash, ?_⟩
      rw [Text.splitOn_eq_one_iff.mpr ⟨rfl, hdash⟩] at h
      simp only at h
      split at h
      · cases h
      · exact (Except.error.inj h).symm

/-- A span that is read breaks no rule for spans. -/
theorem Span.not_breaks_of_read {b : Bounds} {text : List Char} {span : Span}
    (h : Span.read (beforeSlash text) = .ok span) :
    ¬ Breaks b text .range ∧ ¬ Breaks b text .number := by
  constructor
  · intro hbreaks
    cases hbreaks with
    | range hdash hrange =>
        rcases Span.text_of_read h with
          ⟨htext, -⟩ | ⟨first, last, m, n, htext, hm, hn, hle, -⟩ | ⟨n, hn, -⟩
        · rw [htext] at hdash
          exact absurd hdash (by decide)
        · exact hrange ⟨first, last, m, n, htext, hm, hn, hle⟩
        · exact hn.not_mem rfl (by decide) hdash
  · intro hbreaks
    cases hbreaks with
    | number hdash hstar hnumber =>
        rcases Span.text_of_read h with
          ⟨htext, -⟩ | ⟨first, last, m, n, htext, -, -, -, -⟩ | ⟨n, hn, -⟩
        · exact hstar htext
        · rw [htext] at hdash
          exact hdash (List.mem_append_right _ (List.mem_cons_self ..))
        · exact hnumber ⟨n, hn⟩

/-- A step is refused when no size is written behind the slash. -/
theorem Part.readStep_eq_error {text : List Char} {fault : Fault}
    (h : Part.readStep text = .error fault) :
    fault = .step ∧ ¬ ∃ size, StepText text size := by
  have hno : ¬ ∃ size, StepText text size := by
    rintro ⟨size, hstep⟩
    have hpos := (stepText_iff.mp hstep).2
    have hread : Part.readStep text = .ok ⟨size, hpos⟩ := readStep_eq_ok_iff.mpr hstep
    rw [hread] at h
    cases h
  refine ⟨?_, hno⟩
  rw [Part.readStep] at h
  split at h
  · split at h
    · cases h
    · exact (Except.error.inj h).symm
  · exact (Except.error.inj h).symm

/-- How reading `text` ends: with a part that can break the bounds only, or with the first
    rule that the text breaks. -/
def ReadsOrFaults (b : Bounds) (text : List Char) (read : Except Fault Part) : Prop :=
  (∃ part, read = .ok part ∧ ∀ fault, Breaks b text fault → fault = .bounds b.low b.high) ∨
    ∃ fault, read = .error fault ∧ FirstBroken b text fault

/-- When a part has broken no rule for slashes and steps, its span decides. -/
theorem Span.readsOrFaults {b : Bounds} {text : List Char} (hslashes : ¬ Breaks b text .slashes)
    (hstep : ¬ Breaks b text .step) (step : Option Step) :
    ReadsOrFaults b text (Span.read (beforeSlash text) >>= fun span => .ok ⟨span, step⟩) := by
  cases hspan : Span.read (beforeSlash text) with
  | ok span =>
      obtain ⟨hrange, hnumber⟩ := Span.not_breaks_of_read (b := b) hspan
      refine Or.inl ⟨⟨span, step⟩, rfl, fun fault hbreaks => ?_⟩
      cases fault with
      | slashes => exact absurd hbreaks hslashes
      | step => exact absurd hbreaks hstep
      | range => exact absurd hbreaks hrange
      | number => exact absurd hbreaks hnumber
      | bounds low high =>
          cases hbreaks
          rfl
  | error fault =>
      refine Or.inr ⟨fault, rfl, ?_⟩
      obtain ⟨hstar, hrange, hnumber, ⟨hdash, rfl⟩ | ⟨hdash, rfl⟩⟩ := Span.read_eq_error hspan
      · refine ⟨.range hdash hrange, fun other hother => ?_⟩
        cases other with
        | slashes => exact absurd hother hslashes
        | step => exact absurd hother hstep
        | range => exact Nat.le_refl _
        | number => exact Nat.le_succ _
        | bounds low high => exact Nat.le_add_right 2 2
      · refine ⟨.number hdash hstar hnumber, fun other hother => ?_⟩
        cases other with
        | slashes => exact absurd hother hslashes
        | step => exact absurd hother hstep
        | range =>
            cases hother with
            | range hdash' _ => exact absurd hdash' hdash
        | number => exact Nat.le_refl _
        | bounds low high => exact Nat.le_succ _

/-- **READING A PART** ends with the first rule that it breaks, but the bounds are not
    looked at yet. -/
theorem Part.readsOrFaults (b : Bounds) (text : List Char) :
    ReadsOrFaults b text (Part.read text) := by
  rw [Part.read_eq]
  by_cases hcount : 1 < text.count '/'
  · rw [if_pos hcount]
    exact Or.inr ⟨_, rfl, .slashes hcount, fun _ _ => Nat.zero_le _⟩
  · rw [if_neg hcount]
    have hslashes : ¬ Breaks b text .slashes := by
      rintro ⟨hmore⟩
      exact hcount hmore
    cases hafter : afterSlash? text with
    | none =>
        have hstep : ¬ Breaks b text .step := by
          rintro ⟨⟩
          next hsome _ =>
            rw [hafter] at hsome
            cases hsome
        exact Span.readsOrFaults hslashes hstep none
    | some step =>
        -- the step is looked at before the span, so its fault comes first
        simp only
        cases hread : Part.readStep step with
        | error fault =>
            obtain ⟨rfl, hno⟩ := Part.readStep_eq_error hread
            refine Or.inr ⟨_, rfl, .step hafter hno, fun other hother => ?_⟩
            cases other with
            | slashes => exact absurd hother hslashes
            | step => exact Nat.le_refl _
            | range => exact Nat.le_succ _
            | number => exact Nat.le_add_right 1 2
            | bounds low high => exact Nat.le_add_right 1 3
        | ok size =>
            have hstep : ¬ Breaks b text .step := by
              rintro ⟨⟩
              next step' hsome hno =>
                rw [hafter] at hsome
                obtain rfl := Option.some.inj hsome
                exact hno ⟨size, readStep_eq_ok_iff.mp hread⟩
            exact Span.readsOrFaults hslashes hstep (some size)

/-- A part that was read breaks the bounds when its values do not lie in order inside of
    them. -/
theorem breaks_bounds_iff {b : Bounds} {text : List Char} {part : Part}
    (hread : Part.read text = .ok part) :
    Breaks b text (.bounds b.low b.high) ↔
      ¬ (b.low ≤ part.start b ∧ part.stop b ≤ b.high ∧ part.start b ≤ part.stop b) := by
  constructor
  · rintro ⟨⟩
    next hpart hout =>
      obtain ⟨part', hread', rfl, rfl, rfl⟩ := (partText_iff_read b).mp hpart
      rw [hread, Except.ok.injEq] at hread'
      rw [hread']
      exact fun ⟨hlow, hhigh, hle⟩ => hout ⟨hlow, hle, hhigh⟩
  · intro hout
    exact .bounds ((partText_iff_read b).mpr ⟨part, hread, rfl, rfl, rfl⟩)
      fun ⟨hlow, hle, hhigh⟩ => hout ⟨hlow, hhigh, hle⟩

theorem Values.union_assoc {b : Bounds} (V W U : Values b) :
    (V.union W).union U = V.union (W.union U) :=
  Values.ext_mem fun v => by simp only [Values.mem_union, or_assoc]

namespace Field

variable {b : Bounds}

/-! ## The error of a part -/

/-- A part breaks no rule and is accepted, or it carries the first rule that it
    breaks. -/
theorem partValues_outcome (b : Bounds) (text : List Char) :
    (∃ V, partValues b text = .ok V ∧ ∀ fault, ¬ Breaks b text fault) ∨
      ∃ fault, partValues b text = .error ⟨String.ofList text, fault⟩ ∧
        FirstBroken b text fault := by
  rcases Part.readsOrFaults b text with ⟨part, hread, honly⟩ | ⟨fault, hread, hfirst⟩
  · by_cases hin : b.low ≤ part.start b ∧ part.stop b ≤ b.high ∧ part.start b ≤ part.stop b
    · refine Or.inl ⟨_, partValues_eq_ok_iff.mpr ⟨part, hread, hin, rfl⟩, fun fault hbreaks => ?_⟩
      obtain rfl := honly fault hbreaks
      exact (breaks_bounds_iff hread).mp hbreaks hin
    · have hvalues : part.values b = .error (.bounds b.low b.high) := dif_neg hin
      have hbind : (Part.read text >>= Part.values b) = .error (.bounds b.low b.high) := by
        rw [hread]
        exact hvalues
      refine Or.inr ⟨.bounds b.low b.high, by rw [partValues, hbind],
        (breaks_bounds_iff hread).mpr hin, fun other hother => ?_⟩
      rw [honly other hother]
  · have hbind : (Part.read text >>= Part.values b) = .error fault := by
      rw [hread]
      rfl
    exact Or.inr ⟨fault, by rw [partValues, hbind], hfirst⟩

/-- **THE FIRST RULE**: the error of a part has the text of the part and names the first
    rule that it breaks. -/
theorem partValues_eq_error_iff {text : List Char} {e : FieldError} :
    partValues b text = .error e ↔
      e.part = String.ofList text ∧ FirstBroken b text e.fault := by
  obtain ⟨part, fault⟩ := e
  rcases partValues_outcome b text with ⟨V, hV, hnone⟩ | ⟨fault', herror, hfirst⟩
  · rw [hV]
    refine iff_of_false (fun h => by cases h) ?_
    rintro ⟨-, hfirst⟩
    exact hnone _ hfirst.broken
  · rw [herror, Except.error.injEq, FieldError.mk.injEq]
    constructor
    · rintro ⟨rfl, rfl⟩
      exact ⟨rfl, hfirst⟩
    · rintro ⟨rfl, hfirst'⟩
      exact ⟨rfl, hfirst.unique hfirst'⟩

/-! ## The error of a field -/

/-- Several parts are read as the first one and then the others. -/
theorem unionOfParts_cons {part : List Char} {rest : List (List Char)} (h : part :: rest ≠ [])
    (hrest : rest ≠ []) :
    unionOfParts b (part :: rest) h =
      partValues b part >>= fun V => unionOfParts b rest hrest >>= fun W => .ok (V.union W) := by
  cases rest with
  | nil => exact absurd rfl hrest
  | cons next more => rfl

/-- Parts that are read in two portions are read in one after the other. -/
theorem unionOfParts_append {more : List (List Char)} (hmore : more ≠ []) :
    ∀ (parts : List (List Char)) (h : parts ≠ []) (hall : parts ++ more ≠ []),
      unionOfParts b (parts ++ more) hall =
        unionOfParts b parts h >>= fun V => unionOfParts b more hmore >>= fun W =>
          .ok (V.union W) := by
  intro parts
  induction parts with
  | nil => intro h; exact absurd rfl h
  | cons part rest ih =>
      intro h hall
      cases rest with
      | nil => exact unionOfParts_cons hall hmore
      | cons next others =>
          have hrest : next :: others ≠ [] := List.cons_ne_nil _ _
          have hboth : next :: others ++ more ≠ [] := List.cons_ne_nil _ _
          show unionOfParts b (part :: (next :: others ++ more)) hall = _
          rw [unionOfParts_cons h hrest, unionOfParts_cons (List.cons_ne_nil _ _) hboth,
            ih hrest hboth]
          -- an error of any of the three is the error of both sides
          cases partValues b part with
          | error e => rfl
          | ok V =>
              cases unionOfParts b (next :: others) hrest with
              | error e => rfl
              | ok W =>
                  cases unionOfParts b more hmore with
                  | error e => rfl
                  | ok U => exact congrArg Except.ok (Values.union_assoc V W U).symm

/-- A field is read as the union of its parts. -/
theorem parse_of_parts {text : List Char} {pieces : List (List Char)} (h : parts text = pieces)
    (hne : pieces ≠ []) : parse b text = unionOfParts b pieces hne := by
  subst h
  rfl

/-- **ONE COMMA**: what stands before it is read first, and then what stands behind it. -/
theorem parse_append (first second : List Char) :
    parse b (first ++ ',' :: second) =
      parse b first >>= fun V => parse b second >>= fun W => .ok (V.union W) := by
  have hparts : parts (first ++ ',' :: second) = parts first ++ parts second :=
    List.splitOn_append_cons_self first second
  rw [parse_of_parts hparts (List.append_ne_nil_of_left_ne_nil (parts_ne_nil first) _)]
  exact unionOfParts_append (parts_ne_nil second) _ (parts_ne_nil first) _

/-- The set of a field depends only on which parts it has. -/
theorem parse_eq_of_mem_iff {text text' : List Char} {V : Values b}
    (hsame : ∀ part, part ∈ parts text ↔ part ∈ parts text') (hV : parse b text = .ok V) :
    parse b text' = .ok V := by
  rw [parse_eq_ok_iff_parts] at hV ⊢
  simp only [← hsame]
  exact hV

/-- The first part that is refused decides, whatever comes behind it. -/
theorem unionOfParts_of_first {part : List Char} {e : FieldError}
    (hpart : partValues b part = .error e) (after : List (List Char)) :
    ∀ (before : List (List Char)) (h : before ++ part :: after ≠ []),
      (∀ other ∈ before, ∃ V, partValues b other = .ok V) →
        unionOfParts b (before ++ part :: after) h = .error e := by
  intro before
  induction before with
  | nil =>
      intro h _
      cases after with
      | nil => exact hpart
      | cons next more =>
          show unionOfParts b (part :: next :: more) h = _
          rw [unionOfParts_cons h (List.cons_ne_nil _ _), hpart]
          rfl
  | cons other before ih =>
      intro h hall
      obtain ⟨⟨V, hV⟩, hbefore⟩ := List.forall_mem_cons.mp hall
      have hne : before ++ part :: after ≠ [] :=
        List.append_ne_nil_of_right_ne_nil _ (List.cons_ne_nil _ _)
      show unionOfParts b (other :: (before ++ part :: after)) h = _
      rw [unionOfParts_cons (List.cons_ne_nil _ _) hne, hV, ih hne hbefore]
      rfl

/-- A union that fails has a first part that is refused, with the same error. -/
theorem exists_first_of_unionOfParts {e : FieldError} :
    ∀ (parts : List (List Char)) (h : parts ≠ []), unionOfParts b parts h = .error e →
      ∃ before part after, parts = before ++ part :: after ∧
        (∀ other ∈ before, ∃ V, partValues b other = .ok V) ∧ partValues b part = .error e := by
  intro parts
  induction parts with
  | nil => intro h; exact absurd rfl h
  | cons part rest ih =>
      intro h herror
      cases hpart : partValues b part with
      | error e' =>
          -- the head is the first one; the union fails with its error whatever follows
          have hnone : ∀ other ∈ [], ∃ V, partValues b other = .ok V :=
            fun _ hmem => absurd hmem List.not_mem_nil
          have hfirst := unionOfParts_of_first hpart rest [] h hnone
          obtain rfl : e' = e := Except.error.inj (hfirst.symm.trans herror)
          exact ⟨[], part, rest, rfl, hnone, hpart⟩
      | ok V =>
          -- the head is read, so the error comes from what follows, which is not empty
          have hrest : rest ≠ [] := by
            rintro rfl
            rw [unionOfParts_singleton, hpart] at herror
            cases herror
          rw [unionOfParts_cons h hrest, hpart] at herror
          cases hunion : unionOfParts b rest hrest with
          | ok W =>
              rw [hunion] at herror
              cases herror
          | error e' =>
              rw [hunion] at herror
              obtain rfl : e' = e := Except.error.inj herror
              obtain ⟨before, bad, after, rfl, hbefore, hbad⟩ := ih hrest hunion
              exact ⟨part :: before, bad, after, rfl,
                List.forall_mem_cons.mpr ⟨⟨V, hpart⟩, hbefore⟩, hbad⟩

/-- The first part of a field that is refused alone. -/
def FirstBad (b : Bounds) (text part : List Char) : Prop :=
  ∃ before after, text.splitOn ',' = before ++ part :: after ∧
    (∀ other ∈ before, ∃ V, parse b other = .ok V) ∧ ¬ ∃ V, parse b part = .ok V

/-- A text without a comma is a single part. -/
theorem parse_of_not_mem {part : List Char} (h : ',' ∉ part) : parse b part = partValues b part :=
  parse_of_parts (Text.splitOn_eq_one_iff.mpr ⟨rfl, h⟩) (List.cons_ne_nil _ _)

/-- Each part of a field can be read as a field of its own. -/
theorem parse_of_mem_parts {text part : List Char} (h : part ∈ parts text) :
    parse b part = partValues b part :=
  parse_of_not_mem (Text.not_mem_of_mem_splitOn ',' text part h)

/-- The first bad part is a part of the field. -/
theorem FirstBad.mem_parts {text part : List Char} (h : FirstBad b text part) :
    part ∈ parts text := by
  obtain ⟨before, after, hparts, -⟩ := h
  rw [parts, hparts]
  exact List.mem_append_right _ (List.mem_cons_self ..)

/-- **THE FIRST BAD PART** decides what becomes of the field. -/
theorem parse_of_firstBad {text part : List Char} (h : FirstBad b text part) :
    parse b text = parse b part := by
  have halone := parse_of_mem_parts (b := b) h.mem_parts
  obtain ⟨before, after, hparts, hbefore, hbad⟩ := h
  have hne : before ++ part :: after ≠ [] :=
    List.append_ne_nil_of_right_ne_nil _ (List.cons_ne_nil _ _)
  cases hpart : partValues b part with
  | ok V => exact absurd ⟨V, halone.trans hpart⟩ hbad
  | error e =>
      have hread : ∀ other ∈ before, ∃ V, partValues b other = .ok V := by
        intro other hmem
        have hparts' : other ∈ parts text := by
          rw [parts, hparts]
          exact List.mem_append_left _ hmem
        rw [← parse_of_mem_parts hparts']
        exact hbefore other hmem
      rw [halone, hpart, parse_of_parts hparts hne]
      exact unionOfParts_of_first hpart after before hne hread

/-- A field that is refused has a first bad part. -/
theorem exists_firstBad {text : List Char} {e : FieldError} (h : parse b text = .error e) :
    ∃ part, FirstBad b text part := by
  obtain ⟨before, part, after, hparts, hbefore, hbad⟩ := exists_first_of_unionOfParts _ _ h
  have halone : ∀ other ∈ before ++ part :: after, parse b other = partValues b other :=
    fun other hmem => parse_of_mem_parts (hparts ▸ hmem)
  refine ⟨part, before, after, hparts, fun other hmem => ?_, ?_⟩
  · rw [halone other (List.mem_append_left _ hmem)]
    exact hbefore other hmem
  · rw [halone part (List.mem_append_right _ (List.mem_cons_self ..)), hbad]
    rintro ⟨V, hV⟩
    cases hV

/-- **LOCAL AND ORDERED ERRORS**: a comma joins two fields that are read one after the other,
    and the set depends only on which parts there are. A refused field has the error of the
    first part that is refused alone, which names the first rule that this part breaks. -/
theorem parse_errors (b : Bounds) :
    (∀ first second : List Char,
      parse b (first ++ ',' :: second) =
        parse b first >>= fun V => parse b second >>= fun W => .ok (V.union W)) ∧
    (∀ (V W : Values b) (v : Nat), v ∈ V.union W ↔ v ∈ V ∨ v ∈ W) ∧
    (∀ (text text' : List Char) (V : Values b),
      (∀ part, part ∈ text.splitOn ',' ↔ part ∈ text'.splitOn ',') →
        parse b text = .ok V → parse b text' = .ok V) ∧
    (∀ text part : List Char, FirstBad b text part → parse b text = parse b part) ∧
    ∀ (text : List Char) (e : FieldError),
      parse b text = .error e ↔
        ∃ part, FirstBad b text part ∧ e.part = String.ofList part ∧
          FirstBroken b part e.fault := by
  refine ⟨parse_append, fun _ _ _ => Values.mem_union, fun _ _ _ => parse_eq_of_mem_iff,
    fun _ _ => parse_of_firstBad, fun text e => ⟨fun herror => ?_, ?_⟩⟩
  · obtain ⟨part, hfirst⟩ := exists_firstBad herror
    rw [parse_of_firstBad hfirst, parse_of_mem_parts hfirst.mem_parts] at herror
    exact ⟨part, hfirst, partValues_eq_error_iff.mp herror⟩
  · rintro ⟨part, hfirst, hbroken⟩
    rw [parse_of_firstBad hfirst, parse_of_mem_parts hfirst.mem_parts]
    exact partValues_eq_error_iff.mpr hbroken

-- the second part breaks the rule for steps and the one for ranges, and the third the bounds
example : parse { low := 1, high := 31 } "5,x-9/0,40".toList = .error ⟨"x-9/0", .step⟩ := by
  decide

end Field

end CronCalendar
