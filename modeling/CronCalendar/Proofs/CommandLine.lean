import CronCalendar.CommandLine
import CronCalendar.Proofs.Events
import CronCalendar.Proofs.Schedule.RoundTrip

/-!
# Command line — the tool shows what the library finds

A single search, a listing of texts and the tool all start from the same
expression and reference. They agree on whether there is an event, on the events
and on the error (`run_report_agrees`). The tool lists from the first event on and
not from the reference, which makes no difference, since a search finds its own
result again.

What the tool announces is read off its standard output line by line. That needs
care only for the command of a schedule, which is shown as it is and may break a
line: it holds no space, so no line of it looks like an announced event.
-/

namespace CronCalendar

/-! ## Lines of a text -/

namespace Text

/-- A label without the separator stays with the first piece. -/
theorem splitOn_append_of_not_mem {sep : Char} {label : List Char} (h : sep ∉ label)
    (text : List Char) :
    (label ++ text).splitOn sep = (text.splitOn sep).modifyHead (label ++ ·) := by
  induction label with
  | nil =>
      rw [List.nil_append]
      cases text.splitOn sep <;> rfl
  | cons c label ih =>
      have hc : sep ≠ c := List.ne_of_not_mem_cons h
      have hlabel : sep ∉ label := List.not_mem_of_not_mem_cons h
      have hne : ¬ (c == sep) = true := fun heq => hc (eq_of_beq heq).symm
      rw [List.cons_append, List.splitOn_cons_eq_if_modifyHead, if_neg hne, ih hlabel,
        List.modifyHead_modifyHead]
      rfl

/-- What stands in one of some texts stands in them joined. -/
theorem mem_intercalate_of_mem {sep c : Char} :
    ∀ (texts : List (List Char)), ∀ text ∈ texts, c ∈ text → c ∈ [sep].intercalate texts := by
  intro texts
  induction texts with
  | nil => intro text h; cases h
  | cons first more ih =>
      intro text h hc
      cases more with
      | nil =>
          rw [List.intercalate_singleton]
          rwa [List.mem_singleton.mp h] at hc
      | cons second more =>
          rw [List.intercalate_cons_cons, List.mem_append]
          rcases List.mem_cons.mp h with rfl | h
          · exact Or.inl (List.mem_append_left _ hc)
          · exact Or.inr (ih text h hc)

/-- The characters of a piece are characters of the text. -/
theorem mem_of_mem_splitOn {sep c : Char} {text piece : List Char}
    (h : piece ∈ text.splitOn sep) (hc : c ∈ piece) : c ∈ text := by
  have hjoined : [sep].intercalate (text.splitOn sep) = text := List.intercalate_splitOn sep
  rw [← hjoined]
  exact mem_intercalate_of_mem _ piece h hc

end Text

namespace CommandLine

/-- What a line starts with that announces an event. -/
def mark : List Char := ['n', 'e', 'x', 't', ' ', '#']

/-- The lines of a text that announce an event. -/
def announcedIn (text : List Char) : List (List Char) :=
  (text.splitOn '\n').filter mark.isPrefixOf

/-- The lines of an output that announce an event. -/
def announced (output : String) : List (List Char) := announcedIn output.toList

/-- Lines as they are put out, each with a line feed after it. -/
def outputOf (lines : List String) : String := String.join (lines.map (· ++ "\n"))

/-- What some lines announce is what each of them announces. -/
theorem announced_outputOf (lines : List String) :
    announced (outputOf lines) = lines.flatMap fun line => announcedIn line.toList := by
  rw [announced, outputOf, String.toList_join]
  induction lines with
  | nil => rfl
  | cons line lines ih =>
      have hline : (line ++ "\n").toList = line.toList ++ ['\n'] := String.toList_append
      rw [List.map_cons, List.flatMap_cons, hline, List.append_assoc, List.singleton_append,
        List.flatMap_cons, ← ih, announcedIn, List.splitOn_append_cons_self, List.filter_append]
      rfl

/-! ## The breakdown -/

/-- A line announces nothing if its label does not start as the mark does and no
    space follows the label. -/
theorem announcedIn_labelled {label value : List Char} (hne : label ≠ [])
    (hstart : label.head? ≠ mark.head?) (hlabel : '\n' ∉ label) (hvalue : ' ' ∉ value) :
    announcedIn (label ++ value) = [] := by
  rw [announcedIn, List.filter_eq_nil_iff, Text.splitOn_append_of_not_mem hlabel]
  intro piece hpiece hmark
  have hmark' : mark <+: piece := List.isPrefixOf_iff_prefix.mp hmark
  cases hsplit : value.splitOn '\n' with
  | nil => exact absurd hsplit (List.splitOn_ne_nil _ _)
  | cons first more =>
      rw [hsplit, List.modifyHead_cons] at hpiece
      rcases List.mem_cons.mp hpiece with rfl | hmore
      · -- the first line has the label, which starts in another way
        cases label with
        | nil => exact hne rfl
        | cons c label =>
            obtain ⟨rest, hrest⟩ := hmark'
            exact hstart (congrArg some (List.cons.inj hrest).1.symm)
      · -- every other line lies inside the value, and the mark holds a space
        have hspace : ' ' ∈ piece := hmark'.subset (by decide)
        have hmem : piece ∈ value.splitOn '\n' := by
          rw [hsplit]
          exact List.mem_cons_of_mem _ hmore
        exact hvalue (Text.mem_of_mem_splitOn hmem hspace)

/-- What stands before the values of a breakdown; all labels have one length. -/
def labels : List (List Char) :=
  ["minutes:  ".toList, "hours:    ".toList, "days:     ".toList, "months:   ".toList,
    "weekdays: ".toList, "command:  ".toList]

/-- What a breakdown shows behind the labels: the values of each field, and the
    command or nothing. -/
def shownValues (s : Schedule) : List (List Char) :=
  [s.minutes.chars, s.hours.chars, s.days.chars, s.months.chars, s.weekdays.chars,
    (s.command.map (·.text.toList)).getD []]

/-- Each line of a breakdown is a label with what is shown behind it. -/
theorem toList_breakdown (s : Schedule) :
    (breakdown s).map String.toList =
      (labels.zip (shownValues s)).map fun (label, value) => label ++ value := by
  rw [breakdown, shownValues, labels]
  cases s.command <;> simp [Values.text]

theorem space_not_mem_shownValues (s : Schedule) : ∀ value ∈ shownValues s, ' ' ∉ value := by
  intro value h
  simp only [shownValues, List.mem_cons, List.not_mem_nil, or_false] at h
  rcases h with rfl | rfl | rfl | rfl | rfl | rfl
  · exact s.minutes.space_not_mem_chars
  · exact s.hours.space_not_mem_chars
  · exact s.days.space_not_mem_chars
  · exact s.months.space_not_mem_chars
  · exact s.weekdays.space_not_mem_chars
  · cases s.command with
    | none => exact List.not_mem_nil
    | some command => exact command.no_space

/-- **NO EVENT** is announced by a breakdown, whatever the command is. -/
theorem announced_breakdown (s : Schedule) : announced (outputOf (breakdown s)) = [] := by
  rw [announced_outputOf, List.flatMap_eq_nil_iff]
  intro line hline
  have hmem := List.mem_map_of_mem (f := String.toList) hline
  rw [toList_breakdown] at hmem
  obtain ⟨⟨label, value⟩, hzip, heq⟩ := List.mem_map.mp hmem
  obtain ⟨hlabel, hvalue⟩ := List.of_mem_zip hzip
  have hlabels : ∀ label ∈ labels, label ≠ [] ∧ label.head? ≠ mark.head? ∧ '\n' ∉ label := by
    decide
  obtain ⟨hne, hstart, hfeed⟩ := hlabels label hlabel
  rw [← heq]
  exact announcedIn_labelled hne hstart hfeed (space_not_mem_shownValues s value hvalue)

/-- The texts behind the labels of a breakdown that are not empty, with a space
    between every two of them. -/
def shownText (lines : List String) : String :=
  String.ofList ([' '].intercalate ((lines.map (·.toList.drop 10)).filter (· ≠ [])))

theorem chars_ne_nil {b : Bounds} (V : Values b) : V.chars ≠ [] := by
  intro h
  -- the parts of a text of values are numbers, and no number is empty
  have hparts := V.parts_chars
  rw [h, Field.parts, List.splitOn_nil] at hparts
  have hmem : [] ∈ V.toList.map Numeral.digits := by
    rw [← hparts]
    exact List.mem_singleton_self _
  obtain ⟨v, -, hv⟩ := List.mem_map.mp hmem
  exact Numeral.digits_ne_nil v hv

/-- Only a missing command is shown as nothing, so the others are the words of the
    schedule. -/
theorem filter_shownValues (s : Schedule) : (shownValues s).filter (· ≠ []) = s.words := by
  have hcommand : [(s.command.map (·.text.toList)).getD []].filter (· ≠ []) =
      (s.command.map (·.text.toList)).toList := by
    cases s.command with
    | none => rfl
    | some command => simp [command.nonempty]
  rw [Schedule.words, ← hcommand]
  simp [shownValues, chars_ne_nil, List.filter_cons]

/-- **CANONICAL TEXT**: what a breakdown shows, between spaces. -/
theorem shownText_breakdown (s : Schedule) : shownText (breakdown s) = s.text := by
  have hdrop : (breakdown s).map (·.toList.drop 10) = shownValues s := by
    have hlines := congrArg (List.map (List.drop 10)) (toList_breakdown s)
    rw [List.map_map] at hlines
    exact hlines
  rw [shownText, hdrop, filter_shownValues, Schedule.text]

/-! ## The events -/

theorem newline_not_mem_event (event : DateTime) : '\n' ∉ Display.eventChars event := by
  have hdigits (n : Nat) : '\n' ∉ Numeral.digits n := Numeral.not_mem_digits rfl
  have hpadded (width n : Nat) : '\n' ∉ Numeral.padded width n := Numeral.not_mem_padded rfl
  have hyear (y : Int) : '\n' ∉ Display.year y := by
    rw [Display.year]
    split
    · simp [hpadded]
    · split <;> simp [hpadded]
  have hhalf (hour : Nat) : '\n' ∉ Display.halfOfDay hour := by
    rw [Display.halfOfDay]
    split <;> decide
  simp [Display.eventChars, hdigits, hpadded, hyear, hhalf]

/-- The lines that announce some texts, numbered from one. -/
def numbered (texts : List String) : List String :=
  (texts.zipIdx 1).map fun (text, number) => "next #" ++ Numeral.text number ++ ": " ++ text

/-- The lines for events are the numbered lines of their texts. -/
theorem eventLines_eq (events : List DateTime) :
    eventLines events = numbered (events.map Display.event) := by
  rw [eventLines, numbered, List.zipIdx_map, List.map_map]
  rfl

/-- The line of an event announces this event and nothing else. -/
theorem announcedIn_eventLine (event : DateTime) (number : Nat) :
    announcedIn (eventLine event number).toList = [(eventLine event number).toList] := by
  have hline : (eventLine event number).toList =
      mark ++ (Numeral.digits number ++ (": ".toList ++ Display.eventChars event)) := by
    have hmark : "next #".toList = mark := rfl
    simp only [eventLine, Numeral.text, Display.event, String.toList_append, hmark,
      String.toList_ofList, List.append_assoc]
  have hfeed : '\n' ∉ (eventLine event number).toList := by
    have hdigits : '\n' ∉ Numeral.digits number := Numeral.not_mem_digits rfl
    rw [hline]
    simp [mark, hdigits, newline_not_mem_event]
  have hmark : mark.isPrefixOf (eventLine event number).toList = true := by
    rw [hline, List.isPrefixOf_iff_prefix]
    exact List.prefix_append _ _
  rw [announcedIn, List.splitOn_eq_singleton hfeed, List.filter_singleton, hmark]
  rfl

/-- **EVERY EVENT** is announced by a line of its own. -/
theorem announced_eventLines (events : List DateTime) :
    announced (outputOf (eventLines events)) =
      (numbered (events.map Display.event)).map String.toList := by
  rw [← eventLines_eq, announced_outputOf, eventLines, List.flatMap_map, List.map_map]
  simp only [announcedIn_eventLine]
  exact List.map_eq_flatMap.symm

end CommandLine

/-! ## The library -/

namespace Expression

/-- **THREE OUTCOMES** of a search by an expression: it is refused, it has a first
    event, or it has none. -/
theorem nextOccurrence_cases (expression : String) (reference : DateTime) :
    (∃ e, Schedule.parse expression = .error e ∧
        nextOccurrence expression reference = .error (.expression e)) ∨
      ∃ s, Schedule.parse expression = .ok s ∧
        ((∃ first, s.next? reference = some first ∧
            nextOccurrence expression reference = .ok first) ∨
          s.next? reference = none ∧
            nextOccurrence expression reference = .error (.notFound s.text horizonYears)) := by
  rw [nextOccurrence, schedule]
  cases Schedule.parse expression with
  | error e => exact Or.inl ⟨e, rfl, rfl⟩
  | ok s =>
      refine Or.inr ⟨s, rfl, ?_⟩
      show (∃ first, _ ∧ s.nextOccurrence reference = .ok first) ∨
        _ ∧ s.nextOccurrence reference = _
      rw [Schedule.nextOccurrence]
      cases s.next? reference with
      | none => exact Or.inr ⟨rfl, rfl⟩
      | some first => exact Or.inl ⟨first, rfl, rfl⟩

end Expression

/-! ## The tool -/

namespace CommandLine

/-- What the tool leaves behind when it finds events with some texts: it shows
    the breakdown and announces exactly these texts, in their order. -/
structure Found (expression : String) (texts : List String) (o : Outcome) : Prop where
  exitCode : o.exitCode = 0
  output : ∃ s, Schedule.parse expression = .ok s ∧
    o.standardOutput = outputOf (breakdown s ++ numbered texts)
  announced : announced o.standardOutput = (numbered texts).map String.toList
  noError : o.standardError = ""

/-- What the tool leaves behind when there is an error: it announces nothing,
    and shows the breakdown only of a schedule without events. -/
structure Failed (expression : String) (e : CronError) (o : Outcome) : Prop where
  exitCode : o.exitCode = 1
  announced : announced o.standardOutput = []
  error : o.standardError = "error: " ++ e.message ++ "\n"
  breakdown : (∃ s, Schedule.parse expression = .ok s ∧
    o.standardOutput = outputOf (breakdown s)) ↔ e.isNotFound = true
  nothing : e.isNotFound = false → o.standardOutput = ""

/-- With a first event, the tool finds the events of the list. -/
theorem found_run {expression : String} {s : Schedule} {reference first : DateTime} {count : Nat}
    (hcount : 1 ≤ count) (hparse : Schedule.parse expression = .ok s)
    (hfirst : s.next? reference = some first) (now : DateTime) :
    Found expression (((Events.start s reference).toList.take count).map Display.event)
      ((Request.report expression count (some reference)).run now) := by
  have hevents : s.nextOccurrences first count =
      (Events.start s reference).toList.take count := by
    rw [Events.nextOccurrences_eq, Events.toList_start_first hfirst]
  have hrun : (Request.report expression count (some reference)).run now =
      .shown (breakdown s ++
        eventLines ((Events.start s reference).toList.take count)) := by
    rw [Request.run, report, Expression.schedule, hparse]
    simp only [if_neg (Nat.one_le_iff_ne_zero.mp hcount), Option.getD_some,
      Schedule.nextOccurrence, hfirst, hevents]
  rw [hrun]
  refine ⟨rfl, ⟨s, hparse, ?_⟩, ?_, rfl⟩
  · rw [← eventLines_eq]
    rfl
  · show announced (outputOf (_ ++ _)) = _
    rw [announced_outputOf, List.flatMap_append, ← announced_outputOf, ← announced_outputOf,
      announced_breakdown, announced_eventLines, List.nil_append]

/-- An expression that is refused makes the tool fail with the same error. -/
theorem failed_run_of_error {expression : String} {e : ExpressionError}
    (hparse : Schedule.parse expression = .error e) (now reference : DateTime) (count : Nat) :
    Failed expression (.expression e)
      ((Request.report expression count (some reference)).run now) := by
  have hrun : (Request.report expression count (some reference)).run now =
      .failed [] (.expression e) := by
    rw [Request.run, report, Expression.schedule, hparse]
  rw [hrun]
  refine ⟨rfl, rfl, rfl, ?_, fun _ => rfl⟩
  constructor
  · rintro ⟨s, hs, -⟩
    rw [hparse] at hs
    cases hs
  · intro h
    cases h

/-- Without an event, the tool fails and says that nothing was found. -/
theorem failed_run_of_none {expression : String} {s : Schedule} {reference : DateTime}
    {count : Nat} (hcount : 1 ≤ count) (hparse : Schedule.parse expression = .ok s)
    (hnone : s.next? reference = none) (now : DateTime) :
    Failed expression (.notFound s.text horizonYears)
      ((Request.report expression count (some reference)).run now) := by
  have hrun : (Request.report expression count (some reference)).run now =
      .failed (breakdown s) (.notFound s.text horizonYears) := by
    rw [Request.run, report, Expression.schedule, hparse]
    simp only [if_neg (Nat.one_le_iff_ne_zero.mp hcount), Option.getD_some,
      Schedule.nextOccurrence, hnone]
  rw [hrun]
  refine ⟨rfl, announced_breakdown s, rfl, ?_, ?_⟩
  · exact iff_of_true ⟨s, hparse, rfl⟩ rfl
  · intro h
    cases h

/-- The listing of a schedule shows the first events of its stream. -/
theorem listing_of_ok {expression : String} {s : Schedule}
    (hparse : Schedule.parse expression = .ok s) (reference : DateTime) (count : Nat) :
    Expression.listing expression reference count =
      ((Events.start s reference).toList.take count).map Display.event := by
  rw [Expression.listing, Expression.schedule, hparse]
  simp only [Events.nextOccurrences_eq]

/-- How a listing of texts and the tool agree with a single search. -/
structure Agreement (expression : String) (reference : DateTime) (count : Nat) (o : Outcome) :
    Prop where
  empty : Expression.listing expression reference count = [] ↔
    ∃ e, Expression.nextOccurrence expression reference = .error e
  listed : ∀ first, Expression.nextOccurrence expression reference = .ok first →
    ∃ s later, Schedule.parse expression = .ok s ∧
      (Events.start s reference).toList = first :: later ∧
      Expression.listing expression reference count =
        ((first :: later).take count).map Display.event
  exitCode : o.exitCode = 0 ↔
    ∃ first, Expression.nextOccurrence expression reference = .ok first
  found : ∀ first, Expression.nextOccurrence expression reference = .ok first →
    Found expression (Expression.listing expression reference count) o
  failed : ∀ e, Expression.nextOccurrence expression reference = .error e →
    Failed expression e o

/-- A failure agrees with a library that has the same error and lists nothing. -/
theorem agreement_of_failed {expression : String} {reference : DateTime} {count : Nat}
    {o : Outcome} {e : CronError}
    (hnext : Expression.nextOccurrence expression reference = .error e)
    (hempty : Expression.listing expression reference count = [])
    (hfailed : Failed expression e o) : Agreement expression reference count o := by
  have hnot : ∀ first, Expression.nextOccurrence expression reference ≠ .ok first := by
    intro first h
    rw [hnext] at h
    cases h
  constructor
  case empty => exact iff_of_true hempty ⟨e, hnext⟩
  case listed =>
      intro first h
      exact absurd h (hnot first)
  case exitCode =>
      refine iff_of_false ?_ fun ⟨first, h⟩ => hnot first h
      rw [hfailed.exitCode]
      decide
  case found =>
      intro first h
      exact absurd h (hnot first)
  case failed =>
      intro e' h
      rw [hnext, Except.error.injEq] at h
      rwa [← h]

/-- A tool that finds what the library lists agrees with it. -/
theorem agreement_of_found {expression : String} {s : Schedule} {reference first : DateTime}
    {count : Nat} {o : Outcome} (hcount : 1 ≤ count)
    (hparse : Schedule.parse expression = .ok s) (hfirst : s.next? reference = some first)
    (hnext : Expression.nextOccurrence expression reference = .ok first)
    (hfound : Found expression (Expression.listing expression reference count) o) :
    Agreement expression reference count o := by
  have hevents := Events.toList_of_next_some (Events.next_start_of_some hfirst)
  have hlisting := listing_of_ok hparse reference count
  rw [hevents] at hlisting
  have hnot : ∀ e, Expression.nextOccurrence expression reference ≠ .error e := by
    intro e h
    rw [hnext] at h
    cases h
  constructor
  case empty =>
      refine iff_of_false ?_ fun ⟨e, h⟩ => hnot e h
      -- at least one event is listed, since the count is not zero
      obtain ⟨n, rfl⟩ := Nat.exists_eq_add_of_le' hcount
      rw [hlisting]
      exact List.cons_ne_nil _ _
  case listed =>
      intro first' h
      rw [hnext, Except.ok.injEq] at h
      subst h
      exact ⟨s, _, hparse, hevents, hlisting⟩
  case exitCode => exact iff_of_true hfound.exitCode ⟨first, hnext⟩
  case found =>
      intro _ _
      exact hfound
  case failed =>
      intro e h
      exact absurd h (hnot e)

/-- Whatever the expression is, the tool agrees with the library: both refuse it, both
    find no event, or both find the same ones. -/
theorem agreement_run (now reference : DateTime) (expression : String) {count : Nat}
    (hcount : 1 ≤ count) :
    Agreement expression reference count
      ((Request.report expression count (some reference)).run now) := by
  rcases Expression.nextOccurrence_cases expression reference with
    ⟨e, hparse, hnext⟩ | ⟨s, hparse, ⟨first, hfirst, hnext⟩ | ⟨hnone, hnext⟩⟩
  · refine agreement_of_failed hnext ?_ (failed_run_of_error hparse now reference count)
    rw [Expression.listing, Expression.schedule, hparse]
  · refine agreement_of_found hcount hparse hfirst hnext ?_
    rw [listing_of_ok hparse]
    exact found_run hcount hparse hfirst now
  · refine agreement_of_failed hnext ?_ (failed_run_of_none hcount hparse hnone now)
    rw [listing_of_ok hparse, Events.toList_start_eq_nil_iff.mpr hnone, List.take_nil,
      List.map_nil]

/-- **ONE ANSWER** from every side. A listing is empty exactly when the single
    search fails, and else it has the texts of the first events, of which the
    search finds the first one. With the same expression, count and reference the
    tool succeeds exactly when the search does, and then announces the texts of
    the listing; or else it reports the error of the search. Whatever breakdown
    it shows, the shown values are the canonical text. -/
theorem run_report_agrees (now reference : DateTime) (expression : String) {count : Nat}
    (hcount : 1 ≤ count) :
    Agreement expression reference count
        ((Request.report expression count (some reference)).run now) ∧
      (∀ arguments, request arguments = .ok (.report expression count (some reference)) →
        Agreement expression reference count (run now arguments)) ∧
      ∀ s, shownText (breakdown s) = s.text := by
  have hagree := agreement_run now reference expression hcount
  refine ⟨hagree, ?_, shownText_breakdown⟩
  intro arguments harguments
  rw [run, harguments]
  exact hagree

/-- The last minute before a leap day. -/
def beforeLeapDay : DateTime where
  year := 2024
  month := 2
  day := 28
  hour := 23
  minute := 59
  second := 0
  nanosecond := 0
  year_bounds := by decide
  isDate := by decide
  isTimeOfDay := by decide

/-- The start of the leap day. -/
def startOfLeapDay : DateTime := (DateTime.of? 2024 2 29 0 0 0 0).get (by decide)

/-- The last minute of the leap day. -/
def endOfLeapDay : DateTime := (DateTime.of? 2024 2 29 23 59 0 0).get (by decide)

/-- Late on the day before, the first two events are one of this day and one of the leap
    day. -/
theorem take_beforeLeapDay :
    (Events.start (.daily 23 59) beforeLeapDay).toList.take 2 = [beforeLeapDay, endOfLeapDay] := by
  have hfirst : (Schedule.daily 23 59).next? beforeLeapDay = some beforeLeapDay :=
    Schedule.next?_daily ⟨rfl, rfl⟩ rfl rfl (by decide) (by decide) (by decide)
  have hafter : beforeLeapDay.nextMinute? = some startOfLeapDay := by decide
  have hsecond : (Schedule.daily 23 59).next? startOfLeapDay = some endOfLeapDay :=
    Schedule.next?_daily ⟨rfl, rfl⟩ rfl rfl (by decide) (by decide) (by decide)
  have hlater := Events.toList_of_next_some (Events.next_start_of_some hsecond)
  rw [Events.toList_of_next_some (Events.next_start_of_some hfirst), hafter,
    List.take_succ_cons]
  show beforeLeapDay :: (Events.start _ startOfLeapDay).toList.take 1 = _
  rw [hlater, List.take_succ_cons, List.take_zero]

/-- Two events around the start of a leap day, asked for by arguments. -/
theorem run_report_agrees_beforeLeapDay :
    1 ≤ 2 ∧
      request ["-n", "2", "-r", "2024-02-28T23:59", "59 23 * * *"] =
        .ok (.report "59 23 * * *" 2 (some beforeLeapDay)) ∧
      Expression.listing "59 23 * * *" beforeLeapDay 2 =
        ["2/28/2024, 11:59:00 PM", "2/29/2024, 11:59:00 PM"] ∧
      Agreement "59 23 * * *" beforeLeapDay 2
        (run beforeLeapDay ["-n", "2", "-r", "2024-02-28T23:59", "59 23 * * *"]) := by
  have hrequest : request ["-n", "2", "-r", "2024-02-28T23:59", "59 23 * * *"] =
      .ok (.report "59 23 * * *" 2 (some beforeLeapDay)) := by decide +kernel
  have hparse : Schedule.parse "59 23 * * *" = .ok (.daily 23 59) := by decide +kernel
  refine ⟨by decide, hrequest, ?_, ?_⟩
  · rw [listing_of_ok hparse, take_beforeLeapDay]
    decide
  · exact (run_report_agrees beforeLeapDay beforeLeapDay "59 23 * * *" (by decide)).2.1 _ hrequest

end CommandLine

end CronCalendar
