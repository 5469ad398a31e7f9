import CronCalendar.Proofs.Events.Calls
import CronCalendar.Session

/-!
# Sessions — what a run of steps keeps

What a step can do is said once (`Effect`), and each fact about steps is read off
there. A step that fails leaves the session as it was (`Effect.eq_of_failed`), so the
failed steps of a run can be left out of it (`run_succeeding`). The event that is
remembered is the last one that was handed out (`last_run`). And a stream is only
touched by its own calls: whatever else a run does in between, also to the schedule
of the stream, the stream hands out what it would hand out alone (`run_stream`).
-/

namespace CronCalendar

namespace Named

variable {α : Type}

/-- The first entry is found under its own name, and the others behind it. -/
theorem get?_cons (first other : String) (value : α) (entries : Named α) :
    get? other ((first, value) :: entries) = if other = first then some value
      else entries.get? other := by
  rw [get?, List.lookup_cons]
  by_cases h : other = first
  · rw [if_pos h, beq_iff_eq.mpr h]
  · rw [if_neg h, beq_eq_false_iff_ne.mpr h]
    rfl

/-- Erasing takes away what is under the name, and nothing else. -/
theorem get?_erase (name other : String) (entries : Named α) :
    (entries.erase name).get? other = if other = name then none else entries.get? other := by
  induction entries with
  | nil => exact (ite_self none).symm
  | cons entry entries ih =>
      obtain ⟨first, value⟩ := entry
      rw [erase] at ih
      rw [erase, List.filter_cons, get?_cons]
      by_cases hfirst : first = name
      · rw [if_neg (by simpa using hfirst), ih, hfirst]
        by_cases hother : other = name
        · rw [if_pos hother, if_pos hother]
        · rw [if_neg hother, if_neg hother, if_neg hother]
      · rw [if_pos (by simpa using hfirst), get?_cons, ih]
        by_cases hother : other = first
        · rw [if_pos hother, if_pos hother, if_neg (hother ▸ hfirst)]
        · rw [if_neg hother, if_neg hother]

/-- Putting a value under a name changes what is there, and nothing else. -/
theorem get?_put (name other : String) (value : α) (entries : Named α) :
    (entries.put name value).get? other =
      if other = name then some value else entries.get? other := by
  rw [put, get?_cons]
  by_cases hother : other = name
  · rw [if_pos hother, if_pos hother]
  · rw [if_neg hother, if_neg hother, get?_erase, if_neg hother]

end Named

namespace Session

/-! ## One step -/

/-- The schedule and the reference that a step needs. -/
def Step.needs? : Step → Option (String × Reference)
  | .iterate _ source reference => some (source, reference)
  | .consume _ source reference => some (source, reference)
  | .nextOccurrence source reference => some (source, reference)
  | _ => none

/-- Everything that a step can do: the answer to it, and the session that it leaves. -/
inductive Effect (s : Session) : Step → Answer → Session → Prop where
  | noReference {x : Step} {source : String} {reference : Reference} :
      x.needs? = some (source, reference) → s.resolve? reference = none →
      Effect s x (.missing .reference) s
  | noSchedule {x : Step} {source : String} {reference : Reference} :
      x.needs? = some (source, reference) → s.schedules.get? source = none →
      Effect s x (.missing .schedule) s
  | noStream {stream : String} {call : Call} : s.streams.get? stream = none →
      Effect s (.call stream call) (.missing .stream) s
  | notRead {name expression : String} {e : ExpressionError} :
      Schedule.parse expression = .error e →
      Effect s (.parse name expression) (.refused (.expression e)) s
  | notFound {source : String} {reference : Reference} {time : DateTime} {schedule : Schedule}
      {e : CronError} : s.resolve? reference = some time →
      s.schedules.get? source = some schedule → schedule.nextOccurrence time = .error e →
      Effect s (.nextOccurrence source reference) (.refused e) s
  | parsed {name expression : String} {schedule : Schedule} :
      Schedule.parse expression = .ok schedule →
      Effect s (.parse name expression) (.parsed schedule.text)
        { s with schedules := s.schedules.put name schedule }
  | iterated {name source : String} {reference : Reference} {time : DateTime}
      {schedule : Schedule} : s.resolve? reference = some time →
      s.schedules.get? source = some schedule →
      Effect s (.iterate name source reference) .started
        { s with streams := s.streams.put name (Events.start schedule time) }
  | consumed {name source : String} {reference : Reference} {time : DateTime}
      {schedule : Schedule} : s.resolve? reference = some time →
      s.schedules.get? source = some schedule →
      Effect s (.consume name source reference) .started
        { s with
          schedules := s.schedules.erase source
          streams := s.streams.put name (Events.start schedule time) }
  | called {stream : String} {call : Call} {events : Events} :
      s.streams.get? stream = some events →
      Effect s (.call stream call) (.handed (events.call call).1)
        (remember (events.call call).1.toList
          { s with streams := s.streams.put stream (events.call call).2 })
  | found {source : String} {reference : Reference} {time event : DateTime}
      {schedule : Schedule} : s.resolve? reference = some time →
      s.schedules.get? source = some schedule → schedule.nextOccurrence time = .ok event →
      Effect s (.nextOccurrence source reference) (.found event) (remember [event] s)

variable {s later : Session} {x : Step} {answer : Answer} {name : String} {e : Events}

/-- A step that needs a reference and a schedule acts if both are there. -/
theorem effect_withSchedule {source : String} {reference : Reference}
    {action : DateTime → Schedule → Answer × Session} (hneeds : x.needs? = some (source, reference))
    (haction : ∀ time schedule, s.resolve? reference = some time →
      s.schedules.get? source = some schedule →
      Effect s x (action time schedule).1 (action time schedule).2) :
    Effect s x (s.withSchedule source reference action).1
      (s.withSchedule source reference action).2 := by
  rw [withSchedule]
  split
  · next hnone => exact .noReference hneeds hnone
  · next time htime =>
      split
      · next hnone => exact .noSchedule hneeds hnone
      · next schedule hschedule => exact haction time schedule htime hschedule

/-- **A STEP** does nothing else. -/
theorem effect_step (s : Session) (x : Step) : Effect s x (s.step x).1 (s.step x).2 := by
  cases x with
  | parse name expression =>
      rw [step]
      split
      · next schedule hparse => exact .parsed hparse
      · next e hparse => exact .notRead hparse
  | iterate name source reference =>
      exact effect_withSchedule rfl fun time schedule htime hschedule => .iterated htime hschedule
  | consume name source reference =>
      exact effect_withSchedule rfl fun time schedule htime hschedule => .consumed htime hschedule
  | call stream call =>
      rw [step]
      split
      · next hnone => exact .noStream hnone
      · next events hevents => exact .called hevents
  | nextOccurrence source reference =>
      refine effect_withSchedule rfl fun time schedule htime hschedule => ?_
      split
      · next event hevent => exact .found htime hschedule hevent
      · next e hevent => exact .notFound htime hschedule hevent

/-! ### What a step keeps -/

/-- The answers to the steps that fail. -/
def Answer.failed : Answer → Bool
  | .refused _ => true
  | .missing _ => true
  | _ => false

/-- The events that an answer hands out. -/
def Answer.events : Answer → List DateTime
  | .handed events => events.toList
  | .found event => [event]
  | _ => []

/-- **A FAILED STEP** leaves the session as it was. -/
theorem Effect.eq_of_failed (h : Effect s x answer later) (hfailed : answer.failed = true) :
    later = s := by
  cases h with
  | noReference | noSchedule | noStream | notRead | notFound => rfl
  | parsed | iterated | consumed | called | found => cases hfailed

/-- Of some events the last one is remembered, and without any the one before. -/
theorem last_remember (events : List DateTime) (s : Session) :
    (remember events s).last = events.getLast?.or s.last := by
  rw [remember]
  split
  · next event hevent => rw [hevent, Option.some_or]
  · next hnone => rw [hnone, Option.none_or]

theorem streams_remember (events : List DateTime) (s : Session) :
    (remember events s).streams = s.streams := by
  rw [remember]
  split <;> rfl

/-- The last event that a step hands out is remembered, and the one before if it hands
    out none. -/
theorem Effect.last_eq (h : Effect s x answer later) :
    later.last = answer.events.getLast?.or s.last := by
  cases h with
  | called | found => exact last_remember _ _
  | noReference | noSchedule | noStream | notRead | notFound => rfl
  | parsed | iterated | consumed => rfl

/-! ### What a step does to one stream -/

/-- A step that starts a stream under a name, whatever is there. -/
def Step.Starts (name : String) : Step → Prop
  | .iterate stream _ _ => stream = name
  | .consume stream _ _ => stream = name
  | _ => False

/-- The call on the stream under a name that a step is. -/
def Step.callOn? (name : String) : Step → Option Call
  | .call stream c => if stream = name then some c else none
  | _ => none

/-- What the stream under a name hands out in a step, by the answer to it. -/
def heard? (name : String) : Step × Answer → Option Handed
  | (.call stream _, .handed handed) => if stream = name then some handed else none
  | _ => none

/-- Only a start or a call changes what is under a name. -/
theorem Effect.streams_eq (h : Effect s x answer later) (hx : ¬ x.Starts name)
    (hcall : x.callOn? name = none) :
    later.streams.get? name = s.streams.get? name := by
  cases h with
  | noReference | noSchedule | noStream | notRead | notFound | parsed => rfl
  | found _ _ _ => rw [streams_remember]
  | iterated _ _ => exact (Named.get?_put _ _ _ _).trans (if_neg (Ne.symm hx))
  | consumed _ _ => exact (Named.get?_put _ _ _ _).trans (if_neg (Ne.symm hx))
  | @called stream _ _ _ =>
      have hother : ¬ name = stream := by
        rintro rfl
        rw [Step.callOn?, if_pos rfl] at hcall
        cases hcall
      rw [streams_remember]
      exact (Named.get?_put _ _ _ _).trans (if_neg hother)

/-- **ONE STREAM** is touched by the calls on it and by nothing else, unless another one
    is started under its name. -/
theorem Effect.stream (h : Effect s x answer later) (hx : ¬ x.Starts name)
    (he : s.streams.get? name = some e) :
    (x.callOn? name = none ∧ heard? name (x, answer) = none ∧
        later.streams.get? name = some e) ∨
      ∃ call, x.callOn? name = some call ∧ heard? name (x, answer) = some (e.call call).1 ∧
        later.streams.get? name = some (e.call call).2 := by
  cases hcall : x.callOn? name with
  | none =>
      refine Or.inl ⟨rfl, ?_, (h.streams_eq hx hcall).trans he⟩
      -- a call on another stream is the only step whose answer could be heard here
      cases h with
      | @called stream call events _ =>
          rw [Step.callOn?, ite_eq_right_iff] at hcall
          exact if_neg fun hname => nomatch hcall hname
      | noReference _ _ => cases x <;> rfl
      | noSchedule _ _ => cases x <;> rfl
      | _ => rfl
  | some call =>
      refine Or.inr ⟨call, rfl, ?_⟩
      cases x with
      | call stream c =>
          rw [Step.callOn?, Option.ite_none_right_eq_some] at hcall
          obtain ⟨rfl, hc⟩ := hcall
          obtain rfl := Option.some.inj hc
          cases h with
          | noReference hneeds _ => cases hneeds
          | noSchedule hneeds _ => cases hneeds
          | noStream hnone =>
              rw [he] at hnone
              cases hnone
          | called hevents =>
              obtain rfl := Option.some.inj (he.symm.trans hevents)
              rw [streams_remember]
              exact ⟨if_pos rfl, (Named.get?_put _ _ _ _).trans (if_pos rfl)⟩
      | _ => cases hcall

/-- A stream that a step has started is the one of a schedule that is there, from the
    reference that the step names. -/
theorem Effect.started (h : Effect s x .started later) (hx : x.Starts name) :
    ∃ source reference schedule time, x.needs? = some (source, reference) ∧
      s.schedules.get? source = some schedule ∧ s.resolve? reference = some time ∧
      later.streams.get? name = some (Events.start schedule time) := by
  cases h with
  | @iterated stream source reference time schedule htime hschedule =>
      obtain rfl : stream = name := hx
      exact ⟨source, reference, schedule, time, rfl, hschedule, htime,
        (Named.get?_put _ _ _ _).trans (if_pos rfl)⟩
  | @consumed stream source reference time schedule htime hschedule =>
      obtain rfl : stream = name := hx
      exact ⟨source, reference, schedule, time, rfl, hschedule, htime,
        (Named.get?_put _ _ _ _).trans (if_pos rfl)⟩

/-! ## A run of steps -/

/-- The answers to some steps, one after the other, and the session that they leave. -/
def run : Session → List Step → List Answer × Session
  | s, [] => ([], s)
  | s, x :: steps =>
      let (answer, rest) := s.step x
      let (more, rest) := rest.run steps
      (answer :: more, rest)

theorem run_cons (s : Session) (x : Step) (steps : List Step) :
    s.run (x :: steps) =
      ((s.step x).1 :: ((s.step x).2.run steps).1, ((s.step x).2.run steps).2) := rfl

/-- The steps of a run that do not fail. -/
def succeeding : Session → List Step → List Step
  | _, [] => []
  | s, x :: steps =>
      if (s.step x).1.failed then (s.step x).2.succeeding steps
      else x :: (s.step x).2.succeeding steps

/-- **FAILED STEPS DO NOT COUNT**: a run without them has the same other answers and
    leaves the same session. -/
theorem run_succeeding (steps : List Step) :
    ∀ s : Session, s.run (s.succeeding steps) =
      ((s.run steps).1.filter fun answer => !answer.failed, (s.run steps).2) := by
  induction steps with
  | nil => intro s; rfl
  | cons x steps ih =>
      intro s
      rw [succeeding, run_cons]
      cases hfailed : (s.step x).1.failed with
      | true =>
          rw [(effect_step s x).eq_of_failed hfailed, if_pos rfl, ih,
            List.filter_cons_of_neg (by simp [hfailed])]
      | false =>
          rw [if_neg Bool.false_ne_true, run_cons, ih,
            List.filter_cons_of_pos (by simp [hfailed])]

/-- **THE LAST EVENT** that a run hands out is remembered at its end. -/
theorem last_run (steps : List Step) :
    ∀ s : Session, (s.run steps).2.last =
      ((s.run steps).1.flatMap Answer.events).getLast?.or s.last := by
  induction steps with
  | nil => intro s; rfl
  | cons x steps ih =>
      intro s
      rw [run_cons, ih, (effect_step s x).last_eq, List.flatMap_cons, List.getLast?_append,
        Option.or_assoc]

/-- **A STREAM ON ITS OWN**: its calls in a run hand out what they hand out alone, with
    whatever other steps in between, as long as none of them starts another stream
    under its name. -/
theorem run_stream (steps : List Step) :
    ∀ {s : Session} {e : Events}, s.streams.get? name = some e →
      (∀ x ∈ steps, ¬ x.Starts name) →
      (steps.zip (s.run steps).1).filterMap (heard? name) =
          (e.run (steps.filterMap (Step.callOn? name))).1 ∧
        (s.run steps).2.streams.get? name =
          some (e.run (steps.filterMap (Step.callOn? name))).2 := by
  induction steps with
  | nil => intro s e he _; exact ⟨rfl, he⟩
  | cons x steps ih =>
      intro s e he hkept
      obtain ⟨hx, hsteps⟩ := List.forall_mem_cons.mp hkept
      rw [run_cons, List.zip_cons_cons]
      rcases (effect_step s x).stream hx he with ⟨hcall, hheard, hlater⟩ |
        ⟨call, hcall, hheard, hlater⟩
      · rw [List.filterMap_cons_none hcall, List.filterMap_cons_none hheard]
        exact ih hlater hsteps
      · rw [List.filterMap_cons_some hcall, List.filterMap_cons_some hheard]
        obtain ⟨hmore, hrest⟩ := ih hlater hsteps
        exact ⟨congrArg _ hmore, hrest⟩

/-- **A STARTED STREAM** hands out the events of its schedule from its reference on, piece
    by piece, whatever happens to the schedule after the start. -/
theorem run_started {steps : List Step} (hx : x.Starts name) (hstarted : (s.step x).1 = .started)
    (hkept : ∀ y ∈ steps, ¬ y.Starts name) :
    ∃ source reference schedule time, x.needs? = some (source, reference) ∧
      s.schedules.get? source = some schedule ∧ s.resolve? reference = some time ∧
      ∀ k : Nat, ((steps.zip ((s.step x).2.run steps).1).filterMap (heard? name))[k]? =
        (steps.filterMap (Step.callOn? name))[k]?.map fun c : Call =>
          c.pieceOf ((Events.start schedule time).toList.drop
            (Events.used ((steps.filterMap (Step.callOn? name)).take k))) := by
  have heffect := effect_step s x
  rw [hstarted] at heffect
  obtain ⟨source, reference, schedule, time, hneeds, hschedule, htime, hstream⟩ :=
    heffect.started hx
  refine ⟨source, reference, schedule, time, hneeds, hschedule, htime, fun k => ?_⟩
  rw [(run_stream steps hstream hkept).1]
  exact (Events.run_eq _ _).1 k

end Session

end CronCalendar
