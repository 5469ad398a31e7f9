import CronCalendar.Proofs.Events

/-!
# Calls — a stream that is read in pieces hands out its list piece by piece

A call hands out a piece of what is still to come and leaves the events behind
it (`call_eq`). So the calls of a run hand out consecutive pieces of the list of
the stream, in whatever order they come, and nothing after one of them has asked
for more than was left (`run_eq`). A stream can also be left and started again: at
one of its events it starts with this event, and a minute later with the one
after it (`toList_start_of_append`). Both together are `run_pieces`.
-/

namespace CronCalendar

namespace Call

/-- The number of events that a call uses up, as long as so many are left. -/
def size : Call → Nat
  | .next => 1
  | .nth n => n + 1
  | .take n => n

/-- What a call hands out of the events that are still to come: the first one, the
    one after `n` others, or the first `n`. -/
def pieceOf (events : List DateTime) : Call → Handed
  | .next => .one events.head?
  | .nth n => .one events[n]?
  | .take n => .several (events.take n)

/-- The number of events that a call wants to hand out. -/
def wanted : Call → Nat
  | .next => 1
  | .nth _ => 1
  | .take n => n

/-- A call has hit the end when it hands out less than it wants to. -/
def HitsEnd (c : Call) (handed : Handed) : Prop := handed.toList.length < c.wanted

/-- What hits the end uses up all that is left. -/
theorem length_le_of_hitsEnd {c : Call} {events : List DateTime}
    (h : c.HitsEnd (c.pieceOf events)) : events.length ≤ c.size := by
  cases c with
  | next =>
      cases events with
      | nil => exact Nat.zero_le _
      | cons event later => exact absurd h (lt_irrefl 1)
  | nth n =>
      by_contra hmore
      have hlt : n < events.length := by
        rw [size] at hmore
        omega
      rw [HitsEnd, pieceOf, List.getElem?_eq_getElem hlt] at h
      exact absurd h (lt_irrefl 1)
  | take n =>
      have hlength : min n events.length < n := by
        rw [← List.length_take]
        exact h
      show events.length ≤ n
      omega

theorem toList_pieceOf_nil (c : Call) : (c.pieceOf []).toList = [] := by
  cases c with
  | next => rfl
  | nth n => rfl
  | take n => exact List.take_nil

end Call

namespace Events

/-! ## One call -/

/-- Where nothing is handed out, nothing is left and nothing comes back. -/
theorem toList_eq_nil_of_next_none {e rest : Events} (h : e.next = (none, rest)) :
    e.toList = [] ∧ rest.toList = [] := by
  obtain ⟨-, hrest⟩ := next_eq_toList e
  rw [h, toList_of_next_none h] at hrest
  exact ⟨toList_of_next_none h, hrest⟩

/-- Skipping hands out the event after those that are skipped, and leaves what is behind
    it. -/
theorem nth_eq (n : Nat) :
    ∀ e : Events, (nth n e).1 = e.toList[n]? ∧ (nth n e).2.toList = e.toList.drop (n + 1) := by
  induction n with
  | zero =>
      intro e
      obtain ⟨hevent, hrest⟩ := next_eq_toList e
      rw [nth, hevent, hrest, List.head?_eq_getElem?, List.drop_one]
      exact ⟨rfl, rfl⟩
  | succ n ih =>
      intro e
      rw [nth]
      split
      · next rest h =>
          obtain ⟨hnil, hrest⟩ := toList_eq_nil_of_next_none h
          rw [hnil]
          exact ⟨rfl, hrest⟩
      · next event rest h =>
          rw [toList_of_next_some h]
          exact ih rest

/-- Taking leaves what is behind the events that are taken. -/
theorem toList_take_snd (n : Nat) : ∀ e : Events, (take n e).2.toList = e.toList.drop n := by
  induction n with
  | zero => intro e; rfl
  | succ n ih =>
      intro e
      rw [take]
      split
      · next rest h =>
          obtain ⟨hnil, hrest⟩ := toList_eq_nil_of_next_none h
          rw [hnil]
          exact hrest
      · next event rest h =>
          rw [toList_of_next_some h]
          exact ih rest

/-- **ONE CALL** hands out a piece of the list and leaves what comes after the events
    that it uses up. -/
theorem call_eq (e : Events) (c : Call) :
    (e.call c).1 = c.pieceOf e.toList ∧ (e.call c).2.toList = e.toList.drop c.size := by
  cases c with
  | next =>
      obtain ⟨hevent, hrest⟩ := next_eq_toList e
      rw [← List.drop_one] at hrest
      exact ⟨congrArg Handed.one hevent, hrest⟩
  | nth n =>
      obtain ⟨hevent, hrest⟩ := nth_eq n e
      exact ⟨congrArg Handed.one hevent, hrest⟩
  | take n => exact ⟨congrArg Handed.several (take_fst n e), toList_take_snd n e⟩

/-! ## A run of calls -/

/-- What some calls hand out, one after the other, and the stream that they leave. -/
def run : Events → List Call → List Handed × Events
  | e, [] => ([], e)
  | e, c :: later =>
      let (handed, rest) := e.call c
      let (more, rest) := rest.run later
      (handed :: more, rest)

/-- The number of events that some calls use up, as long as so many are left. -/
def used (calls : List Call) : Nat := (calls.map Call.size).sum

/-- **A RUN OF CALLS** hands out consecutive pieces of the list. -/
theorem run_eq :
    ∀ (calls : List Call) (e : Events),
      (∀ k : Nat, (e.run calls).1[k]? =
          calls[k]?.map fun c : Call => c.pieceOf (e.toList.drop (used (calls.take k)))) ∧
        (e.run calls).2.toList = e.toList.drop (used calls) := by
  intro calls
  induction calls with
  | nil => intro e; exact ⟨fun k => rfl, rfl⟩
  | cons c later ih =>
      intro e
      obtain ⟨hhanded, hrest⟩ := call_eq e c
      obtain ⟨hmore, hleft⟩ := ih (e.call c).2
      -- what later calls drop comes on top of what this call has used up
      have hdrop : ∀ calls, (e.call c).2.toList.drop (used calls) =
          e.toList.drop (used (c :: calls)) := by
        intro calls
        rw [hrest, List.drop_drop]
        rfl
      constructor
      · intro k
        cases k with
        | zero => exact congrArg some hhanded
        | succ k =>
            rw [List.take_succ_cons, ← hdrop]
            exact hmore k
      · rw [← hdrop]
        exact hleft

/-! ### After the end -/

theorem used_append (calls later : List Call) :
    used (calls ++ later) = used calls + used later := by
  rw [used, used, used, List.map_append, List.sum_append]

/-- More calls do not use up less. -/
theorem used_take_le {calls : List Call} {j k : Nat} (h : j ≤ k) :
    used (calls.take j) ≤ used (calls.take k) := by
  obtain ⟨n, rfl⟩ := Nat.exists_eq_add_of_le h
  rw [List.take_add, used_append]
  exact Nat.le_add_right _ _

/-- One more call uses up its own size more. -/
theorem used_take_succ {calls : List Call} {j : Nat} {c : Call} (h : calls[j]? = some c) :
    used (calls.take (j + 1)) = used (calls.take j) + c.size := by
  rw [List.take_add_one, h, used_append]
  rfl

/-- **THE END** is for good: once a call has hit it, nothing is handed out any more. -/
theorem toList_eq_nil_of_hitsEnd {e : Events} {calls : List Call} {j k : Nat} {c : Call}
    {short later : Handed} (hjk : j < k) (hc : calls[j]? = some c)
    (hshort : (e.run calls).1[j]? = some short) (hend : c.HitsEnd short)
    (hlater : (e.run calls).1[k]? = some later) : later.toList = [] := by
  rw [(run_eq calls e).1, hc, Option.map_some, Option.some.injEq] at hshort
  rw [(run_eq calls e).1, Option.map_eq_some_iff] at hlater
  obtain ⟨d, -, rfl⟩ := hlater
  have hall : e.toList.length ≤ used (calls.take k) := by
    rw [← hshort] at hend
    have hleft := Call.length_le_of_hitsEnd hend
    have hmore : used (calls.take (j + 1)) ≤ used (calls.take k) := used_take_le hjk
    rw [List.length_drop] at hleft
    rw [used_take_succ hc] at hmore
    omega
  rw [List.drop_eq_nil_of_le hall]
  exact d.toList_pieceOf_nil

/-! ## Fresh starts -/

/-- The events that were found are followed by those that a fresh start finds a minute
    after the last of them, also when they are fewer than were asked for. -/
theorem nextOccurrences_add {s : Schedule} {reference last : DateTime} {m : Nat} (n : Nat)
    (hlast : last ∈ (s.nextOccurrences reference m).getLast?) :
    s.nextOccurrences reference (m + n) = s.nextOccurrences reference m ++
      (take n ⟨s, last.shift? 60⟩).1 := by
  simp only [nextOccurrences_eq] at hlast ⊢
  obtain ⟨before, hbefore⟩ := List.getLast?_eq_some_iff.mp hlast
  -- what is taken ends with the last event, and the rest comes after it
  have hlist : (start s reference).toList =
      before ++ last :: (start s reference).toList.drop m := by
    conv_lhs => rw [← List.take_append_drop m (start s reference).toList, hbefore]
    rw [List.append_assoc]
    rfl
  obtain ⟨hwhole, -, hafter⟩ := toList_start_of_append before reference hlist
  rw [List.take_add, take_fst, DateTime.shift?_sixty hwhole, hafter]

/-- **IN PIECES**: repeated calls of `next` hand out the list of a stream, and any
    other calls hand out consecutive pieces of it, until one hits the end and none
    of the later ones hands out anything. A fresh start at an event goes on with
    this event, and one a minute later with what comes after it, if time has not
    ended there. So more events than were found first are those and then the
    events from a minute after the last of them on. -/
theorem run_pieces (s : Schedule) (reference : DateTime) :
    (∀ k : Nat, ((fun e : Events => e.next.2)^[k] (start s reference)).next.1 =
        (start s reference).toList[k]?) ∧
      (∀ calls : List Call,
        (∀ k : Nat, ((start s reference).run calls).1[k]? =
          calls[k]?.map fun c : Call =>
            c.pieceOf ((start s reference).toList.drop (used (calls.take k)))) ∧
        ((start s reference).run calls).2.toList =
          (start s reference).toList.drop (used calls) ∧
        ∀ (j k : Nat) (c : Call) (short later : Handed), j < k → calls[j]? = some c →
          ((start s reference).run calls).1[j]? = some short → c.HitsEnd short →
            ((start s reference).run calls).1[k]? = some later → later.toList = []) ∧
      (∀ before event after, (start s reference).toList = before ++ event :: after →
        (start s event).toList = event :: after ∧
          (∀ start', event.shift? 60 = some start' → (start s start').toList = after) ∧
          (event.shift? 60 = none → after = [])) ∧
      ∀ m n, ∀ last ∈ (s.nextOccurrences reference m).getLast?,
        (∀ start', last.shift? 60 = some start' →
          s.nextOccurrences reference (m + n) =
            s.nextOccurrences reference m ++ s.nextOccurrences start' n) ∧
        (last.shift? 60 = none →
          s.nextOccurrences reference (m + n) = s.nextOccurrences reference m) := by
  refine ⟨fun k => ?_, fun calls => ?_, fun before event after h => ?_,
    fun m n last hlast => ?_⟩
  · rw [(next_eq_toList _).1, toList_iterate_next, List.head?_drop]
  · obtain ⟨hpieces, hleft⟩ := run_eq calls (start s reference)
    exact ⟨hpieces, hleft, fun j k c short later => toList_eq_nil_of_hitsEnd⟩
  · -- an event is a whole minute, so a minute later is the minute after it, or time has ended
    obtain ⟨hwhole, hevent, hafter⟩ := toList_start_of_append before reference h
    rw [← DateTime.shift?_sixty hwhole] at hafter
    refine ⟨hevent, fun start' hstart => ?_, fun hnone => ?_⟩
    · rw [hstart] at hafter
      exact hafter
    · rw [hnone, toList_ended] at hafter
      exact hafter.symm
  · have hadd := nextOccurrences_add n hlast
    refine ⟨fun start' hstart => ?_, fun hnone => ?_⟩
    · rw [hadd, hstart]
      rfl
    · rw [hadd, hnone, take_fst, toList_ended, List.take_nil, List.append_nil]

end Events

end CronCalendar
