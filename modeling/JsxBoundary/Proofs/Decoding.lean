import JsxBoundary.Proofs.Phases
import JsxBoundary.Trace.Calls

/-!
# Reading the nesting off the events

`nesting` replays events without looking at more than what is exported: a start is pushed, an end pops.
After every change of a trace this comes to the phases that the trace holds as open, and every event
points into that stack as it should (`Trace.Decodable`), whatever calls the program makes
(`calls_decodable`).
-/

namespace JsxBoundary

namespace Event

def nest (opened : List (Nat × String)) (e : Event) : List (Nat × String) :=
  if e.action.type = "phase_start" then (e.seq, e.action.description) :: opened
  else if e.action.type = "phase_end" then opened.tail
  else opened

/-- How the event points into the stack of phases that are open before it: the end of a phase to the start
that it pops, whose name it has, and any other event to the top of the stack. -/
def Points (opened : List (Nat × String)) (e : Event) : Prop :=
  if e.action.type = "phase_end" then
    ∃ start rest, opened = start :: rest ∧ e.phase = some start.1 ∧ e.action.description = start.2
  else e.phase = opened.head?.map (·.1)

theorem nest_of_step? {e : Event} {opened after : List (Nat × String)}
    (h : e.step? opened = some after) : e.nest opened = after ∧ e.Points opened := by
  obtain ⟨seq, action, phase⟩ := e
  unfold step? at h
  split at h
  · cases h
  · rename_i top
    have inside : phase = opened.head?.map (·.1) := not_not.1 top
    clear top
    dsimp only at h
    cases action with
    | phaseStart name detail =>
        cases h
        exact ⟨rfl, inside⟩
    | phaseEnd name =>
        cases opened with
        | nil => cases h
        | cons start rest =>
            simp only [List.head?_cons, Option.map_some, Option.some.injEq] at h inside
            split at h
            · rename_i same
              cases h
              exact ⟨rfl, start, rest, rfl, inside, same.symm⟩
            · cases h
    | boundary | deferral | importing | warning =>
        cases h
        exact ⟨rfl, inside⟩

end Event

/-- The phases that are open after the events. -/
def nesting (events : List Event) : List (Nat × String) :=
  events.foldl Event.nest []

theorem nesting_concat (events : List Event) (e : Event) :
    nesting (events ++ [e]) = e.nest (nesting events) := by
  simp [nesting, List.foldl_append]

theorem nesting_of_openAfter {events : List Event} {opened : List (Nat × String)}
    (h : openAfter events = some opened) : nesting events = opened := by
  induction events using List.reverseRecOn generalizing opened with
  | nil =>
      cases h
      rfl
  | append_singleton events e ih =>
      rw [openAfter_concat] at h
      obtain ⟨before, found, step⟩ := Option.bind_eq_some_iff.1 h
      rw [nesting_concat, ih found]
      exact (Event.nest_of_step? step).1

theorem openAfter_append {events more : List Event} {opened : List (Nat × String)}
    (h : openAfter (events ++ more) = some opened) : ∃ before, openAfter events = some before := by
  rw [openAfter, List.foldlM_append] at h
  obtain ⟨before, found, _⟩ := Option.bind_eq_some_iff.1 h
  exact ⟨before, found⟩

theorem points_of_openAfter {events : List Event} {opened : List (Nat × String)}
    (h : openAfter events = some opened) {i : Nat} {e : Event} (found : events[i]? = some e) :
    e.Points (nesting (events.take i)) := by
  obtain ⟨bound, rfl⟩ := List.getElem?_eq_some_iff.1 found
  have split : events.take i ++ [events[i]] ++ events.drop (i + 1) = events := by
    rw [List.take_append_getElem, List.take_append_drop]
  rw [← split] at h
  obtain ⟨after, front⟩ := openAfter_append h
  rw [openAfter_concat] at front
  obtain ⟨before, earlier, step⟩ := Option.bind_eq_some_iff.1 front
  rw [nesting_of_openAfter earlier]
  exact (Event.nest_of_step? step).2

namespace Trace

/-- The events are numbered, replaying them comes to the phases that the trace holds as open, and each
event points into the stack of the phases that are open before it. -/
structure Decodable (t : Trace) : Prop where
  numbered : Numbered t.events.toList
  nested : nesting t.events.toList = t.openPhases
  points : ∀ (i : Nat) (e : Event), t.events.toList[i]? = some e →
    e.Points (nesting (t.events.toList.take i))

theorem Sound.decodable {t : Trace} (h : t.Sound) : t.Decodable :=
  ⟨h.numbered, nesting_of_openAfter h.replays, fun _ _ => points_of_openAfter h.replays⟩

theorem Sound.apply {t : Trace} (h : t.Sound) (operation : Operation) : (t.apply operation).Sound := by
  cases operation with
  | startPhase name detail => exact h.startPhase name detail
  | endPhase => exact h.endPhase
  | log remark =>
      refine h.record ?_
      cases remark <;> rfl

theorem sound_ofOperations (operations : List Operation) : (ofOperations operations).Sound := by
  induction operations using List.reverseRecOn with
  | nil => exact .empty
  | append_singleton operations operation ih =>
      rw [ofOperations, List.foldl_append]
      exact ih.apply operation

theorem events_apply (t : Trace) (operation : Operation) :
    operation = .endPhase ∧ t.openPhases = [] ∧ t.apply operation = t ∨
      (operation = .endPhase → t.openPhases ≠ []) ∧
        ∃ e, (t.apply operation).events = t.events.push e := by
  obtain ⟨events, opened⟩ := t
  cases operation with
  | startPhase | log => exact .inr ⟨nofun, _, rfl⟩
  | endPhase =>
      cases opened with
      | nil => exact .inl ⟨rfl, rfl, rfl⟩
      | cons start rest => exact .inr ⟨nofun, _, rfl⟩

theorem apply_eq_self_iff (t : Trace) (operation : Operation) :
    (t.apply operation).events = t.events ↔ operation = .endPhase ∧ t.openPhases = [] := by
  rcases t.events_apply operation with ⟨ends, closed, same⟩ | ⟨opened, e, more⟩
  · exact iff_of_true (congrArg events same) ⟨ends, closed⟩
  · have grown : (t.apply operation).events ≠ t.events := by
      intro same
      have size := congrArg Array.size (more.symm.trans same)
      simp at size
    exact iff_of_false grown fun ⟨ends, closed⟩ => opened ends closed

theorem events_prefix (t : Trace) (operations : List Operation) :
    t.events.toList <+: (operations.foldl apply t).events.toList := by
  induction operations generalizing t with
  | nil => exact List.prefix_refl _
  | cons operation operations ih =>
      refine .trans ?_ (ih (t.apply operation))
      rcases t.events_apply operation with ⟨_, _, same⟩ | ⟨_, e, more⟩
      · simp only [same, List.prefix_refl]
      · rw [more, Array.toList_push]
        exact List.prefix_append _ _

end Trace

/-- The trace of a program can be read without anything but its events. After each of the changes that the
calls come to, replaying the events recorded so far gives the open phases of the trace at that moment, and
the next change records nothing exactly if it ends a phase and none is open. -/
theorem calls_decodable (calls : List Call) :
    (Call.runAll {} calls).2 = Trace.ofOperations (Call.operationsOf calls) ∧
    ∀ done rest, Call.operationsOf calls = done ++ rest →
      (Trace.ofOperations done).Decodable ∧
      (Trace.ofOperations done).events.toList <+: (Call.runAll {} calls).2.events.toList ∧
      ∀ next ∈ rest.head?,
        ((Trace.ofOperations (done ++ [next])).events = (Trace.ofOperations done).events ↔
          next = .endPhase ∧ nesting (Trace.ofOperations done).events.toList = []) := by
  have run : (Call.runAll {} calls).2 = Trace.ofOperations (Call.operationsOf calls) := by
    rw [Call.runAll_eq]
    rfl
  refine ⟨run, fun done rest split => ?_⟩
  have decodable := (Trace.sound_ofOperations done).decodable
  refine ⟨decodable, ?_, fun next _ => ?_⟩
  · rw [run, split, Trace.ofOperations, Trace.ofOperations, List.foldl_append]
    exact Trace.events_prefix _ rest
  · rw [decodable.nested, Trace.ofOperations, List.foldl_append]
    exact Trace.apply_eq_self_iff _ next

end JsxBoundary
