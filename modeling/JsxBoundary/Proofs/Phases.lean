import JsxBoundary.Trace
import Mathlib.Data.List.Induction

namespace JsxBoundary

namespace Action

def isPhase : Action → Bool
  | .phaseStart _ _ | .phaseEnd _ => true
  | _ => false

end Action

namespace Event

def ends (start : Nat) (e : Event) : Bool :=
  match e.action with
  | .phaseEnd _ => e.phase == some start
  | _ => false

/-- The open phases after the event, given those before it, the innermost first. The event must belong
to the innermost open phase, and an end must have the name of that phase. -/
def step? (opened : List (Nat × String)) (e : Event) : Option (List (Nat × String)) :=
  if e.phase ≠ opened.head?.map (·.1) then none else
  match e.action with
  | .phaseStart name _ => some ((e.seq, name) :: opened)
  | .phaseEnd name => if opened.head?.map (·.2) = some name then some opened.tail else none
  | _ => some opened

end Event

def openAfter (events : List Event) : Option (List (Nat × String)) :=
  events.foldlM Event.step? []

def Numbered (events : List Event) : Prop :=
  ∀ (i : Nat) (e : Event), events[i]? = some e → e.seq = i

/-- Events of phases that nest and are all closed. -/
structure Balanced (events : List Event) : Prop where
  numbered : Numbered events
  nested : openAfter events = some []
  closed : ∀ e ∈ events, ∀ name detail, e.action = .phaseStart name detail →
    ∃ f, events.filter (Event.ends e.seq) = [f] ∧ f.action = .phaseEnd name ∧ e.seq < f.seq

theorem openAfter_concat (events : List Event) (e : Event) :
    openAfter (events ++ [e]) = (openAfter events).bind fun opened => e.step? opened := by
  simp [openAfter, List.foldlM_append]

theorem Numbered.concat {events : List Event} {e : Event} (h : Numbered events)
    (last : e.seq = events.length) : Numbered (events ++ [e]) := by
  intro i f found
  rcases Nat.lt_trichotomy i events.length with below | rfl | above
  · rw [List.getElem?_append_left below] at found
    exact h i f found
  · simp only [List.getElem?_concat_length, Option.some.injEq] at found
    exact found ▸ last
  · rw [List.getElem?_eq_none (by simp; omega)] at found
    cases found

theorem Numbered.front {events : List Event} {e : Event} (h : Numbered (events ++ [e])) :
    Numbered events ∧ e.seq = events.length := by
  refine ⟨fun i f found => h i f ?_, h _ e (by simp)⟩
  rwa [List.getElem?_append_left (List.getElem?_eq_some_iff.1 found).1]

theorem Numbered.lt {events : List Event} (h : Numbered events) {e : Event} (member : e ∈ events) :
    e.seq < events.length := by
  obtain ⟨i, found⟩ := List.getElem?_of_mem member
  rw [h i e found]
  exact (List.getElem?_eq_some_iff.1 found).1

namespace Event

inductive Steps (e : Event) : List (Nat × String) → List (Nat × String) → Prop
  | starts {opened : List (Nat × String)} {name detail : String}
      (action : e.action = .phaseStart name detail) : Steps e opened ((e.seq, name) :: opened)
  | closes {start : Nat} {name : String} {rest : List (Nat × String)}
      (action : e.action = .phaseEnd name) (phase : e.phase = some start) :
      Steps e ((start, name) :: rest) rest
  | other {opened : List (Nat × String)} (action : e.action.isPhase = false) : Steps e opened opened

theorem steps_of_step? {e : Event} {opened after : List (Nat × String)}
    (h : e.step? opened = some after) : e.Steps opened after := by
  obtain ⟨seq, action, phase⟩ := e
  unfold step? at h
  split at h
  · cases h
  · rename_i inside
    dsimp only at inside h
    cases action with
    | phaseStart name detail =>
        cases h
        exact .starts rfl
    | phaseEnd name =>
        match opened with
        | [] => cases h
        | (start, innermost) :: rest =>
            simp only [List.head?_cons, Option.map_some, Option.some.injEq] at h inside
            split at h
            · rename_i same
              cases h
              exact same ▸ .closes rfl (not_not.1 inside)
            · cases h
    | boundary | deferral | importing | warning =>
        cases h
        exact .other rfl

theorem ends_eq_false {e : Event} (h : e.action.isPhase = false) (start : Nat) :
    e.ends start = false := by
  obtain ⟨seq, action, phase⟩ := e
  cases action <;> first | rfl | cases h

theorem ends_of_start {e : Event} {name detail : String} (h : e.action = .phaseStart name detail)
    (start : Nat) : e.ends start = false := by
  simp [ends, h]

theorem ends_of_end {e : Event} {name : String} (h : e.action = .phaseEnd name) (start : Nat) :
    e.ends start = (e.phase == some start) := by
  simp [ends, h]

end Event

structure Replayed (events : List Event) (opened : List (Nat × String)) : Prop where
  earlier : ∀ phase ∈ opened, phase.1 < events.length
  distinct : opened.Pairwise fun a b => a.1 ≠ b.1
  unended : ∀ phase ∈ opened, events.filter (Event.ends phase.1) = []
  ended : ∀ e ∈ events, ∀ name detail, e.action = .phaseStart name detail →
    (e.seq, name) ∈ opened ∨
      ∃ f, events.filter (Event.ends e.seq) = [f] ∧ f.action = .phaseEnd name ∧ e.seq < f.seq
  backward : ∀ f ∈ events, ∀ start, f.ends start = true → start < events.length

namespace Replayed

variable {events : List Event} {opened after : List (Nat × String)} {e : Event}

theorem nil : Replayed [] [] where
  earlier := nofun
  distinct := .nil
  unended := nofun
  ended := nofun
  backward := nofun

theorem filter_concat (events : List Event) (silent : ∀ start, e.ends start = false) (start : Nat) :
    (events ++ [e]).filter (Event.ends start) = events.filter (Event.ends start) := by
  simp [List.filter_append, silent]

theorem starts (h : Replayed events opened) {name detail : String}
    (last : e.seq = events.length) (action : e.action = .phaseStart name detail) :
    Replayed (events ++ [e]) ((e.seq, name) :: opened) := by
  have same := filter_concat events (Event.ends_of_start action)
  -- An end names an earlier event, so none of those before names this one.
  have fresh : events.filter (Event.ends e.seq) = [] := by
    refine List.filter_eq_nil_iff.2 fun f member ends => ?_
    have := h.backward f member _ ends
    omega
  refine ⟨?_, ?_, ?_, ?_, ?_⟩
  · rintro phase (_ | ⟨_, member⟩)
    · simp [last]
    · simpa using Nat.lt_succ_of_lt (h.earlier phase member)
  · refine .cons (fun phase member => ?_) h.distinct
    have := h.earlier phase member
    dsimp only
    omega
  · rintro phase (_ | ⟨_, member⟩)
    · rw [same, fresh]
    · rw [same, h.unended phase member]
  · intro d member name' detail' start
    rcases List.mem_append.1 member with member | member
    · rcases h.ended d member name' detail' start with still | ended
      · exact .inl (.tail _ still)
      · exact .inr (by rwa [same])
    · obtain rfl := List.mem_singleton.1 member
      rw [action] at start
      cases start
      exact .inl (.head _)
  · intro f member start ends
    rcases List.mem_append.1 member with member | member
    · simpa using Nat.lt_succ_of_lt (h.backward f member start ends)
    · obtain rfl := List.mem_singleton.1 member
      rw [Event.ends_of_start action] at ends
      cases ends

theorem closes {start : Nat} {name : String} (h : Replayed events ((start, name) :: after))
    (numbered : Numbered events) (last : e.seq = events.length) (action : e.action = .phaseEnd name)
    (phase : e.phase = some start) : Replayed (events ++ [e]) after := by
  have here : e.ends start = true := by simp [Event.ends_of_end action, phase]
  have elsewhere : ∀ other, other ≠ start →
      (events ++ [e]).filter (Event.ends other) = events.filter (Event.ends other) := by
    intro other different
    have silent : e.ends other = false := by
      rw [Event.ends_of_end action, phase]
      simpa using different.symm
    simp [List.filter_append, silent]
  obtain ⟨apart, distinct⟩ := List.pairwise_cons.1 h.distinct
  refine ⟨?_, distinct, ?_, ?_, ?_⟩
  · intro p member
    simpa using Nat.lt_succ_of_lt (h.earlier p (.tail _ member))
  · intro p member
    rw [elsewhere p.1 (apart p member).symm]
    exact h.unended p (.tail _ member)
  · intro d member name' detail' start'
    have member : d ∈ events := by
      rcases List.mem_append.1 member with member | member
      · exact member
      · obtain rfl := List.mem_singleton.1 member
        rw [action] at start'
        cases start'
    rcases h.ended d member name' detail' start' with still | ⟨f, ends, rest⟩
    · rcases List.mem_cons.1 still with same | still
      · -- The phase that the event closes.
        cases same
        refine .inr ⟨e, ?_, action, last ▸ numbered.lt member⟩
        rw [List.filter_append, h.unended _ (.head _), List.nil_append]
        simp [here]
      · exact .inl still
    · refine .inr ⟨f, ?_, rest⟩
      have different : d.seq ≠ start := by
        intro same
        have none := h.unended (start, name) (.head _)
        rw [same] at ends
        simp [ends] at none
      rw [elsewhere _ different, ends]
  · intro f member other ends
    rcases List.mem_append.1 member with member | member
    · simpa using Nat.lt_succ_of_lt (h.backward f member other ends)
    · obtain rfl := List.mem_singleton.1 member
      have same : other = start := by
        rw [Event.ends_of_end action, phase] at ends
        simpa using Eq.symm (by simpa using ends)
      rw [same]
      simpa using Nat.lt_succ_of_lt (h.earlier (start, name) (.head _))

theorem other (h : Replayed events opened) (action : e.action.isPhase = false) :
    Replayed (events ++ [e]) opened := by
  have same := filter_concat events (Event.ends_eq_false action)
  refine ⟨?_, h.distinct, ?_, ?_, ?_⟩
  · intro phase member
    simpa using Nat.lt_succ_of_lt (h.earlier phase member)
  · intro phase member
    rw [same, h.unended phase member]
  · intro d member name detail start
    rcases List.mem_append.1 member with member | member
    · rw [same]
      exact h.ended d member name detail start
    · obtain rfl := List.mem_singleton.1 member
      rw [start] at action
      cases action
  · intro f member start ends
    rcases List.mem_append.1 member with member | member
    · simpa using Nat.lt_succ_of_lt (h.backward f member start ends)
    · obtain rfl := List.mem_singleton.1 member
      rw [Event.ends_eq_false action] at ends
      cases ends

theorem of_replay {events : List Event} {opened : List (Nat × String)} (numbered : Numbered events)
    (replay : openAfter events = some opened) : Replayed events opened := by
  induction events using List.reverseRecOn generalizing opened with
  | nil =>
      cases replay
      exact .nil
  | append_singleton events e ih =>
      obtain ⟨front, last⟩ := numbered.front
      rw [openAfter_concat] at replay
      obtain ⟨before, found, step⟩ := Option.bind_eq_some_iff.1 replay
      have replayed := ih front found
      cases Event.steps_of_step? step with
      | starts action => exact replayed.starts last action
      | closes action phase => exact replayed.closes front last action phase
      | other action => exact replayed.other action

end Replayed

theorem Balanced.of_replay {events : List Event} (numbered : Numbered events)
    (nested : openAfter events = some []) : Balanced events := by
  refine ⟨numbered, nested, fun e member name detail start => ?_⟩
  rcases (Replayed.of_replay numbered nested).ended e member name detail start with opened | closed
  · cases opened
  · exact closed

namespace Trace

/-- The events are numbered, and their replay comes to the phases that the trace holds as open. -/
structure Sound (t : Trace) : Prop where
  numbered : Numbered t.events.toList
  replays : openAfter t.events.toList = some t.openPhases

theorem Sound.empty : Sound {} :=
  ⟨nofun, rfl⟩

variable {t : Trace}

theorem Sound.record (h : t.Sound) {action : Action} (quiet : action.isPhase = false) :
    (t.record action).Sound := by
  refine ⟨?_, ?_⟩
  · simp only [Trace.record, Array.toList_push]
    exact h.numbered.concat (by simp)
  · simp only [Trace.record, Array.toList_push, openAfter_concat, h.replays, Option.bind_some]
    cases action with
    | phaseStart | phaseEnd => cases quiet
    | _ => simp [Event.step?]

theorem Sound.startPhase (h : t.Sound) (name detail : String) : (t.startPhase name detail).Sound := by
  refine ⟨?_, ?_⟩
  · simp only [Trace.startPhase, Trace.record, Array.toList_push]
    exact h.numbered.concat (by simp)
  · simp only [Trace.startPhase, Trace.record, Array.toList_push, openAfter_concat, h.replays,
      Option.bind_some]
    simp [Event.step?]

theorem Sound.endPhase (h : t.Sound) : t.endPhase.Sound := by
  obtain ⟨events, opened⟩ := t
  match opened with
  | [] => exact h
  | (start, name) :: rest =>
      refine ⟨?_, ?_⟩
      · simp only [Trace.endPhase, Array.toList_push]
        exact h.numbered.concat (by simp)
      · simp only [Trace.endPhase, Array.toList_push, openAfter_concat, h.replays, Option.bind_some]
        simp [Event.step?]

theorem Sound.foldl_record {log : List Action} (quiet : ∀ a ∈ log, a.isPhase = false) {t : Trace}
    (h : t.Sound) : (log.foldl Trace.record t).Sound := by
  induction log generalizing t with
  | nil => exact h
  | cons a log ih =>
      exact ih (fun b member => quiet b (.tail _ member)) (h.record (quiet a (.head _)))

theorem Sound.balanced (h : t.Sound) (closed : t.openPhases = []) : Balanced t.events.toList :=
  .of_replay h.numbered (closed ▸ h.replays)

theorem openPhases_endPhase (t : Trace) : t.endPhase.openPhases = t.openPhases.tail := by
  unfold endPhase
  split
  · rename_i none
    rw [none]
    rfl
  · rename_i found
    rw [found]
    rfl

end Trace

end JsxBoundary
