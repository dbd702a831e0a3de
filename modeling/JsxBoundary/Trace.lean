/-!
# Traces

A trace records what happened to one module, in order: phases, nested; boundaries inserted and
children deferred, with the source text before and after; what became of the import; warnings.

Every event has its position as a number and points to the phase around it, so the nesting can be
read off the events alone. The end of a phase points to the start that it closes.
-/

namespace JsxBoundary

inductive Action where
  | phaseStart (name detail : String)
  | phaseEnd (name : String)
  | boundary (node before after : String)
  | deferral (tag before after : String)
  | importing (action statement : String)
  | warning (message : String)
  deriving DecidableEq, Repr

namespace Action

def type : Action → String
  | .phaseStart _ _ => "phase_start"
  | .phaseEnd _ => "phase_end"
  | .boundary _ _ _ => "boundary_inserted"
  | .deferral _ _ _ => "children_normalized"
  | .importing _ _ => "import_action"
  | .warning _ => "warning"

def description : Action → String
  | .phaseStart name _ | .phaseEnd name => name
  | .boundary node _ _ => "Wrapped " ++ node
  | .deferral tag _ _ => "Deferred children of <" ++ tag ++ ">"
  | .importing action _ => action
  | .warning message => message

def metadata : Action → List (String × String)
  | .phaseStart _ detail => [("detail", detail)]
  | .boundary _ before after | .deferral _ before after => [("before", before), ("after", after)]
  | .importing _ statement => [("statement", statement)]
  | .phaseEnd _ | .warning _ => []

end Action

structure Event where
  seq : Nat
  action : Action
  phase : Option Nat
  deriving DecidableEq, Repr

/-- The events of one module and the phases that are still open, the innermost first, each with the
position of its start and its name. -/
structure Trace where
  events : Array Event := #[]
  openPhases : List (Nat × String) := []

namespace Trace

def record (t : Trace) (action : Action) : Trace :=
  { t with events := t.events.push ⟨t.events.size, action, t.openPhases.head?.map (·.1)⟩ }

def startPhase (t : Trace) (name detail : String) : Trace :=
  { t.record (.phaseStart name detail) with
    openPhases := (t.events.size, name) :: t.openPhases }

def endPhase (t : Trace) : Trace :=
  match t.openPhases with
  | [] => t
  | (seq, name) :: rest =>
    { events := t.events.push ⟨t.events.size, .phaseEnd name, some seq⟩, openPhases := rest }

@[simp] theorem openPhases_record (t : Trace) (action : Action) :
    (t.record action).openPhases = t.openPhases := rfl

end Trace

end JsxBoundary
