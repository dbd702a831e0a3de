import JsxBoundary.Fault
import JsxBoundary.Trace

namespace JsxBoundary

structure Progress where
  needsImport : Bool := false
  rewriteCount : Nat := 0
  trace : Trace := {}
  notes : Array String := #[]

namespace Progress

def mark (p : Progress) : Progress :=
  { p with needsImport := true, rewriteCount := p.rewriteCount + 1 }

def record (p : Progress) (action : Action) : Progress :=
  { p with trace := p.trace.record action }

def note (p : Progress) (line : String) : Progress :=
  { p with notes := p.notes.push line }

end Progress

abbrev Step := ExceptT Fault (StateM Progress)

namespace Step

def runFrom {α : Type} (step : Step α) (p : Progress) : Except Fault α × Progress :=
  step.run.run p

end Step

end JsxBoundary
