import JsxBoundary.Rewrite.Pass

namespace JsxBoundary

structure Outcome where
  code : String
  success : Bool
  changed : Bool
  rewriteCount : Nat
  errors : List String
  events : Array Event
  notes : Array String

namespace Fault

def report (fault : Fault) : String :=
  if fault.isSyntax then "Parse Error: " ++ fault.message?.getD ""
  else "Transform Error: " ++ fault.kind ++ (fault.message?.map (": " ++ ·)).getD ""

end Fault

namespace Outcome

/-- All steps of a transformation inside one phase of the trace, given what reading the source text
came to. -/
def steps (o : Options) (parsed : Except Fault Node) : StateM Walk String :=
  Walk.inPhase "Transform Pipeline" (o.componentName ++ " from " ++ o.importSource) do
    let root ← Walk.inPhase "Parsing" "Source -> Tree" fun w =>
      match parsed with
      | .ok root => (some root, w)
      | .error fault => (none, w.stop fault)
    let some root := root | return ""
    let root ← Pass.runAll (Pass.standard (.ofOptions o)) root
    if (← get).fault.isSome then return ""
    Walk.inPhase "Emission" "Tree -> Source" fun w =>
      match root.print with
      | .ok code => (code, w)
      | .error fault => ("", w.stop fault)

/-- The outcome of a module with the given source text, given what reading it came to. -/
def ofParsed (o : Options) (source : String) (parsed : Except Fault Node) : Outcome :=
  match steps o parsed ⟨{}, none⟩ with
  | (code, ⟨p, none⟩) =>
    ⟨code, true, code != source, p.rewriteCount, [], p.trace.events, p.notes⟩
  | (_, ⟨p, some fault⟩) =>
    let notes := if fault.isSyntax then p.notes
      else p.notes.push ("Transform aborted: " ++ fault.message?.getD "")
    ⟨source, false, false, 0, [fault.report], (p.trace.record (.warning fault.report)).events, notes⟩

def result (r : Outcome) : Except String String :=
  if r.success then .ok r.code
  else .error ("Transform failed:\n" ++ "\n".intercalate r.errors)

end Outcome

end JsxBoundary
