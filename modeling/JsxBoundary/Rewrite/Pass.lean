import JsxBoundary.Import
import JsxBoundary.Rewrite.Traversal

namespace JsxBoundary

namespace Walk

def stop (w : Walk) (fault : Fault) : Walk :=
  { w with fault := some fault }

def record (w : Walk) (action : Action) : Walk :=
  { w with progress := w.progress.record action }

/-- Runs a computation inside a phase, which is closed however the computation ends. -/
def inPhase {α : Type} (name detail : String) (run : StateM Walk α) : StateM Walk α := do
  modify fun w => { w with progress.trace := w.progress.trace.startPhase name detail }
  let a ← run
  modify fun w => { w with progress.trace := w.progress.trace.endPhase }
  return a

end Walk

structure Pass where
  name : String
  detail : String
  run : Node → StateM Walk Node

namespace Pass

def wrapReads (s : Settings) : Pass where
  name := "Auto-Wrap"
  detail := "AutoWrapPass"
  run := Node.rewriteRoot s

def importWrapper (s : Settings) : Pass where
  name := "Import Injection"
  detail := "ImportInjectionPass"
  run root := fun w =>
    if !w.progress.needsImport then (root, w) else
    match root.injectImport s.componentName s.importSource with
    | .error fault => (root, w.stop fault)
    | .ok none =>
      (root, w.record (.importing "Already present" (s.componentName ++ " from " ++ s.importSource)))
    | .ok (some root') =>
      match (Node.namedImport s.componentName s.importSource).print with
      | .error fault => (root', w.stop fault)
      | .ok statement =>
        let p := w.progress.record (.importing "Injected" statement)
        (root', { w with progress := p.note ("Injected " ++ statement) })

def standard (s : Settings) : List Pass :=
  [wrapReads s, importWrapper s]

def runAll : List Pass → Node → StateM Walk Node
  | [], root => pure root
  | pass :: passes, root => do
    let root ← Walk.inPhase pass.name pass.detail (pass.run root)
    if (← get).fault.isSome then return root else runAll passes root

end Pass

end JsxBoundary
