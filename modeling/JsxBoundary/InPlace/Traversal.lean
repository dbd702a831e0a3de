import JsxBoundary.InPlace.Replacement
import JsxBoundary.Rewrite.Traversal

/-!
# The traversal in place

The rewrite as a loop over a stack of objects that are still to be visited. Visiting an object decides
about it, puts the decided object in its place in the parent, and pushes the children of that object.
Objects change in place, so the parent of a waiting object may have other children by the time the object
is visited, and the ancestors are seen as they are then.

`visit` is one turn of the loop. It does nothing once the stack is empty or a fault has occurred.
-/

namespace JsxBoundary.InPlace

structure Store where
  heap : Heap
  progress : Progress

/-- A step that adds objects, may stop with a fault, and leaves what it did before a fault. -/
abbrev Edit := ExceptT Fault (StateM Store)

namespace Edit

def runFrom {α : Type} (edit : Edit α) (σ : Store) : Except Fault α × Store :=
  edit.run.run σ

def build {α : Type} (make : Build α) : Edit α := do
  let σ ← get
  let (a, h) := make σ.heap
  set { σ with heap := h }
  return a

def log (f : Progress → Progress) : Edit Unit :=
  modify fun σ => { σ with progress := f σ.progress }

def emit (r : Ref) : Edit String := do
  let σ ← get
  match (σ.heap.tree r).print with
  | .ok text => return text
  | .error fault => throw fault

end Edit

open Edit

namespace Heap

def isSheltered (h : Heap) (s : Settings) (ancestors : List Ref) : Bool :=
  ancestors.any (h.isElementNamed s.reactiveComponents) ||
    ancestors.any (h.isCallNamed s.observerNames)

end Heap

def editContainer (s : Settings) (ancestors : List Ref) (container expression : Ref) :
    Edit (Ref × Bool) := do
  let h := (← get).heap
  if ancestors.any h.isAttribute || h.isSheltered s ancestors then return (container, true)
  if (h.tree expression).containsRead s.policy then
    let b ← build (Build.boundary s.componentName expression (some container))
    log Progress.mark
    let before ← emit container
    let after ← emit b
    log fun p => (p.record (.boundary (h.tree container).typeName before after)).note
      "Wrapped child expression"
    return (b, true)
  return (container, true)

def editDeferral (s : Settings) (element : Ref) : Edit Ref := do
  let h := (← get).heap
  match (h.tree element).tagName?.filter s.deferringComponents.contains with
  | none => return element
  | some tag =>
    match ← build (Build.deferral element) with
    | none => return element
    | some m =>
      log (·.note ("Normalized children of <" ++ tag ++ ">"))
      let before ← emit element
      let after ← emit m
      log (·.record (.deferral tag before after))
      return m

def editElement (s : Settings) (ancestors : List Ref) (element : Ref) : Edit (Ref × Bool) := do
  let n := (← get).heap.tree element
  match n.openingTag? with
  | none => throw .missingPart
  | some tag =>
    let current ← editDeferral s element
    let h := (← get).heap
    if h.isSheltered s ancestors || !tag.hasReadingAttribute s.policy then return (current, true)
    let before ← emit current
    let b ← build (Build.boundary s.componentName current none)
    log Progress.mark
    let after ← emit b
    log fun p => (p.record (.boundary (h.tree current).typeName before after)).note
      ("Wrapped element <" ++ (n.tagName?.filter (· != "")).getD "?" ++ ">")
    return (b, false)

def edit (s : Settings) (ancestors : List Ref) (r : Ref) : Edit (Ref × Bool) := do
  match (← get).heap.form? r with
  | some (.element _ _ _) => editElement s ancestors r
  | some (.container expression) => editContainer s ancestors r expression
  | _ => return (r, true)

structure Entry where
  node : Ref
  parent : Option Ref
  ancestors : List Ref

structure Machine where
  heap : Heap
  stack : List Entry
  walk : Walk

namespace Machine

def start (h : Heap) (root : Ref) (w : Walk) : Machine :=
  ⟨h, [⟨root, none, []⟩], w⟩

def install (h : Heap) (e : Entry) (current : Ref) : Except Fault Heap :=
  if current = e.node then .ok h else
    match e.parent with
    | none => .error .rootReplaced
    | some parent => h.replaceChild parent e.node current

def visit (s : Settings) (σ : Machine) : Machine :=
  match σ.walk.fault, σ.stack with
  | some _, _ | none, [] => σ
  | none, e :: rest =>
    match (edit s e.ancestors e.node).runFrom ⟨σ.heap, σ.walk.progress⟩ with
    | (.error fault, ⟨h, p⟩) => ⟨h, rest, ⟨p, some fault⟩⟩
    | (.ok (current, descend), ⟨h, p⟩) =>
      match install h e current with
      | .error fault => ⟨h, rest, ⟨p, some fault⟩⟩
      | .ok h =>
        let below := if descend then h.children current else []
        ⟨h, below.map (⟨·, some current, current :: e.ancestors⟩) ++ rest, ⟨p, none⟩⟩

end Machine

end JsxBoundary.InPlace
