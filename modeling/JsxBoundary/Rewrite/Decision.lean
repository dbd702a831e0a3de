import JsxBoundary.Options.Basic
import JsxBoundary.Rewrite.Progress
import JsxBoundary.Rewrite.Weight
import JsxBoundary.Surroundings

/-!
# Decisions

What the rewrite does with one node, seen with its ancestors and with everything below it still
unchanged:

* an element that is a boundary-style component gets its children deferred;
* an element with a reading attribute is put behind a boundary as a whole;
* a container with a reading expression gives way to a boundary around that expression;
* any other node stays.

Nothing is put behind a boundary inside a boundary component or an observer call, and no container
inside an attribute.
-/

namespace JsxBoundary

structure Decision (n : Node) where
  node : Node
  replaced : Bool
  descend : Bool
  /-- What lies below the new node weighs less than `n`, so going on comes to an end. -/
  lighter : descend → ∀ c ∈ node.children, c.weight < n.weight

namespace Decision

def keep (n : Node) : Decision n :=
  ⟨n, false, true, fun _ _ => Node.weight_lt_of_mem_children⟩

end Decision

namespace Node

def isSheltered (s : Settings) (ancestors : Ancestors) : Bool :=
  ancestors.insideReactive s.reactiveComponents || ancestors.insideObserver s.observerNames

def decideContainer (s : Settings) (ancestors : Ancestors) (n expression : Node)
    (hn : n.form = .container expression) : Step (Decision n) := do
  if ancestors.insideAttribute || isSheltered s ancestors then
    return .keep n
  if h : expression.containsRead s.policy then
    let b := expression.boundary s.componentName (some n)
    modify Progress.mark
    let before ← ofExcept n.print
    let after ← ofExcept b.print
    modify fun p => (p.record (.boundary n.typeName before after)).note "Wrapped child expression"
    return ⟨b, true, true, fun _ _ =>
      weight_lt_of_mem_boundary hn (isFunction_eq_false_of_containsRead h)⟩
  return .keep n

def decideDeferral (s : Settings) (n : Node) : Step (Decision n) := do
  match h : n.deferChildren? with
  | some m =>
    match n.tagName?.filter s.deferringComponents.contains with
    | some tag =>
      modify (·.note ("Normalized children of <" ++ tag ++ ">"))
      let before ← ofExcept n.print
      let after ← ofExcept m.print
      modify (·.record (.deferral tag before after))
      return ⟨m, true, true, fun _ _ => weight_lt_of_mem_deferred h⟩
    | none => return .keep n
  | none => return .keep n

/-- An element has its children deferred where that applies; then it is put behind a boundary as a
whole if one of its attributes reads. -/
def decideElement (s : Settings) (ancestors : Ancestors) (n : Node) : Step (Decision n) := do
  match n.openingTag? with
  | none => throw .missingPart
  | some tag =>
    let d ← n.decideDeferral s
    if isSheltered s ancestors || !tag.hasReadingAttribute s.policy then
      return d
    let before ← ofExcept d.node.print
    let b := d.node.boundary s.componentName none
    modify Progress.mark
    let after ← ofExcept b.print
    modify fun p => (p.record (.boundary d.node.typeName before after)).note
      ("Wrapped element <" ++ (n.tagName?.filter (· != "")).getD "?" ++ ">")
    return ⟨b, true, false, nofun⟩

def decide (s : Settings) (ancestors : Ancestors) (n : Node) : Step (Decision n) :=
  match h : n.form with
  | .element _ _ _ => n.decideElement s ancestors
  | .container expression => n.decideContainer s ancestors expression h
  | _ => return .keep n

end Node

end JsxBoundary
