import JsxBoundary.Rewrite.Decision

/-!
# The rewrite of a tree

`Node.rewrite` decides about a node while everything below it is unchanged, puts the decided node in
its place and, unless the node was put behind a boundary as a whole, goes on with the children of the
new node, which then has joined the ancestors.

A fault ends the rewrite; the tree keeps the changes made up to then.
-/

namespace JsxBoundary

/-- The state of the rewrite of a tree: the progress, and the fault that ended it, if any. -/
structure Walk where
  progress : Progress
  fault : Option Fault := none

namespace Node

def rewrite (s : Settings) (ancestors : Ancestors) (n : Node) : StateM Walk Node := fun w =>
  if w.fault.isSome then (n, w) else
  match (n.decide s ancestors).runFrom w.progress with
  | (.error fault, p) => (n, ⟨p, some fault⟩)
  | (.ok d, p) =>
    if _h : d.descend then
      let below : StateM Walk (List Node) := d.node.children.attach.mapM fun ⟨c, _⟩ =>
        c.rewrite s (d.node :: ancestors)
      let (cs, w') := below ⟨p, none⟩
      (d.node.withChildren cs, w')
    else (d.node, ⟨p, none⟩)
termination_by n.weight
decreasing_by exact d.lighter _h _ ‹_›

/-- Rewrites a whole tree. The root has no parent in which another node could take its place, so it
is a fault if it would have to be replaced. -/
def rewriteRoot (s : Settings) (root : Node) : StateM Walk Node := fun w =>
  match (root.decide s []).runFrom w.progress with
  | (.ok d, p) => if d.replaced then (root, ⟨p, some .rootReplaced⟩) else root.rewrite s [] w
  | (.error fault, p) => (root, ⟨p, some fault⟩)

end Node

end JsxBoundary
