import JsxBoundary.Fault
import JsxBoundary.Tree.Tag

/-!
# Trees in a heap

A program may hold a tree as objects that refer to each other and change the objects in place. `Heap` is
such a store: an object has a form over references and a layout that mentions references, and a
reference is the place where its object stands.

* `Heap.tree` reads off the tree below a reference as it is now;
* `Heap.replaceChild` puts another object in the place of a child, in the form and in the layout of the
  parent. The children are compared by their references.
-/

namespace JsxBoundary.InPlace

abbrev Ref := Nat

inductive Mark where
  | text (value : String)
  | node (ref : Ref)
  deriving DecidableEq

namespace Mark

def ref? : Mark → Option Ref
  | text _ => none
  | node r => some r

def refs (marks : List Mark) : List Ref :=
  marks.filterMap ref?

def map (f : Ref → Ref) : Mark → Mark
  | text value => text value
  | node r => node (f r)

def toPiece (children : List Ref) (tree : Ref → Node) : Mark → Piece Node
  | text value => .text value
  | node r => if r ∈ children then .child (children.idxOf r) else .loose (tree r)

end Mark

structure Object where
  form : Form Ref
  layout : Option (List Mark) := none

namespace Object

def marked (o : Object) : List Ref :=
  Mark.refs (o.layout.getD [])

def loose (o : Object) : List Ref :=
  o.marked.filter (· ∉ o.form.children)

def refs (o : Object) : List Ref :=
  o.form.children ++ o.loose

def map (f : Ref → Ref) (o : Object) : Object where
  form := o.form.map f
  layout := o.layout.map (·.map (Mark.map f))

def toNode (tree : Ref → Node) (o : Object) : Node :=
  .mk (o.form.map tree) (o.layout.map (·.map (Mark.toPiece o.form.children tree)))

end Object

abbrev Heap := List Object

namespace Heap

def form? (h : Heap) (r : Ref) : Option (Form Ref) :=
  h[r]?.map (·.form)

def layout? (h : Heap) (r : Ref) : Option (List Mark) :=
  h[r]?.bind (·.layout)

def treeWithin (h : Heap) : Nat → Ref → Node
  | 0, _ => .fresh .emptyExpression
  | depth + 1, r =>
    match h[r]? with
    | some o => o.toNode (h.treeWithin depth)
    | none => .fresh .emptyExpression

/-- The tree below the reference. A tree without shared nodes is no deeper than there are objects. -/
def tree (h : Heap) (r : Ref) : Node :=
  h.treeWithin h.length r

def children (h : Heap) (r : Ref) : List Ref :=
  (h.form? r).elim [] Form.children

def replaceChild (h : Heap) (parent old new : Ref) : Except Fault Heap :=
  match h[parent]?.filter (old ∈ ·.form.children) with
  | some o => .ok (h.set parent (o.map fun r => if r = old then new else r))
  | none => .error (.notAChild (h.tree old).typeName (h.tree parent).typeName)

def identifier? (h : Heap) (r : Ref) : Option String :=
  match h.form? r with
  | some (.identifier name) => some name
  | _ => none

def tagIdentifier? (h : Heap) (r : Ref) : Option String :=
  match h.form? r with
  | some (.openingTag name _ _) => h.identifier? name
  | _ => none

def isElementNamed (h : Heap) (names : List String) (r : Ref) : Bool :=
  match h.form? r with
  | some (.element (some opening) _ _) => (h.tagIdentifier? opening).any names.contains
  | _ => false

def isCallNamed (h : Heap) (names : List String) (r : Ref) : Bool :=
  match h.form? r with
  | some (.call callee _ _) => (h.identifier? callee).any names.contains
  | _ => false

def isAttribute (h : Heap) (r : Ref) : Bool :=
  match h.form? r with
  | some (.attr _ _) | some (.spreadAttr _) => true
  | _ => false

end Heap

end JsxBoundary.InPlace
