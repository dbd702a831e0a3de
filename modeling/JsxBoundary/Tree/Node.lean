import JsxBoundary.Tree.Form

/-!
# Nodes

A `Node` is a form over nodes together with an optional layout. The layout of a node that was read
from source text is that text cut at the children: pieces of text, children by their index, and
nodes that are kept for printing only. A node without a layout was built by a rewrite.

Because a layout names a child by its index, putting another node in the child's place
(`Node.withChildren`, `Node.setChild`) changes what is seen and what is printed together.

* `Node.children_withChildren`: the children after a replacement are the given ones;
* `Node.sizeOf_lt_of_mem_children`: children are smaller, so walks over the tree terminate;
* `Node.inductionOnChildren`: what holds of a node if it holds of its children holds of all nodes.
-/

namespace JsxBoundary

inductive Piece (α : Type) where
  | text (value : String)
  | child (index : Nat)
  | loose (node : α)

inductive Node where
  | mk (form : Form Node) (layout : Option (List (Piece Node)))

namespace Form

theorem sizeOf_lt_of_mem_children {α : Type} [SizeOf α] {form : Form α} {c : α}
    (h : c ∈ form.children) : sizeOf c < sizeOf form := by
  have list : ∀ {cs : List α}, c ∈ cs → sizeOf c < sizeOf cs := List.sizeOf_lt_of_mem
  have option : ∀ {o : Option α}, c ∈ o.toList → sizeOf c < sizeOf o := by
    intro o ho
    cases o with
    | none => cases ho
    | some a => simp at ho; subst ho; simp
  cases form <;> simp only [children, List.mem_cons, List.mem_append, List.not_mem_nil,
    or_false] at h <;> simp <;> grind

end Form

namespace Node

def form : Node → Form Node
  | mk form _ => form

/-- The source text of the node, cut at its children, if the node was read from source text. -/
def layout : Node → Option (List (Piece Node))
  | mk _ layout => layout

abbrev fresh (form : Form Node) : Node :=
  mk form none

def children (n : Node) : List Node :=
  n.form.children

/-- The node with `cs` in the place of its children, in its form and in its layout. -/
def withChildren (n : Node) (cs : List Node) : Node :=
  mk (n.form.withChildren cs) n.layout

def setChild (n : Node) (i : Nat) (new : Node) : Node :=
  n.withChildren (n.children.set i new)

abbrev typeName (n : Node) : String :=
  n.form.typeName

abbrev isFunction (n : Node) : Bool :=
  n.form.isFunction

@[simp] theorem form_mk (form : Form Node) (layout : Option (List (Piece Node))) :
    (mk form layout).form = form := rfl

@[simp] theorem layout_mk (form : Form Node) (layout : Option (List (Piece Node))) :
    (mk form layout).layout = layout := rfl

@[simp] theorem layout_withChildren (n : Node) (cs : List Node) :
    (n.withChildren cs).layout = n.layout := rfl

@[simp] theorem withChildren_children (n : Node) : n.withChildren n.children = n := by
  cases n; simp [withChildren, children]

theorem children_withChildren (n : Node) {cs : List Node} (h : cs.length = n.children.length) :
    (n.withChildren cs).children = cs :=
  n.form.children_withChildren h

theorem withChildren_withChildren (n : Node) {as bs : List Node} (ha : as.length = n.children.length)
    (hb : bs.length = n.children.length) : (n.withChildren as).withChildren bs = n.withChildren bs :=
  congrArg (mk · n.layout) (n.form.withChildren_withChildren ha hb)

theorem sizeOf_form_lt (n : Node) : sizeOf n.form < sizeOf n := by
  cases n; simp; omega

theorem sizeOf_lt_of_mem_children {n c : Node} (h : c ∈ n.children) : sizeOf c < sizeOf n :=
  Nat.lt_trans (Form.sizeOf_lt_of_mem_children h) n.sizeOf_form_lt

theorem sizeOf_lt_of_loose_mem {n m : Node} {pieces : List (Piece Node)}
    (h : n.layout = some pieces) (hm : .loose m ∈ pieces) : sizeOf m < sizeOf n := by
  obtain ⟨form, layout⟩ := n
  cases h
  have := List.sizeOf_lt_of_mem hm
  simp at this ⊢
  omega

theorem inductionOnChildren {motive : Node → Prop}
    (step : ∀ n : Node, (∀ c ∈ n.children, motive c) → motive n) (n : Node) : motive n :=
  step n fun c _ => inductionOnChildren step c
termination_by n
decreasing_by exact sizeOf_lt_of_mem_children ‹_›

/-- The node that a path of child indices leads to, if every index of it has a child. -/
def get? : Node → List Nat → Option Node
  | n, [] => some n
  | n, i :: path => n.children[i]?.bind (·.get? path)

def modifyAt (f : Node → Node) : Node → List Nat → Node
  | n, [] => f n
  | n, i :: path => n.withChildren (n.children.modify i (modifyAt f · path))

def unwrapParens : Node → Node
  | mk (.parens expression) _ => expression.unwrapParens
  | n => n

@[simp] theorem get?_nil (n : Node) : n.get? [] = some n := rfl

@[simp] theorem get?_cons (n : Node) (i : Nat) (path : List Nat) :
    n.get? (i :: path) = n.children[i]?.bind (·.get? path) := rfl

end Node

end JsxBoundary
