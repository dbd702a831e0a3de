import JsxBoundary.Tree.Tag

namespace JsxBoundary

abbrev Ancestors := List Node

namespace Node

def isElementNamed (names : List String) (n : Node) : Bool :=
  n.isElement && n.tagName?.any names.contains

/-- A call of a plain identifier with one of these names; a member callee such as `a.observer` does
not count. -/
def isCallNamed (names : List String) (n : Node) : Bool :=
  match n.form with
  | .call callee _ _ => callee.identifier?.any names.contains
  | _ => false

def isAttribute (n : Node) : Bool :=
  match n.form with
  | .attr _ _ | .spreadAttr _ => true
  | _ => false

end Node

namespace Ancestors

def insideReactive (names : List String) (ancestors : Ancestors) : Bool :=
  ancestors.any (Node.isElementNamed names)

def insideObserver (names : List String) (ancestors : Ancestors) : Bool :=
  ancestors.any (Node.isCallNamed names)

def insideAttribute (ancestors : Ancestors) : Bool :=
  ancestors.any Node.isAttribute

end Ancestors

end JsxBoundary
