import JsxBoundary.Text.Blank
import JsxBoundary.Tree.Node

namespace JsxBoundary

structure OpeningTag where
  name : Node
  attributes : List Node
  selfClosing : Bool

namespace Node

def identifier? (n : Node) : Option String :=
  match n.form with
  | .identifier name => some name
  | _ => none

def openingTag? (n : Node) : Option OpeningTag :=
  let read (tag : Node) : Option OpeningTag :=
    match tag.form with
    | .openingTag name attributes selfClosing => some ⟨name, attributes, selfClosing⟩
    | _ => none
  match n.form with
  | .element opening _ _ => opening.bind read
  | _ => read n

/-- The name of an element whose tag is a plain identifier. Member tags (`A.B`) and namespaced tags
(`a:b`) have none. -/
def tagName? (n : Node) : Option String :=
  n.openingTag?.bind (·.name.identifier?)

def isElement (n : Node) : Bool :=
  match n.form with
  | .element _ _ _ => true
  | _ => false

def isEmptyExpression (n : Node) : Bool :=
  match n.form with
  | .emptyExpression => true
  | _ => false

def isBlankText (n : Node) : Bool :=
  match n.form with
  | .text value => Text.isBlank value
  | _ => false

end Node

end JsxBoundary
