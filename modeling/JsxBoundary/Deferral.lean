import JsxBoundary.Boundary
import JsxBoundary.Tree.Tag

/-!
# Deferring the children of an element

A boundary-style component re-runs its children on its own, so they are given to it as one function:

    <Memo>{a.get()}</Memo>      becomes   <Memo>{() => a.get()}</Memo>
    <Show if={a}><Row /></Show> becomes   <Show if={a}>{() => <Row />}</Show>
    <Memo><A /><B /></Memo>     becomes   <Memo>{() => <><A /><B /></>}</Memo>

Only children that open with an element or with an expression that is not yet a function or a
reference are deferred; blank text between tags does not count as a child.
-/

namespace JsxBoundary

namespace Node

def keptContent (content : List Node) : List Node :=
  content.filter (!·.isBlankText)

/-- A function literal or a reference: a value that the component can call on its own. -/
def isDeferredValue (n : Node) : Bool :=
  match n.unwrapParens.form with
  | .arrow _ _ | .function _ _ | .identifier _ | .member _ _ _ _ => true
  | _ => false

def contained? (n : Node) : Option Node :=
  match n.form with
  | .container expression => some expression
  | _ => none

def isDeferredContent : List Node → Bool
  | [c] => c.contained?.any isDeferredValue
  | _ => false

/-- The kept children open with an element, or with a container whose value is not yet deferred. -/
def opensWithValue : List Node → Bool
  | [] => false
  | c :: _ => c.isElement || c.contained?.any (!·.isDeferredValue)

/-- The pieces of an element's layout between its two tags, if both occur in it. The tags are the
first child and the last one. -/
def innerPieces (n : Node) : Option (List (Piece Node)) :=
  match n.form, n.layout with
  | .element (some _) content (some _), some pieces => do
    let indexOf (i : Nat) := pieces.findIdx? fun
      | .child j => j == i
      | _ => false
    let start ← indexOf 0
    let stop ← indexOf (content.length + 1)
    return (pieces.take stop).drop (start + 1)
  | _, _ => none

/-- The place of child number `i` of an element among its kept children. Blank text is printed where
it was without being a child. -/
def keptPiece (children content : List Node) : Piece Node → List (Piece Node)
  | .child (i + 1) =>
    match content[i]? with
    | some c => if c.isBlankText then [.loose c] else [.child (keptContent (content.take i)).length]
    | none => (children[i + 1]?.map Piece.loose).toList
  | .child 0 => (children[0]?.map Piece.loose).toList
  | piece => [piece]

/-- The fragment of an element's kept children, with the source text between the element's tags. -/
def keptFragment (n : Node) (content : List Node) : Node :=
  mk (.fragment (keptContent content)) <| n.innerPieces.map fun pieces =>
    .text "<>" :: pieces.flatMap (keptPiece n.children content) ++ [.text "</>"]

/-- The expression that the function returns: a lone element or the content of a lone container
itself, several children in a fragment. Nothing for a lone child with nothing to defer. -/
def deferredBody? (kept : List Node) (fragment : Node) : Option Node :=
  match kept with
  | [c] =>
    match c.form with
    | .element _ _ _ => some c
    | .container expression => if expression.isEmptyExpression then none else some expression
    | _ => none
  | _ => some fragment

def loneContainer? : List Node → Option Node
  | [c] => c.contained?.map fun _ => c
  | _ => none

/-- The element with its children deferred, its tags kept; nothing if no change is needed. Only an
element with a plain tag name that is not self-closing is changed. -/
def deferChildren? (n : Node) : Option Node :=
  match n.form with
  | .element (some opening) content closing =>
    match opening.form with
    | .openingTag name _ false =>
      let kept := keptContent content
      if name.identifier?.isNone || isDeferredContent kept || !opensWithValue kept then none
      else
        (deferredBody? kept (n.keptFragment content)).map fun body =>
          fresh (.element (some opening) [body.thunk (loneContainer? kept)] closing)
    | _ => none
  | _ => none

end Node

end JsxBoundary
