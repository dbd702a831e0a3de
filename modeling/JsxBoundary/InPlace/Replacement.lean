import JsxBoundary.Deferral
import JsxBoundary.InPlace.Heap

namespace JsxBoundary.InPlace

abbrev Build := StateM Heap

namespace Build

def alloc (form : Form Ref) (layout : Option (List Mark) := none) : Build Ref :=
  fun h => (h.length, h ++ [⟨form, layout⟩])

/-- The container `{() => body}`, with the text around `body` in the container `source`. -/
def thunk (body : Ref) (source : Option Ref) : Build Ref := do
  let h ← get
  match (source.bind h.layout?).filter (·.contains (.node body)) with
  | some marks =>
    let opened := if (h.tree body).needsBodyParens then [.text "() => (", .node body, .text ")"]
      else [.text "() => ", .node body]
    let arrow ← alloc (.arrow body none) (some opened)
    alloc (.container arrow) (some (marks.map (Mark.map fun r => if r = body then arrow else r)))
  | none =>
    let arrow ← alloc (.arrow body none)
    alloc (.container arrow)

def boundary (component : String) (expression : Ref) (source : Option Ref) : Build Ref := do
  let name ← alloc (.identifier component)
  let opening ← alloc (.openingTag name [] false)
  let inner ← thunk expression source
  let name ← alloc (.identifier component)
  let closing ← alloc (.closingTag name)
  alloc (.element (some opening) [inner] (some closing))

end Build

def Heap.innerMarks (h : Heap) (element opening : Ref) (closing : Option Ref) : Option (List Mark) := do
  let marks ← h.layout? element
  let closing ← closing
  let start ← marks.findIdx? (· == .node opening)
  let stop ← marks.findIdx? (· == .node closing)
  return (marks.take stop).drop (start + 1)

/-- The opening tag of an element, its children that are not blank text and its closing tag, if it has
a plain tag name, is not self-closing and opens with a value that is not deferred yet. -/
def Heap.deferrable? (h : Heap) (element : Ref) : Option (Ref × List Ref × Option Ref) :=
  match h.form? element with
  | some (.element (some opening) content closing) =>
    match (h.tree opening).form with
    | .openingTag name _ false =>
      let kept := content.filter fun c => !(h.tree c).isBlankText
      let seen := kept.map h.tree
      if name.identifier?.isNone || Node.isDeferredContent seen || !Node.opensWithValue seen then none
      else some (opening, kept, closing)
    | _ => none
  | _ => none

def Heap.loneContainer? (h : Heap) (kept : List Ref) : Option Ref :=
  match kept with
  | [c] => if (h.tree c).contained?.isSome then some c else none
  | _ => none

namespace Build

def deferredBody (element opening : Ref) (closing : Option Ref) (kept : List Ref) :
    Build (Option Ref) := do
  let h ← get
  match kept with
  | [c] =>
    match h.form? c with
    | some (.element _ _ _) => return some c
    | some (.container expression) =>
      return if (h.tree expression).isEmptyExpression then none else some expression
    | _ => return none
  | _ =>
    let inner := h.innerMarks element opening closing
    some <$> alloc (.fragment kept) (inner.map fun inner => .text "<>" :: inner ++ [.text "</>"])

/-- An element with the children of `element` deferred, its tags kept; nothing if no change is
needed. -/
def deferral (element : Ref) : Build (Option Ref) := do
  let h ← get
  match h.deferrable? element with
  | none => return none
  | some (opening, kept, closing) =>
    match ← deferredBody element opening closing kept with
    | none => return none
    | some body =>
      let inner ← thunk body (h.loneContainer? kept)
      some <$> alloc (.element (some opening) [inner] closing)

end Build

end JsxBoundary.InPlace
