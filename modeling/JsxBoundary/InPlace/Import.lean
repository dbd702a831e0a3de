import JsxBoundary.Import
import JsxBoundary.InPlace.Replacement

namespace JsxBoundary.InPlace

def Build.namedImport (name source : String) : Build Ref := do
  let specifier ← alloc (.importSpecifier name name)
  alloc (.importDecl source [specifier] none none)

/-- The layout of a module with these statements when `new` becomes number `index` of them. -/
def Mark.splice (marks : List Mark) (body : List Ref) (index : Nat) (new : Ref) : Option (List Mark) :=
  let put (place : Nat) (line : List Mark) : List Mark := marks.take place ++ line ++ marks.drop place
  let find (statement : Option Ref) : Option Nat :=
    statement.bind fun r => marks.findIdx? (· == .node r)
  if index < body.length then
    (find body[index]?).map fun place => put place [.node new, .text "\n"]
  else if 0 < index then
    (find body[index - 1]?).map fun place => put (place + 1) [.text "\n", .node new]
  else some (put 0 [.node new, .text "\n"])

/-- The heap with the import in its place in the module at the reference; nothing if the module has it
already. -/
def Heap.injectImport (name source : String) (root : Ref) (h : Heap) : Except Fault (Option Heap) :=
  match h[root]? with
  | some ⟨.program body, layout⟩ =>
    if (body.map h.tree).any (Node.importsNameFrom name source) then .ok none else
    let (new, h') := Build.namedImport name source h
    let index := Import.insertionIndex (body.map h.tree)
    let form := Form.program (body.insertIdx index new)
    match layout with
    | none => .ok (some (h'.set root ⟨form, none⟩))
    | some marks =>
      match Mark.splice marks body index new with
      | none => .error .lostStatement
      | some marks => .ok (some (h'.set root ⟨form, some marks⟩))
  | _ => .error .missingPart

end JsxBoundary.InPlace
