import JsxBoundary.InPlace.Import

namespace JsxBoundary.InPlace

/-- A step that changes objects, may stop with a fault, and leaves what it did before a fault. -/
abbrev Change := ExceptT Fault (StateM Heap)

namespace Change

def runOn {α : Type} (change : Change α) (h : Heap) : Except Fault α × Heap :=
  change.run.run h

def build {α : Type} (make : Build α) : Change α := do
  let (a, h) := make (← get)
  set h
  return a

def statements (root : Ref) : Change (List Ref) := do
  match (← get).form? root with
  | some (.program body) => return body
  | _ => throw .missingPart

def placeOf (marks : List Mark) (statement : Option Ref) : Change Nat :=
  match statement.bind fun r => marks.findIdx? (· == .node r) with
  | some place => return place
  | none => throw .lostStatement

def writeMarks (r : Ref) (place : Nat) (line : List Mark) : Change Unit :=
  modify fun h => h.modify r fun o =>
    { o with layout := o.layout.map fun marks => marks.take place ++ line ++ marks.drop place }

def writeStatements (root : Ref) (body : List Ref) : Change Unit :=
  modify fun h => h.modify root ({ · with form := .program body })

/-- Puts a new statement on a line of its own into the layout of its module, if the module has a
layout. -/
def writeLine (root : Ref) (body : List Ref) (index : Nat) (new : Ref) : Change Unit := do
  let some marks := (← get).layout? root | return
  if index < body.length then
    let place ← placeOf marks body[index]?
    writeMarks root place [.node new, .text "\n"]
  else if 0 < index then
    let place ← placeOf marks body[index - 1]?
    writeMarks root (place + 1) [.text "\n", .node new]
  else writeMarks root 0 [.node new, .text "\n"]

/-- Imports the name into the module at the reference unless it imports the name already; tells whether
the import was put in. -/
def inject (name source : String) (root : Ref) : Change Bool := do
  let body ← statements root
  let trees := body.map (← get).tree
  if trees.any (Node.importsNameFrom name source) then return false
  let new ← build (Build.namedImport name source)
  let index := Import.insertionIndex trees
  writeLine root body index new
  writeStatements root (body.insertIdx index new)
  return true

end Change

end JsxBoundary.InPlace
