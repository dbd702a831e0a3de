import JsxBoundary.Tree.Print

/-!
# The wrapper's import

A module that uses the wrapper must import it by name. The import goes below the hash-bang line and
the leading directives of the module and above every other statement. In the module's text it stands
on a line of its own, and nothing else of the text changes.

* `Node.importsName`: the module has the import already;
* `Node.injectImport`: the module with the import in its place, if it was missing.
-/

namespace JsxBoundary

namespace Node

def isKind (kind : String) (n : Node) : Bool :=
  match n.form with
  | .generic k _ => k == kind
  | _ => false

def isDirective (n : Node) : Bool :=
  match n.form with
  | .generic "expression_statement" [content] => content.isKind "string"
  | _ => false

def isHashBang (n : Node) : Bool :=
  n.isKind "hash_bang_line"

def isComment (n : Node) : Bool :=
  n.isKind "comment"

/-- The import statement binds this exported name of this module, under whatever local name. -/
def importsNameFrom (name source : String) (n : Node) : Bool :=
  match n.form with
  | .importDecl s specifiers _ _ => s == source && specifiers.any fun specifier =>
      match specifier.form with
      | .importSpecifier imported _ => imported == name
      | _ => false
  | _ => false

def namedImport (name source : String) : Node :=
  fresh (.importDecl source [fresh (.importSpecifier name name)] none none)

end Node

namespace Import

/-- The index of the first statement after the leading directives. Comments belong to them only if a
directive follows. -/
def insertionIndex (body : List Node) : Nat :=
  let leading := body.takeWhile fun n => n.isHashBang || n.isDirective || n.isComment
  (leading.reverse.dropWhile Node.isComment).length

/-- The layout of a module in which the statements from `index` on have moved up by one. -/
def shifted (index : Nat) (pieces : List (Piece Node)) : List (Piece Node) :=
  pieces.map fun
    | .child i => .child (if index ≤ i then i + 1 else i)
    | piece => piece

def pieceIndex? (pieces : List (Piece Node)) (statement : Nat) : Option Nat :=
  pieces.findIdx? fun
    | .child i => i == statement
    | _ => false

/-- The layout with a new statement number `index` on a line of its own: before the statement that
had this number, else after the last one, else at the very start. -/
def splice (pieces : List (Piece Node)) (index count : Nat) : Option (List (Piece Node)) :=
  let put (place : Nat) (new : List (Piece Node)) : List (Piece Node) :=
    shifted index (pieces.take place) ++ new ++ shifted index (pieces.drop place)
  if index < count then
    (pieceIndex? pieces index).map fun place => put place [.child index, .text "\n"]
  else if 0 < index then
    (pieceIndex? pieces (index - 1)).map fun place => put (place + 1) [.text "\n", .child index]
  else some (put 0 [.child index, .text "\n"])

end Import

namespace Node

def body? (n : Node) : Option (List Node) :=
  match n.form with
  | .program body => some body
  | _ => none

def importsName (name source : String) (n : Node) : Bool :=
  n.body?.any (·.any (importsNameFrom name source))

def injectImport (name source : String) (n : Node) : Except Fault (Option Node) :=
  match n.body? with
  | none => .error .missingPart
  | some body =>
    if n.importsName name source then .ok none else
    let index := Import.insertionIndex body
    let form := Form.program (body.insertIdx index (namedImport name source))
    match n.layout with
    | none => .ok (some (mk form none))
    | some pieces =>
      match Import.splice pieces index body.length with
      | none => .error .lostStatement
      | some pieces => .ok (some (mk form (some pieces)))

end Node

end JsxBoundary
