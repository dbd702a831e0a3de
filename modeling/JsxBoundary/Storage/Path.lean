namespace JsxBoundary

structure Path where
  absolute : Bool := false
  names : List String
  deriving DecidableEq, Repr

namespace Path

def pieces : List Char → List (List Char)
  | [] => [[]]
  | c :: cs =>
    if c = '/' then [] :: pieces cs
    else match pieces cs with
      | [] => [[c]]
      | piece :: rest => (c :: piece) :: rest

def ofString (s : String) : Path where
  absolute := s.toList.head? == some '/'
  names := (pieces s.toList).filterMap fun piece =>
    let name := String.ofList piece
    if name == "" || name == "." then none else some name

protected def toString (p : Path) : String :=
  match p.absolute, p.names with
  | true, names => "/" ++ "/".intercalate names
  | false, [] => "."
  | false, names => "/".intercalate names

instance : ToString Path :=
  ⟨Path.toString⟩

def name (p : Path) : String :=
  p.names.getLast?.getD ""

def parent (p : Path) : Path :=
  { p with names := p.names.dropLast }

def append (p : Path) (names : List String) : Path :=
  { p with names := p.names ++ names }

/-- The end of a name from its last point on. A point at either end of the name begins none. -/
def suffixOf (name : String) : String :=
  let reversed := name.toList.reverse
  let after := reversed.takeWhile (· != '.')
  let before := (reversed.dropWhile (· != '.')).drop 1
  if after.isEmpty || before.isEmpty then "" else String.ofList ('.' :: after.reverse)

def suffix (p : Path) : String :=
  suffixOf p.name

def withSuffix (p : Path) (suffix : String) : Path :=
  let stem := p.name.toList.take (p.name.length - p.suffix.length)
  p.parent.append [String.ofList stem ++ suffix]

@[simp] theorem names_append (p : Path) (names : List String) :
    (p.append names).names = p.names ++ names := rfl

def namesBefore (a b : List String) : Bool :=
  match a, b with
  | [], _ => true
  | _ :: _, [] => false
  | x :: xs, y :: ys => if x == y then namesBefore xs ys else x < y

end Path

end JsxBoundary
