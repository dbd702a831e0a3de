import JsxBoundary.Storage.Path

namespace JsxBoundary

inductive EntryKind where
  | directory | file
  deriving DecidableEq, Repr

inductive StorageProblem where
  | notFound | alreadyExists | notADirectory | isADirectory
  | other (code : Nat) (wording : String)
  deriving DecidableEq, Repr

namespace StorageProblem

def code : StorageProblem → Nat
  | notFound => 2
  | alreadyExists => 17
  | notADirectory => 20
  | isADirectory => 21
  | other code _ => code

def wording : StorageProblem → String
  | notFound => "No such file or directory"
  | alreadyExists => "File exists"
  | notADirectory => "Not a directory"
  | isADirectory => "Is a directory"
  | other _ wording => wording

end StorageProblem

structure StorageError where
  problem : StorageProblem
  path : Option Path
  deriving DecidableEq, Repr

namespace StorageError

/-- The text in quotes: single ones, unless it has single quotes and no double ones. -/
def quoted (s : String) : String :=
  let quote := if s.contains '\'' && !s.contains '"' then '"' else '\''
  let escaped := s.toList.flatMap fun c => if c == quote || c == '\\' then ['\\', c] else [c]
  String.ofList (quote :: escaped ++ [quote])

def message (e : StorageError) : String :=
  "[Errno " ++ toString e.problem.code ++ "] " ++ e.problem.wording ++
    (e.path.map fun p => ": " ++ quoted (toString p)).getD ""

end StorageError

class Storage (m : Type → Type) where
  kind? : Path → m (Option EntryKind)
  read : Path → m (Except StorageError ByteArray)
  write : Path → ByteArray → m (Except StorageError Unit)
  makeDirectory : Path → m (Except StorageError Unit)
  /-- The files in a directory and in all directories below it, by their names from there. -/
  filesBelow : Path → m (List (List String))
  enclosing : Path → m (List Path)

namespace Storage

variable {m : Type → Type} [Monad m] [Storage m]

def ensureOne (p : Path) : m (Except StorageError Unit) := do
  match ← makeDirectory p with
  | .ok () => return .ok ()
  | .error e =>
    match e.problem, ← kind? p with
    | .notFound, _ => return .error e
    | _, some .directory => return .ok ()
    | _, _ => return .error e

/-- Makes a directory and up to `levels` directories around it, as far as they are not there yet. -/
def ensureWithin : Nat → Path → m (Except StorageError Unit)
  | 0, p => ensureOne p
  | levels + 1, p => do
    match ← ensureOne p with
    | .ok () => return .ok ()
    | .error e =>
      if e.problem == .notFound then
        match ← ensureWithin levels p.parent with
        | .ok () => ensureOne p
        | .error e => return .error e
      else return .error e

/-- Makes a directory and the directories around it, as far as they are not there yet. -/
def ensureDirectory (p : Path) : m (Except StorageError Unit) :=
  ensureWithin p.names.length p

def isFile (p : Path) : m Bool := do
  return (← kind? p) == some .file

def writeInside (p : Path) (content : ByteArray) : m (Except StorageError Unit) := do
  match ← ensureDirectory p.parent with
  | .ok () => write p content
  | .error e => return .error e

end Storage

end JsxBoundary
