import JsxBoundary.Storage.Basic

namespace JsxBoundary

inductive Entry where
  | directory
  | file (content : ByteArray)

structure FileTree where
  entries : List (List String × Entry) := []

namespace FileTree

def get? (t : FileTree) : List String → Option Entry
  | [] => some .directory
  | names => t.entries.lookup names

def insertInto (names : List String) (e : Entry) :
    List (List String × Entry) → List (List String × Entry)
  | [] => [(names, e)]
  | other :: rest =>
    if other.1 = names then (names, e) :: rest else other :: insertInto names e rest

def insert (t : FileTree) (names : List String) (e : Entry) : FileTree :=
  ⟨insertInto names e t.entries⟩

def insertDirectory (t : FileTree) (names : List String) : FileTree :=
  ((List.range names.length).map fun i => names.take (i + 1)).foldl (·.insert · .directory) t

def insertFile (t : FileTree) (names : List String) (content : ByteArray) : FileTree :=
  (t.insertDirectory names.dropLast).insert names (.file content)

/-- Where names lead from a place in the tree, `..` being the directory around it. What names are
looked up in must be a directory, and the way must not leave the tree. -/
def walk (t : FileTree) (place : List String) : List String → Except StorageProblem (List String)
  | [] => .ok place
  | name :: names =>
    match t.get? place with
    | none => .error .notFound
    | some (.file _) => .error .notADirectory
    | some .directory =>
      if name == ".." then
        if place.isEmpty then .error .notFound else walk t place.dropLast names
      else walk t (place ++ [name]) names

def locate (t : FileTree) (p : Path) : Except StorageProblem (List String) :=
  if p.absolute then .error .notFound else t.walk [] p.names

def find? (t : FileTree) (p : Path) : Option Entry :=
  match t.locate p with
  | .ok place => t.get? place
  | .error _ => none

def read (t : FileTree) (p : Path) : Except StorageError ByteArray :=
  match t.locate p with
  | .error problem => .error ⟨problem, p⟩
  | .ok place =>
    match t.get? place with
    | some (.file content) => .ok content
    | some .directory => .error ⟨.isADirectory, p⟩
    | none => .error ⟨.notFound, p⟩

def write (t : FileTree) (p : Path) (content : ByteArray) : Except StorageError FileTree :=
  match t.locate p with
  | .error problem => .error ⟨problem, p⟩
  | .ok place =>
    match t.get? place with
    | some .directory => .error ⟨.isADirectory, p⟩
    | _ => .ok (t.insert place (.file content))

def makeDirectory (t : FileTree) (p : Path) : Except StorageError FileTree :=
  match t.locate p with
  | .error problem => .error ⟨problem, p⟩
  | .ok place =>
    match t.get? place with
    | some _ => .error ⟨.alreadyExists, p⟩
    | none => .ok (t.insert place .directory)

def filesBelow (t : FileTree) (p : Path) : List (List String) :=
  match t.locate p with
  | .error _ => []
  | .ok place => t.entries.filterMap fun
    | (names, .file _) =>
      if place.isPrefixOf names then some (names.drop place.length) else none
    | (_, .directory) => none

/-- The directory that a path names and those around it within the tree, whether they are there or
not. -/
def enclosing (p : Path) : List Path :=
  if p.absolute then []
  else
    let names : List String := p.names.foldl (fun place name =>
      if name == ".." then place.dropLast else place ++ [name]) []
    (List.range (names.length + 1)).reverse.map fun n => { names := names.take n }

theorem lookup_insertInto (names names' : List String) (e : Entry)
    (entries : List (List String × Entry)) :
    (insertInto names e entries).lookup names' =
      if names' = names then some e else entries.lookup names' := by
  induction entries with
  | nil => simp only [insertInto, List.lookup_cons, List.lookup_nil]; grind
  | cons other rest ih =>
    unfold insertInto
    split <;> by_cases h : names' = names <;> simp_all [List.lookup_cons] <;> grind

theorem get?_insert (t : FileTree) (names names' : List String) (e : Entry) (h : names ≠ []) :
    (t.insert names e).get? names' = if names' = names then some e else t.get? names' := by
  cases names' with
  | nil => simp [get?, h.symm]
  | cons x xs => simp [get?, insert, lookup_insertInto]

def updating {m : Type → Type} [Monad m]
    (change : FileTree → Except StorageError FileTree) :
    StateT FileTree m (Except StorageError Unit) := fun t =>
  match change t with
  | .ok t' => pure (.ok (), t')
  | .error e => pure (.error e, t)

instance {m : Type → Type} [Monad m] : Storage (StateT FileTree m) where
  kind? p := return match (← get).find? p with
    | some .directory => some .directory
    | some (.file _) => some .file
    | none => none
  read p := return (← get).read p
  write p content := updating (·.write p content)
  makeDirectory p := updating (·.makeDirectory p)
  filesBelow p := return (← get).filesBelow p
  enclosing p := return FileTree.enclosing p

end FileTree

end JsxBoundary
