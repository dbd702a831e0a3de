import JsxBoundary.Storage.FileTree

/-!
# Guarded file trees

A file tree in which operations may fail. `Refusals` says which operations are refused under which names:
that strikes before anything is opened or made, so nothing changes. Writing a file may also break off after
the file has been opened; what has been written until then stays. What a path leads to and what a directory
lists can always be seen.
-/

namespace JsxBoundary

inductive Access where
  | read | write | makeDirectory
  deriving DecidableEq, Repr

structure Refusals where
  refuses : Access → List String → Option StorageProblem
  -- After how many bytes of this content writing it breaks off, and why.
  breaks : List String → ByteArray → Option (Nat × StorageProblem) := fun _ _ => none

instance : CoeFun Refusals fun _ => Access → List String → Option StorageProblem :=
  ⟨Refusals.refuses⟩

namespace Refusals

def check (refusals : Refusals) (access : Access) (t : FileTree) (p : Path) :
    Except StorageError Unit :=
  match t.locate p with
  | .error _ => .ok ()
  | .ok place =>
    match refusals access place with
    | some problem => .error ⟨problem, p⟩
    | none => .ok ()

def read (refusals : Refusals) (t : FileTree) (p : Path) : Except StorageError ByteArray := do
  let content ← t.read p
  refusals.check .read t p
  return content

def write (refusals : Refusals) (t : FileTree) (p : Path) (content : ByteArray) :
    Except StorageError Unit × FileTree :=
  match t.locate p with
  | .error problem => (.error ⟨problem, p⟩, t)
  | .ok place =>
    match t.get? place with
    | some .directory => (.error ⟨.isADirectory, p⟩, t)
    | _ =>
      match refusals .write place with
      | some problem => (.error ⟨problem, p⟩, t)
      | none =>
        match refusals.breaks place content with
        | some (kept, problem) => (.error ⟨problem, none⟩, t.insert place (.file (content.extract 0 kept)))
        | none => (.ok (), t.insert place (.file content))

def makeDirectory (refusals : Refusals) (t : FileTree) (p : Path) :
    Except StorageError FileTree := do
  let t' ← t.makeDirectory p
  refusals.check .makeDirectory t p
  return t'

end Refusals

def Entry.kind : Entry → EntryKind
  | .directory => .directory
  | .file _ => .file

def Guarded (_refusals : Refusals) (α : Type) : Type :=
  FileTree → α × FileTree

namespace Guarded

variable {refusals : Refusals} {α : Type}

def run (x : Guarded refusals α) (t : FileTree) : α × FileTree :=
  x t

instance : Monad (Guarded refusals) where
  pure a := fun t => (a, t)
  bind x f := fun t => (f (x t).1) (x t).2

instance : LawfulMonad (Guarded refusals) :=
  .mk' _ (fun _ => rfl) (fun _ _ => rfl) (fun _ _ _ => rfl)

instance : Storage (Guarded refusals) where
  kind? p := fun t => ((t.find? p).map Entry.kind, t)
  read p := fun t => (refusals.read t p, t)
  write p content := fun t => refusals.write t p content
  makeDirectory p := fun t => match refusals.makeDirectory t p with
    | .ok t' => (.ok (), t')
    | .error e => (.error e, t)
  filesBelow p := fun t => (t.filesBelow p, t)
  enclosing p := fun t => (FileTree.enclosing p, t)

@[simp] theorem run_pure (a : α) (t : FileTree) : (pure a : Guarded refusals α).run t = (a, t) := rfl

@[simp] theorem run_bind {β : Type} (x : Guarded refusals α) (f : α → Guarded refusals β)
    (t : FileTree) : (x >>= f).run t = (f (x.run t).1).run (x.run t).2 := rfl

@[simp] theorem run_map {β : Type} (f : α → β) (x : Guarded refusals α) (t : FileTree) :
    (f <$> x).run t = (f (x.run t).1, (x.run t).2) := rfl

@[simp] theorem run_kind? (p : Path) (t : FileTree) :
    (Storage.kind? p : Guarded refusals _).run t = ((t.find? p).map Entry.kind, t) := rfl

@[simp] theorem run_read (p : Path) (t : FileTree) :
    (Storage.read p : Guarded refusals _).run t = (refusals.read t p, t) := rfl

@[simp] theorem run_write (p : Path) (content : ByteArray) (t : FileTree) :
    (Storage.write p content : Guarded refusals _).run t = refusals.write t p content := rfl

@[simp] theorem run_makeDirectory (p : Path) (t : FileTree) :
    (Storage.makeDirectory p : Guarded refusals _).run t = match refusals.makeDirectory t p with
      | .ok t' => (.ok (), t')
      | .error e => (.error e, t) := rfl

end Guarded

end JsxBoundary
