import JsxBoundary.CommandLine.Program

namespace JsxBoundary

def storageError (p : Path) (e : IO.Error) : StorageError :=
  match e with
  | .noFileOrDirectory _ _ _ => ⟨.notFound, p⟩
  | .alreadyExists _ _ _ => ⟨.alreadyExists, p⟩
  | .inappropriateType _ code details =>
    ⟨if code == 20 then .notADirectory else if code == 21 then .isADirectory
      else .other code.toNat details, p⟩
  | e => ⟨.other 5 (toString e), p⟩

def attempt {α : Type} (p : Path) (x : IO α) : IO (Except StorageError α) := do
  try
    return .ok (← x)
  catch e =>
    return .error (storageError p e)

def kindOnDisk? (p : Path) : IO (Option EntryKind) := do
  let place := (← IO.currentDir) / toString p
  if ← place.isDir then return some .directory
  if ← place.pathExists then return some .file
  return none

partial def filesOnDisk (p : Path) (names : List String) : IO (List (List String)) := do
  let place := (← IO.currentDir) / toString (p.append names)
  let mut found := []
  for entry in ← place.readDir do
    let below := names ++ [entry.fileName]
    if ← entry.path.isDir then
      found := found ++ (← filesOnDisk p below)
    else
      found := found ++ [below]
  return found

instance : Storage IO where
  kind? := kindOnDisk?
  read p := attempt p (IO.FS.readBinFile (toString p))
  write p content := attempt p (IO.FS.writeBinFile (toString p) content)
  makeDirectory p := attempt p (IO.FS.createDir (toString p))
  filesBelow p := filesOnDisk p []
  enclosing p := do
    let whole := Path.ofString (toString (← IO.FS.realPath (toString p)))
    return (List.range (whole.names.length + 1)).reverse.map fun n =>
      { whole with names := whole.names.take n }

/-- Notices are shown as they come and without markup, so that all of them can be shown. -/
instance : CommandLine.Console IO where
  put notice := IO.println s!"{notice.level.name} {notice.plain}"

def CommandLine.Display.lines : CommandLine.Display → List String
  | .table title columns rows =>
    title :: (columns :: rows).map ("  " ++ " | ".intercalate ·)
  | .line text => [text]

end JsxBoundary

open JsxBoundary CommandLine in
def main (arguments : List String) : IO UInt32 := do
  let (ending, report) ← CommandLine.run (m := IO) arguments
  IO.print report.printed
  for display in report.displays do
    for line in display.lines do
      IO.println line
  match ending with
  | .exit code =>
    if code == 2 then IO.eprint usageLine
    return code.toUInt32
  | .crash (.undecodable fault) =>
    IO.eprintln fault.message
    return 1
  | .crash (.options (.unreadable e)) =>
    IO.eprintln e.message
    return 1
  | .crash (.options _) =>
    IO.eprintln "the configuration file has something else in place of a table or a list"
    return 1
