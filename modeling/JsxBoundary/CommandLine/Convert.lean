import JsxBoundary.CommandLine.Arguments
import JsxBoundary.CommandLine.Report
import JsxBoundary.Options.Load
import JsxBoundary.SourceFile
import JsxBoundary.Storage.Basic
import JsxBoundary.Text.Newline
import JsxBoundary.Trace.Stored

/-!
# Converting files

The command that reads source files from a storage, transforms them, and writes what they come to:
`convertFile` for one file, `convertDirectory` for all files of a directory, one after the other.

A file that cannot be transformed or written is a failure of its own and does not stop the batch; only
a `Crash` or the console does, and what was written and reported before it stays. Paths stand in notices
as they are, so one with brackets can be markup that the console cannot show.
-/

namespace JsxBoundary.CommandLine

/-- What the command has from elsewhere: how source text is read, and how options are made of the content of
a configuration file and the words of the command line. -/
structure Packages where
  parse : String → Except Fault Node := Tsx.read
  load : Option ByteArray → Table → Except LoadFault Options := Options.load

inductive Unloadable where
  | notATable
  | notAList
  -- There is a configuration file, and it cannot be read.
  | unreadable (e : StorageError)
  deriving DecidableEq, Repr

inductive Crash where
  | undecodable (fault : Utf8.Fault)
  | options (fault : Unloadable)
  deriving DecidableEq, Repr

/-- A part of the command: it works on a storage, adds to the report, and may crash. -/
abbrev Job (m : Type → Type) := ExceptT Crash (StateT Report m)

structure FileResult where
  success : Bool
  rewriteCount : Nat := 0
  errors : List String := []

namespace Job

variable {m : Type → Type} [Monad m]

def onStorage {α : Type} (x : m α) : Job m α :=
  ExceptT.lift (StateT.lift x)

def log [Console m] (level : Level) (spans : List Span) : Job m Unit := do
  modify fun r => { r with notices := r.notices.push ⟨level, spans⟩ }
  ExceptT.lift (StateT.lift (Console.put ⟨level, spans⟩))

def print (text : String) : Job m Unit :=
  modify fun r => { r with printed := r.printed ++ text }

def display (d : Display) : Job m Unit :=
  modify fun r => { r with displays := r.displays.push d }

end Job

open Job

variable {m : Type → Type} [Monad m] [Storage m] [Console m]

def storeTrace (path : Path) (events : Array Event) : Job m Unit := do
  match ← onStorage (Storage.writeInside path (Trace.stored events).toUTF8) with
  | .ok () => log .info [.text "Trace saved to ", .path path]
  | .error e => log .error [.text ("Failed to write trace: " ++ e.message)]

def deliver (path : Path) (out : Option Path) (r : Outcome) : Job m FileResult := do
  match out with
  | none =>
    print r.code
    return { success := true, rewriteCount := r.rewriteCount }
  | some out =>
    match ← onStorage (Storage.writeInside out r.code.toUTF8) with
    | .ok () =>
      log .success [.text "Transformed: ", .path path, .text " -> ", .path out,
        .text (" (" ++ toString r.rewriteCount ++ " boundaries)")]
      return { success := true, rewriteCount := r.rewriteCount }
    | .error e =>
      log .error [.text ("Failed to write " ++ toString out ++ ": " ++ e.message)]
      return { success := false, errors := [e.message] }

/-- Transforms one file and stores what it comes to. The trace is stored even if the file fails. -/
def convertFile (packages : Packages) (o : Options) (verbose : Bool) (path : Path)
    (out trace : Option Path) : Job m FileResult := do
  match ← onStorage (Storage.read path) with
  | .error e =>
    log .error [.text ("Failed to read " ++ toString path ++ ": " ++ e.message)]
    return { success := false, errors := [e.message] }
  | .ok content =>
    let text ← match Utf8.decode content with
      | .ok text => pure (Text.unifyNewlines text)
      | .error fault => throw (.undecodable fault)
    match Outcome.ofFile? o path.name text packages.parse with
    | none => return { success := true }
    | some r =>
      if verbose then
        r.notes.toList.forM fun note => log .debug [.text note]
      if let some trace := trace then storeTrace trace r.events
      if r.success then deliver path out r
      else return { success := false, errors := r.errors }

/-- Sums up what became of some files, each under the name by which the summary calls it. -/
def summarize (results : List (String × FileResult)) : Job m Unit := do
  let failed := results.filter fun (_, r) => !r.success
  let passed := toString (results.length - failed.length)
  if failed.isEmpty then
    let boundaries := results.foldr (fun (_, r) total => r.rewriteCount + total) 0
    log .success [.text ("Batch Complete: " ++ passed ++ "/" ++ toString results.length ++
      " files transformed, " ++ toString boundaries ++ " boundaries inserted.")]
  else
    display (.table "Transform Report" ["File", "Status", "Issues"] (failed.map fun (name, r) =>
      [escapeMarkup name, "Failed", escapeMarkup (issues r)]))
    display (.line ("\n[bold]Summary:[/bold] " ++ passed ++ " Passed, " ++
      toString failed.length ++ " Failed."))
where
  issues (r : FileResult) : String :=
    if r.errors.isEmpty then "Unknown Error" else "; ".intercalate r.errors

/-- The source files below a directory by their names from there, in the order of their names. -/
def sourceFiles (path : Path) : Job m (List (List String)) := do
  let all ← onStorage (Storage.filesBelow path)
  let sources := all.filter fun names =>
    sourceSuffixes.contains (Path.suffixOf (names.getLast?.getD ""))
  return sources.mergeSort Path.namesBefore

/-- Transforms all source files below a directory into another directory. Gives the exit code. -/
def convertDirectory (packages : Packages) (o : Options) (c : Conversion) : Job m Nat := do
  let some out := c.out |
    log .error [.text "Directory conversion requires --out destination directory."]
    return 1
  let files ← sourceFiles c.path
  if files.isEmpty then
    log .warning [.text ("No .jsx or .tsx files found in " ++ toString c.path)]
    return 0
  log .info [.text ("Processing " ++ toString files.length ++ " files from " ++ toString c.path ++
    "...")]
  let results ← files.mapM fun names => do
    let target := out.append names
    let trace := c.trace.map fun _ => target.withSuffix ".trace.json"
    let r ← convertFile packages o c.verbose (c.path.append names) (some target) trace
    return (toString ({ names } : Path), r)
  summarize results
  return if results.all (·.2.success) then 0 else 1

def convertSingle (packages : Packages) (o : Options) (c : Conversion) : Job m Nat := do
  if !sourceSuffixes.contains c.path.suffix then
    log .error [.text ("Not a JSX/TSX file: " ++ toString c.path)]
    return 1
  let r ← convertFile packages o c.verbose c.path c.out c.trace
  if r.success then return 0
  summarize [(c.path.name, r)]
  return 1

/-- The content of the nearest configuration file in a directory or around it. One that cannot be read is not
passed over. -/
def findConfiguration (directory : Path) : Job m (Option ByteArray) := do
  let around ← onStorage (Storage.enclosing directory)
  around.findSomeM? fun directory => do
    let path := directory.append ["pyproject.toml"]
    if ← onStorage (Storage.isFile path) then
      match ← onStorage (Storage.read path) with
      | .ok content => return some content
      | .error e => throw (.options (.unreadable e))
    else return none

def countProblems (errors : List OptionError) : String :=
  let n := errors.length
  toString n ++ " validation error" ++ (if n == 1 then "" else "s") ++ " for AutoWrapConfig"

/-- The options of the command; none if they are wrong or their file is no text, which is reported. -/
def loadOptions (packages : Packages) (c : Conversion) (directory : Path) : Job m (Option Options) := do
  match packages.load (← findConfiguration directory) c.overrides with
  | .ok o => return some o
  | .error (.invalid errors) => refuse (countProblems errors)
  | .error (.undecodable fault) => refuse fault.message
  | .error .notATable => throw (.options .notATable)
  | .error .notAList => throw (.options .notAList)
where
  refuse (why : String) : Job m (Option Options) := do
    log .error [.text ("Invalid configuration: " ++ escapeMarkup why)]
    return none

def convert (packages : Packages) (c : Conversion) : Job m Nat := do
  match ← onStorage (Storage.kind? c.path) with
  | none =>
    log .error [.text ("Input not found: " ++ toString c.path)]
    return 1
  | some kind =>
    let directory := if kind == .directory then c.path else c.path.parent
    let some o ← loadOptions packages c directory | return 1
    match kind with
    | .file => convertSingle packages o c
    | .directory => convertDirectory packages o c

end JsxBoundary.CommandLine
