import JsxBoundary.CommandLine.Convert
import JsxBoundary.Proofs.Storage.Agreement

namespace JsxBoundary.CommandLine

open FileTree

variable {refusals : Refusals} {packages : Packages} {t : FileTree} {o : Options} {c : Conversion} {α β : Type}

-- Alone, a guarded tree has a console that shows every notice.
instance : Console (Guarded refusals) where
  put _ := pure ()

namespace Job

/-- What a part of the command comes to: its result or the crash that ended it, the report, the files. -/
def runOn (x : Job (Guarded refusals) α) (report : Report) (t : FileTree) :
    (Except Crash α × Report) × FileTree :=
  (x.run.run report).run t

theorem runOn_pure (a : α) (report : Report) (t : FileTree) :
    (pure a : Job (Guarded refusals) α).runOn report t = ((.ok a, report), t) := rfl

theorem runOn_bind (x : Job (Guarded refusals) α) (f : α → Job (Guarded refusals) β)
    (report : Report) (t : FileTree) : (x >>= f).runOn report t = match x.runOn report t with
      | ((.ok a, report'), t') => (f a).runOn report' t'
      | ((.error crash, report'), t') => ((.error crash, report'), t') := by
  rw [runOn, ExceptT.run_bind, StateT.run_bind, Guarded.run_bind]
  change Guarded.run _ (x.runOn report t).2 = _
  rw [show (x.run.run report).run t = x.runOn report t from rfl]
  rcases x.runOn report t with ⟨⟨_ | _, _⟩, _⟩ <;> rfl

theorem runOn_onStorage (x : Guarded refusals α) (report : Report) (t : FileTree) :
    (onStorage x).runOn report t = ((.ok (x.run t).1, report), (x.run t).2) := rfl

theorem runOn_log (level : Level) (spans : List Span) (report : Report) (t : FileTree) :
    (log level spans : Job (Guarded refusals) Unit).runOn report t =
      ((.ok (), { report with notices := report.notices.push ⟨level, spans⟩ }), t) := rfl

theorem runOn_display (d : Display) (report : Report) (t : FileTree) :
    (display d : Job (Guarded refusals) Unit).runOn report t =
      ((.ok (), { report with displays := report.displays.push d }), t) := rfl

end Job

def traced (refusals : Refusals) (trace : Option Path) (events : Array Event) (t : FileTree) :
    FileTree :=
  match trace with
  | none => t
  | some trace => (refusals.stored t trace (Trace.stored events).toUTF8).2

def delivered (refusals : Refusals) (out : Path) (r : Outcome) (t : FileTree) :
    FileResult × FileTree :=
  if r.success then
    match refusals.stored t out r.code.toUTF8 with
    | (.ok (), t') => ({ success := true, rewriteCount := r.rewriteCount }, t')
    | (.error e, t') => ({ success := false, errors := [e.message] }, t')
  else ({ success := false, errors := r.errors }, t)

def fileEnd (refusals : Refusals) (packages : Packages) (o : Options) (path out : Path) (trace : Option Path)
    (t : FileTree) : Except Crash FileResult × FileTree :=
  match refusals.read t path with
  | .error e => (.ok { success := false, errors := [e.message] }, t)
  | .ok content =>
    match Utf8.decode content with
    | .error fault => (.error (.undecodable fault), t)
    | .ok text =>
      let r := Outcome.ofSource o (Text.unifyNewlines text) packages.parse
      let (result, t') := delivered refusals out r (traced refusals trace r.events t)
      (.ok result, t')

theorem runOn_storeTrace (path : Path) (events : Array Event) (report : Report) (t : FileTree) :
    ∃ notices, (storeTrace path events : Job (Guarded refusals) Unit).runOn report t =
      ((.ok (), { report with notices }), traced refusals (some path) events t) := by
  rw [storeTrace, Job.runOn_bind, Job.runOn_onStorage, traced, Refusals.stored]
  generalize Guarded.run _ t = written
  obtain ⟨_ | _, t'⟩ := written
  · exact ⟨_, rfl⟩
  · exact ⟨_, rfl⟩

theorem runOn_notes (notes : List String) (report : Report) (t : FileTree) :
    ∃ notices, (notes.forM fun note => (Job.log .debug [.text note] : Job (Guarded refusals) Unit)).runOn
      report t = ((.ok (), { report with notices }), t) := by
  induction notes generalizing report with
  | nil => exact ⟨report.notices, rfl⟩
  | cons note notes ih =>
      rw [List.forM, Job.runOn_bind, Job.runOn_log]
      obtain ⟨notices, run⟩ := ih { report with notices := report.notices.push ⟨.debug, [.text note]⟩ }
      exact ⟨notices, run⟩

theorem runOn_deliver (path out : Path) (r : Outcome) (report : Report) (t : FileTree) :
    ∃ notices, (if r.success = true then deliver path (some out) r
        else pure { success := false, errors := r.errors } : Job (Guarded refusals) FileResult).runOn
        report t =
      ((.ok (delivered refusals out r t).1, { report with notices }), (delivered refusals out r t).2) := by
  rw [delivered]
  split
  · rw [deliver, Job.runOn_bind, Job.runOn_onStorage, Refusals.stored]
    generalize Guarded.run _ t = written
    obtain ⟨_ | _, t'⟩ := written
    · exact ⟨_, rfl⟩
    · exact ⟨_, rfl⟩
  · exact ⟨_, rfl⟩

theorem runOn_conclude (path out : Path) (trace : Option Path) (r : Outcome) (report : Report)
    (t : FileTree) :
    ∃ notices, (do
        if let some trace := trace then storeTrace trace r.events
        if r.success then deliver path (some out) r
        else return { success := false, errors := r.errors } :
          Job (Guarded refusals) FileResult).runOn report t =
      ((.ok (delivered refusals out r (traced refusals trace r.events t)).1, { report with notices }),
        (delivered refusals out r (traced refusals trace r.events t)).2) := by
  cases trace with
  | none => exact runOn_deliver path out r report t
  | some trace =>
      obtain ⟨notices, run⟩ := runOn_storeTrace trace r.events report t
      dsimp only
      rw [Job.runOn_bind, run]
      exact runOn_deliver path out r { report with notices } _

theorem runOn_convertFile (refusals : Refusals) (packages : Packages) {path : Path}
    (named : isSourceName path.name = true) (o : Options) (verbose : Bool) (out : Path) (trace : Option Path)
    (report : Report) (t : FileTree) :
    ∃ notices, (convertFile packages o verbose path (some out) trace : Job (Guarded refusals) _).runOn report t =
      (((fileEnd refusals packages o path out trace t).1, { report with notices }),
        (fileEnd refusals packages o path out trace t).2) := by
  rw [convertFile, Job.runOn_bind, Job.runOn_onStorage, Guarded.run_read, fileEnd]
  cases refusals.read t path with
  | error e => exact ⟨_, rfl⟩
  | ok content =>
      dsimp only
      cases Utf8.decode content with
      | error fault => exact ⟨report.notices, rfl⟩
      | ok text =>
          dsimp only
          rw [Job.runOn_bind, Job.runOn_pure]
          dsimp only
          rw [Outcome.ofFile?, if_pos named]
          dsimp only
          generalize Outcome.ofSource o (Text.unifyNewlines text) packages.parse = r
          cases verbose with
          | false => exact runOn_conclude path out trace r report t
          | true =>
              obtain ⟨notices, run⟩ := runOn_notes r.notes.toList report t
              rw [if_pos rfl, Job.runOn_bind, run]
              exact runOn_conclude path out trace r { report with notices } t

/-- What is shown of the files that failed. -/
def failureDisplays (results : List (String × FileResult)) : Array Display :=
  let failed := results.filter fun (_, r) => !r.success
  if failed.isEmpty then #[]
  else
    #[.table "Transform Report" ["File", "Status", "Issues"] (failed.map fun (name, r) =>
        [escapeMarkup name, "Failed", escapeMarkup (summarize.issues r)]),
      .line ("\n[bold]Summary:[/bold] " ++ toString (results.length - failed.length) ++ " Passed, " ++
        toString failed.length ++ " Failed.")]

theorem runOn_summarize (refusals : Refusals) (results : List (String × FileResult))
    (report : Report) (t : FileTree) :
    ∃ notices, (summarize results : Job (Guarded refusals) Unit).runOn report t =
      ((.ok (), { report with notices, displays := report.displays ++ failureDisplays results }), t) := by
  unfold summarize failureDisplays
  dsimp only
  split
  · exact ⟨_, by simp [Job.runOn_log]; rfl⟩
  · refine ⟨report.notices, ?_⟩
    simp only [Job.runOn_bind, Job.runOn_display, Array.push_eq_append, Array.append_assoc]
    rfl

theorem runOn_findConfiguration (refusals : Refusals) (directory : Path) (report : Report)
    (t : FileTree) :
    ∃ found, (findConfiguration directory : Job (Guarded refusals) _).runOn report t =
      ((found, report), t) := by
  rw [findConfiguration, Job.runOn_bind, Job.runOn_onStorage]
  dsimp only
  generalize (Guarded.run _ t).1 = around
  change ∃ found, Job.runOn _ report t = _
  induction around with
  | nil => exact ⟨.ok none, rfl⟩
  | cons directory around ih =>
      have seen : (Storage.isFile (directory.append ["pyproject.toml"]) : Guarded refusals Bool).run t =
          ((t.find? (directory.append ["pyproject.toml"])).map Entry.kind == some .file, t) := rfl
      rw [List.findSomeM?, Job.runOn_bind, Job.runOn_bind, Job.runOn_onStorage, seen]
      dsimp only
      cases (t.find? (directory.append ["pyproject.toml"])).map Entry.kind == some .file with
      | false => exact ih
      | true =>
          rw [if_pos rfl, Job.runOn_bind, Job.runOn_onStorage, Guarded.run_read]
          cases refusals.read t (directory.append ["pyproject.toml"]) with
          | ok content => exact ⟨.ok (some content), rfl⟩
          | error e => exact ⟨.error (.options (.unreadable e)), rfl⟩

theorem runOn_loadOptions (refusals : Refusals) (packages : Packages) (c : Conversion) (directory : Path)
    (report : Report) (t : FileTree) :
    ∃ loaded notices, (loadOptions packages c directory : Job (Guarded refusals) _).runOn report t =
      ((loaded, { report with notices }), t) ∧ ∀ o, loaded = .ok (some o) → notices = report.notices := by
  obtain ⟨found, run⟩ := runOn_findConfiguration refusals directory report t
  rw [loadOptions, Job.runOn_bind, run]
  cases found with
  | error crash => exact ⟨.error crash, _, rfl, fun _ => nofun⟩
  | ok found =>
      dsimp only
      split
      · exact ⟨.ok _, _, rfl, fun _ _ => rfl⟩
      · exact ⟨.ok none, _, rfl, fun _ => nofun⟩
      · exact ⟨.ok none, _, rfl, fun _ => nofun⟩
      · exact ⟨.error _, _, rfl, fun _ => nofun⟩
      · exact ⟨.error _, _, rfl, fun _ => nofun⟩

variable {report : Report}

theorem runOn_loadOptions_some {directory : Path}
    (loaded : ((loadOptions packages c directory : Job (Guarded refusals) _).runOn report t).1.1 =
      .ok (some o)) :
    (loadOptions packages c directory : Job (Guarded refusals) _).runOn report t = ((.ok (some o), report), t) := by
  obtain ⟨_, notices, run, silent⟩ := runOn_loadOptions refusals packages c directory report t
  rw [run] at loaded
  dsimp only at loaded
  rw [run, silent o loaded, loaded]

theorem runOn_convert_directory (packages : Packages) (report : Report) (there : t.find? c.path = some .directory) :
    (convert packages c : Job (Guarded refusals) Nat).runOn report t =
      match (loadOptions packages c c.path : Job (Guarded refusals) _).runOn report t with
      | ((.ok (some o), report'), t') =>
        (convertDirectory packages o c : Job (Guarded refusals) Nat).runOn report' t'
      | ((.ok none, report'), t') => ((.ok 1, report'), t')
      | ((.error crash, report'), t') => ((.error crash, report'), t') := by
  rw [convert, Job.runOn_bind, Job.runOn_onStorage, Guarded.run_kind?, there]
  change Job.runOn (loadOptions packages c c.path >>= _) _ _ = _
  rw [Job.runOn_bind]
  rcases Job.runOn _ report t with ⟨⟨_ | _ | _, _⟩, _⟩ <;> rfl

theorem runOn_convert_file {content : ByteArray} (there : t.find? c.path = some (.file content))
    (loaded : ((loadOptions packages c c.path.parent : Job (Guarded refusals) _).runOn report t).1.1 =
      .ok (some o)) :
    (convert packages c : Job (Guarded refusals) Nat).runOn report t =
      (convertSingle packages o c : Job (Guarded refusals) Nat).runOn report t := by
  rw [convert, Job.runOn_bind, Job.runOn_onStorage, Guarded.run_kind?, there]
  change Job.runOn (loadOptions packages c c.path.parent >>= _) _ _ = _
  rw [Job.runOn_bind, runOn_loadOptions_some loaded]
  rfl

end JsxBoundary.CommandLine
