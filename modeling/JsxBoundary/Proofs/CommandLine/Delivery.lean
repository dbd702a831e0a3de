import JsxBoundary.Proofs.CommandLine.Isolation

namespace JsxBoundary.CommandLine

open FileTree

variable {refusals : Refusals} {packages : Packages} {t t' : FileTree} {content : ByteArray} {o : Options}
  {c : Conversion} {report : Report} {source out : Path}

/-- The command converts a source file into another file and perhaps stores its trace: it is the file
that the command is given, or one of those of a directory whose files are all text. Its way there is clear if
it does not lie in a directory named like the trace of another one. -/
inductive Converts (refusals : Refusals) (packages : Packages) (t : FileTree) (report : Report) (c : Conversion)
    (o : Options) : Path → Path → Option Path → Prop → Prop
  | single {out : Path} {content : ByteArray} (there : t.find? c.path = some (.file content))
      (suffix : c.path.suffix ∈ sourceSuffixes) (target : c.out = some out)
      (loaded : ((loadOptions packages c c.path.parent : Job (Guarded refusals) _).runOn report t).1.1 =
        .ok (some o)) : Converts refusals packages t report c o c.path out c.trace True
  | listed {base : Path} {source place rest names : List String}
      (batch : Batch t c base source place rest)
      (loaded : ((loadOptions packages c c.path : Job (Guarded refusals) _).runOn report t).1.1 =
        .ok (some o))
      (texts : ∀ names ∈ sourcesBelow t c.path, ∀ content,
        refusals.read t (c.path.append names) = .ok content → ∃ text, Utf8.decode content = .ok text)
      (h : names ∈ sourcesBelow t c.path) : Converts refusals packages t report c o (c.path.append names)
        ((base.append rest).append names) (tracePath c (base.append rest) names)
        (c.trace.isSome = true → ∀ other ∈ sourcesBelow t c.path, ¬ InTraceOf other names)

/-- What the command comes to for a file with this new text: the text stands at its destination or the exit code
is 1. If the way is clear, it stands there if it can be stored. -/
def Delivers (clear : Prop) (stored : Except StorageError Unit) (out : Path) (code : String)
    (r : (Except Crash Nat × Report) × FileTree) : Prop :=
  ∃ exit, r.1.1 = .ok exit ∧ (r.2.find? out = some (.file code.toUTF8) ∨ exit = 1) ∧
    (clear → stored = .ok () → r.2.find? out = some (.file code.toUTF8)) ∧
    ∀ e, stored = .error e → exit = 1

theorem Delivers.written {clear : Prop} {t' : FileTree} {report' : Report} {exit : Nat} {code : String}
    (there : t'.find? out = some (.file code.toUTF8)) :
    Delivers clear (.ok ()) out code ((.ok exit, report'), t') :=
  ⟨exit, rfl, .inl there, fun _ _ => there, fun _ failed => by cases failed⟩

theorem Delivers.failed {clear : Prop} {stored : Except StorageError Unit} {t' : FileTree} {report' : Report}
    {code : String} (why : clear → stored ≠ .ok ()) :
    Delivers clear stored out code ((.ok 1, report'), t') :=
  ⟨1, rfl, .inr rfl, fun clear done => absurd done (why clear), fun _ _ => rfl⟩

theorem convertSingle_delivers (packages : Packages) {text code : String} (suffix : c.path.suffix ∈ sourceSuffixes)
    (target : c.out = some out) (read : refusals.read t c.path = .ok content)
    (decoded : Utf8.decode content = .ok text)
    (transformed : transform o (Text.unifyNewlines text) packages.parse = .ok code) (report : Report) :
    Delivers True (deposited refusals packages o out c.trace text t).1 out code
      ((convertSingle packages o c : Job (Guarded refusals) Nat).runOn report t) := by
  obtain ⟨success, rfl⟩ := transform_eq_ok.1 transformed
  obtain ⟨notices, run⟩ := runOn_convertFile refusals packages
    (Path.isSourceName_of_suffixOf suffix) o c.verbose out c.trace report t
  have listed : sourceSuffixes.contains c.path.suffix = true := List.contains_iff_mem.2 suffix
  rw [fileEnd, read] at run
  dsimp only at run
  rw [decoded] at run
  dsimp only at run
  rw [delivered, if_pos success] at run
  rw [convertSingle, listed, target, deposited]
  simp only [Bool.not_true, Bool.false_eq_true, if_false]
  rw [Job.runOn_bind, run]
  generalize traced refusals c.trace _ t = u
  rcases stored : refusals.stored u out _ with ⟨e | _, t'⟩
  · obtain ⟨notices', summed⟩ := runOn_summarize refusals
      [(c.path.name, { success := false, errors := [e.message] })] { report with notices } t'
    dsimp only
    rw [if_neg (by simp), Job.runOn_bind, summed]
    exact .failed fun _ done => by cases done
  · have there := Refusals.find?_of_stored (congrArg Prod.fst stored)
    rw [stored] at there
    exact .written there

namespace Batch

variable {base : Path} {source place rest names : List String}
  (batch : Batch t c base source place rest)
include batch

theorem goes_of_texts (packages : Packages) (o : Options) (texts : ∀ names ∈ sourcesBelow t c.path, ∀ content,
      refusals.read t (c.path.append names) = .ok content → ∃ text, Utf8.decode content = .ok text) :
    ∀ names ∈ sourcesBelow t c.path,
      ∃ r, (sourceEnd refusals packages o c (base.append rest) t names).1 = .ok r := by
  intro names h
  have ends := batch.alone_ends refusals packages o h {}
  rw [(batch.alone_eq h {}).1] at ends
  generalize (sourceEnd refusals packages o c (base.append rest) t names).1 = r at ends
  cases ends with
  | undecodable read decoded =>
      obtain ⟨text, decoded'⟩ := texts names h _ read
      cases decoded.symm.trans decoded'
  | _ => exact ⟨_, rfl⟩

theorem locate_target {t' : FileTree} (keeps : t.Keeps t') (tidy : t'.Tidy)
    (h : names ∈ sourcesBelow t c.path) (there : t'.get? (place ++ (rest ++ names)) ≠ none) :
    t'.locate ((base.append rest).append names) = .ok (place ++ (rest ++ names)) := by
  obtain ⟨dirs, name, rfl, _⟩ := batch.listed h
  obtain ⟨plain, _⟩ := batch.plain_append h
  rw [← Path.append_append, (batch.reaches.keep keeps).locate_append]
  exact tidy.walk_eq (by rwa [← List.append_assoc]) there

theorem delivers {text code : String}
    (loaded : ((loadOptions packages c c.path : Job (Guarded refusals) _).runOn report t).1.1 =
      .ok (some o))
    (texts : ∀ names ∈ sourcesBelow t c.path, ∀ content,
      refusals.read t (c.path.append names) = .ok content → ∃ text, Utf8.decode content = .ok text)
    (h : names ∈ sourcesBelow t c.path) (read : refusals.read t (c.path.append names) = .ok content)
    (decoded : Utf8.decode content = .ok text)
    (transformed : transform o (Text.unifyNewlines text) packages.parse = .ok code) :
    Delivers (c.trace.isSome = true → ∀ other ∈ sourcesBelow t c.path, ¬ InTraceOf other names)
      (deposited refusals packages o ((base.append rest).append names)
        (tracePath c (base.append rest) names) text t).1 ((base.append rest).append names) code
      ((convert packages c : Job (Guarded refusals) Nat).runOn report t) := by
  obtain ⟨results, notices, t', run, underway, settled⟩ := batch.run_ok loaded (batch.goes_of_texts packages o texts)
  have ends := batch.alone_ends refusals packages o h report
  obtain ⟨r, member, own⟩ := settled.exists_right h
  have failing (failed : r.success = false) : ¬ results.all (·.success) = true := fun all =>
    Bool.false_ne_true (failed.symm.trans (List.all_eq_true.1 all r member))
  rw [(batch.alone_eq h report).1, (batch.alone_eq h report).2] at ends
  rw [run]
  rcases own with ⟨ended, target⟩ | ⟨barred, failed, _⟩
  · -- The file ends in the batch as it ends alone; of the ways to end, two are left.
    rw [ended, ← target] at ends
    cases ends with
    | unread read' =>
        cases read.symm.trans read'
    | untransformed read' decoded' failed =>
        cases read.symm.trans read'
        cases decoded.symm.trans decoded'
        rw [(transform_eq_ok.1 transformed).1] at failed
        cases failed
    | unwritten read' decoded' _ failed =>
        cases read.symm.trans read'
        cases decoded.symm.trans decoded'
        rw [failed, if_neg (failing rfl)]
        exact .failed fun _ done => by cases done
    | written read' decoded' transformed' stored there =>
        cases read.symm.trans read'
        cases decoded.symm.trans decoded'
        cases transformed.symm.trans transformed'
        rw [stored]
        refine .written ?_
        rw [find?, batch.locate_target underway.keeps underway.tidy h (by simp [there])]
        exact there
  · rw [if_neg (failing failed)]
    obtain ⟨given, other, listed, inside⟩ := barred.inTraceOf
    exact .failed fun clear _ => clear given other listed inside

end Batch

/-- What is written for a file is what the transform makes of its text with every line end as a line feed. Without
carriage returns that is what it makes of the text itself. Nothing is written without options, thus if the
configuration cannot be read; nor after a notice with a path that the console cannot show as markup, which ends
the command. A trace may be in the way of a file in a directory of its name. -/
theorem convert_delivers {text code : String} {trace : Option Path} {clear : Prop}
    (converts : Converts refusals packages t report c o source out trace clear)
    (read : refusals.read t source = .ok content) (decoded : Utf8.decode content = .ok text)
    (transformed : transform o (Text.unifyNewlines text) packages.parse = .ok code) :
    let run := (convert packages c : Job (Guarded refusals) Nat).runOn report t
    Delivers clear (deposited refusals packages o out trace text t).1 out code run ∧
      ('\r' ∉ text.toList → transform o text packages.parse = .ok code) ∧
      (code = Text.unifyNewlines text → (code.toUTF8 = content ↔ '\r' ∉ text.toList)) ∧
      ∀ shows, Seen shows report run ((convert packages c : Job (Terminal shows refusals) Nat).attend report t) := by
  refine ⟨?_, fun plain => ?_, ?_, fun shows => convert_seen packages c report t⟩
  · cases converts with
    | single there suffix target loaded =>
        rw [runOn_convert_file there loaded]
        exact convertSingle_delivers packages suffix target read decoded transformed report
    | listed batch loaded texts h => exact batch.delivers loaded texts h read decoded transformed
  · rwa [Text.unifyNewlines_eq_self plain] at transformed
  · rintro rfl
    rw [← Utf8.toUTF8_of_decode decoded, ← Text.unifyNewlines_eq_self_iff]
    exact ⟨fun same => String.toByteArray_inj.1 same, fun same => by rw [same]⟩

theorem convert_folder_delivers :
    let t := Sample.folder "\n".toUTF8 "\r\n".toUTF8
    let run := (convert {} Sample.conversion : Job (Guarded Sample.lenient) Nat).runOn {} t
    Converts Sample.lenient {} t {} Sample.conversion {} { names := ["src", "b.jsx"] }
        { names := ["dist", "b.jsx"] } none (Sample.conversion.trace.isSome = true →
          ∀ other ∈ sourcesBelow t Sample.conversion.path, ¬ InTraceOf other ["b.jsx"]) ∧
      transform {} (Text.unifyNewlines "\r\n") = .ok "\n" ∧
      run.2.find? { names := ["dist", "b.jsx"] } = some (.file "\n".toUTF8) := by
  intro t run
  have reads : Sample.lenient.read t { names := ["src", "a.jsx"] } = .ok "\n".toUTF8 ∧
      Sample.lenient.read t { names := ["src", "b.jsx"] } = .ok "\r\n".toUTF8 := ⟨by cbv, by cbv⟩
  have decoded : Utf8.decode "\r\n".toUTF8 = .ok "\r\n" := by cbv
  have texts : ∀ names ∈ sourcesBelow t Sample.conversion.path, ∀ content,
      Sample.lenient.read t (Sample.conversion.path.append names) = .ok content →
        ∃ text, Utf8.decode content = .ok text := by
    rw [Sample.sourcesBelow_folder]
    intro names h content read
    rcases List.mem_cons.1 h with rfl | h
    · cases reads.1.symm.trans read
      exact ⟨"\n", by cbv⟩
    · cases List.mem_singleton.1 h
      cases reads.2.symm.trans read
      exact ⟨"\r\n", decoded⟩
  have member : ["b.jsx"] ∈ sourcesBelow t Sample.conversion.path := by
    rw [Sample.sourcesBelow_folder]
    decide
  have converts : Converts Sample.lenient {} t {} Sample.conversion {} { names := ["src", "b.jsx"] }
      { names := ["dist", "b.jsx"] } none (Sample.conversion.trace.isSome = true →
        ∀ other ∈ sourcesBelow t Sample.conversion.path, ¬ InTraceOf other ["b.jsx"]) :=
    .listed (Sample.batch _ _) (by cbv) texts member
  have transformed : transform {} (Text.unifyNewlines "\r\n") = .ok "\n" := by cbv
  obtain ⟨⟨exit, _, _, there, _⟩, _⟩ := convert_delivers converts reads.2 decoded transformed
  exact ⟨converts, transformed, there (fun given => absurd given (by decide)) (by cbv)⟩

namespace Sample

def page (content : ByteArray) : FileTree where
  entries := [(["a.jsx"], .file content)]

def copying : Conversion where
  path := { names := ["a.jsx"] }
  out := some { names := ["b.jsx"] }

end Sample

/-- A carriage return that the transform would keep is lost. -/
theorem convert_loses_return :
    let t := Sample.page "\r\n".toUTF8
    let run := (convert {} Sample.copying : Job (Guarded Sample.lenient) Nat).runOn {} t
    ((loadOptions {} Sample.copying Sample.copying.path.parent :
        Job (Guarded Sample.lenient) _).runOn {} t).1.1 = .ok (some {}) ∧
      transform {} "\r\n" = .ok "\r\n" ∧
      run.2.find? { names := ["b.jsx"] } = some (.file "\n".toUTF8) ∧
      "\n".toUTF8 ≠ "\r\n".toUTF8 := by
  intro t run
  have loaded : ((loadOptions {} Sample.copying Sample.copying.path.parent :
      Job (Guarded Sample.lenient) _).runOn {} t).1.1 = .ok (some {}) := by cbv
  have transformed : transform {} (Text.unifyNewlines "\r\n") = .ok "\n" := by cbv
  have there : t.find? Sample.copying.path = some (.file "\r\n".toUTF8) := by cbv
  have read : Sample.lenient.read t Sample.copying.path = .ok "\r\n".toUTF8 := by cbv
  have decoded : Utf8.decode "\r\n".toUTF8 = .ok "\r\n" := by cbv
  have suffix : Sample.copying.path.suffix ∈ sourceSuffixes :=
    show Path.suffixOf "a.jsx" ∈ sourceSuffixes by decide
  obtain ⟨exit, _, _, written, _⟩ := convertSingle_delivers {} suffix rfl read decoded transformed {}
  rw [← runOn_convert_file there loaded] at written
  exact ⟨loaded, by cbv, written trivial (by cbv), by decide⟩

end JsxBoundary.CommandLine
