import Mathlib
import JsxBoundary.Proofs.CommandLine.Batches
import JsxBoundary.Proofs.CommandLine.Console

/-!
# Files of a batch do not affect each other

In a batch each source comes to what it comes to alone: the same result, and the same at its destination. The
exception is a source that lies in a directory named like the trace of another one. A source that cannot be
read, that does not transform or whose new text cannot be written is listed as failed, and its destination
stays as it was, except that writing may break off (`FileEnds`). Only a source that is no text ends the batch,
with nothing done for the sources after it (`convert_isolates`).
-/

namespace JsxBoundary.CommandLine

open FileTree JsxBoundary.Path

variable {refusals : Refusals} {packages : Packages} {t : FileTree} {o : Options} {c : Conversion} {base : Path}
  {place source rest : List String} {report : Report}

theorem runOn_convertDirectory (refusals : Refusals) (packages : Packages) (o : Options) {out : Path}
    (target : c.out = some out) (report : Report) (t : FileTree) :
    ∃ notices, (convertDirectory packages o c : Job (Guarded refusals) Nat).runOn report t =
      ((do
        let results ← (sourcesBelow t c.path).mapM (convertListed packages o c out)
        if (sourcesBelow t c.path).isEmpty then return 0
        summarize results
        return if results.all (·.2.success) then 0 else 1 :
          Job (Guarded refusals) Nat).runOn { report with notices } t) := by
  rw [convertDirectory, target]
  dsimp only
  rw [Job.runOn_bind, runOn_sourceFiles]
  dsimp only
  cases sourcesBelow t c.path with
  | nil => exact ⟨_, rfl⟩
  | cons names files =>
      rw [if_neg (by simp), Job.runOn_bind, Job.runOn_log]
      exact ⟨_, rfl⟩

theorem all_reported {files : List (List String)} {results : List FileResult}
    (length : results.length = files.length) :
    ((reported files results).all (·.2.success)) = results.all (·.success) := by
  induction files generalizing results with
  | nil => rw [List.length_eq_zero_iff.1 length]; rfl
  | cons names files ih =>
      cases results with
      | nil => cases length
      | cons r results => exact congrArg (r.success && ·) (ih (by simpa using length))

/-- The conversion of one source of a batch alone. -/
def alone (refusals : Refusals) (packages : Packages) (o : Options) (c : Conversion) (out : Path) (report : Report)
    (t : FileTree) (names : List String) : (Except Crash FileResult × Report) × FileTree :=
  (convertFile packages o c.verbose (c.path.append names) (some (out.append names)) (tracePath c out names) :
    Job (Guarded refusals) FileResult).runOn report t

namespace Batch

variable (batch : Batch t c base source place rest)
include batch

theorem alone_eq {names : List String} (h : names ∈ sourcesBelow t c.path) (report : Report) :
    (alone refusals packages o c (base.append rest) report t names).1.1 =
        (sourceEnd refusals packages o c (base.append rest) t names).1 ∧
      (alone refusals packages o c (base.append rest) report t names).2 =
        (sourceEnd refusals packages o c (base.append rest) t names).2 := by
  obtain ⟨notices, run⟩ := runOn_convertFile refusals packages (batch.named h) o c.verbose
    ((base.append rest).append names) (tracePath c (base.append rest) names) report t
  rw [alone, run]
  exact ⟨rfl, rfl⟩

theorem alone_ends (refusals : Refusals) (packages : Packages) (o : Options) {names : List String}
    (h : names ∈ sourcesBelow t c.path) (report : Report) :
    FileEnds refusals packages o t (c.path.append names) ((base.append rest).append names)
      (tracePath c (base.append rest) names) (place ++ (rest ++ names))
      ((alone refusals packages o c (base.append rest) report t names).2.get? (place ++ (rest ++ names)))
      (alone refusals packages o c (base.append rest) report t names).1.1 := by
  rw [(batch.alone_eq h report).1, (batch.alone_eq h report).2]
  obtain ⟨dirs, name, rfl, _⟩ := batch.listed h
  obtain ⟨plain, plain'⟩ := batch.plain_append h
  have same : (base.append rest).append (dirs ++ [name]) = base.append (rest ++ dirs ++ [name]) := by
    simp [Path.append]
  rw [sourceEnd_append, tracePath_append, same, ← List.append_assoc rest]
  exact fileEnd_ends refusals packages batch.reaches batch.tidy plain plain' (batch.ne_sibling h) o _

theorem find?_directory : t.find? c.path = some .directory := by
  rw [find?, batch.leads.located]
  exact batch.leads.directory

theorem runOn_convert (loaded : ((loadOptions packages c c.path : Job (Guarded refusals) _).runOn report t).1.1 =
      .ok (some o)) :
    ∃ notices, (convert packages c : Job (Guarded refusals) Nat).runOn report t =
      ((do
        let results ← (sourcesBelow t c.path).mapM (convertListed packages o c (base.append rest))
        if (sourcesBelow t c.path).isEmpty then return 0
        summarize results
        return if results.all (·.2.success) then 0 else 1 :
          Job (Guarded refusals) Nat).runOn { report with notices } t) := by
  obtain ⟨notices, run⟩ := runOn_convertDirectory refusals packages o batch.target report t
  refine ⟨notices, ?_⟩
  rw [runOn_convert_directory packages report batch.find?_directory, runOn_loadOptions_some loaded]
  exact run

theorem run_ok (loaded : ((loadOptions packages c c.path : Job (Guarded refusals) _).runOn report t).1.1 =
      .ok (some o))
    (goes : ∀ names ∈ sourcesBelow t c.path,
      ∃ r, (sourceEnd refusals packages o c (base.append rest) t names).1 = .ok r) :
    ∃ results notices t', (convert packages c : Job (Guarded refusals) Nat).runOn report t =
        ((.ok (if results.all (·.success) then 0 else 1), { report with
          notices
          displays := report.displays ++ failureDisplays (reported (sourcesBelow t c.path) results) }), t') ∧
      Underway refusals t t' c source place rest [] ∧
      Pointwise (Settled refusals packages o t t' c base place rest) (sourcesBelow t c.path) results := by
  obtain ⟨first, start⟩ := batch.runOn_convert loaded
  obtain ⟨results, notices, t', run, underway, settled, _⟩ := batch.run_before
    (batch.start refusals (sourcesBelow t c.path ++ []))
    (by rw [List.append_nil]; exact nodup_sourcesBelow batch.tidy batch.leads)
    (by simp) goes { report with notices := first }
  rw [start, Job.runOn_bind, run]
  dsimp only
  split
  · rename_i empty
    have none : sourcesBelow t c.path = [] := List.isEmpty_iff.1 empty
    rw [none] at settled ⊢
    cases settled.of_nil
    exact ⟨[], notices, t', by simp [Job.runOn_pure, reported, failureDisplays], underway, .nil⟩
  · obtain ⟨notices', summed⟩ := runOn_summarize refusals
      (reported (sourcesBelow t c.path) results) { report with notices } t'
    refine ⟨results, notices', t', ?_, underway, settled⟩
    rw [Job.runOn_bind, summed, ← all_reported settled.length]
    rfl

end Batch

namespace Sample

def folder (a b : ByteArray) : FileTree where
  entries := [(["src"], .directory), (["src", "a.jsx"], .file a), (["src", "b.jsx"], .file b)]

def conversion : Conversion where
  path := { names := ["src"] }
  out := some { names := ["dist"] }

def lenient : Refusals where
  refuses _ _ := none

theorem sourcesBelow_folder (a b : ByteArray) :
    sourcesBelow (folder a b) conversion.path = [["a.jsx"], ["b.jsx"]] := by
  have listed : (folder a b).filesBelow conversion.path = [["a.jsx"], ["b.jsx"]] := rfl
  rw [sourcesBelow, listed]
  exact List.mergeSort_of_pairwise (by decide)

theorem batch (a b : ByteArray) :
    Batch (folder a b) conversion { names := [] } ["src"] [] ["dist"] where
  tidy := by
    refine .of_entries (show ([["src"], ["src", "a.jsx"], ["src", "b.jsx"]]).Nodup by decide)
      fun x member => ?_
    simp only [folder, List.mem_cons, List.not_mem_nil, or_false] at member
    rcases member with rfl | rfl | rfl
    · exact ⟨[], "src", rfl, show ".." ∉ ["src"] by decide, rfl⟩
    · exact ⟨["src"], "a.jsx", rfl, show ".." ∉ ["src", "a.jsx"] by decide, rfl⟩
    · exact ⟨["src"], "b.jsx", rfl, show ".." ∉ ["src", "b.jsx"] by decide, rfl⟩
  leads := ⟨rfl, rfl⟩
  reaches := ⟨rfl, rfl⟩
  plain := by decide
  target := rfl
  apart := by decide

end Sample

end JsxBoundary.CommandLine
