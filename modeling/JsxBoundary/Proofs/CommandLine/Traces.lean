import Mathlib
import JsxBoundary.Proofs.CommandLine.Isolation

namespace JsxBoundary

namespace Path

variable {name : String}

theorem exists_stem (h : suffixOf name ∈ sourceSuffixes) : ∃ stem, traceName name = stem ++ ".trace.json" ∧
    (name = stem ++ ".jsx" ∨ name = stem ++ ".tsx") := by
  have four : (suffixOf name).length = 4 := by
    rcases List.mem_cons.1 h with same | same
    · rw [same]; rfl
    · rw [List.mem_singleton.1 same]; rfl
  obtain ⟨front, ends⟩ := reverse_of_suffixOf h
  have spelled (last : List Char) (ends : name.toList.reverse = last ++ front) :
      name = String.ofList front.reverse ++ String.ofList last.reverse ∧
        (last.length = 4 → traceName name = String.ofList front.reverse ++ ".trace.json") := by
    have whole : name.toList = front.reverse ++ last.reverse := by
      rw [← List.reverse_append, ← ends, List.reverse_reverse]
    refine ⟨String.toList_inj.1 (by simpa using whole), fun length => ?_⟩
    have size : name.length = front.length + 4 := by
      rw [← String.length_toList, whole]
      simp [length]
    rw [traceName, four, whole, size]
    simp
  refine ⟨String.ofList front.reverse, ?_⟩
  rcases ends with ends | ends
  · obtain ⟨whole, trace⟩ := spelled ['x', 's', 'j', '.'] ends
    exact ⟨trace rfl, .inl whole⟩
  · obtain ⟨whole, trace⟩ := spelled ['x', 's', 't', '.'] ends
    exact ⟨trace rfl, .inr whole⟩

theorem append_left_inj (p : Path) {a b : List String} : p.append a = p.append b ↔ a = b := by
  simp [append]

theorem ends_apart (stem stem' : String) : stem ++ ".jsx" ≠ stem' ++ ".tsx" := by
  intro same
  have reversed := congrArg (·.toList.reverse) same
  simp at reversed

/-! ## The order of sources -/

theorem namesBefore_trans (a b c : List String) (first : namesBefore a b = true) (second : namesBefore b c = true) :
    namesBefore a c = true := by
  induction a generalizing b c with
  | nil => rfl
  | cons x a ih =>
      cases b with
      | nil => cases first
      | cons y b =>
          cases c with
          | nil => cases second
          | cons z c =>
              simp only [namesBefore, beq_iff_eq] at first second ⊢
              split_ifs at first second ⊢ with xy yz xz
              all_goals grind

theorem namesBefore_total (a b : List String) : (namesBefore a b || namesBefore b a) = true := by
  induction a generalizing b with
  | nil => rfl
  | cons x a ih =>
      cases b with
      | nil => rfl
      | cons y b =>
          by_cases same : x = y
          · simpa [namesBefore, same] using ih b
          · simpa [namesBefore, same, Ne.symm same] using lt_or_gt_of_ne same

theorem namesBefore_append (dirs a b : List String) : namesBefore (dirs ++ a) (dirs ++ b) = namesBefore a b := by
  induction dirs with
  | nil => rfl
  | cons dir dirs ih => simpa [namesBefore] using ih

theorem not_before_twin (stem : String) : ¬ stem ++ ".tsx" < stem ++ ".jsx" := by
  rw [String.lt_iff_toList_lt, String.toList_append, String.toList_append]
  induction stem.toList with
  | nil => decide
  | cons c cs ih => simpa [List.cons_lt_cons_iff] using ih

end Path

namespace CommandLine

open FileTree JsxBoundary.Path

variable {refusals : Refusals} {packages : Packages} {t t' : FileTree} {o : Options} {c : Conversion} {base : Path}
  {place source rest names other : List String} {report : Report}

/-- Sources of one directory whose names differ in their ends alone. -/
def Twins (names other : List String) : Prop :=
  ∃ dirs stem, names = dirs ++ [stem ++ ".jsx"] ∧ other = dirs ++ [stem ++ ".tsx"]

theorem Twins.last {third : List String} (twins : Twins names other) : ¬ Twins other third := by
  obtain ⟨dirs, stem, rfl, rfl⟩ := twins
  rintro ⟨dirs', stem', same, rfl⟩
  have last : stem ++ ".tsx" = stem' ++ ".jsx" := by simpa using congrArg List.getLast? same
  exact ends_apart stem' stem last.symm

theorem sorted_sourcesBelow (t : FileTree) (p : Path) :
    (sourcesBelow t p).Pairwise fun a b => namesBefore a b = true :=
  List.pairwise_mergeSort namesBefore_trans namesBefore_total _

theorem twin_later {before after : List (List String)} (split : sourcesBelow t c.path = before ++ names :: after)
    (later : other ∈ after) : ¬ Twins other names := by
  rintro ⟨dirs, stem, rfl, rfl⟩
  have sorted := sorted_sourcesBelow t c.path
  rw [split, List.pairwise_append, List.pairwise_cons] at sorted
  have early := sorted.2.1.1 _ later
  rw [namesBefore_append] at early
  have apart := (ends_apart stem stem).symm
  simp only [namesBefore, beq_iff_eq, if_neg apart, decide_eq_true_eq] at early
  exact not_before_twin stem early

namespace Batch

variable (batch : Batch t c base source place rest)
include batch

theorem listed_trace (given : c.trace.isSome = true) (h : names ∈ sourcesBelow t c.path) :
    ∃ dirs stem, tracePath c (base.append rest) names =
        some (base.append (rest ++ dirs ++ [stem ++ ".trace.json"])) ∧
      (names = dirs ++ [stem ++ ".jsx"] ∨ names = dirs ++ [stem ++ ".tsx"]) := by
  obtain ⟨dirs, name, rfl, _, ends, _⟩ := batch.listed h
  obtain ⟨stem, trace, spelled⟩ := exists_stem ends
  refine ⟨dirs, stem, ?_, by rcases spelled with rfl | rfl <;> simp⟩
  rw [tracePath_of_given given, trace]

theorem tracePath_eq_iff (given : c.trace.isSome = true) (h : names ∈ sourcesBelow t c.path)
    (h' : other ∈ sourcesBelow t c.path) :
    tracePath c (base.append rest) names = tracePath c (base.append rest) other ↔
      names = other ∨ Twins names other ∨ Twins other names := by
  obtain ⟨dirs, stem, trace, spelled⟩ := batch.listed_trace given h
  obtain ⟨dirs', stem', trace', spelled'⟩ := batch.listed_trace given h'
  have same : tracePath c (base.append rest) names = tracePath c (base.append rest) other ↔
      dirs = dirs' ∧ stem = stem' := by
    rw [trace, trace', Option.some.injEq, append_left_inj]
    simp
  have apart := ends_apart
  have apart' := fun stem stem' => (ends_apart stem stem').symm
  rw [same]
  rcases spelled with rfl | rfl <;> rcases spelled' with rfl | rfl
  · simp [Twins, apart]
  · simp [Twins, apart]
  · simp [Twins, apart', eq_comm]
  · simp [Twins, apart']

theorem tracePath_ne_target (given : c.trace.isSome = true) (h : names ∈ sourcesBelow t c.path)
    (h' : other ∈ sourcesBelow t c.path) :
    tracePath c (base.append rest) names ≠ some ((base.append rest).append other) := by
  obtain ⟨dirs, name, rfl, _⟩ := batch.listed h
  rw [tracePath_of_given given, ne_eq, Option.some.injEq, ← append_append, append_left_inj, List.append_assoc,
    List.append_cancel_left_eq]
  rintro rfl
  exact batch.trace_not_listed dirs name h'

end Batch

/-! ## Storing traces -/

def traceBytes (packages : Packages) (o : Options) (text : String) : ByteArray :=
  (Trace.stored (Outcome.ofSource o (Text.unifyNewlines text) packages.parse).events).toUTF8

/-- The trace of what a path leads to, if that is text. -/
def sourceTrace (refusals : Refusals) (packages : Packages) (o : Options) (t : FileTree) (path : Path) :
    Option ByteArray :=
  match refusals.read t path with
  | .error _ => none
  | .ok content =>
    match Utf8.decode content with
    | .error _ => none
    | .ok text => some (traceBytes packages o text)

theorem sourceTrace_eq_some {path : Path} {bytes : ByteArray} :
    sourceTrace refusals packages o t path = some bytes ↔ ∃ content text, refusals.read t path = .ok content ∧
      Utf8.decode content = .ok text ∧ traceBytes packages o text = bytes := by
  rw [sourceTrace]
  cases refusals.read t path with
  | error e => simp
  | ok content =>
      dsimp only
      cases decoded : Utf8.decode content <;> simp [decoded]

variable {dirs : List String} {name : String}

theorem fileEnd_traced {path : Path} {content : ByteArray} {text beside : String} (leads : t.Leads base place)
    (tidy : t.Tidy) (plain : ".." ∉ dirs ++ [name]) (plain' : ".." ∉ dirs ++ [beside]) (apart : name ≠ beside)
    (read : refusals.read t path = .ok content) (decoded : Utf8.decode content = .ok text)
    (stored : (refusals.stored t (base.append (dirs ++ [beside])) (traceBytes packages o text)).1 = .ok ()) :
    (fileEnd refusals packages o path (base.append (dirs ++ [name])) (besides base dirs (some beside)) t).2.get?
      (place ++ (dirs ++ [beside])) = some (.file (traceBytes packages o text)) := by
  have spec := refusals.stored_spec leads tidy plain' (traceBytes packages o text)
  have away : place ++ (dirs ++ [beside]) ≠ place ++ (dirs ++ [name]) := by simpa using apart.symm
  have kept := (delivered_affects refusals (leads.keep spec.affects.keeps) spec.tidy plain
    (Outcome.ofSource o (Text.unifyNewlines text) packages.parse)).1.get?_eq Way.not_last away
  rw [fileEnd, read]
  dsimp only
  rw [decoded]
  dsimp only [besides, Option.map_some, traced]
  rw [← traceBytes, kept, spec.written stored]

theorem fileEnd_untraced {sibling : Option String} (leads : t.Leads base place) (tidy : t.Tidy)
    (plain : ".." ∉ dirs ++ [name]) (plain' : ∀ other ∈ sibling, ".." ∉ dirs ++ [other])
    (apart : ∀ other ∈ sibling, name ≠ other) (path : Path) :
    (fileEnd refusals packages o path (base.append (dirs ++ [name])) (besides base dirs sibling) t).1 =
      (fileEnd refusals packages o path (base.append (dirs ++ [name])) none t).1 := by
  rw [fileEnd, fileEnd]
  cases refusals.read t path with
  | error e => rfl
  | ok content =>
      dsimp only
      cases Utf8.decode content with
      | error fault => rfl
      | ok text =>
          dsimp only
          generalize Outcome.ofSource o (Text.unifyNewlines text) packages.parse = r
          obtain ⟨affects, tidied⟩ := traced_spec refusals leads tidy plain' r.events
          have ready : Ready refusals place dirs name t (traced refusals (besides base dirs sibling) r.events t) := by
            refine (Ready.refl refusals place dirs name t).affected affects Way.not_last ?_ ?_
            · rintro ⟨other, member, same⟩
              exact apart other member (by simpa using same)
            · rintro _ way ⟨other, _, rfl⟩
              exact absurd way Way.not_last
          exact congrArg Except.ok (delivered_agree ready leads (leads.keep affects.keeps) tidy tidied plain
            (traced_target refusals leads tidy plain' apart r.events) r).1

/-- No source before this one lies in a directory named like its trace, nor it in one named like theirs. -/
def Clear (t : FileTree) (c : Conversion) (names : List String) : Prop :=
  ∀ other ∈ sourcesBelow t c.path, namesBefore other names = true → ¬ InTraceOf names other ∧ ¬ InTraceOf other names

theorem earlier_of_split {before after : List (List String)} (split : sourcesBelow t c.path = before ++ names :: after)
    (early : other ∈ before) : other ∈ sourcesBelow t c.path ∧ namesBefore other names = true := by
  have sorted := sorted_sourcesBelow t c.path
  rw [split] at sorted ⊢
  exact ⟨by simp [early], (List.pairwise_append.1 sorted).2.2 _ early _ (.head _)⟩

namespace Batch

variable (batch : Batch t c base source place rest)
include batch

theorem trace_of_touched {dirs' : List String} {last : String} (h' : dirs' ++ [last] ∈ sourcesBelow t c.path)
    (touched : Touched place (rest ++ dirs') last (sibling c last) (place ++ (rest ++ dirs ++ [traceName name]))) :
    dirs' = dirs ∧ traceName last = traceName name := by
  rcases touched with same | ⟨s, member, same⟩
  · have same : dirs' ++ [last] = dirs ++ [traceName name] := by simpa using same.symm
    exact absurd (same ▸ h') (batch.trace_not_listed dirs name)
  · obtain ⟨_, rfl⟩ := mem_sibling member
    have same : dirs = dirs' ∧ traceName name = traceName last := by simpa using same
    exact ⟨same.1.symm, same.2.symm⟩

theorem inTraceOf_of_way {dirs' : List String} {last : String} (given : c.trace.isSome = true)
    (h : dirs ++ [name] ∈ sourcesBelow t c.path) (h' : dirs' ++ [last] ∈ sourcesBelow t c.path)
    (way : Way place (rest ++ dirs') (place ++ (rest ++ dirs ++ [traceName name]))) :
    InTraceOf (dirs ++ [name]) (dirs' ++ [last]) := by
  have own : Touched place (rest ++ dirs) name (sibling c name) (place ++ (rest ++ dirs ++ [traceName name])) :=
    .inr ⟨_, sibling_of_given given name, rfl⟩
  obtain ⟨_, _, below, split⟩ := batch.trace_of_way h' h own way
  exact ⟨dirs, name, below, rfl, split⟩

theorem convert_tree
    (loaded : ((loadOptions packages c c.path : Job (Guarded refusals) _).runOn report t).1.1 = .ok (some o)) :
    ∃ notices, ∀ (results : List (String × FileResult)) (report' : Report) (t' : FileTree),
      ((sourcesBelow t c.path).mapM (convertListed packages o c (base.append rest)) : Job (Guarded refusals) _).runOn
        { report with notices } t = ((.ok results, report'), t') →
      ((convert packages c : Job (Guarded refusals) Nat).runOn report t).2 = t' := by
  obtain ⟨notices, start⟩ := batch.runOn_convert loaded
  refine ⟨notices, fun results report' t' run => ?_⟩
  rw [start, Job.runOn_bind, run]
  dsimp only
  split
  · rfl
  · obtain ⟨notices', summed⟩ := runOn_summarize refusals results report' t'
    rw [Job.runOn_bind, summed]
    rfl

/-- In a batch that no file ends, a source is converted on a tree that the sources before it have changed, and
what becomes of it is changed by the sources after it. -/
theorem run_around {before after : List (List String)}
    (loaded : ((loadOptions packages c c.path : Job (Guarded refusals) _).runOn report t).1.1 = .ok (some o))
    (goes : ∀ names ∈ sourcesBelow t c.path,
      ∃ r, (sourceEnd refusals packages o c (base.append rest) t names).1 = .ok r)
    (split : sourcesBelow t c.path = before ++ names :: after) :
    ∃ t₁, Underway refusals t t₁ c source place rest (names :: after) ∧
      Affects refusals (Ways place rest before) (Writes c place rest before) t t₁ ∧
      Affects refusals (Ways place rest after) (Writes c place rest after)
        (sourceEnd refusals packages o c (base.append rest) t₁ names).2
        ((convert packages c : Job (Guarded refusals) Nat).runOn report t).2 ∧
      Underway refusals t ((convert packages c : Job (Guarded refusals) Nat).runOn report t).2 c source place rest
        [] := by
  have distinct := nodup_sourcesBelow batch.tidy batch.leads
  have among : ∀ other ∈ before ++ names :: after, other ∈ sourcesBelow t c.path := by
    rw [split]
    exact fun _ => id
  rw [split] at distinct
  have distinct' := (List.nodup_append.1 distinct).2.1
  obtain ⟨notices, tree⟩ := batch.convert_tree loaded
  obtain ⟨early, notices₁, t₁, run₁, underway₁, _, earlier⟩ := batch.run_before (batch.start refusals _) distinct among
    (fun other member => goes other (among other (List.mem_append_left _ member))) { report with notices }
  obtain ⟨ends, _, underway₂, _⟩ := batch.step packages o underway₁ distinct'
    fun other member => among other (List.mem_append_right _ member)
  obtain ⟨notices₂, run₂⟩ := runOn_convertListed refusals packages o (base.append rest)
    (batch.named (among names (by simp))) { report with notices := notices₁ } t₁
  rw [← List.append_nil after] at underway₂
  obtain ⟨late, notices₃, t₃, run₃, underway₃, _, later⟩ := batch.run_before underway₂
    (by rw [List.append_nil]; exact (List.nodup_cons.1 distinct').2)
    (fun other member => among other (by simp_all)) (fun other member => goes other (among other (by simp [member])))
    { report with notices := notices₂ }
  refine ⟨t₁, underway₁, earlier, ?_⟩
  rcases ended : sourceEnd refusals packages o c (base.append rest) t₁ names with ⟨crash | r, u⟩
  · obtain ⟨r, own⟩ := goes names (among names (by simp))
    rw [ended] at ends
    cases own.symm.trans ((ends crash).1 rfl)
  · rw [ended] at run₂ later run₃
    have turn : ((names :: after).mapM (convertListed packages o c (base.append rest)) :
        Job (Guarded refusals) _).runOn { report with notices := notices₁ } t₁ =
          ((.ok ((toString ({ names } : Path), r) :: reported after late), { report with notices := notices₃ }),
            t₃) := by
      rw [List.mapM_cons, Job.runOn_bind, run₂]
      change Job.runOn (_ >>= _) _ _ = _
      rw [Job.runOn_bind, run₃]
      rfl
    have whole := tree (reported before early ++ (toString ({ names } : Path), r) :: reported after late)
      { report with notices := notices₃ } t₃ (by
        rw [split, List.mapM_append, Job.runOn_bind, run₁]
        change Job.runOn (_ >>= _) _ _ = _
        rw [Job.runOn_bind, turn]
        rfl)
    rw [whole]
    exact ⟨later, underway₃⟩

variable {before after : List (List String)} {t₁ : FileTree}

theorem ready_in_turn (split : sourcesBelow t c.path = before ++ (dirs ++ [name]) :: after)
    (underway : Underway refusals t t₁ c source place rest ((dirs ++ [name]) :: after))
    (earlier : Affects refusals (Ways place rest before) (Writes c place rest before) t t₁)
    (clear : Clear t c (dirs ++ [name])) : Ready refusals place (rest ++ dirs) name t t₁ := by
  refine (underway.ready _ _ (.head _)).resolve_right ?_
  rintro ⟨given, dirs', last, below, content, _, inside, free, found⟩
  -- What bars it has been written meanwhile, hence by a source before it.
  have change := earlier (place ++ (rest ++ dirs' ++ [traceName last]))
  rw [free, found] at change
  cases change with
  | written _ writes =>
      obtain ⟨dirs'', last', member, touched⟩ := writes
      obtain ⟨listed, early⟩ := earlier_of_split split member
      obtain ⟨rfl, same⟩ := batch.trace_of_touched listed touched
      exact (clear _ listed early).2 ⟨dirs'', last', below, rfl, by rw [same]; exact inside⟩

theorem stored_in_turn {bytes : ByteArray} (given : c.trace.isSome = true)
    (split : sourcesBelow t c.path = before ++ (dirs ++ [name]) :: after)
    (underway : Underway refusals t t₁ c source place rest ((dirs ++ [name]) :: after))
    (earlier : Affects refusals (Ways place rest before) (Writes c place rest before) t t₁)
    (clear : Clear t c (dirs ++ [name]))
    (stored : (refusals.stored t (base.append (rest ++ dirs ++ [traceName name])) bytes).1 = .ok ()) :
    (refusals.stored t₁ (base.append (rest ++ dirs ++ [traceName name])) bytes).1 = .ok () := by
  have h : dirs ++ [name] ∈ sourcesBelow t c.path := by simp [split]
  have leads := batch.reaches.keep underway.keeps
  obtain ⟨plain, plain'⟩ := batch.plain_append h
  have plain' := plain' _ (sibling_of_given given name)
  obtain ⟨made, bare, allowed⟩ := (Refusals.stored_ok_iff batch.reaches batch.tidy plain' _).1 stored
  refine (Refusals.stored_ok_iff leads underway.tidy plain' _).2 ⟨?_, ?_, allowed⟩
  · have ways := (batch.ready_in_turn split underway earlier clear).ways
    rw [(Refusals.ensured_agree batch.reaches leads batch.tidy underway.tidy
      (fun member => plain (List.mem_append_left _ member)) ways).1]
    exact made
  · intro directory
    have change := earlier (place ++ (rest ++ dirs ++ [traceName name]))
    rw [directory] at change
    generalize t.get? (place ++ (rest ++ dirs ++ [traceName name])) = found at change bare
    cases change with
    | kept => exact bare rfl
    | made _ way =>
        obtain ⟨dirs', last, member, way⟩ := way
        obtain ⟨listed, early⟩ := earlier_of_split split member
        exact (clear _ listed early).1 (batch.inTraceOf_of_way given h listed way)

theorem find?_trace {t' : FileTree} {pending : List (List String)} (given : c.trace.isSome = true)
    (h : dirs ++ [name] ∈ sourcesBelow t c.path) (underway : Underway refusals t t' c source place rest pending)
    {e : Entry} (found : t'.get? (place ++ (rest ++ dirs ++ [traceName name])) = some e) :
    t'.find? (base.append (rest ++ dirs ++ [traceName name])) = some e := by
  have plain := (batch.plain_append h).2 _ (sibling_of_given given name)
  rw [find?, (batch.reaches.keep underway.keeps).locate_append,
    underway.tidy.walk_eq plain (by rw [found]; exact Option.some_ne_none _)]
  exact found

theorem trace_directory {t' : FileTree} {pending : List (List String)}
    (underway : Underway refusals t t' c source place rest pending) (h' : other ∈ sourcesBelow t c.path)
    (inside : InTraceOf (dirs ++ [name]) other) (found : t'.get? (place ++ (rest ++ other)) ≠ none) :
    t'.get? (place ++ (rest ++ dirs ++ [traceName name])) = some .directory := by
  obtain ⟨dirs', last, below, same, rfl⟩ := inside
  obtain ⟨rfl, ends⟩ := List.append_inj' same rfl
  cases List.singleton_inj.1 ends
  have deeper : below ≠ [] := by
    rintro rfl
    rw [List.append_nil] at h'
    exact batch.trace_not_listed _ _ h'
  refine underway.tidy.above ?_ deeper
  simpa using found

/-- After a batch that no file ends, the trace of a clear source without a twin of a later name stands in its
place, if it can be stored there. -/
theorem trace_stands (given : c.trace.isSome = true)
    (loaded : ((loadOptions packages c c.path : Job (Guarded refusals) _).runOn report t).1.1 = .ok (some o))
    (goes : ∀ names ∈ sourcesBelow t c.path,
      ∃ r, (sourceEnd refusals packages o c (base.append rest) t names).1 = .ok r)
    (h : dirs ++ [name] ∈ sourcesBelow t c.path) (clear : Clear t c (dirs ++ [name]))
    (single : ∀ other ∈ sourcesBelow t c.path, ¬ Twins (dirs ++ [name]) other) {content : ByteArray} {text : String}
    (read : refusals.read t (c.path.append (dirs ++ [name])) = .ok content) (decoded : Utf8.decode content = .ok text)
    (stored : (refusals.stored t (base.append (rest ++ dirs ++ [traceName name])) (traceBytes packages o text)).1 =
      .ok ()) :
    ((convert packages c : Job (Guarded refusals) Nat).runOn report t).2.get?
      (place ++ (rest ++ dirs ++ [traceName name])) = some (.file (traceBytes packages o text)) := by
  obtain ⟨before, after, split⟩ := List.append_of_mem h
  have distinct := nodup_sourcesBelow batch.tidy batch.leads
  rw [split] at distinct
  have apart := (List.nodup_cons.1 (List.nodup_middle.1 distinct)).1
  obtain ⟨t₁, underway, earlier, later, _⟩ := batch.run_around loaded goes split
  obtain ⟨plain, plain'⟩ := batch.plain_append h
  have beside := sibling_of_given given name
  have there := fileEnd_traced (batch.reaches.keep underway.keeps) underway.tidy plain (plain' _ beside)
    (batch.ne_sibling h _ beside) ((batch.read_eq underway h).trans read) decoded
    (batch.stored_in_turn given split underway earlier clear stored)
  rw [← beside, ← sourceEnd_append] at there
  -- The sources after it store their traces elsewhere.
  rw [← there]
  refine later.file_eq there ?_
  rintro ⟨dirs', last, member, touched⟩
  have listed : dirs' ++ [last] ∈ sourcesBelow t c.path := by simp [split, member]
  obtain ⟨rfl, same⟩ := batch.trace_of_touched listed touched
  have shared := (batch.tracePath_eq_iff given h listed).1 (by
    rw [tracePath_of_given given, tracePath_of_given given, same])
  rcases shared with same | twins | twins
  · exact apart (List.mem_append_right _ (same ▸ member))
  · exact single _ listed twins
  · exact twin_later split member twins

end Batch

/-- In a batch of files that all convert, sources share the place of their traces exactly if they are twins, and
no destination is such a place. After the batch a source finds its own trace there, unless it has a twin of a
later name: then it finds the trace of that one. This is for sources that are clear of the traces of those before
them; the place of a trace is a directory if a source in a directory of that name has been converted. -/
theorem convert_keeps_traces (refusals : Refusals) (packages : Packages) (batch : Batch t c base source place rest)
    (given : c.trace.isSome = true) (report : Report)
    (loaded : ((loadOptions packages c c.path : Job (Guarded refusals) _).runOn report t).1.1 = .ok (some o))
    (converts : ∀ names ∈ sourcesBelow t c.path, ∃ r,
      (alone refusals packages o c (base.append rest) report t names).1.1 = .ok r ∧ r.success = true) :
    let files := sourcesBelow t c.path
    let run := (convert packages c : Job (Guarded refusals) Nat).runOn report t
    let own names := sourceTrace refusals packages o t (c.path.append names)
    (∀ names ∈ files, ∀ other ∈ files,
      (tracePath c (base.append rest) names = tracePath c (base.append rest) other ↔
        names = other ∨ Twins names other ∨ Twins other names) ∧
      tracePath c (base.append rest) names ≠ some ((base.append rest).append other)) ∧
    (∀ names ∈ files, ∃ path trace, tracePath c (base.append rest) names = some path ∧ own names = some trace ∧
      ((∀ other ∈ files, ¬ Twins names other) → Clear t c names → (refusals.stored t path trace).1 = .ok () →
        run.2.find? path = some (.file trace)) ∧
      (∀ other ∈ files, Twins names other → Clear t c other → ∃ trace', own other = some trace' ∧
        ((refusals.stored t path trace').1 = .ok () → run.2.find? path = some (.file trace'))) ∧
      ∀ other ∈ files, InTraceOf names other → run.2.get? (place ++ (rest ++ other)) ≠ none →
        run.2.find? path = some .directory) ∧
    ∀ shows, Seen shows report run ((convert packages c : Job (Terminal shows refusals) Nat).attend report t) := by
  dsimp only
  have goes : ∀ names ∈ sourcesBelow t c.path, ∃ r,
      (sourceEnd refusals packages o c (base.append rest) t names).1 = .ok r := by
    intro names h
    obtain ⟨r, ended, _⟩ := converts names h
    exact ⟨r, (batch.alone_eq h report).1 ▸ ended⟩
  have own (names : List String) (h : names ∈ sourcesBelow t c.path) : ∃ content text,
      refusals.read t (c.path.append names) = .ok content ∧ Utf8.decode content = .ok text := by
    obtain ⟨r, ended, success⟩ := converts names h
    have ways := batch.alone_ends refusals packages o h report
    rw [ended] at ways
    cases ways with
    | unread | untransformed | unwritten => cases success
    | written read decoded => exact ⟨_, _, read, decoded⟩
  obtain ⟨_, _, t', run, underway, _⟩ := batch.run_ok loaded goes
  replace underway : Underway refusals t ((convert packages c : Job (Guarded refusals) Nat).runOn report t).2 c
    source place rest [] := by rw [run]; exact underway
  refine ⟨fun names h other h' => ⟨batch.tracePath_eq_iff given h h', batch.tracePath_ne_target given h h'⟩,
    fun names h => ?_, fun shows => convert_seen packages c report t⟩
  obtain ⟨content, text, read, decoded⟩ := own names h
  obtain ⟨dirs, name, rfl, _⟩ := batch.listed h
  refine ⟨_, traceBytes packages o text, tracePath_of_given given dirs name,
    sourceTrace_eq_some.2 ⟨content, text, read, decoded, rfl⟩, fun single clear stored => ?_,
    fun other h' twins clear => ?_, fun other h' inside there => ?_⟩
  · exact batch.find?_trace given h underway
      (batch.trace_stands given loaded goes h clear single read decoded stored)
  · obtain ⟨content', text', read', decoded'⟩ := own other h'
    have shared := (batch.tracePath_eq_iff given h h').2 (.inr (.inl twins))
    obtain ⟨dirs', last, rfl, _⟩ := batch.listed h'
    rw [tracePath_of_given given, tracePath_of_given given, Option.some.injEq] at shared
    refine ⟨traceBytes packages o text', sourceTrace_eq_some.2 ⟨content', text', read', decoded', rfl⟩,
      fun stored => ?_⟩
    rw [shared] at stored ⊢
    exact batch.find?_trace given h' underway
      (batch.trace_stands given loaded goes h' clear (fun _ _ => twins.last) read' decoded' stored)
  · exact batch.find?_trace given h underway (batch.trace_directory underway h' inside there)

namespace Sample

def twins : FileTree where
  entries := [(["src"], .directory), (["src", "a.jsx"], .file "\n".toUTF8), (["src", "a.tsx"], .file "\n".toUTF8)]

def tracing : Conversion where
  path := { names := ["src"] }
  out := some { names := ["dist"] }
  trace := some { names := ["t.json"] }

theorem sourcesBelow_twins : sourcesBelow twins tracing.path = [["a.jsx"], ["a.tsx"]] := by
  have listed : twins.filesBelow tracing.path = [["a.jsx"], ["a.tsx"]] := rfl
  rw [sourcesBelow, listed]
  exact List.mergeSort_of_pairwise (by decide)

theorem batch_twins : Batch twins tracing { names := [] } ["src"] [] ["dist"] where
  tidy := by
    refine .of_entries (show ([["src"], ["src", "a.jsx"], ["src", "a.tsx"]]).Nodup by decide)
      fun x member => ?_
    simp only [twins, List.mem_cons, List.not_mem_nil, or_false] at member
    rcases member with rfl | rfl | rfl
    · exact ⟨[], "src", rfl, show ".." ∉ ["src"] by decide, rfl⟩
    · exact ⟨["src"], "a.jsx", rfl, show ".." ∉ ["src", "a.jsx"] by decide, rfl⟩
    · exact ⟨["src"], "a.tsx", rfl, show ".." ∉ ["src", "a.tsx"] by decide, rfl⟩
  leads := ⟨rfl, rfl⟩
  reaches := ⟨rfl, rfl⟩
  plain := by decide
  target := rfl
  apart := by decide

theorem clear_twins : Clear twins tracing ["a.tsx"] := by
  -- Both sources lie in no directory at all.
  have outside : ∀ last, [last] ∈ sourcesBelow twins tracing.path → ∀ other, ¬ InTraceOf other [last] := by
    rintro last h _ ⟨dirs, name, below, rfl, split⟩
    obtain ⟨rfl, rfl⟩ : dirs = [] ∧ below = [] := by cases dirs <;> simp_all
    rw [split, List.append_nil] at h
    exact batch_twins.trace_not_listed [] name h
  have listed := sourcesBelow_twins
  intro other h _
  obtain rfl | rfl : other = ["a.jsx"] ∨ other = ["a.tsx"] := by simpa [listed] using h
  · exact ⟨outside _ h _, outside _ (by simp [listed]) _⟩
  · exact ⟨outside _ h _, outside _ h _⟩

theorem converts_twins : ∀ names ∈ sourcesBelow twins tracing.path, ∃ r,
    (alone lenient {} {} tracing { names := ["dist"] } {} twins names).1.1 = .ok r ∧ r.success = true := by
  intro names h
  obtain ⟨dirs, name, rfl, _⟩ := batch_twins.listed h
  obtain ⟨plain, plain'⟩ := batch_twins.plain_append h
  refine ⟨⟨true, 0, []⟩, ?_, rfl⟩
  refine (batch_twins.alone_eq h {}).1.trans ?_
  rw [sourceEnd_append, fileEnd_untraced batch_twins.reaches batch_twins.tidy plain plain' (batch_twins.ne_sibling h)]
  rw [sourcesBelow_twins] at h
  obtain ⟨rfl, rfl⟩ | ⟨rfl, rfl⟩ : dirs = [] ∧ name = "a.jsx" ∨ dirs = [] ∧ name = "a.tsx" := by
    cases dirs <;> simp_all
  · cbv
  · cbv

end Sample

theorem convert_twins_traces :
    let run := (convert {} Sample.tracing : Job (Guarded Sample.lenient) Nat).runOn {} Sample.twins
    Batch Sample.twins Sample.tracing { names := [] } ["src"] [] ["dist"] ∧
      Sample.tracing.trace.isSome = true ∧
      ((loadOptions {} Sample.tracing Sample.tracing.path : Job (Guarded Sample.lenient) _).runOn {}
        Sample.twins).1.1 = .ok (some {}) ∧
      (∀ names ∈ sourcesBelow Sample.twins Sample.tracing.path, ∃ r,
        (alone Sample.lenient {} {} Sample.tracing { names := ["dist"] } {} Sample.twins names).1.1 = .ok r ∧
          r.success = true) ∧
      run.2.find? { names := ["dist", "a.trace.json"] } = some (.file (traceBytes {} {} "\n")) := by
  intro run
  have loaded : ((loadOptions {} Sample.tracing Sample.tracing.path :
      Job (Guarded Sample.lenient) _).runOn {} Sample.twins).1.1 = .ok (some {}) := by cbv
  have kept := (convert_keeps_traces Sample.lenient {} Sample.batch_twins rfl {} loaded Sample.converts_twins).2.1
  rw [Sample.sourcesBelow_twins] at kept
  obtain ⟨path, trace, place, own, _, later, _⟩ := kept ["a.jsx"] (.head _)
  obtain ⟨trace', own', there⟩ := later ["a.tsx"] (.tail _ (.head _)) ⟨[], "a", rfl, rfl⟩ Sample.clear_twins
  have read : Sample.lenient.read Sample.twins { names := ["src", "a.tsx"] } = .ok "\n".toUTF8 := by cbv
  have decoded : Utf8.decode "\n".toUTF8 = .ok "\n" := by cbv
  cases own'.symm.trans (sourceTrace_eq_some.2 ⟨_, _, read, decoded, rfl⟩)
  have target : tracePath Sample.tracing { names := ["dist"] } ["a.jsx"] =
      some { names := ["dist", "a.trace.json"] } := by decide
  cases place.symm.trans target
  refine ⟨Sample.batch_twins, rfl, loaded, Sample.converts_twins, there ?_⟩
  have plain : ".." ∉ ["dist"] ++ ["a.trace.json"] := by decide
  have free : Sample.twins.get? ["dist", "a.trace.json"] = none := rfl
  refine (Refusals.stored_ok_iff Sample.batch_twins.reaches Sample.batch_twins.tidy plain _).2
    ⟨by cbv, ?_, rfl, rfl⟩
  rw [List.nil_append, List.singleton_append, free]
  simp

/-- Two sources that both convert have one place for their traces. -/
theorem convert_twins_share_place :
    sourcesBelow Sample.twins Sample.tracing.path = [["a.jsx"], ["a.tsx"]] ∧
      (∀ names ∈ sourcesBelow Sample.twins Sample.tracing.path, ∃ r,
        (alone Sample.lenient {} {} Sample.tracing { names := ["dist"] } {} Sample.twins names).1.1 = .ok r ∧
          r.success = true) ∧
      tracePath Sample.tracing { names := ["dist"] } ["a.jsx"] = some { names := ["dist", "a.trace.json"] } ∧
      tracePath Sample.tracing { names := ["dist"] } ["a.tsx"] = some { names := ["dist", "a.trace.json"] } :=
  ⟨Sample.sourcesBelow_twins, Sample.converts_twins, by decide, by decide⟩

end CommandLine

end JsxBoundary
