import JsxBoundary.Proofs.CommandLine.Files
import JsxBoundary.Proofs.Paired

namespace JsxBoundary

namespace Path

variable {name : String}

theorem reverse_of_suffixOf (h : suffixOf name ∈ sourceSuffixes) :
    ∃ front, name.toList.reverse = 'x' :: 's' :: 'j' :: '.' :: front ∨
      name.toList.reverse = 'x' :: 's' :: 't' :: '.' :: front := by
  have whole := List.takeWhile_append_dropWhile (p := (· != '.')) (l := name.toList.reverse)
  unfold suffixOf at h
  dsimp only at h
  generalize name.toList.reverse.takeWhile (· != '.') = after at h whole
  generalize rest : name.toList.reverse.dropWhile (· != '.') = back at h whole
  split at h
  · exact absurd h (by decide)
  · rename_i full
    have point : ∃ front, back = '.' :: front := by
      cases back with
      | nil => simp at full
      | cons c front =>
          have head := List.head_dropWhile_not (p := (· != '.')) (l := name.toList.reverse) (by simp [rest])
          simp only [rest, List.head_cons, bne_eq_false_iff_eq] at head
          exact ⟨front, by rw [head]⟩
    obtain ⟨front, rfl⟩ := point
    have spelled : ∀ s : String, String.ofList ('.' :: after.reverse) = s →
        after = (s.toList.drop 1).reverse := by
      rintro s rfl
      simp
    refine ⟨front, ?_⟩
    rw [← whole]
    rcases List.mem_cons.1 h with h | h
    · rw [spelled _ h]
      exact .inl rfl
    · rw [spelled _ (List.mem_singleton.1 h)]
      exact .inr rfl

theorem isSourceName_of_suffixOf (h : suffixOf name ∈ sourceSuffixes) : isSourceName name = true := by
  obtain ⟨front, ends | ends⟩ := reverse_of_suffixOf h <;>
    simp [isSourceName, ends, sourceSuffixes]

def traceName (name : String) : String :=
  String.ofList (name.toList.take (name.length - (suffixOf name).length)) ++ ".trace.json"

theorem withSuffix_append (p : Path) (dirs : List String) :
    (p.append (dirs ++ [name])).withSuffix ".trace.json" = p.append (dirs ++ [traceName name]) := by
  have last : (p.append (dirs ++ [name])).name = name := by simp [Path.name, Path.append]
  rw [withSuffix, suffix, last]
  simp [traceName, Path.parent, Path.append, ← List.append_assoc]

theorem traceName_ne (h : suffixOf name ∈ sourceSuffixes) (other : String) : name ≠ traceName other := by
  rintro rfl
  obtain ⟨front, ends | ends⟩ := reverse_of_suffixOf h <;>
    simp [traceName] at ends

theorem traceName_plain (name : String) : ".." ≠ traceName name := by
  intro same
  have ends := congrArg (·.toList.reverse) same
  simp [traceName] at ends

end Path

namespace CommandLine

open FileTree JsxBoundary.Path

variable {refusals : Refusals} {packages : Packages} {t t' t'' : FileTree} {o : Options} {c : Conversion} {base : Path}
  {place source rest names : List String}

/-! ## The files of a directory -/

/-- The source files below a directory by their names from there, in the order of their names. -/
def sourcesBelow (t : FileTree) (p : Path) : List (List String) :=
  ((t.filesBelow p).filter fun names =>
    sourceSuffixes.contains (suffixOf (names.getLast?.getD ""))).mergeSort namesBefore

theorem runOn_sourceFiles (p : Path) (report : Report) (t : FileTree) :
    (sourceFiles p : Job (Guarded refusals) _).runOn report t =
      ((.ok (sourcesBelow t p), report), t) := rfl

theorem nodup_sourcesBelow (tidy : t.Tidy) {p : Path} (leads : t.Leads p source) :
    (sourcesBelow t p).Nodup :=
  (List.mergeSort_perm _ _).nodup_iff.2 ((tidy.nodup_filesBelow leads).filter _)

/-- A directory to be converted into another one that is apart from it. As far as the way to the destination is
not there yet, it has plain names. -/
structure Batch (t : FileTree) (c : Conversion) (base : Path) (source place rest : List String) :
    Prop where
  tidy : t.Tidy
  leads : t.Leads c.path source
  reaches : t.Leads base place
  plain : ".." ∉ rest
  target : c.out = some (base.append rest)
  apart : ¬ source <+: place ++ rest ∧ ¬ place ++ rest <+: source

namespace Batch

variable (batch : Batch t c base source place rest)
include batch

theorem listed (h : names ∈ sourcesBelow t c.path) : ∃ dirs name, names = dirs ++ [name] ∧
    ".." ∉ dirs ++ [name] ∧ suffixOf name ∈ sourceSuffixes ∧
      ∃ content, t.get? (source ++ names) = some (.file content) := by
  have member := (List.mergeSort_perm _ _).mem_iff.1 h
  obtain ⟨below, ends⟩ := List.mem_filter.1 member
  obtain ⟨some, plain⟩ := batch.tidy.plain_filesBelow batch.leads below
  obtain ⟨content, found⟩ := (batch.tidy.mem_filesBelow batch.leads).1 below
  obtain ⟨dirs, name, rfl⟩ : ∃ dirs name, names = dirs ++ [name] :=
    ⟨_, _, (List.dropLast_concat_getLast some).symm⟩
  rw [List.getLast?_concat, Option.getD_some, List.contains_iff_mem] at ends
  exact ⟨dirs, name, rfl, plain, ends, content, found⟩

theorem not_below {below : List String} (h : names ∈ sourcesBelow t c.path)
    (h' : names ++ below ∈ sourcesBelow t c.path) : below = [] := by
  obtain ⟨_, _, _, _, _, content, found⟩ := batch.listed h
  obtain ⟨_, _, _, _, _, content', found'⟩ := batch.listed h'
  by_contra some
  rw [← List.append_assoc] at found'
  rw [batch.tidy.above (by rw [found']; nofun) some] at found
  cases found

end Batch

/-- Where the trace of a source of a batch goes, if traces are stored. -/
def tracePath (c : Conversion) (out : Path) (names : List String) : Option Path :=
  c.trace.map fun _ => (out.append names).withSuffix ".trace.json"

def sourceEnd (refusals : Refusals) (packages : Packages) (o : Options) (c : Conversion) (out : Path)
    (t : FileTree) (names : List String) : Except Crash FileResult × FileTree :=
  fileEnd refusals packages o (c.path.append names) (out.append names) (tracePath c out names) t

def sibling (c : Conversion) (name : String) : Option String :=
  c.trace.map fun _ => traceName name

theorem tracePath_append (dirs : List String) (name : String) :
    tracePath c (base.append rest) (dirs ++ [name]) = besides base (rest ++ dirs) (sibling c name) := by
  rw [tracePath, withSuffix_append, besides, sibling, Option.map_map]
  simp only [Path.append, List.append_assoc, Function.comp_def]

theorem sibling_of_given (given : c.trace.isSome = true) (name : String) : sibling c name = some (traceName name) := by
  obtain ⟨_, traced⟩ := Option.isSome_iff_exists.1 given
  rw [sibling, traced, Option.map_some]

theorem tracePath_of_given (given : c.trace.isSome = true) (dirs : List String) (name : String) :
    tracePath c (base.append rest) (dirs ++ [name]) = some (base.append (rest ++ dirs ++ [traceName name])) := by
  rw [tracePath_append, sibling_of_given given]
  rfl

theorem sourceEnd_append (dirs : List String) (name : String) :
    sourceEnd refusals packages o c (base.append rest) t (dirs ++ [name]) =
      fileEnd refusals packages o (c.path.append (dirs ++ [name])) (base.append (rest ++ dirs ++ [name]))
        (besides base (rest ++ dirs) (sibling c name)) t := by
  rw [sourceEnd, tracePath_append]
  simp only [Path.append, List.append_assoc]

/-! ## Sources do not get in each other's way -/

/-- The trace of another source has become a file where the directory of the destination should be. -/
def Barred (t t' : FileTree) (c : Conversion) (place rest names : List String) : Prop :=
  c.trace.isSome = true ∧ ∃ dirs name below content,
    dirs ++ [name] ∈ sourcesBelow t c.path ∧ names = dirs ++ [traceName name] ++ below ∧
      t.get? (place ++ (rest ++ dirs ++ [traceName name])) = none ∧
      t'.get? (place ++ (rest ++ dirs ++ [traceName name])) = some (.file content)

def Ways (place rest : List String) (files : List (List String)) (q : List String) : Prop :=
  ∃ dirs name, dirs ++ [name] ∈ files ∧ Way place (rest ++ dirs) q

def Writes (c : Conversion) (place rest : List String) (files : List (List String)) (q : List String) : Prop :=
  ∃ dirs name, dirs ++ [name] ∈ files ∧ Touched place (rest ++ dirs) name (sibling c name) q

/-- A source lies in a directory with the name that the trace of another source has beside it. -/
def InTraceOf (other names : List String) : Prop :=
  ∃ dirs name below, other = dirs ++ [name] ∧ names = dirs ++ [traceName name] ++ below

theorem Barred.inTraceOf (barred : Barred t t' c place rest names) :
    c.trace.isSome = true ∧ ∃ other ∈ sourcesBelow t c.path, InTraceOf other names := by
  obtain ⟨given, dirs, name, below, _, listed, split, _⟩ := barred
  exact ⟨given, _, listed, dirs, name, below, rfl, split⟩

theorem Barred.keep {ways files : List String → Prop} (barred : Barred t t' c place rest names)
    (affects : Affects refusals ways files t' t'') : Barred t t'' c place rest names := by
  obtain ⟨given, dirs, name, below, content, listed, rfl, free, found⟩ := barred
  obtain ⟨content', still⟩ := affects.stays_file found
  exact ⟨given, dirs, name, below, content', listed, rfl, free, still⟩

namespace Batch

variable {dirs other : List String} {name last : String} {q : List String}

theorem mem_sibling {s : String} (h : s ∈ sibling c name) : c.trace.isSome = true ∧ s = traceName name := by
  obtain ⟨_, given, rfl⟩ := Option.map_eq_some_iff.1 h
  exact ⟨by simp [given], rfl⟩

variable (batch : Batch t c base source place rest)
include batch

theorem trace_of_way (h : dirs ++ [name] ∈ sourcesBelow t c.path)
    (h' : other ++ [last] ∈ sourcesBelow t c.path)
    (touched : Touched place (rest ++ other) last (sibling c last) q) (way : Way place (rest ++ dirs) q) :
    c.trace.isSome = true ∧ q = place ++ (rest ++ other ++ [traceName last]) ∧
      ∃ below, dirs ++ [name] = other ++ [traceName last] ++ below := by
  have inside : ∀ s, Way place (rest ++ dirs) (place ++ (rest ++ other ++ [s])) →
      ∃ more, dirs ++ [name] = other ++ [s] ++ (more ++ [name]) := by
    rintro s ⟨front, early, _, same⟩
    rw [← List.append_cancel_left same, List.append_assoc, List.prefix_append_right_inj] at early
    obtain ⟨more, rfl⟩ := early
    exact ⟨more, by simp⟩
  rcases touched with rfl | ⟨s, member, rfl⟩
  · obtain ⟨more, below⟩ := inside _ way
    have empty := batch.not_below h' (below ▸ h)
    simp at empty
  · obtain ⟨given, rfl⟩ := mem_sibling member
    obtain ⟨more, below⟩ := inside _ way
    exact ⟨given, rfl, _, below⟩

theorem trace_not_listed (dirs : List String) (name : String) : dirs ++ [traceName name] ∉ sourcesBelow t c.path := by
  intro h
  obtain ⟨_, last, same, _, ends, _⟩ := batch.listed h
  have own : traceName name = last := by simpa using congrArg List.getLast? same
  exact traceName_ne ends name own.symm

theorem way_of_barred (h : dirs ++ [name] ∈ sourcesBelow t c.path)
    (barred : Barred t t' c place rest (dirs ++ [name])) :
    ∃ q content, Way place (rest ++ dirs) q ∧ t'.get? q = some (.file content) := by
  obtain ⟨_, other, last, below, content, _, split, _, found⟩ := barred
  refine ⟨_, content, ⟨rest ++ other ++ [traceName last], ?_, by simp, rfl⟩, found⟩
  cases below using List.reverseRecOn with
  | nil =>
      rw [split, List.append_nil] at h
      exact absurd h (batch.trace_not_listed _ _)
  | append_singleton below final =>
      rw [← List.append_assoc] at split
      rw [(List.append_inj' split rfl).1]
      exact ⟨below, by simp⟩

theorem not_way (h : names ∈ sourcesBelow t c.path) (h' : other ++ [last] ∈ sourcesBelow t c.path) :
    ¬ Way place (rest ++ other) (place ++ (rest ++ names)) := by
  rintro ⟨front, early, _, same⟩
  rw [← List.append_cancel_left same, List.prefix_append_right_inj] at early
  obtain ⟨more, rfl⟩ := early
  rw [List.append_assoc] at h'
  have empty := batch.not_below h h'
  simp at empty

theorem not_touched (h : names ∈ sourcesBelow t c.path) (apart : names ≠ other ++ [last]) :
    ¬ Touched place (rest ++ other) last (sibling c last) (place ++ (rest ++ names)) := by
  rintro (same | ⟨s, member, same⟩)
  · exact apart (by simpa using same)
  · obtain ⟨_, rfl⟩ := mem_sibling member
    have same : names = other ++ [traceName last] := by simpa using same
    exact batch.trace_not_listed other last (same ▸ h)

theorem source_not_touched (names : List String) :
    ¬ Touched place (rest ++ other) last (sibling c last) (source ++ names) := by
  have crossing : ∀ s, source ++ names ≠ place ++ (rest ++ other ++ [s]) := by
    intro s same
    have left : source <+: source ++ names := List.prefix_append _ _
    have right : place ++ rest <+: source ++ names := by
      rw [same]
      exact ⟨other ++ [s], by simp⟩
    exact (List.prefix_or_prefix_of_prefix left right).elim batch.apart.1 batch.apart.2
  rintro (same | ⟨s, _, same⟩)
  · exact crossing _ same
  · exact crossing _ same

end Batch

/-! ## The run of a batch -/

structure Underway (refusals : Refusals) (t t' : FileTree) (c : Conversion)
    (source place rest : List String) (pending : List (List String)) : Prop where
  tidy : t'.Tidy
  keeps : t.Keeps t'
  untouched : ∀ names ∈ sourcesBelow t c.path, t'.get? (source ++ names) = t.get? (source ++ names)
  ready : ∀ dirs name, dirs ++ [name] ∈ pending →
    Ready refusals place (rest ++ dirs) name t t' ∨ Barred t t' c place rest (dirs ++ [name])
  fresh : ∀ names ∈ pending, t'.get? (place ++ (rest ++ names)) = t.get? (place ++ (rest ++ names))

/-- A source has come to what it comes to alone, or it failed because it was barred. -/
def Settled (refusals : Refusals) (packages : Packages) (o : Options) (t t' : FileTree) (c : Conversion)
    (base : Path) (place rest names : List String) (r : FileResult) : Prop :=
  ((sourceEnd refusals packages o c (base.append rest) t names).1 = .ok r ∧
    t'.get? (place ++ (rest ++ names)) =
      (sourceEnd refusals packages o c (base.append rest) t names).2.get? (place ++ (rest ++ names))) ∨
  (Barred t t' c place rest names ∧ r.success = false ∧ t'.get? (place ++ (rest ++ names)) = none)

theorem Settled.keep {ways files : List String → Prop} {r : FileResult}
    (settled : Settled refusals packages o t t' c base place rest names r)
    (affects : Affects refusals ways files t' t'')
    (target : t''.get? (place ++ (rest ++ names)) = t'.get? (place ++ (rest ++ names))) :
    Settled refusals packages o t t'' c base place rest names r := by
  rcases settled with ⟨ended, there⟩ | ⟨barred, failed, bare⟩
  · exact .inl ⟨ended, target.trans there⟩
  · exact .inr ⟨barred.keep affects, failed, target.trans bare⟩

namespace Batch

variable (batch : Batch t c base source place rest)
include batch

theorem start (refusals : Refusals) (pending : List (List String)) :
    Underway refusals t t c source place rest pending :=
  ⟨batch.tidy, .refl t, fun _ _ => rfl, fun _ _ _ => .inl (.refl ..), fun _ _ => rfl⟩

theorem read_eq {pending : List (List String)}
    (underway : Underway refusals t t' c source place rest pending)
    (h : names ∈ sourcesBelow t c.path) :
    refusals.read t' (c.path.append names) = refusals.read t (c.path.append names) := by
  obtain ⟨_, _, rfl, plain, _, content, found⟩ := batch.listed h
  have there := batch.tidy.walk_eq plain (by rw [found]; nofun)
  rw [← batch.leads.locate_append] at there
  rw [Refusals.read_eq, Refusals.read_eq, there, locate_keep underway.keeps there]
  simp only [underway.untouched _ h]

theorem plain_append {dirs : List String} {name : String} (h : dirs ++ [name] ∈ sourcesBelow t c.path) :
    ".." ∉ rest ++ dirs ++ [name] ∧ ∀ s ∈ sibling c name, ".." ∉ rest ++ dirs ++ [s] := by
  obtain ⟨_, _, _, plain, _⟩ := batch.listed h
  have early : ".." ∉ rest ++ dirs := fun member => (List.mem_append.1 member).elim batch.plain
    fun member => plain (by simp_all)
  refine ⟨fun member => ?_, fun s given member => ?_⟩
  · rw [List.append_assoc] at member
    exact (List.mem_append.1 member).elim batch.plain (by simp_all)
  · obtain ⟨_, rfl⟩ := mem_sibling given
    refine (List.mem_append.1 member).elim early fun member => ?_
    exact traceName_plain name (List.mem_singleton.1 member)

theorem ne_sibling {dirs : List String} {name : String} (h : dirs ++ [name] ∈ sourcesBelow t c.path) :
    ∀ s ∈ sibling c name, name ≠ s := by
  intro s given
  obtain ⟨_, other, same, _, ends, _⟩ := batch.listed h
  obtain ⟨_, rfl⟩ := mem_sibling given
  have last : name = other := by simpa using congrArg List.getLast? same
  exact traceName_ne (last ▸ ends) name

theorem target_kept {files : List (List String)} (among : ∀ other ∈ files, other ∈ sourcesBelow t c.path)
    (affects : Affects refusals (Ways place rest files) (Writes c place rest files) t' t'')
    (h : names ∈ sourcesBelow t c.path) (apart : names ∉ files) :
    t''.get? (place ++ (rest ++ names)) = t'.get? (place ++ (rest ++ names)) := by
  refine affects.get?_eq ?_ ?_
  · rintro ⟨dirs, name, member, way⟩
    exact batch.not_way h (among _ member) way
  · rintro ⟨dirs, name, member, touched⟩
    exact batch.not_touched h (fun same => apart (same ▸ member)) touched

theorem ready_or_barred {dirs other : List String} {name last : String}
    (ready : Ready refusals place (rest ++ dirs) name t t') (h : dirs ++ [name] ∈ sourcesBelow t c.path)
    (h' : other ++ [last] ∈ sourcesBelow t c.path) (apart : dirs ++ [name] ≠ other ++ [last])
    (affects : Affects refusals (Way place (rest ++ other)) (Touched place (rest ++ other) last (sibling c last))
      t' t'') :
    Ready refusals place (rest ++ dirs) name t t'' ∨ Barred t t'' c place rest (dirs ++ [name]) := by
  by_cases barred : Barred t t'' c place rest (dirs ++ [name])
  · exact .inr barred
  · refine .inl (ready.affected affects ?_ ?_ fun q way touched free content found => barred ?_)
    · rw [List.append_assoc]
      exact batch.not_way h h'
    · rw [List.append_assoc]
      exact batch.not_touched h apart
    · obtain ⟨given, rfl, below, split⟩ := batch.trace_of_way h h' touched way
      exact ⟨given, other, last, below, content, h', split, free, found⟩

theorem goes_on {pending : List (List String)} {dirs : List String} {name : String}
    (underway : Underway refusals t t' c source place rest ((dirs ++ [name]) :: pending))
    (distinct : ((dirs ++ [name]) :: pending).Nodup)
    (among : ∀ other ∈ (dirs ++ [name]) :: pending, other ∈ sourcesBelow t c.path)
    (affects : Affects refusals (Way place (rest ++ dirs))
      (Touched place (rest ++ dirs) name (sibling c name)) t' t'')
    (tidy : t''.Tidy) : Underway refusals t t'' c source place rest pending := by
  have h := among (dirs ++ [name]) (.head _)
  have away : ∀ other ∈ pending, other ≠ dirs ++ [name] := by
    rintro other member rfl
    exact (List.nodup_cons.1 distinct).1 member
  refine ⟨tidy, underway.keeps.trans affects.keeps, ?_, ?_, ?_⟩
  · intro other member
    -- A directory is made only where nothing is, and the source is there.
    obtain ⟨_, _, _, _, _, content, found⟩ := batch.listed member
    have change := affects (source ++ other)
    rw [underway.untouched other member, found] at change
    rw [found]
    generalize t''.get? (source ++ other) = e at change
    cases change with
    | kept => rfl
    | written _ touched => exact absurd touched (batch.source_not_touched other)
  · intro dirs' name' member
    rcases underway.ready _ _ (.tail _ member) with ready | barred
    · exact batch.ready_or_barred ready (among _ (.tail _ member)) h (away _ member) affects
    · exact .inr (barred.keep affects)
  · intro other member
    have listed := among other (.tail _ member)
    rw [affects.get?_eq (batch.not_way listed h) (batch.not_touched listed (away other member))]
    exact underway.fresh _ (.tail _ member)

theorem step (packages : Packages) (o : Options) {pending : List (List String)}
    (underway : Underway refusals t t' c source place rest (names :: pending))
    (distinct : (names :: pending).Nodup)
    (among : ∀ other ∈ names :: pending, other ∈ sourcesBelow t c.path) :
    let r := sourceEnd refusals packages o c (base.append rest) t names
    let r' := sourceEnd refusals packages o c (base.append rest) t' names
    (∀ crash, r'.1 = .error crash ↔ r.1 = .error crash) ∧
      (∀ result, r'.1 = .ok result → Settled refusals packages o t r'.2 c base place rest names result) ∧
      Underway refusals t r'.2 c source place rest pending ∧
      Affects refusals (Ways place rest [names]) (Writes c place rest [names]) t' r'.2 := by
  have h := among names (.head _)
  obtain ⟨dirs, name, rfl, _⟩ := batch.listed h
  obtain ⟨plain, plain'⟩ := batch.plain_append h
  have leads' := batch.reaches.keep underway.keeps
  have read := batch.read_eq underway h
  have fresh := underway.fresh _ (.head _)
  obtain ⟨affects, tidy⟩ := fileEnd_affects refusals packages leads' underway.tidy plain plain' o
    (c.path.append (dirs ++ [name]))
  dsimp only
  rw [← List.append_assoc rest] at fresh
  rw [sourceEnd_append, sourceEnd_append]
  refine ⟨fun crash => by rw [fileEnd_eq_error_iff, fileEnd_eq_error_iff, read], fun result ended => ?_,
    batch.goes_on underway distinct among affects tidy,
    affects.mono (fun q way => ⟨dirs, name, .head _, way⟩) fun q touched => ⟨dirs, name, .head _, touched⟩⟩
  rcases underway.ready _ _ (.head _) with ready | barred
  · obtain ⟨same, target⟩ := fileEnd_agree ready batch.reaches leads' batch.tidy underway.tidy plain plain'
      (batch.ne_sibling h) o _ read fresh
    refine .inl ⟨by rw [sourceEnd_append]; exact same.symm.trans ended, ?_⟩
    rw [sourceEnd_append, ← List.append_assoc rest]
    exact target
  · obtain ⟨q, content, way, found⟩ := batch.way_of_barred h barred
    refine .inr ⟨barred.keep affects, ?_⟩
    rw [← List.append_assoc rest]
    exact fileEnd_barred leads' underway.tidy plain plain' (batch.ne_sibling h) way found (Prod.ext ended rfl)

theorem named (h : names ∈ sourcesBelow t c.path) :
    isSourceName (c.path.append names).name = true := by
  obtain ⟨dirs, name, rfl, _, ends, _⟩ := batch.listed h
  have last : (c.path.append (dirs ++ [name])).name = name := by simp [Path.name, Path.append]
  rw [last]
  exact isSourceName_of_suffixOf ends

end Batch

def convertListed {m : Type → Type} [Monad m] [Storage m] [Console m] (packages : Packages) (o : Options)
    (c : Conversion) (out : Path) (names : List String) : Job m (String × FileResult) := do
  let target := out.append names
  let trace := c.trace.map fun _ => target.withSuffix ".trace.json"
  let r ← convertFile packages o c.verbose (c.path.append names) (some target) trace
  return (toString ({ names } : Path), r)

theorem runOn_convertListed (refusals : Refusals) (packages : Packages) (o : Options) (out : Path)
    (named : isSourceName (c.path.append names).name = true) (report : Report) (t : FileTree) :
    ∃ notices, (convertListed packages o c out names : Job (Guarded refusals) _).runOn report t =
      (((sourceEnd refusals packages o c out t names).1.map (toString ({ names } : Path), ·),
        { report with notices }), (sourceEnd refusals packages o c out t names).2) := by
  obtain ⟨notices, run⟩ := runOn_convertFile refusals packages named o c.verbose
    (out.append names) (tracePath c out names) report t
  refine ⟨notices, ?_⟩
  rw [convertListed, ← tracePath, Job.runOn_bind, run, ← sourceEnd]
  rcases sourceEnd refusals packages o c out t names with ⟨_ | _, _⟩ <;> rfl

/-- The results of some files as the summary lists them. -/
def reported (files : List (List String)) (results : List FileResult) : List (String × FileResult) :=
  files.zipWith (fun names r => (toString ({ names } : Path), r)) results

namespace Batch

variable (batch : Batch t c base source place rest)
include batch

theorem run_before {before after : List (List String)}
    (underway : Underway refusals t t' c source place rest (before ++ after))
    (distinct : (before ++ after).Nodup)
    (among : ∀ names ∈ before ++ after, names ∈ sourcesBelow t c.path)
    (goes : ∀ names ∈ before, ∃ r, (sourceEnd refusals packages o c (base.append rest) t names).1 = .ok r)
    (report : Report) :
    ∃ results notices t'', (before.mapM (convertListed packages o c (base.append rest)) :
        Job (Guarded refusals) _).runOn report t' =
          ((.ok (reported before results), { report with notices }), t'') ∧
      Underway refusals t t'' c source place rest after ∧
      Pointwise (Settled refusals packages o t t'' c base place rest) before results ∧
      Affects refusals (Ways place rest before) (Writes c place rest before) t' t'' := by
  induction before generalizing t' report with
  | nil => exact ⟨[], report.notices, t', rfl, underway, .nil, .refl t'⟩
  | cons names before ih =>
      -- The sources after this one find the files as `Underway` says again.
      obtain ⟨ends, settles, underway', first⟩ := batch.step packages o underway distinct among
      obtain ⟨notices, run⟩ := runOn_convertListed refusals packages o (base.append rest)
        (batch.named (among names (.head _))) report t'
      obtain ⟨absent, distinct'⟩ := List.nodup_cons.1 distinct
      generalize sourceEnd refusals packages o c (base.append rest) t' names = ended at ends settles underway' first run
      obtain ⟨crash | r, u⟩ := ended
      · obtain ⟨r, own⟩ := goes names (.head _)
        cases own.symm.trans ((ends crash).1 rfl)
      obtain ⟨results, notices', t'', rest', after, settled, others⟩ := ih underway' distinct'
        (fun n member => among n (.tail _ member)) (fun n member => goes n (.tail _ member)) { report with notices }
      have target := batch.target_kept (fun n member => among n (.tail _ (List.mem_append_left _ member))) others
        (among names (.head _)) fun member => absent (List.mem_append_left _ member)
      refine ⟨r :: results, notices', t'', ?_, after, .cons ((settles r rfl).keep others target) settled, ?_⟩
      · rw [List.mapM_cons, Job.runOn_bind, run]
        change Job.runOn (_ >>= _) _ _ = _
        rw [Job.runOn_bind, rest']
        rfl
      · refine (first.mono ?_ ?_).trans (others.mono ?_ ?_)
        · rintro q ⟨dirs, name, member, way⟩
          exact ⟨dirs, name, List.mem_singleton.1 member ▸ .head _, way⟩
        · rintro q ⟨dirs, name, member, touched⟩
          exact ⟨dirs, name, List.mem_singleton.1 member ▸ .head _, touched⟩
        · rintro q ⟨dirs, name, member, way⟩
          exact ⟨dirs, name, .tail _ member, way⟩
        · rintro q ⟨dirs, name, member, touched⟩
          exact ⟨dirs, name, .tail _ member, touched⟩

end Batch

end CommandLine

end JsxBoundary
