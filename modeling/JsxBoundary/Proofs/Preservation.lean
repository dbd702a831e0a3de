import JsxBoundary.Proofs.Completion
import JsxBoundary.Proofs.ImportText
import JsxBoundary.Proofs.Legible
import JsxBoundary.Proofs.Phases
import JsxBoundary.Transform

/-!
# No source text is lost

The text that comes out of the pipeline is the text that went in, with tokens of boundaries, functions,
fragments and parentheses and at most one import line put in; where children were deferred, blank text
around a lone child may be gone (`transform_preserves`).
-/

namespace JsxBoundary

namespace Action

/-- The action says what became of the import. -/
def isImport : Action → Bool
  | .importing _ _ => true
  | _ => false

/-- The action says what became of some part of the module. -/
def isDecision (a : Action) : Bool :=
  a.isBoundary || a.isDeferral

variable {a : Action}

theorem isPhase_of_isDecision (h : a.isDecision = true) : a.isPhase = false := by
  cases a <;> first | rfl | cases h

theorem isPhase_of_isImport (h : a.isImport = true) : a.isPhase = false := by
  cases a <;> first | rfl | cases h

theorem isDecision_of_isImport (h : a.isImport = true) : a.isDecision = false := by
  cases a <;> first | rfl | cases h

end Action

namespace Trace

variable {t : Trace}

def work (t : Trace) : List Action :=
  t.actions.filter (!·.isPhase)

theorem work_startPhase (t : Trace) (name detail : String) : (t.startPhase name detail).work = t.work := by
  rw [work, actions_startPhase, List.filter_append]
  exact List.append_nil _

theorem work_endPhase (t : Trace) : t.endPhase.work = t.work := by
  cases opened : t.openPhases with
  | nil =>
      have same : t.endPhase = t := by
        unfold endPhase
        rw [opened]
      rw [same]
  | cons phase rest =>
      rw [work, actions_endPhase opened, List.filter_append]
      exact List.append_nil _

theorem work_foldl_record {log : List Action} (quiet : ∀ a ∈ log, a.isPhase = false) :
    (log.foldl record t).work = t.work ++ log := by
  have kept : log.filter (!·.isPhase) = log :=
    List.filter_eq_self.2 fun a member => by simp [quiet a member]
  rw [work, actions_foldl_record, List.filter_append, kept]
  rfl

theorem mem_actions_of_work {a : Action} (h : a ∈ t.work) : a ∈ t.actions :=
  (List.mem_filter.1 h).1

end Trace

namespace Node

theorem Chosen.decisions {s : Settings} {ancestors : Ancestors} {n : Node} {c : Choice}
    (h : Chosen s ancestors n c) : ∀ a ∈ c.actions, a.isDecision = true := by
  have deferring : ∀ {m : Node} {actions : List Action}, Deferring s n m actions →
      ∀ a ∈ actions, a.isDecision = true := by
    intro m actions hd a member
    cases hd with
    | stays => cases member
    | deferred => cases List.mem_singleton.1 member; rfl
  intro a member
  cases h with
  | other | container => cases member
  | boundary => cases List.mem_singleton.1 member; rfl
  | element _ hd => exact deferring hd a member
  | whole _ hd =>
      rcases List.mem_append.1 member with member | member
      · exact deferring hd a member
      · cases List.mem_singleton.1 member; rfl

theorem Rewrites.decisions {s : Settings} {ancestors : Ancestors} {n m : Node} {log : List Action}
    (h : Rewrites s ancestors n m log) : ∀ a ∈ log, a.isDecision = true := by
  induction h with
  | stop chosen => exact chosen.decisions
  | @onward _ _ c results chosen _ length _ ih =>
      intro a member
      rcases List.mem_append.1 member with member | member
      · exact chosen.decisions a member
      · obtain ⟨r, listed, own⟩ := List.mem_flatMap.1 member
        obtain ⟨i, bound, rfl⟩ := List.getElem_of_mem listed
        exact ih i _ _ (List.getElem?_eq_getElem (length ▸ bound)) (List.getElem?_eq_getElem bound) a own

end Node

namespace Node

variable {s : Settings}

theorem rewriteRoot_finishes {root : Node} {body : List Node} (printable : Printable root)
    (form : root.form = .program body) {w : Walk} (start : w.fault = none) :
    (root.rewriteRoot s w).2.fault = none := by
  have element : root.isElement = false := by simp [isElement, form]
  have contained : root.contained? = none := by simp [contained?, form]
  -- A module is neither element nor container, so the root itself is never replaced.
  have stays := decide_keep (s := s) (.of_plain element contained [])
    (fun element' => by rw [element] at element'; cases element') w.progress
  simp only [rewriteRoot, stays, Decision.keep]
  exact printable.finishes [] w start

theorem Rewrites.of_program {root m : Node} {body : List Node} {ancestors : Ancestors}
    {log : List Action} (h : Rewrites s ancestors root m log) (form : root.form = .program body) :
    ∃ body', m.form = .program body' ∧ body'.length = body.length ∧ m.layout = root.layout := by
  obtain ⟨results, rfl, _, derived⟩ := h.of_kept fun c chosen =>
    chosen.of_other (by simp [isElement, form]) (by simp [contained?, form])
  have count := derived.length
  rw [children, form] at count
  obtain ⟨form', layout⟩ := root
  cases form
  exact ⟨results.map (·.1), rfl, by simpa [Form.children] using count, rfl⟩

end Node

theorem importWrapper_text {s : Settings} {root : Node} {body : List Node} {pieces : List (Piece Node)}
    (form : root.form = .program body) (layout : root.layout = some pieces)
    (shown : ∀ i < body.length, .child i ∈ pieces) {t : String} (printed : root.print = .ok t)
    {w : Walk} (start : w.fault = none) :
    let r := (Pass.importWrapper s).run root w
    r.2.fault = none ∧ ∃ t', r.1.print = .ok t' ∧
      (t' = t ∨ LineAdded (Import.statement s.componentName s.importSource) t t') := by
  simp only [Pass.importWrapper]
  split
  · exact ⟨start, t, printed, .inl rfl⟩
  · rcases Node.injectImport_text form layout shown with present | ⟨root', made, text⟩
    · rw [present]
      exact ⟨start, t, printed, .inl rfl⟩
    · obtain ⟨t', printed', added⟩ := text t printed
      rw [made, Node.print_namedImport]
      exact ⟨start, t', printed', .inr added⟩

theorem Imported.actions {s : Settings} {needed : Bool} {root m : Node} {actions : List Action}
    (h : Imported s needed root m actions) :
    (∀ a ∈ actions, a.isImport = true) ∧ (needed = true ↔ actions ≠ []) ∧ (actions = [] → m = root) := by
  cases h with
  | skipped unneeded => simp [unneeded]
  | present needed | injected needed => simp [needed, Action.isImport]

/-- What becomes of a module that was read: a rewrite with these actions and these texts before and after
the import, in a walk from the first to the second one. -/
structure Carries (s : Settings) (root : Node) (w w' : Walk) (log imports : List Action)
    (edited code : String) : Prop where
  rewrite : ∃ m, Node.Rewrites s [] root m log ∧ m.print = .ok edited
  line : code = edited ∨ LineAdded (Import.statement s.componentName s.importSource) edited code
  unlined : imports = [] → code = edited
  count : w'.progress.rewriteCount = w.progress.rewriteCount + log.countP Action.isBoundary
  work : w'.progress.trace.work = w.progress.trace.work ++ log ++ imports
  importing : ∀ a ∈ imports, a.isImport = true
  needed : (w.progress.needsImport || log.any Action.isBoundary) = true ↔ imports ≠ []

/-- The standard passes go through a module that was read without a fault; what the first one makes of it
is printed with at most one more line. -/
theorem runAll_parsed {s : Settings} {root : Node} (parsed : Concrete.Parsed root) {w : Walk}
    (start : w.fault = none) :
    let r := Pass.runAll (Pass.standard s) root w
    r.2.fault = none ∧ ∃ log imports edited code,
      Carries s root w r.2 log imports edited code ∧ r.1.print = .ok code := by
  obtain ⟨body, pieces, form, layout, shown⟩ := parsed.body
  obtain ⟨first, wrap⟩ : ∃ r, root.rewriteRoot s (w.entering "Auto-Wrap" "AutoWrapPass") = r := ⟨_, rfl⟩
  have entered : (w.entering "Auto-Wrap" "AutoWrapPass").fault = none := start
  have finishes := Node.rewriteRoot_finishes (s := s) parsed.printable form entered
  obtain ⟨log, rewrites, advance⟩ := Node.rewriteRoot_derives entered finishes
  rw [wrap] at finishes rewrites advance
  obtain ⟨edited, printed⟩ := (rewrites.printable parsed.printable).prints
  obtain ⟨body', form', count, layout'⟩ := rewrites.of_program form
  have quiet : ∀ a ∈ log, a.isPhase = false :=
    fun a member => Action.isPhase_of_isDecision (rewrites.decisions a member)
  obtain ⟨sound, code, printed', added⟩ := importWrapper_text (s := s)
    (w := first.2.leaving.entering "Import Injection" "ImportInjectionPass") form'
    (layout'.trans layout) (count ▸ shown) printed finishes
  obtain ⟨imports, found, counted, recorded⟩ := importWrapper_ok sound
  obtain ⟨importing, required, unmade⟩ := found.actions
  have quiet' : ∀ a ∈ imports, a.isPhase = false :=
    fun a member => Action.isPhase_of_isImport (importing a member)
  have needed : (first.2.leaving.entering "Import Injection" "ImportInjectionPass").progress.needsImport =
      (w.progress.needsImport || log.any Action.isBoundary) := advance.needsImport
  have runs := Pass.runAll_pair (Pass.wrapReads s) (Pass.importWrapper s) root w
  have wrap' : (Pass.wrapReads s).run root (w.entering (Pass.wrapReads s).name
      (Pass.wrapReads s).detail) = first := wrap
  simp only [wrap', finishes, Option.isSome_none, Bool.false_eq_true, if_false] at runs
  simp only [Pass.standard, runs]
  refine ⟨sound, log, imports, edited, code, ⟨⟨first.1, rewrites, printed⟩, added, fun none => ?_, ?_,
    ?_, importing, needed ▸ required⟩, printed'⟩
  · rw [unmade none, printed] at printed'
    exact (Except.ok.inj printed').symm
  · exact counted.trans advance.count
  · have worked : first.2.progress.trace.work = w.progress.trace.work ++ log := by
      rw [advance.trace, Trace.work_foldl_record quiet]
      exact congrArg (· ++ log) (Trace.work_startPhase _ _ _)
    refine (Trace.work_endPhase _).trans ?_
    rw [show (Pass.importWrapper s).name = "Import Injection" from rfl,
      show (Pass.importWrapper s).detail = "ImportInjectionPass" from rfl, recorded,
      Trace.work_foldl_record quiet']
    refine congrArg (· ++ imports) ?_
    exact ((Trace.work_startPhase _ _ _).trans (Trace.work_endPhase _)).trans worked

namespace Outcome

/-- Some event says that children were deferred. -/
def deferred (r : Outcome) : Bool :=
  r.events.toList.any (·.action.isDeferral)

/-- The outcome has the text of the source, edited, with at most one more line: the import. -/
structure Preserves (o : Options) (source : String) (r : Outcome) : Prop where
  edited : ∃ t, TextEdit o.componentName r.deferred source t ∧
    (r.code = t ∨ LineAdded (Import.statement o.componentName o.importSource) t r.code)
  solid : (Text.solid source).Sublist (Text.solid r.code)
  whole : r.deferred = false → source.toList.Sublist r.code.toList

theorem Preserves.of_edit {o : Options} {source t : String} {r : Outcome}
    (edited : TextEdit o.componentName r.deferred source t)
    (added : r.code = t ∨ LineAdded (Import.statement o.componentName o.importSource) t r.code) :
    r.Preserves o source := by
  have line : t.toList.Sublist r.code.toList := by
    rcases added with same | added
    · exact same ▸ .refl _
    · exact added.sublist
  refine ⟨⟨t, edited, added⟩, edited.solid_sublist.trans (line.filter _), fun silent => ?_⟩
  rw [silent] at edited
  exact edited.sublist.trans line

theorem steps_eq (o : Options) (root : Node) (w : Walk) :
    steps o (.ok root) w =
      let r := Pass.runAll (Pass.standard (.ofOptions o)) root
        ((w.entering "Transform Pipeline" (o.componentName ++ " from " ++ o.importSource)).entering
          "Parsing" "Source -> Tree").leaving
      let emit : StateM Walk String := if r.2.fault.isSome then return "" else
        Walk.inPhase "Emission" "Tree -> Source" fun w =>
          match r.1.print with
          | .ok code => (code, w)
          | .error fault => ("", w.stop fault)
      ((emit r.2).1, (emit r.2).2.leaving) := rfl

theorem steps_parsed (o : Options) {root : Node} (parsed : Concrete.Parsed root) :
    let r := steps o (.ok root) ⟨{}, none⟩
    r.2.fault = none ∧ ∃ log imports edited,
      Carries (.ofOptions o) root ⟨{}, none⟩ r.2 log imports edited r.1 := by
  have begun : ((((⟨{}, none⟩ : Walk).entering "Transform Pipeline" (o.componentName ++ " from " ++
      o.importSource)).entering "Parsing" "Source -> Tree").leaving).fault = none := rfl
  obtain ⟨sound, log, imports, edited, code, carries, printed⟩ :=
    runAll_parsed (s := .ofOptions o) parsed begun
  obtain ⟨result, run⟩ : ∃ r, Pass.runAll (Pass.standard (.ofOptions o)) root
      ((((⟨{}, none⟩ : Walk).entering "Transform Pipeline" (o.componentName ++ " from " ++
      o.importSource)).entering "Parsing" "Source -> Tree").leaving) = r := ⟨_, rfl⟩
  rw [run] at sound carries printed
  have ran : steps o (.ok root) ⟨{}, none⟩ =
      (code, (result.2.entering "Emission" "Tree -> Source").leaving.leaving) := by
    rw [steps_eq]
    simp only [run, sound, printed, Option.isSome_none, Bool.false_eq_true, if_false]
    rfl
  simp only [ran]
  refine ⟨sound, log, imports, edited, carries.rewrite, carries.line, carries.unlined, carries.count, ?_,
    carries.importing, carries.needed⟩
  -- The phases around the passes record nothing else.
  refine ((Trace.work_endPhase _).trans (Trace.work_endPhase _)).trans ?_
  exact (Trace.work_startPhase _ _ _).trans carries.work

theorem steps_preserves {o : Options} {source : String} {root : Node}
    (module : Concrete.ReadsModule source root) :
    let r := steps o (.ok root) ⟨{}, none⟩
    r.2.fault = none ∧ ∃ (log : List Action) (edited : String),
      TextEdit o.componentName (log.any Action.isDeferral) source edited ∧
      (r.1 = edited ∨ LineAdded (Import.statement o.componentName o.importSource) edited r.1) ∧
      ∀ a ∈ log, a ∈ r.2.progress.trace.actions := by
  obtain ⟨sound, log, imports, edited, carries⟩ := steps_parsed o module.toParsed
  obtain ⟨rewritten, rewrites, printed⟩ := carries.rewrite
  obtain ⟨_, printed', edits⟩ := rewrites.edits module.readable source module.spells
  cases printed.symm.trans printed'
  refine ⟨sound, log, edited, edits, carries.line, fun a member => Trace.mem_actions_of_work ?_⟩
  rw [carries.work]
  simp [member]

/-- For a module whose concrete tree is well-formed, the pipeline loses no source text; and it has an
outcome if the source text parses and all tags have names. -/
theorem transform_preserves (o : Options) (source : String) (root : Concrete)
    (wf : root.WellFormed source) :
    let r := ofParsed o source (root.toProgram source)
    (root.info.faulty = false → root.TagsNamed → r.success = true) ∧ r.Preserves o source := by
  cases read : root.toProgram source with
  | error fault =>
      refine ⟨fun sound tags => ?_, .of_edit (.same source) (.inl rfl)⟩
      obtain ⟨m, found⟩ := Concrete.toProgram_ok wf tags sound
      rw [read] at found
      cases found
  | ok m =>
      have run := steps_preserves (o := o) (Concrete.toProgram_reads wf read)
      dsimp only at run
      unfold ofParsed
      generalize steps o (.ok m) ⟨{}, none⟩ = result at run ⊢
      obtain ⟨code, p, fault⟩ := result
      obtain ⟨sound, log, edited, edits, added, kept⟩ := run
      cases sound
      refine ⟨fun _ _ => rfl, .of_edit (edits.mono fun recorded => ?_) added⟩
      -- Every action of the rewrite is among the events of the outcome.
      obtain ⟨a, member, deferral⟩ := List.any_eq_true.1 recorded
      obtain ⟨event, listed, same⟩ := List.mem_map.1 (kept a member)
      exact List.any_eq_true.2 ⟨event, listed, by rw [same]; exact deferral⟩

end Outcome

namespace Sample

open Concrete

def source : String := "<Memo>\x7b1\x7d</Memo>"

def part (kind : String) (start stop : Nat) (field : Option String) (children : List Concrete) :
    Concrete :=
  .mk ⟨kind, start, stop, true, field, false, 0, start, false⟩ children

def opening : Concrete :=
  part "jsx_opening_element" 0 6 (some "open_tag") [part "identifier" 1 5 (some "name") []]

def content : Concrete :=
  part "jsx_expression" 6 9 none [part "number" 7 8 none []]

def closing : Concrete :=
  part "jsx_closing_element" 9 16 (some "close_tag") [part "identifier" 11 15 (some "name") []]

def markup : Concrete :=
  part "jsx_element" 0 16 none [opening, content, closing]

/-- What the grammar makes of the text. -/
def tree : Concrete :=
  part "program" 0 16 none [part "expression_statement" 0 16 none [markup]]

theorem tagged_markup : Tagged source markup opening closing := by
  have parts : markup.parts = [opening, content, closing] := by cbv
  refine ⟨rfl, by decide, fun c member => ?_, fun a b t _ upper apart spelled => ?_⟩
  · rw [parts] at member
    simp only [List.mem_cons, List.not_mem_nil, or_false] at member
    rcases member with rfl | rfl | rfl
    · exact .inl rfl
    · exact .inr (.inr (by decide))
    · exact .inr (.inl rfl)
  · have first := apart opening (.head _)
    have second := apart content (by simp [parts])
    have third := apart closing (.tail _ (.head _))
    have empty : b ≤ a := by
      change 6 ≤ a ∨ b ≤ 0 at first
      change 9 ≤ a ∨ b ≤ 6 at second
      change 16 ≤ a ∨ b ≤ 9 at third
      change b ≤ 16 at upper
      omega
    rw [(slice_eq_ok_iff.1 spelled).inj (.empty empty)]
    rfl

def nodes : List Concrete :=
  [tree, part "expression_statement" 0 16 none [markup], markup, opening, content, closing,
    part "identifier" 1 5 (some "name") [], part "number" 7 8 none [],
    part "identifier" 11 15 (some "name") []]

theorem mem_nodes {n : Concrete} (h : Occurs tree n) : n ∈ nodes := by
  have closed : ∀ n ∈ nodes, ∀ c ∈ n.children, c ∈ nodes := by
    simp [nodes, tree, markup, opening, content, closing, part, children]
  exact h.mem nodes closed (.head _)

theorem wellFormed_tree : tree.WellFormed source := by
  have placed : ∀ n ∈ nodes, ((⟨n.start⟩ : String.Pos.Raw).IsValid source ∧
      (⟨n.stop⟩ : String.Pos.Raw).IsValid source ∧ n.start ≤ n.stop) ∧
      (∀ c ∈ n.children, c.start < c.stop) ∧
      (∀ c ∈ n.children, n.start ≤ c.start ∧ c.stop ≤ n.stop) ∧
      n.children.Pairwise fun a b => a.stop ≤ b.start := by decide
  have element : ∀ n ∈ nodes, n.kind = "jsx_element" → n = markup := by
    simp [nodes, tree, markup, opening, content, closing, part, kind, info]
  intro n occurs
  obtain ⟨⟨start, stop, range⟩, nonempty, inside, ordered⟩ := placed n (mem_nodes occurs)
  refine ⟨start, stop, range, nonempty, inside, ordered, fun kind => ?_⟩
  rw [element n (mem_nodes occurs) kind]
  exact ⟨opening, closing, tagged_markup⟩

theorem tagsNamed_tree : tree.TagsNamed := by
  have none : ∀ n ∈ nodes, n.kind ≠ "jsx_self_closing_element" := by decide
  exact fun n occurs kind => absurd kind (none n (mem_nodes occurs))

end Sample

theorem Outcome.transform_memo_preserves :
    Sample.tree.WellFormed Sample.source ∧
      (ofParsed {} Sample.source (Sample.tree.toProgram Sample.source)).success = true ∧
      (ofParsed {} Sample.source (Sample.tree.toProgram Sample.source)).Preserves {} Sample.source := by
  have preserved := transform_preserves {} Sample.source Sample.tree Sample.wellFormed_tree
  exact ⟨Sample.wellFormed_tree, preserved.1 rfl Sample.tagsNamed_tree, preserved.2⟩

end JsxBoundary
