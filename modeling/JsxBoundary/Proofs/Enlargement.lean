import JsxBoundary.Proofs.Assembly

namespace JsxBoundary

namespace Node

structure Hollow (n : Node) : Prop where
  element : n.isElement = false
  contained : n.contained? = none
  childless : n.children = []

inductive Displayed : Node → Prop
  | node {n : Node} (shown : ∀ (i : Nat) (c : Node), n.children[i]? = some c →
      c.Hollow ∨ ∃ pieces, n.layout = some pieces ∧ .child i ∈ pieces)
      (below : ∀ c ∈ n.children, Displayed c) : Displayed n

namespace Displayed

variable {n c : Node}

theorem shown (h : Displayed n) {i : Nat} (found : n.children[i]? = some c) :
    c.Hollow ∨ ∃ pieces, n.layout = some pieces ∧ .child i ∈ pieces := by
  cases h with
  | node shown _ => exact shown i c found

theorem child (h : Displayed n) (member : c ∈ n.children) : Displayed c := by
  cases h with
  | node _ below => exact below c member

end Displayed

section

variable {s : Settings} {ancestors : Ancestors} {n m : Node} {log : List Action}

theorem Hollow.log_eq_nil (h : n.Hollow) (rewrites : Rewrites s ancestors n m log) : log = [] := by
  obtain ⟨results, _, rfl, derived⟩ :=
    rewrites.of_kept fun c chosen => chosen.of_other h.element h.contained
  rw [h.childless] at derived
  rw [derived.of_nil]
  rfl

theorem Rewrites.eq_of_silent (h : Rewrites s ancestors n m log) (silent : log = []) : m = n := by
  induction h with
  | @stop _ n c chosen stays =>
      cases chosen with
      | whole => simp at silent
      | other | container | boundary | element => cases stays
  | @onward _ n c results chosen _ length _ ih =>
      obtain ⟨own, below⟩ := List.append_eq_nil_iff.1 silent
      have same : c.node = n := by
        cases chosen with
        | other | container => rfl
        | element _ hd =>
            cases hd with
            | stays => rfl
            | deferred => cases own
        | boundary => cases own
        | whole => simp at own
      have kept : results.map (·.1) = c.node.children := by
        refine List.ext_getElem (by simpa using length) fun i bound bound' => ?_
        rw [List.length_map] at bound
        rw [List.getElem_map]
        exact ih i _ _ (List.getElem?_eq_getElem bound') (List.getElem?_eq_getElem bound)
          (List.flatMap_eq_nil_iff.1 below _ (List.getElem_mem bound))
      rw [kept, withChildren_children, same]

theorem Enlarges.mono {component : String} {deferred more : Bool} (h : n.Enlarges component deferred m)
    (le : deferred = true → more = true) : n.Enlarges component more m := by
  intro t printed
  obtain ⟨t', printed', enlarged⟩ := h t printed
  exact ⟨t', printed', enlarged.edit.mono le, enlarged.more⟩

theorem enlarges_kept {results : List (Node × List Action)} (readable : Readable n)
    (displayed : Displayed n)
    (derived : Pointwise (fun a r => Rewrites s ancestors a r.1 r.2) n.children results)
    (below : ∀ c ∈ n.children, ∀ m log, Rewrites s ancestors c m log → log ≠ [] →
      c.Enlarges s.componentName (log.any Action.isDeferral) m)
    (decided : results.flatMap (·.2) ≠ []) :
    n.Enlarges s.componentName ((results.flatMap (·.2)).any Action.isDeferral)
      (n.withChildren (results.map (·.1))) := by
  obtain ⟨r, listed, own⟩ : ∃ r ∈ results, r.2 ≠ [] := by
    simpa [List.flatMap_eq_nil_iff] using decided
  obtain ⟨i, bound, rfl⟩ := List.getElem_of_mem listed
  have inside : i < n.children.length := derived.length ▸ bound
  have before := List.getElem?_eq_getElem inside
  have after := List.getElem?_eq_getElem bound
  have rewrites := derived.each i _ _ before after
  have edits := edits_results (fun c member _ _ h => h.edits (readable.child member)) derived
  rcases displayed.shown before with hollow | ⟨pieces, layout, shown⟩
  · exact absurd (hollow.log_eq_nil rewrites) own
  · have enlarged : n.children[i].Enlarges s.componentName
        ((results.flatMap (·.2)).any Action.isDeferral) results[i].1 := by
      refine (below _ (List.getElem_mem inside) _ _ rewrites own).mono fun deferral => ?_
      rw [List.any_flatMap, List.any_eq_true]
      exact ⟨_, listed, deferral⟩
    exact Edits.withChildren_enlarges layout edits shown before (by simp [after]) enlarged

theorem Rewrites.enlarges {ancestors : Ancestors} {n m : Node} {log : List Action}
    (h : Rewrites s ancestors n m log) (readable : Readable n) (displayed : Displayed n)
    (decided : log ≠ []) : n.Enlarges s.componentName (log.any Action.isDeferral) m := by
  have under : ∀ c ∈ n.children, ∀ ancestors m log, Rewrites s ancestors c m log → log ≠ [] →
      c.Enlarges s.componentName (log.any Action.isDeferral) m :=
    fun c _member _ _ _ inner own => inner.enlarges (readable.child _member) (displayed.child _member) own
  cases h with
  | stop chosen stays =>
      cases chosen with
      | @whole d actions tag before after he hd =>
          have edits : n.Edits s.componentName (actions.any Action.isDeferral) (d.thunk none) :=
            ((hd.edits readable).thunk rfl).edits
          simpa [Action.isDeferral] using edits.boundary
      | other | container | boundary | element => cases stays
  | @onward _ _ c results chosen descends length each =>
      have derived : Pointwise (fun a r => Rewrites s (c.node :: ancestors) a r.1 r.2) c.node.children
          results := ⟨length, each⟩
      cases chosen with
      | other | container =>
          exact enlarges_kept readable displayed derived (fun c member => under c member _) decided
      | @boundary e before after held _ _ reads =>
          rw [children_boundary] at derived
          obtain ⟨⟨_, log⟩, ⟨_, log'⟩, ⟨_, log''⟩, rfl, first, second, third⟩ := derived.of_triple
          obtain ⟨rfl, rfl⟩ := first.of_tag rfl rfl rfl
          obtain ⟨_, e', inner, rfl⟩ := second.of_thunk
          obtain ⟨rfl, rfl⟩ := third.of_tag rfl rfl rfl
          have inside : e ∈ n.children := by simp [children, held, Form.children]
          obtain ⟨pieces, layout, shown⟩ :=
            readable.container held (isEmptyExpression_of_containsRead reads)
          have edits := ((inner.edits (readable.child inside)).thunkOf held layout shown).edits
          change n.Enlarges _ _ (e'.boundary s.componentName (some n))
          simpa [Action.isDeferral] using edits.boundary
      | element he hd =>
          cases hd with
          | stays =>
              exact enlarges_kept readable displayed derived (fun c member => under c member _) decided
          | @deferred d tag before after made =>
              have edits := readable.edits_deferred_of_below
                (fun c _ own _ _ _ inner => inner.edits own) (deferral?_some made) derived
              simpa [Action.isDeferral] using edits
      | whole => cases descends
termination_by sizeOf n
decreasing_by exact sizeOf_lt_of_mem_children _member

end

end Node

namespace Node

theorem Hollow.of_omits {form : Form Node} {c : Node} (omits : form.omits c.form = true) : c.Hollow := by
  unfold Form.omits at omits
  split at omits
  case h_4 => cases omits
  all_goals
    rename_i own
    exact ⟨by simp [isElement, own], by simp [contained?, own], by simp [children, own, Form.children]⟩

theorem Complete.displayed {n : Node} (h : n.Complete) : n.Displayed := by
  induction h with
  | nameless => exact .node nofun nofun
  | @node n pieces layout _ shown _ ih =>
      refine .node (fun i c found => ?_) ih
      exact (shown i c found).symm.imp .of_omits fun listed => ⟨pieces, layout, listed⟩

end Node

theorem Trace.exists_event_iff {t : Trace} {P : Action → Bool} {own other : List Action}
    (quiet : ∀ a, P a = true → a.isPhase = false) (work : ∀ a, a ∈ t.work ↔ a ∈ own ∨ a ∈ other)
    (all : ∀ a ∈ own, P a = true) (none : ∀ a ∈ other, P a = false) :
    (∃ e ∈ t.events, P e.action = true) ↔ own ≠ [] := by
  simp only [Trace.work, actions, List.mem_filter, List.mem_map, Array.mem_toList_iff] at work
  constructor
  · rintro ⟨e, member, holds⟩
    rcases (work e.action).1 ⟨⟨e, member, rfl⟩, by simp [quiet _ holds]⟩ with mine | rest
    · exact List.ne_nil_of_mem mine
    · rw [none _ rest] at holds
      cases holds
  · intro some
    obtain ⟨a, member⟩ := List.exists_mem_of_ne_nil own some
    obtain ⟨⟨e, there, rfl⟩, _⟩ := (work a).2 (.inl member)
    exact ⟨e, there, all _ member⟩

namespace Outcome

theorem code_ne_of_enlarged {o : Options} {source edited code : String} {deferred : Bool}
    (enlarged : TextEnlargement o.componentName deferred source edited)
    (line : code = edited ∨ LineAdded (Import.statement o.componentName o.importSource) edited code) :
    code ≠ source := by
  have kept : (Text.solid edited).Sublist (Text.solid code) := by
    rcases line with same | added
    · exact same ▸ .refl _
    · exact added.sublist.filter _
  intro same
  have more := enlarged.more
  have le := kept.length_le
  rw [same] at le
  omega

section

variable {o : Options} {root : Node} {w : Walk} {log imports : List Action} {edited code source : String}

theorem imports_ne_nil_iff (carries : Carries (.ofOptions o) root ⟨{}, none⟩ w log imports edited code) :
    imports ≠ [] ↔ 0 < w.progress.rewriteCount := by
  have count : w.progress.rewriteCount = 0 + log.countP Action.isBoundary := carries.count
  rw [count, Nat.zero_add, List.countP_pos_iff, ← carries.needed]
  exact List.any_eq_true

theorem code_eq_of_silent (carries : Carries (.ofOptions o) root ⟨{}, none⟩ w [] imports edited code)
    (spells : root.print = .ok source) : code = source := by
  obtain ⟨rewritten, rewrites, printed⟩ := carries.rewrite
  cases rewrites.eq_of_silent rfl
  cases printed.symm.trans spells
  refine carries.unlined ?_
  by_contra some
  cases carries.needed.2 some

theorem code_ne_of_decided (carries : Carries (.ofOptions o) root ⟨{}, none⟩ w log imports edited code)
    (readable : root.Readable) (displayed : root.Displayed) (spells : root.print = .ok source)
    (some : log ≠ []) : code ≠ source := by
  obtain ⟨rewritten, rewrites, printed⟩ := carries.rewrite
  obtain ⟨_, printed', enlarged⟩ := rewrites.enlarges readable displayed some source spells
  cases printed.symm.trans printed'
  exact code_ne_of_enlarged enlarged carries.line

end

/-- The text of a module changes exactly if a boundary or a deferral is recorded, and otherwise it is the
source text; what became of the import is recorded exactly if boundaries were inserted. -/
theorem changed_iff_decided (o : Options) {source : String} {root : Concrete} {m : Node}
    (wf : root.WellFormed source) (read : root.toProgram source = .ok m) :
    let r := ofParsed o source (root.toProgram source)
    r.success = true ∧
    (r.changed = true ↔ ∃ e ∈ r.events, e.action.isDecision = true) ∧
    ((∀ e ∈ r.events, e.action.isDecision = false) → r.code = source) ∧
    ((∃ e ∈ r.events, e.action.isImport = true) ↔ 0 < r.rewriteCount) := by
  have module := Concrete.toProgram_reads wf read
  obtain ⟨sound, log, imports, edited, carries⟩ := steps_parsed o module.toParsed
  rw [read]
  unfold ofParsed
  generalize steps o (.ok m) ⟨{}, none⟩ = result at sound carries ⊢
  obtain ⟨code, p, fault⟩ := result
  cases sound
  obtain ⟨_, rewrites, _⟩ := carries.rewrite
  have work : ∀ a, a ∈ p.trace.work ↔ a ∈ log ∨ a ∈ imports := by
    have all : p.trace.work = log ++ imports := carries.work
    simp [all]
  have apart : ∀ a ∈ log, a.isImport = false := by
    intro a member
    by_contra own
    have other := Action.isDecision_of_isImport (Bool.not_eq_false _ ▸ own)
    rw [rewrites.decisions a member] at other
    cases other
  have decided : (∃ e ∈ p.trace.events, e.action.isDecision = true) ↔ log ≠ [] :=
    Trace.exists_event_iff (fun _ => Action.isPhase_of_isDecision) work rewrites.decisions
      fun a member => Action.isDecision_of_isImport (carries.importing a member)
  have importing : (∃ e ∈ p.trace.events, e.action.isImport = true) ↔ imports ≠ [] :=
    Trace.exists_event_iff (fun _ => Action.isPhase_of_isImport) (fun a => (work a).trans or_comm)
      carries.importing apart
  have silent : log = [] → code = source := by
    rintro rfl
    exact code_eq_of_silent carries module.spells
  have changed : log ≠ [] → code ≠ source :=
    code_ne_of_decided carries module.readable (Concrete.toProgram_complete read).displayed module.spells
  refine ⟨rfl, ?_, fun none => silent ?_, importing.trans (imports_ne_nil_iff carries)⟩
  · rw [decided, bne_iff_ne]
    exact ⟨fun differs none => differs (silent none), changed⟩
  · by_contra some
    obtain ⟨e, member, decision⟩ := decided.2 some
    rw [none e member] at decision
    cases decision

end Outcome

namespace Sample

open Concrete

def openingNode : Node :=
  .mk (.openingTag (.mk (.identifier "Memo") (some [.text "Memo"])) [] false)
    (some [.text "<", .child 0, .text ">"])

def contentNode : Node :=
  .mk (.container (.mk (.generic "number" []) (some [.text "1"])))
    (some [.text "\x7b", .child 0, .text "\x7d"])

def closingNode : Node :=
  .mk (.closingTag (.mk (.identifier "Memo") (some [.text "Memo"]))) (some [.text "</", .child 0, .text ">"])

def markupNode : Node :=
  .mk (.element (some openingNode) [contentNode] (some closingNode)) (some [.child 0, .child 1, .child 2])

def module : Node :=
  .mk (.program [.mk (.generic "expression_statement" [markupNode]) (some [.child 0])]) (some [.child 0])

theorem toNode_markup : toNode source.toUTF8 .plain markup = .ok markupNode := by
  have name : toNode source.toUTF8 .tagName (part "identifier" 1 5 (some "name") []) =
      .ok (.mk (.identifier "Memo") (some [.text "Memo"])) :=
    toNode_of (p := .leaf (.identifier "Memo")) rfl rfl rfl
  have name' : toNode source.toUTF8 .tagName (part "identifier" 11 15 (some "name") []) =
      .ok (.mk (.identifier "Memo") (some [.text "Memo"])) :=
    toNode_of (p := .leaf (.identifier "Memo")) rfl rfl rfl
  have number : toNode source.toUTF8 .plain (part "number" 7 8 none []) =
      .ok (.mk (.generic "number" []) (some [.text "1"])) :=
    toNode_of (p := .generic (part "number" 7 8 none [])) rfl rfl ((layout_of_sorted (by decide)).trans rfl)
  have first : toNode source.toUTF8 (.opening false) opening = .ok openingNode :=
    toNode_opening rfl rfl name ((layout_of_sorted (by decide)).trans rfl)
  have second : toNode source.toUTF8 .content content = .ok contentNode :=
    toNode_of (p := .container content) rfl (mapM_cons_ok number rfl)
      ((layout_of_sorted (by decide)).trans rfl)
  have third : toNode source.toUTF8 .closing closing = .ok closingNode :=
    toNode_of (p := .closing closing) rfl (mapM_cons_ok name' rfl)
      ((layout_of_sorted (by decide)).trans rfl)
  exact toNode_of (p := .element markup) rfl
    (mapM_cons_ok first (mapM_cons_ok second (mapM_cons_ok third rfl)))
    ((layout_of_sorted (by decide)).trans rfl)

theorem toProgram_tree : tree.toProgram source = .ok module := by
  have statement : toNode source.toUTF8 .plain (part "expression_statement" 0 16 none [markup]) =
      .ok (.mk (.generic "expression_statement" [markupNode]) (some [.child 0])) :=
    toNode_of (p := .generic (part "expression_statement" 0 16 none [markup])) rfl
      (mapM_cons_ok toNode_markup rfl) ((layout_of_sorted (by decide)).trans rfl)
  exact toProgram_of rfl (mapM_cons_ok statement rfl) ((layout_of_sorted (by decide)).trans rfl)

end Sample

theorem Outcome.memo_unchanged :
    Sample.tree.WellFormed Sample.source ∧ Sample.tree.toProgram Sample.source = .ok Sample.module ∧
      let r := ofParsed { wrapReactiveChildren := false } Sample.source (Sample.tree.toProgram Sample.source)
      r.success = true ∧ r.changed = false ∧ r.code = Sample.source ∧ r.rewriteCount = 0 := by
  obtain ⟨success, changed, silent, importing⟩ :=
    changed_iff_decided { wrapReactiveChildren := false } Sample.wellFormed_tree Sample.toProgram_tree
  rw [Sample.toProgram_tree] at success changed silent importing ⊢
  have idle : (ofParsed { wrapReactiveChildren := false } Sample.source (.ok Sample.module)).events.toList.any
      (fun e => e.action.isDecision || e.action.isImport) = false := by cbv
  have none : ∀ e ∈ (ofParsed { wrapReactiveChildren := false } Sample.source (.ok Sample.module)).events,
      e.action.isDecision = false ∧ e.action.isImport = false := by
    intro e member
    have own := List.any_eq_false.1 idle e (Array.mem_toList_iff.2 member)
    simpa using own
  refine ⟨Sample.wellFormed_tree, rfl, success, ?_, silent fun e member => (none e member).1, ?_⟩
  · rw [Bool.eq_false_iff, Ne, changed]
    rintro ⟨e, member, decision⟩
    rw [(none e member).1] at decision
    cases decision
  · refine Nat.eq_zero_of_not_pos fun some => ?_
    obtain ⟨e, member, own⟩ := importing.2 some
    rw [(none e member).2] at own
    cases own

end JsxBoundary
