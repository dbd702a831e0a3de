import JsxBoundary.Proofs.Pipeline
import JsxBoundary.Proofs.Settling

namespace JsxBoundary

namespace Node

variable {s : Settings}

theorem mapM_fixed {f : Node → StateM Walk Node} {cs : List Node} {w : Walk}
    (fixed : ∀ c ∈ cs, f c w = (c, w)) : (cs.mapM f).run w = (cs, w) := by
  induction cs with
  | nil => rfl
  | cons c cs ih =>
      rw [Walk.mapM_cons, fixed c (.head _), ih fun c hc => fixed c (.tail _ hc)]

theorem rewrite_settled {ancestors : Ancestors} {n : Node} (covered : Covered s ancestors n)
    (settled : Settled s n) {w : Walk} (start : w.fault = none) :
    n.rewrite s ancestors w = (n, w) := by
  induction n using inductionOnChildren generalizing ancestors with
  | step n ih =>
      obtain ⟨quiet, covered⟩ := covered
      obtain ⟨idle, settled⟩ := settled
      have same : (⟨w.progress, none⟩ : Walk) = w := by
        rw [← start]
      rw [rewrite_eq, if_neg (by simp [start]), decide_keep quiet idle]
      simp only [Decision.keep, if_true, same]
      rw [mapM_fixed fun c member => ih c member (covered c member) (settled c member)]
      simp

theorem rewriteRoot_settled {root : Node} (covered : Covered s [] root) (settled : Settled s root)
    {w : Walk} (start : w.fault = none) : root.rewriteRoot s w = (root, w) := by
  have fixed := rewrite_settled covered settled start
  obtain ⟨quiet, _⟩ := covered
  obtain ⟨idle, _⟩ := settled
  simp only [rewriteRoot, decide_keep quiet idle, Decision.keep]
  exact fixed

theorem Rewrites.settled_of_silent {ancestors : Ancestors} {n n' : Node} {log : List Action}
    (h : Rewrites s ancestors n n' log)
    (silent : ∀ a ∈ log, a.isBoundary = false ∧ a.isDeferral = false) : Settled s n := by
  induction h with
  | @stop ancestors n c chosen stays =>
      cases chosen with
      | whole => cases (silent _ (List.mem_append_right _ (.head _))).1
      | other | container | boundary | element => cases stays
  | @onward ancestors n c results chosen descends length each ih =>
      have children : ∀ a ∈ c.node.children, Settled s a := by
        have pairs : Pointwise (fun a r => (∀ x ∈ r.2, x.isBoundary = false ∧ x.isDeferral = false) →
            Settled s a) c.node.children results := ⟨length, ih⟩
        intro a member
        obtain ⟨r, member, settled⟩ := pairs.exists_right member
        refine settled fun x inner => silent x ?_
        exact List.mem_append_right _ (List.mem_flatMap_of_mem member inner)
      cases chosen with
      | other he => exact .node (fun element => by simp [he] at element) children
      | container hn => exact .node (fun element => by simp [isElement, hn] at element) children
      | boundary => cases (silent _ (.head _)).1
      | element he hd ht =>
          cases hd with
          | stays pending => exact .node (fun _ => ⟨by simp [ht], pending⟩) children
          | deferred => cases (silent _ (.head _)).2
      | whole => cases descends

theorem Covered.beside {outer ancestors : Ancestors} {n : Node} (h : Covered s ancestors n)
    (same : Beside s outer ancestors) : Covered s outer n := by
  induction n using inductionOnChildren generalizing outer ancestors with
  | step n ih =>
      obtain ⟨quiet, below⟩ := h
      refine .node ⟨fun e form plain bare => ?_, fun element bare => ?_⟩ fun c member => ?_
      · exact quiet.container e form (same.insideAttribute ▸ plain) (same.sheltered ▸ bare)
      · exact quiet.element element (same.sheltered ▸ bare)
      · refine ih c member (below c member) ⟨?_, ?_⟩
        · rw [insideAttribute_cons, insideAttribute_cons, same.insideAttribute]
        · rw [isSheltered_cons, isSheltered_cons, same.sheltered]

theorem Beside.plain {outer ancestors : Ancestors} (h : Beside s outer ancestors) {n : Node}
    (apart : n.isAttribute = false) (shelters : n.shelters s = false) :
    Beside s (n :: outer) ancestors := by
  refine ⟨?_, ?_⟩
  · rw [insideAttribute_cons, apart, Bool.false_or, h.insideAttribute]
  · rw [isSheltered_cons, shelters, Bool.false_or, h.sheltered]

theorem Beside.trans {first second third : Ancestors} (h : Beside s first second)
    (h' : Beside s second third) : Beside s first third :=
  ⟨h.insideAttribute.trans h'.insideAttribute, h.sheltered.trans h'.sheltered⟩

theorem Beside.symm {outer ancestors : Ancestors} (h : Beside s outer ancestors) :
    Beside s ancestors outer :=
  ⟨h.insideAttribute.symm, h.sheltered.symm⟩

theorem Covered.deferredBody {ancestors outer : Ancestors} {n opening body : Node}
    {content : List Node} {closing : Option Node} (h : Covered s ancestors n)
    (form : n.form = .element (some opening) content closing)
    (made : deferredBody? (keptContent content) (n.keptFragment content) = some body)
    (beside : Beside s outer (n :: ancestors)) : Covered s outer body := by
  obtain ⟨_, below⟩ := h
  have inside : ∀ c ∈ keptContent content, Covered s (n :: ancestors) c := by
    intro c member
    refine below c ?_
    simp only [children, form, Form.children, List.mem_append]
    exact .inr (.inl (List.mem_filter.1 member).1)
  unfold deferredBody? at made
  split at made
  · rename_i c kept
    have covered := inside c (by rw [kept]; exact .head _)
    split at made
    · cases made
      exact covered.beside beside
    · rename_i e held
      split at made
      · cases made
      · cases made
        have around : Beside s (c :: n :: ancestors) (n :: ancestors) :=
          Beside.plain ⟨rfl, rfl⟩ (by simp [isAttribute, held])
            (by simp [shelters, isElementNamed, isElement, isCallNamed, held])
        obtain ⟨_, below⟩ := covered
        refine (below body ?_).beside (beside.trans around.symm)
        simp [children, held, Form.children]
    · cases made
  · cases made
    refine .node (.of_plain rfl rfl _) fun c member => ?_
    exact (inside c member).beside (beside.plain rfl rfl)

theorem Covered.deferral {ancestors : Ancestors} {n m : Node} (h : Covered s ancestors n)
    (made : n.deferral? s = some m) : Covered s ancestors m := by
  have whole := h
  obtain ⟨quiet, below⟩ := h
  have beside : Beside s (m :: ancestors) (n :: ancestors) := by
    refine ⟨?_, ?_⟩
    · obtain ⟨_, _, _, _, form, _, _, _, _, rfl⟩ := deferChildren?_some (deferral?_some made)
      simp [insideAttribute_cons, isAttribute, form]
    · rw [isSheltered_cons, isSheltered_cons, shelters_of_mayDefer (.inr made)]
  have tag := openingTag?_of_deferral made
  obtain ⟨opening, content, closing, body, form, _, _, _, body?, rfl⟩ :=
    deferChildren?_some (deferral?_some made)
  have kept : ∀ c ∈ n.children, Covered s (fresh (.element (some opening)
      [body.thunk (loneContainer? (keptContent content))] closing) :: ancestors) c :=
    fun c member => (below c member).beside beside
  refine .node ⟨fun e held => (by cases held), fun _ bare => ?_⟩ fun c member => ?_
  · rw [tag]
    exact quiet.element (by simp [isElement, form]) bare
  · simp only [children, form_mk, Form.children, Option.toList, List.mem_append, List.mem_cons,
      List.not_mem_nil, or_false] at member
    rcases member with rfl | rfl | member
    · exact kept c (by simp [children, form, Form.children])
    · obtain ⟨layout, held⟩ := form_thunk body (loneContainer? (keptContent content))
      have function : Covered s (body.thunk (loneContainer? (keptContent content)) ::
          fresh (.element (some opening) [body.thunk (loneContainer? (keptContent content))] closing) ::
          ancestors) (mk (.arrow body none) layout) := by
        refine .node (.of_plain rfl rfl _) fun b inner => ?_
        simp only [children, form_mk, Form.children, Option.toList, List.mem_cons, List.not_mem_nil,
          or_false] at inner
        subst inner
        refine whole.deferredBody form body? ?_
        refine (beside.plain ?_ ?_).plain rfl rfl
        · simp [isAttribute, held]
        · simp [shelters, isElementNamed, isElement, isCallNamed, held]
      refine .node ⟨fun e held' _ _ => ?_, fun element => ?_⟩ fun c member => ?_
      · rw [held] at held'
        cases held'
        exact containsRead_of_isFunction rfl
      · simp [isElement, held] at element
      · simp only [children, held, Form.children, List.mem_cons, List.not_mem_nil, or_false] at member
        subst member
        exact function
    · apply kept
      simp only [children, form, Form.children, List.mem_append]
      exact .inr (.inr member)

theorem Rewrites.silent_of_covered {ancestors : Ancestors} {n n' : Node} {log : List Action}
    (h : Rewrites s ancestors n n' log) (covered : Covered s ancestors n) :
    log.filter Action.isBoundary = [] := by
  induction h with
  | @stop ancestors n c chosen stays =>
      obtain ⟨quiet, _⟩ := covered
      cases chosen with
      | whole he hd ht hs hr =>
          obtain ⟨tag, ht', quiet⟩ := quiet.element he hs
          rw [ht] at ht'
          cases ht'
          rw [hr] at quiet
          cases quiet
      | other | container | boundary | element => cases stays
  | @onward ancestors n c results chosen descends length each ih =>
      have step : Covered s ancestors c.node ∧ c.actions.filter Action.isBoundary = [] := by
        cases chosen with
        | other | container => exact ⟨covered, rfl⟩
        | boundary hn ha hs hr =>
            obtain ⟨quiet, _⟩ := covered
            rw [quiet.container _ hn ha hs] at hr
            cases hr
        | element he hd =>
            refine ⟨?_, hd.noBoundary⟩
            cases hd with
            | stays => exact covered
            | deferred made => exact covered.deferral made
        | whole => cases descends
      obtain ⟨⟨_, below⟩, silent⟩ := step
      have pairs : Pointwise (fun a r => Covered s (c.node :: ancestors) a →
          r.2.filter Action.isBoundary = []) c.node.children results := ⟨length, ih⟩
      rw [List.filter_append, silent, List.filter_flatMap, List.nil_append, List.flatMap_eq_nil_iff]
      intro r member
      obtain ⟨a, inner, none⟩ := pairs.exists_left member
      exact none (below a inner)

theorem covered_namedImport (name source : String) (ancestors : Ancestors) :
    Covered s ancestors (namedImport name source) := by
  refine .node (.of_plain rfl rfl _) fun c member => ?_
  have specifier : c = fresh (.importSpecifier name name) := by
    simpa [namedImport, children, Form.children] using member
  subst specifier
  exact .node (.of_plain rfl rfl _) fun c member => by cases member

theorem settled_namedImport (name source : String) : Settled s (namedImport name source) := by
  refine .node (fun element => by cases element) fun c member => ?_
  have specifier : c = fresh (.importSpecifier name name) := by
    simpa [namedImport, children, Form.children] using member
  subst specifier
  exact .node (fun element => by cases element) fun c member => by cases member

theorem Covered.injectImport {name source : String} {root root' : Node} (h : Covered s [] root)
    (made : root.injectImport name source = .ok (some root')) : Covered s [] root' := by
  obtain ⟨_, body, body', form, form', statements⟩ := injectImport_some made
  obtain ⟨_, below⟩ := h
  have beside : Beside s [root'] [root] := by
    refine ⟨?_, ?_⟩
    · simp [insideAttribute_cons, isAttribute, form, form']
    · simp [isSheltered_cons, shelters, isElementNamed, isElement, isCallNamed, form, form']
  refine .node (.of_plain (by simp [isElement, form']) (by simp [contained?, form']) _) ?_
  intro c member
  simp only [children, form', Form.children] at member
  rcases List.mem_cons.1 (statements.mem_iff.1 member) with rfl | member
  · exact covered_namedImport name source _
  · exact (below c (by simpa [children, form, Form.children] using member)).beside beside

theorem Settled.injectImport {name source : String} {root root' : Node} (h : Settled s root)
    (made : root.injectImport name source = .ok (some root')) : Settled s root' := by
  obtain ⟨_, body, body', form, form', statements⟩ := injectImport_some made
  obtain ⟨_, below⟩ := h
  refine .node (fun element => by simp [isElement, form'] at element) fun c member => ?_
  simp only [children, form', Form.children] at member
  rcases List.mem_cons.1 (statements.mem_iff.1 member) with rfl | member
  · exact settled_namedImport name source
  · exact below c (by simpa [children, form, Form.children] using member)

end Node

/-- A run on the module changes nothing. -/
structure Stable (o : Options) (root : Node) : Prop where
  finishes : (transformed o root).2.fault = none
  count : (transformed o root).2.progress.rewriteCount = 0
  silent : ∀ a ∈ (transformed o root).2.progress.trace.actions,
    a.isBoundary = false ∧ a.isDeferral = false
  same : (transformed o root).1.print = root.print

theorem transformed_covered {o : Options} {root : Node} (done : (transformed o root).2.fault = none) :
    (transformed o root).1.Covered (.ofOptions o) [] := by
  obtain ⟨rewritten, log, imports, rewrites, added, _⟩ := transformed_ok done
  have covered := rewrites.covered (Settings.componentName_mem_reactiveComponents o) ⟨rfl, rfl⟩
  cases added with
  | skipped | present => exact covered
  | injected _ made => exact covered.injectImport made

theorem transformed_of_covered {o : Options} {root : Node} (covered : root.Covered (.ofOptions o) [])
    (done : (transformed o root).2.fault = none) :
    ∃ log, root.Rewrites (.ofOptions o) [] (transformed o root).1 log ∧
      (transformed o root).2.progress.rewriteCount = 0 ∧
      (∀ a ∈ log, a ∈ (transformed o root).2.progress.trace.actions) ∧
      ∀ a ∈ (transformed o root).2.progress.trace.actions, a.isBoundary = false := by
  obtain ⟨rewritten, log, imports, rewrites, added, count, actions⟩ := transformed_ok done
  have silent := rewrites.silent_of_covered covered
  have none : log.any Action.isBoundary = false := by
    rw [List.any_eq_false]
    intro a member boundary
    have found : a ∈ log.filter Action.isBoundary := List.mem_filter.2 ⟨member, boundary⟩
    rw [silent] at found
    cases found
  cases added with
  | present needed | injected needed => rw [none] at needed; cases needed
  | skipped =>
      refine ⟨log, rewrites, ?_, fun a member => ?_, fun a member => ?_⟩
      · rw [count, List.countP_eq_length_filter, silent]
        rfl
      · rw [actions]
        simp [member]
      · rw [actions] at member
        simp only [List.mem_append, List.mem_cons, List.not_mem_nil, or_false] at member
        rcases member with ((rfl | member) | rfl | rfl) | rfl
        · rfl
        · exact List.any_eq_false.1 none a member |> Bool.eq_false_iff.2
        · rfl
        · rfl
        · rfl

theorem stable_of_settled {o : Options} {root : Node} (covered : root.Covered (.ofOptions o) [])
    (settled : root.Settled (.ofOptions o)) : Stable o root := by
  have first : wrapped o root = (root, Walk.entering ⟨{}, none⟩ "Auto-Wrap" "AutoWrapPass") :=
    Node.rewriteRoot_settled covered settled rfl
  have second : imported o root = (root, (wrapped o root).2.leaving.entering "Import Injection"
      "ImportInjectionPass") := by
    simp only [imported, first]
    rfl
  have runs := transformed_eq o root
  rw [second, first] at runs
  -- Both passes hand the module on, so the trace is that of two empty phases.
  have result : transformed o root = (root, ((Walk.entering ⟨{}, none⟩ "Auto-Wrap"
      "AutoWrapPass").leaving.entering "Import Injection" "ImportInjectionPass").leaving) := runs
  refine ⟨by rw [result]; rfl, by rw [result]; rfl, ?_, by rw [result]⟩
  have actions : (transformed o root).2.progress.trace.actions =
      [.phaseStart "Auto-Wrap" "AutoWrapPass", .phaseEnd "Auto-Wrap",
        .phaseStart "Import Injection" "ImportInjectionPass", .phaseEnd "Import Injection"] := by
    rw [result]
    rfl
  rw [actions]
  simp [Action.isBoundary, Action.isDeferral]

theorem settled_of_stable {o : Options} {root : Node} (covered : root.Covered (.ofOptions o) [])
    (stable : Stable o root) : root.Settled (.ofOptions o) := by
  obtain ⟨log, rewrites, _, recorded, _⟩ := transformed_of_covered covered stable.finishes
  exact rewrites.settled_of_silent fun a member => stable.silent a (recorded a member)

theorem transformed_settled {o : Options} {root : Node} (done : (transformed o root).2.fault = none)
    (reactive : ∀ tag ∈ (Settings.ofOptions o).deferringComponents,
      tag ∈ (Settings.ofOptions o).reactiveComponents)
    (parts : ∀ before after, .boundary "JSXElement" before after ∉
      (transformed o root).2.progress.trace.actions) :
    (transformed o root).1.Settled (.ofOptions o) := by
  obtain ⟨rewritten, log, imports, rewrites, added, _, actions⟩ := transformed_ok done
  have settled := rewrites.settled reactive fun before after recorded => by
    refine parts before after ?_
    rw [actions]
    simp [recorded]
  cases added with
  | skipped | present => exact settled
  | injected _ made => exact settled.injectImport made

/-- Running again on the outcome of a run inserts nothing. It changes nothing at all exactly if no
element of the outcome is left with children to defer; that is so if every deferring component is
reactive and no element was put behind a boundary as a whole. -/
theorem rerun_stable_iff (o : Options) (root : Node) (done : (transformed o root).2.fault = none) :
    ((transformed o (transformed o root).1).2.fault = none →
      (transformed o (transformed o root).1).2.progress.rewriteCount = 0 ∧
      ∀ a ∈ (transformed o (transformed o root).1).2.progress.trace.actions, a.isBoundary = false) ∧
    (Stable o (transformed o root).1 ↔ (transformed o root).1.Settled (.ofOptions o)) ∧
    ((∀ tag ∈ (Settings.ofOptions o).deferringComponents,
        tag ∈ (Settings.ofOptions o).reactiveComponents) →
      (∀ before after, .boundary "JSXElement" before after ∉
        (transformed o root).2.progress.trace.actions) →
      Stable o (transformed o root).1) := by
  have covered := transformed_covered done
  refine ⟨fun again => ?_, ⟨settled_of_stable covered, stable_of_settled covered⟩,
    fun reactive parts => ?_⟩
  · obtain ⟨_, _, count, _, silent⟩ := transformed_of_covered covered again
    exact ⟨count, silent⟩
  · exact stable_of_settled covered (transformed_settled done reactive parts)

theorem reading_rerun_stable :
    (transformed {} Sample.reading).2.fault = none ∧ Stable {} (transformed {} Sample.reading).1 := by
  have done : (transformed {} Sample.reading).2.fault = none := by cbv
  have recorded : (transformed {} Sample.reading).2.progress.trace.actions =
      [.phaseStart "Auto-Wrap" "AutoWrapPass",
        .boundary "JSXExpressionContainer" "\x7ba$.get()\x7d" "<Memo>\x7b() => a$.get()\x7d</Memo>",
        .phaseEnd "Auto-Wrap", .phaseStart "Import Injection" "ImportInjectionPass",
        .importing "Injected" "import \x7b Memo \x7d from \"@legendapp/state/react\";",
        .phaseEnd "Import Injection"] := by cbv
  refine ⟨done, (rerun_stable_iff {} Sample.reading done).2.2 (by decide) ?_⟩
  intro before after member
  simp [recorded] at member

/-- The module `<Row title={t$.get()}><Memo>{c$.get()}</Memo></Row>`. The element is put behind a
boundary as a whole, and what is inside is left as it was. -/
def Sample.nested : Node :=
  .fresh (.program [element "Row" [.fresh (.attr "title" (some (read "t$")))]
    [element "Memo" [] [read "c$"]]])

theorem nested_rerun_not_stable :
    (transformed {} Sample.nested).2.fault = none ∧ ¬Stable {} (transformed {} Sample.nested).1 := by
  have done : (transformed {} Sample.nested).2.fault = none := by cbv
  have result : (transformed {} Sample.nested).1 = .fresh (.program
      [Node.namedImport "Memo" "@legendapp/state/react",
        (Sample.element "Row" [.fresh (.attr "title" (some (Sample.read "t$")))]
          [Sample.element "Memo" [] [Sample.read "c$"]]).boundary "Memo" none]) := by cbv
  have pending : (Sample.element "Memo" [] [Sample.read "c$"]).deferral? (.ofOptions {}) =
      some (.fresh (.element (some (.fresh (.openingTag (.fresh (.identifier "Memo")) [] false)))
        [(Sample.call "c$").thunk none] (some (.fresh (.closingTag (.fresh (.identifier "Memo"))))))) := by
    cbv
  refine ⟨done, fun stable => ?_⟩
  have settled := settled_of_stable (transformed_covered done) stable
  rw [result] at settled
  have inner : (Sample.element "Memo" [] [Sample.read "c$"]).Settled (.ofOptions {}) := by
    refine settled.get? (?_ : Node.get? _ [1, 1, 0, 0, 1] = some _)
    rfl
  obtain ⟨idle, _⟩ := inner
  rw [(idle rfl).2] at pending
  cases pending

end JsxBoundary
