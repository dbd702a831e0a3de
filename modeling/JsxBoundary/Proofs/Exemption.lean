import JsxBoundary.Proofs.ReadPaths
import JsxBoundary.Proofs.Records
import JsxBoundary.Proofs.RewriteText
import JsxBoundary.Proofs.Suppression

namespace JsxBoundary

/-- An element was put behind a boundary as a whole. -/
def Action.wrapsElement : Action → Bool
  | .boundary typeName _ _ => typeName == "JSXElement"
  | _ => false

namespace Node

variable {policy : ReadPolicy} {s : Settings} {n m c : Node}

def isExempt (n : Node) : Bool :=
  match n.form with
  | .attr name (some _) => exemptAttributes.contains name
  | _ => false

def attributeExpression? (n : Node) : Option Node :=
  match n.form with
  | .spreadAttr argument => some argument
  | .attr _ (some value) => value.contained?
  | _ => none

theorem isReadingAttribute_iff : n.isReadingAttribute policy = true ↔ n.isExempt = false ∧
    ∃ e path, n.attributeExpression? = some e ∧ ReadAt policy e path := by
  have expression : ∀ e : Node, e.containsRead policy = true ↔
      ∃ e' path, some e = some e' ∧ ReadAt policy e' path := by simp [containsRead_iff]
  obtain ⟨form, layout⟩ := n
  cases form with
  | spreadAttr argument => simp [isReadingAttribute, isExempt, attributeExpression?, expression]
  | attr name value =>
      cases value with
      | none => simp [isReadingAttribute, attributeExpression?]
      | some value =>
          obtain ⟨inner, _⟩ := value
          cases inner <;>
            simp [isReadingAttribute, isExempt, attributeExpression?, contained?, expression]
  | _ => simp [isReadingAttribute, attributeExpression?]

/-- Whatever an element of the tree reads in its attributes, outside function literals in them, it reads
in exempt attributes of its own. -/
def OwnReadsExempt (policy : ReadPolicy) (root : Node) : Prop :=
  ∀ place n tag, root.get? place = some n → n.isElement = true → n.openingTag? = some tag →
    ∀ a ∈ tag.attributes, ∀ e path, a.attributeExpression? = some e → ReadAt policy e path →
      a.isExempt = true

def ReadsKeyed (policy : ReadPolicy) (root : Node) : Prop :=
  ∀ path, ReadAt policy root path → ∃ above a, above <+: path ∧ root.get? above = some a ∧
    a.isExempt = true

theorem OwnReadsExempt.child (h : OwnReadsExempt policy n) (member : c ∈ n.children) :
    OwnReadsExempt policy c := by
  obtain ⟨i, child⟩ := List.getElem?_of_mem member
  intro place m tag found
  exact h (i :: place) m tag (by rw [get?_cons, child]; exact found)

theorem OwnReadsExempt.node (own : ∀ tag, n.isElement = true → n.openingTag? = some tag →
    ∀ a ∈ tag.attributes, a.isExempt = true) (below : ∀ c ∈ n.children, OwnReadsExempt policy c) :
    OwnReadsExempt policy n := by
  intro place m tag found element tagged a member e path held read
  cases place with
  | nil =>
      cases found
      exact own tag element tagged a member
  | cons i place =>
      rw [get?_cons] at found
      obtain ⟨c, child, found⟩ := Option.bind_eq_some_iff.1 found
      exact below c (List.mem_of_getElem? child) place m tag found element tagged a member e path held read

theorem OwnReadsExempt.of_plain (plain : n.isElement = false)
    (below : ∀ c ∈ n.children, OwnReadsExempt policy c) : OwnReadsExempt policy n := by
  refine .node (fun tag element => ?_) below
  rw [plain] at element
  cases element

theorem ReadsKeyed.of_unread (h : n.containsRead policy = false) : ReadsKeyed policy n := by
  intro path read
  rw [containsRead_iff.2 ⟨path, read⟩] at h
  cases h

theorem ReadsKeyed.of_isExempt (h : n.isExempt = true) : ReadsKeyed policy n :=
  fun _ _ => ⟨[], n, List.nil_prefix, rfl, h⟩

theorem ReadsKeyed.of_children (own : n.isRead policy = false)
    (below : ∀ c ∈ n.children, ReadsKeyed policy c) : ReadsKeyed policy n := by
  intro path read
  cases path with
  | nil =>
      rw [(readAt_nil.1 read).1] at own
      cases own
  | cons i path =>
      obtain ⟨_, c, child, read⟩ := readAt_cons.1 read
      obtain ⟨above, a, isPrefix, found, exempt⟩ := below c (List.mem_of_getElem? child) path read
      exact ⟨i :: above, a, (List.prefix_cons_inj i).2 isPrefix, by rw [get?_cons, child]; exact found,
        exempt⟩

inductive Unread (policy : ReadPolicy) : Node → Prop
  | node {n : Node} (tag : n.isElement = true → ∀ tag, n.openingTag? = some tag →
      tag.hasReadingAttribute policy = false) (below : ∀ c ∈ n.children, Unread policy c) :
      Unread policy n

theorem Unread.tag (h : Unread policy n) (element : n.isElement = true) {tag : OpeningTag}
    (found : n.openingTag? = some tag) : tag.hasReadingAttribute policy = false := by
  obtain ⟨silent, _⟩ := h
  exact silent element tag found

theorem Unread.child (h : Unread policy n) (member : c ∈ n.children) : Unread policy c := by
  obtain ⟨_, below⟩ := h
  exact below c member

theorem Unread.of_plain (plain : n.isElement = false) (below : ∀ c ∈ n.children, Unread policy c) :
    Unread policy n := by
  refine .node (fun element => ?_) below
  rw [plain] at element
  cases element

theorem OwnReadsExempt.unread (h : OwnReadsExempt policy n) : Unread policy n := by
  induction n using inductionOnChildren with
  | step n ih =>
      refine .node (fun element tag found => ?_) fun c member => ih c member (h.child member)
      -- A reading attribute is not exempt and has a read, which the hypothesis rules out.
      refine Bool.eq_false_iff.2 fun reading => ?_
      obtain ⟨a, member, reads⟩ := List.any_eq_true.1 reading
      obtain ⟨bound, e, path, held, read⟩ := isReadingAttribute_iff.1 reads
      rw [h [] n tag rfl element found a member e path held read] at bound
      cases bound

theorem Unread.of_childless (plain : n.isElement = false) (none : n.children = []) :
    Unread policy n :=
  .of_plain plain fun c member => by
    rw [none] at member
    cases member

theorem Unread.thunk (h : Unread policy n) (source : Option Node) : Unread policy (n.thunk source) := by
  obtain ⟨layout, form⟩ := form_thunk n source
  refine .of_plain (by simp [isElement, form]) fun c member => ?_
  have arrow : c = mk (.arrow n none) layout := by
    simpa [children, form, Form.children] using member
  subst arrow
  refine .of_plain rfl fun c member => ?_
  have body : c = n := by simpa [children, Form.children] using member
  exact body ▸ h

theorem Unread.boundary (h : Unread policy n) (component : String) (source : Option Node) :
    Unread policy (n.boundary component source) := by
  refine .node (fun _ tag found => ?_) fun c member => ?_
  · rw [openingTag?_boundary] at found
    cases found
    rfl
  · have name : Unread policy (fresh (.identifier component)) := .of_childless rfl rfl
    rw [children_boundary] at member
    simp only [List.mem_cons, List.not_mem_nil, or_false] at member
    rcases member with rfl | rfl | rfl
    · refine .of_plain rfl fun c member => ?_
      cases List.mem_singleton.1 member
      exact name
    · exact h.thunk source
    · refine .of_plain rfl fun c member => ?_
      cases List.mem_singleton.1 member
      exact name

theorem Unread.deferral (h : Unread policy n) (made : n.deferral? s = some m) : Unread policy m := by
  have tag := openingTag?_of_deferral made
  obtain ⟨opening, content, closing, body, form, _, _, _, chosen, rfl⟩ :=
    deferChildren?_some (deferral?_some made)
  have listed : n.children = opening :: (content ++ closing.toList) := by
    simp [children, form, Form.children]
  have kept : ∀ c ∈ keptContent content, Unread policy c := by
    intro c member
    refine h.child ?_
    simp [listed, (List.mem_filter.1 member).1]
  have inner : Unread policy body := by
    rcases deferredBody?_some chosen with ⟨c, lone, _, rfl⟩ | ⟨c, lone, held, _⟩ | ⟨_, rfl⟩
    · exact kept body (by simp [lone])
    · have outer : Unread policy c := kept c (by simp [lone])
      exact outer.child (by simp [children, held, Form.children])
    · exact .of_plain rfl kept
  refine .node (fun _ found same => ?_) fun c member => ?_
  · exact h.tag (by simp [isElement, form]) (tag ▸ same)
  · have places : c = opening ∨ c = body.thunk (loneContainer? (keptContent content)) ∨
        c ∈ closing.toList := by simpa [children, Form.children] using member
    rcases places with rfl | rfl | last
    · exact h.child (by simp [listed])
    · exact inner.thunk _
    · exact h.child (by simp [listed, Option.mem_toList.1 last])

theorem Chosen.unread {ancestors : Ancestors} {choice : Choice} (chosen : Chosen s ancestors n choice)
    (h : Unread s.policy n) : Unread s.policy choice.node := by
  have deferring : ∀ {m actions}, Deferring s n m actions → Unread s.policy m := by
    intro m actions deferring
    cases deferring with
    | stays => exact h
    | deferred made => exact h.deferral made
  cases chosen with
  | other | container => exact h
  | boundary held =>
      exact (h.child (by simp [children, held, Form.children])).boundary s.componentName _
  | element _ hd => exact deferring hd
  | whole _ hd => exact (deferring hd).boundary s.componentName none

theorem Recorded.spares {a : Action} (recorded : Recorded s n a) (h : Unread s.policy n) :
    a.wrapsElement = false := by
  cases recorded with
  | deferral => rfl
  | container held => simp [Action.wrapsElement, typeName, held, Form.typeName]
  | whole element found reads =>
      rw [h.tag element found] at reads
      cases reads

end Node

/-- If the reads in the attributes of every element are in exempt attributes of that element, a run of the
wrapping pass puts no element behind a boundary as a whole: no such event is recorded, also by a run
that stops with a fault, and where a run comes to its end, all boundaries in the tree have come from
containers. -/
theorem wrapReads_exempt (o : Options) (root : Node) (w : Walk)
    (exempt : root.OwnReadsExempt (Settings.ofOptions o).policy) :
    let r := (Pass.wrapReads (.ofOptions o)).run root w
    w.progress.trace.Grows (fun a => a.wrapsElement = false) r.2.progress.trace ∧
      (r.2.fault = none → ∃ insertions, Node.Edited (.ofOptions o) root r.1 insertions ∧
        ∀ insertion ∈ insertions, insertion.action.wrapsElement = false) := by
  have grows := Node.rewriteRoot_grows (s := .ofOptions o)
    (Node.Unread (Settings.ofOptions o).policy) (Q := fun a => a.wrapsElement = false)
    (fun n a unread recorded => recorded.spares unread)
    (fun ancestors n c unread chosen _ m member => (chosen.unread unread).child member)
    exempt.unread w
  refine ⟨grows, fun done => ?_⟩
  obtain ⟨log, rewrites, advance⟩ := Node.rewriteRoot_derives (Node.rewriteRoot_start done) done
  obtain ⟨insertions, edited, actions⟩ :=
    rewrites.edited (Settings.componentName_mem_reactiveComponents o) rfl
  refine ⟨insertions, edited, fun insertion member => ?_⟩
  obtain ⟨log', spared, grown⟩ := grows
  -- The log of the derivation is that of the run.
  have same : log = log' := by
    have both := congrArg Trace.actions (advance.trace.symm.trans grown)
    rw [Trace.actions_foldl_record, Trace.actions_foldl_record] at both
    exact List.append_cancel_left both
  have listed : insertion.action ∈ log.filter Action.isBoundary :=
    actions ▸ List.mem_map_of_mem member
  exact spared _ (same ▸ (List.mem_filter.1 listed).1)

namespace Sample

def braced (name : String) (value : Node) : Node :=
  .fresh (.attr name (some (.fresh (.container value))))

def single (name : String) (attributes : List Node) : Node :=
  .fresh (.element (some (.fresh (.openingTag (.fresh (.identifier name)) attributes true))) [] none)

def keyed : Node :=
  .fresh (.program [element "li" [braced "key" (call "a$")] [read "b$"]])

def item : Node :=
  single "li" [braced "key" (call "x$")]

/-- The element `<Row title={<li key={x$.get()} />} />`. -/
def row : Node :=
  single "Row" [braced "title" item]

end Sample

theorem wrapReads_keyed_exempt :
    Sample.keyed.OwnReadsExempt (Settings.ofOptions {}).policy ∧
      let r := (Pass.wrapReads (.ofOptions {})).run Sample.keyed ⟨{}, none⟩
      r.2.progress.rewriteCount = 1 ∧
        Trace.Grows (fun a => a.wrapsElement = false) {} r.2.progress.trace ∧
        (r.2.fault = none → ∃ insertions, Node.Edited (.ofOptions {}) Sample.keyed r.1 insertions ∧
          ∀ insertion ∈ insertions, insertion.action.wrapsElement = false) := by
  have name : ∀ t, (Node.fresh (.identifier t)).OwnReadsExempt (Settings.ofOptions {}).policy :=
    fun t => .of_plain rfl nofun
  have braces : ∀ t, (Sample.read t).OwnReadsExempt (Settings.ofOptions {}).policy := by
    intro t
    have access : ∀ c ∈ [Node.fresh (.identifier t), .fresh (.identifier "get")],
        c.OwnReadsExempt (Settings.ofOptions {}).policy := by simp [name]
    exact .of_plain rfl (List.forall_mem_singleton.2
      (.of_plain rfl (List.forall_mem_singleton.2 (.of_plain rfl access))))
  have key : (Sample.braced "key" (Sample.call "a$")).OwnReadsExempt (Settings.ofOptions {}).policy :=
    .of_plain rfl (List.forall_mem_singleton.2 (braces "a$"))
  have exempt : Sample.keyed.OwnReadsExempt (Settings.ofOptions {}).policy := by
    refine .of_plain rfl (List.forall_mem_singleton.2 (.node ?_ ?_))
    · rintro _ _ ⟨⟩
      exact List.forall_mem_singleton.2 rfl
    · refine List.forall_mem_cons.2 ⟨.of_plain rfl ?_, List.forall_mem_cons.2 ⟨braces "b$",
        List.forall_mem_singleton.2 (.of_plain rfl (List.forall_mem_singleton.2 (name "li")))⟩⟩
      exact List.forall_mem_cons.2 ⟨name "li", List.forall_mem_singleton.2 key⟩
  exact ⟨exempt, by cbv, wrapReads_exempt {} Sample.keyed ⟨{}, none⟩ exempt⟩

/-- The read stands in a `key`, but in that of the inner element: the outer one reads it in its `title`
and is put behind a boundary. -/
theorem nested_key_not_exempt :
    (Node.fresh (.program [Sample.row])).ReadsKeyed (Settings.ofOptions {}).policy ∧
      ((Pass.wrapReads (.ofOptions {})).run (.fresh (.program [Sample.row])) ⟨{}, none⟩).2.fault = none ∧
      ((Pass.wrapReads (.ofOptions {})).run (.fresh (.program [Sample.row])) ⟨{},
        none⟩).2.progress.trace.actions.any Action.wrapsElement = true := by
  refine ⟨?_, by cbv, by cbv⟩
  have key : (Sample.braced "key" (Sample.call "x$")).ReadsKeyed (Settings.ofOptions {}).policy :=
    .of_isExempt rfl
  have tag : ∀ name a, a.ReadsKeyed (Settings.ofOptions {}).policy →
      (Sample.single name [a]).ReadsKeyed (Settings.ofOptions {}).policy := by
    intro name a keyed
    have silent : (Node.fresh (.identifier name)).containsRead (Settings.ofOptions {}).policy = false := by
      simp [Node.containsRead_eq, Node.isRead, Node.children, Form.children]
    exact .of_children rfl (List.forall_mem_singleton.2 (.of_children rfl
      (List.forall_mem_cons.2 ⟨.of_unread silent, List.forall_mem_singleton.2 keyed⟩)))
  have title : (Sample.braced "title" Sample.item).ReadsKeyed (Settings.ofOptions {}).policy :=
    .of_children rfl (List.forall_mem_singleton.2 (.of_children rfl
      (List.forall_mem_singleton.2 (tag "li" _ key))))
  exact .of_children rfl (List.forall_mem_singleton.2 (tag "Row" _ title))

end JsxBoundary
