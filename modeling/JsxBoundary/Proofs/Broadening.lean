import JsxBoundary.Proofs.Comparison
import JsxBoundary.Proofs.Exemption
import JsxBoundary.Proofs.Origins

namespace JsxBoundary

/-- What counts as a read under the first policy counts under the second one. -/
structure ReadPolicy.Broadens (policy policy' : ReadPolicy) : Prop where
  allReads : policy.allReads = true → policy'.allReads = true
  methods : policy.methodNames ⊆ policy'.methodNames
  suffix : policy'.suffix = policy.suffix

namespace Node

variable {policy policy' : ReadPolicy} {n : Node}

theorem isRead_mono (broader : policy.Broadens policy') (h : n.isRead policy = true) :
    n.isRead policy' = true := by
  unfold isRead at h ⊢
  split at h
  · split at h
    · rename_i object property layout access
      simp only [Bool.and_eq_true, Bool.or_eq_true, Option.any_eq_true, List.contains_iff_mem] at h ⊢
      obtain ⟨⟨name, found, listed⟩, root⟩ := h
      refine ⟨⟨name, found, broader.methods listed⟩, root.imp broader.allReads ?_⟩
      rintro ⟨name, found, marked⟩
      refine ⟨name, found, ?_⟩
      rwa [ReadPolicy.marks, broader.suffix]
    · cases h
  · cases h

theorem containsRead_mono (broader : policy.Broadens policy') (h : n.containsRead policy = true) :
    n.containsRead policy' = true := by
  induction n using inductionOnChildren with
  | step n ih =>
      rw [containsRead_eq] at h ⊢
      simp only [Bool.and_eq_true, Bool.or_eq_true, List.any_eq_true] at h ⊢
      obtain ⟨free, read⟩ := h
      refine ⟨free, read.imp (isRead_mono broader) ?_⟩
      rintro ⟨c, member, read⟩
      exact ⟨c, member, ih c member read⟩

theorem isReadingAttribute_mono (broader : policy.Broadens policy')
    (h : n.isReadingAttribute policy = true) : n.isReadingAttribute policy' = true := by
  unfold isReadingAttribute at h ⊢
  split at h
  · exact containsRead_mono broader h
  · rw [Bool.and_eq_true] at h ⊢
    refine ⟨h.1, ?_⟩
    have read := h.2
    split at read
    · exact containsRead_mono broader read
    · cases read
  · cases h

theorem asksBoundary_mono (broader : policy.Broadens policy') {ancestors : Ancestors}
    (h : n.asksBoundary policy ancestors = true) : n.asksBoundary policy' ancestors = true := by
  unfold asksBoundary at h ⊢
  split at h
  · rw [Bool.and_eq_true] at h ⊢
    exact ⟨h.1, containsRead_mono broader h.2⟩
  · simp only [Option.any_eq_true, OpeningTag.hasReadingAttribute, List.any_eq_true] at h ⊢
    obtain ⟨tag, found, a, member, reading⟩ := h
    exact ⟨tag, found, a, member, isReadingAttribute_mono broader reading⟩
  · cases h

end Node

/-- Everything of this origin that stands in the given tree stands at or below the path. -/
inductive Origin.Within (path : List Nat) : Origin → Prop
  | given {place : List Nat} (below : path <+: place) : Within path (.given place)
  | made {children : List Origin} (each : ∀ origin ∈ children, Within path origin) :
      Within path (.made children)

namespace Origin.Within

variable {path place : List Nat} {origin : Origin}

theorem child (h : origin.Within path) (i : Nat) : (origin.child i).Within path := by
  cases h with
  | given below => exact .given (below.trans (List.prefix_append _ _))
  | @made children each =>
      rw [Origin.child]
      cases found : children[i]? with
      | none => exact .made fun _ member => absurd member List.not_mem_nil
      | some origin => exact each origin (List.mem_of_getElem? found)

theorem thunk (h : origin.Within path) : origin.thunk.Within path := by
  refine .made fun _ member => ?_
  rw [List.mem_singleton.1 member]
  refine .made fun _ member => ?_
  rwa [List.mem_singleton.1 member]

theorem tag : Origin.tag.Within path := by
  refine .made fun _ member => ?_
  rw [List.mem_singleton.1 member]
  exact .made fun _ member => absurd member List.not_mem_nil

theorem boundary (h : origin.Within path) : origin.boundary.Within path := by
  refine .made fun _ member => ?_
  simp only [List.mem_cons, List.not_mem_nil, or_false] at member
  rcases member with rfl | rfl | rfl
  · exact tag
  · exact h.thunk
  · exact tag

theorem deferral (content : List Node) (closing : Option Node) (below : path <+: place) :
    (Origin.deferral content closing place).Within path := by
  have at' : ∀ rest, (Origin.given (place ++ rest)).Within path := fun rest =>
    .given (below.trans (List.prefix_append _ _))
  have body : (Origin.deferredBody content place).Within path := by
    unfold Origin.deferredBody
    split
    · split
      · exact at' _
      · rw [List.append_assoc]
        exact at' _
    · refine .made fun _ member => ?_
      obtain ⟨⟨c, i⟩, _, rfl⟩ := List.mem_map.1 member
      exact at' _
  refine .made fun _ member => ?_
  rcases List.mem_cons.1 member with rfl | member
  · exact at' _
  · rcases List.mem_cons.1 member with rfl | member
    · exact body.thunk
    · obtain ⟨_, _, rfl⟩ := List.mem_map.1 member
      exact at' _

theorem onward (h : origin.Within path) (s : Settings) (n : Node) (inserted : Bool) :
    (origin.onward s n inserted).Within path := by
  cases h with
  | made each => exact .made each
  | @given place below =>
      simp only [Origin.onward]
      split
      · split
        · exact boundary (.given (below.trans (List.prefix_append _ _)))
        · exact .given below
      · split
        · exact deferral _ _ below
        · exact .given below
      · exact .given below

end Origin.Within

namespace Node

variable {s s' : Settings} {root n : Node} {ancestors : Ancestors} {c c' : Choice} {origin : Origin}
  {wrappings wrappings' : List Wrapping}

theorem Wraps.within {path : List Nat} (wraps : Wraps s root ancestors n origin wrappings)
    (within : origin.Within path) : ∀ x ∈ wrappings, path <+: x.place := by
  have own : ∀ {origin : Origin} {actions : List Action}, origin.Within path →
      ∀ x ∈ origin.wrappings actions, path <+: x.place := by
    intro origin actions within x member
    cases within with
    | made => cases member
    | given below =>
        obtain ⟨_, _, rfl⟩ := List.mem_map.1 member
        exact below
  induction wraps with
  | stop => exact own within
  | @onward ancestors n origin c results traced chosen descends length _ ih =>
      intro x member
      rcases List.mem_append.1 member with here | below
      · exact own within x here
      · obtain ⟨r, listed, member⟩ := List.mem_flatten.1 below
        obtain ⟨i, bound, rfl⟩ := List.getElem_of_mem listed
        have bound' : i < c.node.children.length := length ▸ bound
        exact ih i _ _ (List.getElem?_eq_getElem bound') (List.getElem?_eq_getElem bound)
          ((within.onward s n c.inserted).child i) x member

theorem Chosen.no_wrappings (chosen : Chosen s ancestors n c) (origin : Origin)
    (bare : c.inserted = false) : origin.wrappings c.actions = [] := by
  have silent : c.actions.filter Action.isBoundary = [] := by
    cases chosen with
    | other | container => rfl
    | element _ deferring => exact deferring.noBoundary
    | boundary | whole => cases bare
  cases origin with
  | made => rfl
  | given => rw [Origin.wrappings, silent, List.map_nil]

theorem Chosen.given_of_inserted (chosen : Chosen s ancestors n c) (traced : Traced root origin n)
    (inserted : c.inserted = true) : ∃ x ∈ origin.wrappings c.actions, origin = .given x.place := by
  cases traced with
  | made inert =>
      cases chosen.of_inert inert
      cases inserted
  | given =>
      cases chosen with
      | other | container | element => cases inserted
      | boundary => exact ⟨_, .head _, rfl⟩
      | whole element deferring =>
          rw [Origin.wrappings, deferring.filter_append]
          exact ⟨_, .head _, rfl⟩

theorem Wraps.here_or_below (wraps : Wraps s root ancestors n origin wrappings) :
    (∃ x ∈ wrappings, origin = .given x.place) ∨
      ∃ c, Chosen s ancestors n c ∧ c.inserted = false ∧ ∀ a i, c.descend = true →
        c.node.children[i]? = some a → ∃ below, below ⊆ wrappings ∧
          Wraps s root (c.node :: ancestors) a ((origin.onward s n false).child i) below := by
  cases wraps with
  | @stop _ _ _ c traced chosen stays =>
      cases inserted : c.inserted with
      | true => exact .inl (chosen.given_of_inserted traced inserted)
      | false =>
          refine .inr ⟨c, chosen, inserted, fun a i descends => ?_⟩
          rw [stays] at descends
          cases descends
  | @onward _ _ _ c results traced chosen _ length each =>
      cases inserted : c.inserted with
      | true =>
          obtain ⟨x, member, here⟩ := chosen.given_of_inserted traced inserted
          exact .inl ⟨x, List.mem_append_left _ member, here⟩
      | false =>
          refine .inr ⟨c, chosen, inserted, fun a i _ found => ?_⟩
          have bound : i < results.length := length ▸ (List.getElem?_eq_some_iff.1 found).1
          refine ⟨results[i], fun x member => ?_, ?_⟩
          · exact List.mem_append_right _ (List.mem_flatten_of_mem (List.getElem_mem bound) member)
          · exact inserted ▸ each i a _ found (List.getElem?_eq_getElem bound)

theorem Origin.onward_akin (akin : Akin s s') (origin : Origin) (n : Node) (inserted : Bool) :
    origin.onward s' n inserted = origin.onward s n inserted := by
  cases origin with
  | made => rfl
  | given =>
      unfold Origin.onward
      rw [deferral?_akin akin]

theorem Chosen.agree_of_broader (akin : Akin s s') (broader : s.policy.Broadens s'.policy)
    (sheltered : ∀ ancestors, isSheltered s' ancestors = isSheltered s ancestors)
    (chosen : Chosen s ancestors n c) (chosen' : Chosen s' ancestors n c')
    (bare : c'.inserted = false) :
    c.inserted = false ∧ c'.node = c.node ∧ c'.descend = c.descend := by
  have quiet : c.inserted = false := by
    rw [Bool.eq_false_iff, chosen.inserted_eq]
    intro asks
    rw [chosen'.inserted_eq, sheltered] at bare
    rw [Bool.and_eq_true] at asks
    rw [asks.1, asksBoundary_mono broader asks.2] at bare
    cases bare
  obtain ⟨node, descend, _⟩ := chosen.agree akin chosen' (bare.trans quiet.symm)
  exact ⟨quiet, node, descend⟩

/-- Whatever a rewrite puts behind a boundary, a rewrite under a broader policy puts that behind one as
well, or something around it. -/
theorem Wraps.broader (akin : Akin s s') (broader : s.policy.Broadens s'.policy)
    (sheltered : ∀ ancestors, isSheltered s' ancestors = isSheltered s ancestors)
    (first : Wraps s root ancestors n origin wrappings)
    (second : Wraps s' root ancestors n origin wrappings') :
    ∀ x ∈ wrappings, ∃ y ∈ wrappings', y.place <+: x.place := by
  induction first generalizing wrappings' with
  | @stop ancestors n origin c traced chosen stays =>
      rcases second.here_or_below with ⟨y, listed, rfl⟩ | ⟨c', chosen', bare, _⟩
      · exact fun x member =>
          ⟨y, listed, (Wraps.stop traced chosen stays).within (.given List.prefix_rfl) x member⟩
      · rw [chosen.no_wrappings origin (chosen.agree_of_broader akin broader sheltered chosen' bare).1]
        nofun
  | @onward ancestors n origin c results traced chosen descends length each ih =>
      rcases second.here_or_below with ⟨y, listed, rfl⟩ | ⟨c', chosen', bare, below⟩
      · have whole := Wraps.onward traced chosen descends length each
        exact fun x member => ⟨y, listed, whole.within (.given List.prefix_rfl) x member⟩
      · obtain ⟨quiet, node, descend⟩ := chosen.agree_of_broader akin broader sheltered chosen' bare
        rw [node, descend, Origin.onward_akin akin] at below
        rw [chosen.no_wrappings origin quiet, List.nil_append]
        rw [quiet] at ih
        intro x member
        obtain ⟨r, listed, member⟩ := List.mem_flatten.1 member
        obtain ⟨i, bound, rfl⟩ := List.getElem_of_mem listed
        have bound' : i < c.node.children.length := length ▸ bound
        have found := List.getElem?_eq_getElem bound'
        obtain ⟨wrappings, among, wraps⟩ := below _ i descends found
        obtain ⟨y, listed', around⟩ := ih i _ _ found (List.getElem?_eq_getElem bound) wraps x member
        exact ⟨y, among listed', around⟩

end Node

/-- The second options are the first ones with a broader policy of reads. -/
structure Options.Broadens (o o' : Options) : Prop where
  allGet : o.allGet = true → o'.allGet = true
  methods : o.methodNames ⊆ o'.methodNames
  otherwise : o' = { o with allGet := o'.allGet, methodNames := o'.methodNames }

namespace Options.Broadens

variable {o o' : Options}

theorem akin (broader : o.Broadens o') : Node.Akin (.ofOptions o) (.ofOptions o') := by
  rw [broader.otherwise]
  exact ⟨rfl, rfl⟩

theorem policy (broader : o.Broadens o') :
    (Settings.ofOptions o).policy.Broadens (Settings.ofOptions o').policy :=
  ⟨broader.allGet, broader.methods, by rw [broader.otherwise]; rfl⟩

theorem sheltered (broader : o.Broadens o') (ancestors : Ancestors) :
    Node.isSheltered (.ofOptions o') ancestors = Node.isSheltered (.ofOptions o) ancestors := by
  rw [broader.otherwise]
  rfl

end Options.Broadens

/-- The boundaries that a rewrite of the tree has recorded, with what each was made for. -/
structure Walk.Wrapped (s : Settings) (root : Node) (w w' : Walk) (wrappings : List Wrapping) :
    Prop where
  derived : Node.Wraps s root [] root (.given []) wrappings
  recorded : w'.progress.trace.boundaries =
    w.progress.trace.boundaries ++ wrappings.map (·.action)
  around : ∀ x ∈ wrappings, x.Around s root

theorem wrapReads_wrapped {s : Settings} {root : Node} {w : Walk}
    (done : ((Pass.wrapReads s).run root w).2.fault = none) :
    ∃ wrappings, w.Wrapped s root ((Pass.wrapReads s).run root w).2 wrappings := by
  obtain ⟨log, rewrites, advance⟩ := Node.rewriteRoot_derives (Node.rewriteRoot_start done) done
  obtain ⟨wrappings, wraps, actions⟩ := rewrites.wraps (.given (Node.get?_nil root))
  exact ⟨wrappings, wraps, actions ▸ Trace.boundaries_of_advance advance, wraps.around⟩

/-- With a broader policy of reads, the wrapping pass puts every element and container that it puts
behind a boundary without it behind one as well, or an element or container around it. -/
theorem wrapReads_broader (o o' : Options) (broader : o.Broadens o') (root : Node) (w : Walk)
    (done : ((Pass.wrapReads (.ofOptions o)).run root w).2.fault = none)
    (done' : ((Pass.wrapReads (.ofOptions o')).run root w).2.fault = none) :
    let Wraps := w.Wrapped (.ofOptions o) root ((Pass.wrapReads (.ofOptions o)).run root w).2
    let Wraps' := w.Wrapped (.ofOptions o') root ((Pass.wrapReads (.ofOptions o')).run root w).2
    (∃ wrappings, Wraps wrappings) ∧ (∃ wrappings, Wraps' wrappings) ∧
      ∀ wrappings wrappings', Wraps wrappings → Wraps' wrappings' →
        ∀ x ∈ wrappings, ∃ y ∈ wrappings', y.place <+: x.place := by
  refine ⟨wrapReads_wrapped done, wrapReads_wrapped done', fun wrappings wrappings' first second => ?_⟩
  exact first.derived.broader broader.akin broader.policy broader.sheltered second.derived

namespace Sample

def titled : Node :=
  .fresh (.program [element "ul" [braced "title" (call "a")] [read "b$"]])

def everyRead : Options where
  allGet := true

end Sample

theorem wrapReads_titled_broader :
    Options.Broadens {} Sample.everyRead ∧
      let r := (Pass.wrapReads (.ofOptions {})).run Sample.titled ⟨{}, none⟩
      let r' := (Pass.wrapReads (.ofOptions Sample.everyRead)).run Sample.titled ⟨{}, none⟩
      r.2.fault = none ∧ r'.2.fault = none ∧ r.2.progress.rewriteCount = 1 ∧
        r'.2.progress.rewriteCount = 1 ∧ r.1 ≠ r'.1 ∧
        ∀ wrappings wrappings',
          Walk.Wrapped (.ofOptions {}) Sample.titled ⟨{}, none⟩ r.2 wrappings →
          Walk.Wrapped (.ofOptions Sample.everyRead) Sample.titled ⟨{}, none⟩ r'.2 wrappings' →
          ∀ x ∈ wrappings, ∃ y ∈ wrappings', y.place <+: x.place := by
  have broader : Options.Broadens {} Sample.everyRead := ⟨nofun, List.Subset.refl _, rfl⟩
  have done : ((Pass.wrapReads (.ofOptions {})).run Sample.titled ⟨{}, none⟩).2.fault = none := by cbv
  have done' : ((Pass.wrapReads (.ofOptions Sample.everyRead)).run Sample.titled
      ⟨{}, none⟩).2.fault = none := by cbv
  have apart : ((Pass.wrapReads (.ofOptions {})).run Sample.titled ⟨{}, none⟩).1.children.map
      Node.tagName? = [some "ul"] := by cbv
  have apart' : ((Pass.wrapReads (.ofOptions Sample.everyRead)).run Sample.titled
      ⟨{}, none⟩).1.children.map Node.tagName? = [some "Memo"] := by cbv
  refine ⟨broader, done, done', by cbv, by cbv, fun same => ?_,
    (wrapReads_broader _ _ broader _ _ done done').2.2⟩
  rw [same, apart'] at apart
  simp at apart

end JsxBoundary
