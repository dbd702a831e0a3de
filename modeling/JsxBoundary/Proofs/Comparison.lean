import JsxBoundary.Proofs.Pipeline
import JsxBoundary.Proofs.Suppression

namespace JsxBoundary

namespace Node

variable {s s' : Settings} {ancestors : Ancestors} {n m m' : Node} {c c' : Choice}

/-- What is put in the place of a node, if anything is, is the same under both settings. -/
structure Akin (s s' : Settings) : Prop where
  component : s'.componentName = s.componentName
  deferring : s'.deferringComponents = s.deferringComponents

def asksBoundary (policy : ReadPolicy) (ancestors : Ancestors) (n : Node) : Bool :=
  match n.form with
  | .container expression => !ancestors.insideAttribute && expression.containsRead policy
  | .element _ _ _ => n.openingTag?.any (·.hasReadingAttribute policy)
  | _ => false

theorem asksBoundary_of_plain (element : n.isElement = false) (contained : n.contained? = none)
    (policy : ReadPolicy) (ancestors : Ancestors) : n.asksBoundary policy ancestors = false := by
  obtain ⟨form, layout⟩ := n
  cases form with
  | element => cases element
  | container => cases contained
  | _ => rfl

theorem asksBoundary_of_element (element : n.isElement = true) {tag : OpeningTag}
    (found : n.openingTag? = some tag) (policy : ReadPolicy) (ancestors : Ancestors) :
    n.asksBoundary policy ancestors = tag.hasReadingAttribute policy := by
  obtain ⟨opening, content, closing, layout, rfl⟩ := eq_mk_of_isElement element
  simp only [asksBoundary, form_mk, found, Option.any_some]

theorem Chosen.inserted_eq (chosen : Chosen s ancestors n c) :
    c.inserted = (!isSheltered s ancestors && n.asksBoundary s.policy ancestors) := by
  cases chosen with
  | other element contained => simp [asksBoundary_of_plain element contained]
  | container held quiet =>
      simp only [asksBoundary, held]
      revert quiet
      cases ancestors.insideAttribute <;> cases isSheltered s ancestors <;> simp
  | boundary held plain bare reads => simp [asksBoundary, held, plain, bare, reads]
  | element element _ found quiet =>
      rw [asksBoundary_of_element element found]
      revert quiet
      cases isSheltered s ancestors <;> simp
  | whole element _ found bare reads => simp [asksBoundary_of_element element found, bare, reads]

theorem deferral?_akin (akin : Akin s s') (n : Node) : n.deferral? s' = n.deferral? s := by
  rw [deferral?, deferral?, akin.deferring]

theorem Deferring.agree {actions actions' : List Action} (akin : Akin s s')
    (first : Deferring s n m actions) (second : Deferring s' n m' actions') : m' = m := by
  have same := deferral?_akin akin n
  cases first with
  | stays pending =>
      cases second with
      | stays => rfl
      | deferred made => rw [made, pending] at same; cases same
  | deferred made =>
      cases second with
      | stays pending => rw [made, pending] at same; cases same
      | deferred made' => rw [made, made'] at same; exact Option.some.inj same

theorem Chosen.agree (akin : Akin s s') (first : Chosen s ancestors n c)
    (second : Chosen s' ancestors n c') (same : c'.inserted = c.inserted) :
    c'.node = c.node ∧ c'.descend = c.descend ∧
      c'.actions.filter Action.isBoundary = c.actions.filter Action.isBoundary := by
  cases first with
  | other element contained =>
      cases second with
      | other | container => exact ⟨rfl, rfl, rfl⟩
      | boundary held => simp [contained?, held] at contained
      | element element' | whole element' => rw [element] at element'; cases element'
  | container held =>
      cases second with
      | other | container => exact ⟨rfl, rfl, rfl⟩
      | boundary => cases same
      | element element | whole element => simp [isElement, held] at element
  | boundary held _ _ _ before after =>
      cases second with
      | boundary held' _ _ _ before' after' =>
          cases held.symm.trans held'
          cases before.symm.trans before'
          rw [akin.component] at after'
          cases after.symm.trans after'
          exact ⟨by rw [akin.component], rfl, rfl⟩
      | other | container | element => cases same
      | whole element => simp [isElement, held] at element
  | element element deferring =>
      cases second with
      | other | container => simp_all [isElement]
      | boundary => cases same
      | element _ deferring' =>
          refine ⟨deferring.agree akin deferring', rfl, ?_⟩
          rw [deferring.noBoundary, deferring'.noBoundary]
      | whole => cases same
  | whole element deferring _ _ _ before after =>
      cases second with
      | other | container | element => cases same
      | boundary held => simp [isElement, held] at element
      | whole _ deferring' _ _ _ before' after' =>
          cases deferring.agree akin deferring'
          cases before.symm.trans before'
          rw [akin.component] at after'
          cases after.symm.trans after'
          refine ⟨by rw [akin.component], rfl, ?_⟩
          rw [deferring.filter_append, deferring'.filter_append]

theorem Chosen.agree_of_policy (akin : Akin s s') (policy : s'.policy = s.policy)
    (sheltered : isSheltered s' ancestors = isSheltered s ancestors)
    (first : Chosen s ancestors n c) {c' : Choice} (second : Chosen s' ancestors n c') :
    c'.node = c.node ∧ c'.descend = c.descend ∧
      c'.actions.filter Action.isBoundary = c.actions.filter Action.isBoundary :=
  first.agree akin second (by rw [first.inserted_eq, second.inserted_eq, sheltered, policy])

theorem isElementNamed_mono {names names' : List String} (more : names ⊆ names')
    (h : n.isElementNamed names = true) : n.isElementNamed names' = true := by
  simp only [isElementNamed, Bool.and_eq_true, Option.any_eq_true, List.contains_iff_mem] at h ⊢
  obtain ⟨element, tag, found, member⟩ := h
  exact ⟨element, tag, found, more member⟩

theorem isCallNamed_mono {names names' : List String} (more : names ⊆ names')
    (h : n.isCallNamed names = true) : n.isCallNamed names' = true := by
  obtain ⟨form, layout⟩ := n
  cases form with
  | call =>
      simp only [isCallNamed, form_mk, Option.any_eq_true, List.contains_iff_mem] at h ⊢
      obtain ⟨name, found, member⟩ := h
      exact ⟨name, found, more member⟩
  | _ => cases h

theorem isSheltered_mono (reactive : s.reactiveComponents ⊆ s'.reactiveComponents)
    (observers : s.observerNames ⊆ s'.observerNames) (h : isSheltered s ancestors = true) :
    isSheltered s' ancestors = true := by
  simp only [isSheltered, Ancestors.insideReactive, Ancestors.insideObserver, Bool.or_eq_true,
    List.any_eq_true] at h ⊢
  rcases h with ⟨a, member, named⟩ | ⟨a, member, named⟩
  · exact .inl ⟨a, member, isElementNamed_mono reactive named⟩
  · exact .inr ⟨a, member, isCallNamed_mono observers named⟩

theorem bare_of_bare
    (sheltering : ∀ ancestors, isSheltered s ancestors = true → isSheltered s' ancestors = true)
    (bare : isSheltered s' ancestors = false) : isSheltered s' ancestors = isSheltered s ancestors := by
  rw [bare, eq_comm, Bool.eq_false_iff]
  intro sheltered
  rw [sheltering ancestors sheltered] at bare
  cases bare

theorem flatMap_sublist {α β γ : Type} {f : α → List γ} {g : β → List γ} {as : List α} {bs : List β}
    (h : Pointwise (fun a b => (g b).Sublist (f a)) as bs) :
    (bs.flatMap g).Sublist (as.flatMap f) := by
  induction as generalizing bs with
  | nil =>
      rw [h.of_nil]
      exact .refl _
  | cons a as ih =>
      obtain ⟨b, bs, rfl, front, rest⟩ := h.of_cons
      rw [List.flatMap_cons, List.flatMap_cons]
      exact front.append (ih rest)

theorem Rewrites.antitone (akin : Akin s s') (policy : s'.policy = s.policy)
    (sheltering : ∀ ancestors, isSheltered s ancestors = true → isSheltered s' ancestors = true)
    {log log' : List Action} (first : Rewrites s ancestors n m log)
    (second : Rewrites s' ancestors n m' log') :
    (log'.filter Action.isBoundary).Sublist (log.filter Action.isBoundary) := by
  induction first generalizing m' log' with
  | @stop ancestors n c chosen stays =>
      cases sheltered : isSheltered s' ancestors with
      | true =>
          rw [(second.normalized sheltered).2]
          exact List.nil_sublist _
      | false =>
          have same := bare_of_bare sheltering sheltered
          cases second with
          | stop chosen' => rw [(chosen.agree_of_policy akin policy same chosen').2.2]
          | onward chosen' descends =>
              rw [(chosen.agree_of_policy akin policy same chosen').2.1, stays] at descends
              cases descends
  | @onward ancestors n c results chosen descends length each ih =>
      cases sheltered : isSheltered s' ancestors with
      | true =>
          rw [(second.normalized sheltered).2]
          exact List.nil_sublist _
      | false =>
          have same := bare_of_bare sheltering sheltered
          cases second with
          | stop chosen' stays =>
              rw [(chosen.agree_of_policy akin policy same chosen').2.1, descends] at stays
              cases stays
          | onward chosen' _ length' each' =>
              obtain ⟨node, _, actions⟩ := chosen.agree_of_policy akin policy same chosen'
              rw [node] at length' each'
              rw [List.filter_append, List.filter_append, actions, List.filter_flatMap,
                List.filter_flatMap]
              refine (List.Sublist.refl _).append (flatMap_sublist ⟨length'.trans length.symm, ?_⟩)
              intro i r r' found found'
              have bound : i < c.node.children.length := length ▸ (List.getElem?_eq_some_iff.1 found).1
              have child := List.getElem?_eq_getElem bound
              exact ih i _ r child found (each' i _ r' child found')

end Node

/-- The second options are the first ones with further reactive components and observers. -/
structure Options.Shelters (o o' : Options) : Prop where
  reactive : o.reactiveComponents ⊆ o'.reactiveComponents
  observers : o.observerNames ⊆ o'.observerNames
  otherwise : o' = { o with
    reactiveComponents := o'.reactiveComponents, observerNames := o'.observerNames }

namespace Options.Shelters

variable {o o' : Options}

theorem akin (more : o.Shelters o') : Node.Akin (.ofOptions o) (.ofOptions o') := by
  rw [more.otherwise]
  exact ⟨rfl, rfl⟩

theorem policy (more : o.Shelters o') :
    (Settings.ofOptions o').policy = (Settings.ofOptions o).policy := by
  rw [more.otherwise]
  rfl

theorem sheltering (more : o.Shelters o') (ancestors : Ancestors)
    (h : Node.isSheltered (.ofOptions o) ancestors = true) :
    Node.isSheltered (.ofOptions o') ancestors = true := by
  have component : o'.componentName = o.componentName := by rw [more.otherwise]
  refine Node.isSheltered_mono (fun name member => ?_) (fun name member => ?_) h
  · simp only [Settings.ofOptions, List.mem_append, List.mem_cons, component] at member ⊢
    exact member.imp_right fun member => member.imp_right fun member => more.reactive member
  · simp only [Settings.ofOptions, List.mem_append] at member ⊢
    exact member.imp_right fun member => more.observers member

end Options.Shelters

namespace Trace

/-- The recorded boundaries, in order. -/
def boundaries (t : Trace) : List Action :=
  t.actions.filter Action.isBoundary

theorem boundaries_of_advance {p q : Progress} {log : List Action} (h : p.Advance log q) :
    q.trace.boundaries = p.trace.boundaries ++ log.filter Action.isBoundary := by
  rw [boundaries, h.trace, actions_foldl_record, List.filter_append]
  rfl

end Trace

/-- With further reactive components and observers, the wrapping pass records some of the boundaries that
it records without them, in the same order and with the same texts. -/
theorem wrapReads_antitone (o o' : Options) (more : o.Shelters o') (root : Node) (w : Walk)
    (done : ((Pass.wrapReads (.ofOptions o)).run root w).2.fault = none)
    (done' : ((Pass.wrapReads (.ofOptions o')).run root w).2.fault = none) :
    ((Pass.wrapReads (.ofOptions o')).run root w).2.progress.trace.boundaries.Sublist
      ((Pass.wrapReads (.ofOptions o)).run root w).2.progress.trace.boundaries := by
  obtain ⟨log, rewrites, advance⟩ := Node.rewriteRoot_derives (Node.rewriteRoot_start done) done
  obtain ⟨log', rewrites', advance'⟩ := Node.rewriteRoot_derives (Node.rewriteRoot_start done') done'
  have fewer := rewrites.antitone more.akin more.policy more.sheltering rewrites'
  have recorded := Trace.boundaries_of_advance advance
  have recorded' := Trace.boundaries_of_advance advance'
  rw [Pass.wrapReads, Pass.wrapReads, recorded, recorded']
  exact (List.Sublist.refl _).append fewer

namespace Sample

def cards : Node :=
  .fresh (.program [element "Card" [] [read "a$"], element "p" [] [read "b$"]])

def cardOptions : Options where
  reactiveComponents := ["Card"]
  observerNames := ["track"]

end Sample

theorem wrapReads_cards_antitone :
    Options.Shelters {} Sample.cardOptions ∧
      let r := (Pass.wrapReads (.ofOptions {})).run Sample.cards ⟨{}, none⟩
      let r' := (Pass.wrapReads (.ofOptions Sample.cardOptions)).run Sample.cards ⟨{}, none⟩
      r.2.fault = none ∧ r'.2.fault = none ∧ r.2.progress.rewriteCount = 2 ∧
        r'.2.progress.rewriteCount = 1 ∧
        r'.2.progress.trace.boundaries.Sublist r.2.progress.trace.boundaries := by
  have more : Options.Shelters {} Sample.cardOptions := ⟨List.nil_subset _, List.nil_subset _, rfl⟩
  have done : ((Pass.wrapReads (.ofOptions {})).run Sample.cards ⟨{}, none⟩).2.fault = none := by cbv
  have done' : ((Pass.wrapReads (.ofOptions Sample.cardOptions)).run Sample.cards
      ⟨{}, none⟩).2.fault = none := by cbv
  exact ⟨more, done, done', by cbv, by cbv, wrapReads_antitone _ _ more _ _ done done'⟩

end JsxBoundary
