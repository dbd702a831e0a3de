import JsxBoundary.Proofs.Suppression

namespace JsxBoundary

namespace Node

variable {s : Settings}

def Idle (s : Settings) (n : Node) : Prop :=
  n.isElement = true → n.openingTag?.isSome = true ∧ n.deferral? s = none

/-- No element of the tree is left with children to defer. -/
inductive Settled (s : Settings) : Node → Prop
  | node {n : Node} (idle : Idle s n) (below : ∀ c ∈ n.children, Settled s c) : Settled s n

theorem Settled.get? {n m : Node} (h : Settled s n) {path : List Nat} (found : n.get? path = some m) :
    Settled s m := by
  induction path generalizing n with
  | nil =>
      cases found
      exact h
  | cons i path ih =>
      obtain ⟨_, below⟩ := h
      obtain ⟨c, child, found⟩ := Option.bind_eq_some_iff.1 found
      exact ih (below c (List.mem_of_getElem? child)) found

namespace Normalized

variable {n m : Node}

theorem paired (h : Normalized s n m) :
    Form.Paired (Normalized s) n.form m.form ∨ n.isElement = true ∧ m.isElement = true := by
  cases h with
  | node start length each =>
      rcases start with rfl | made
      · exact .inl (paired_withChildren ⟨length, each⟩)
      · obtain ⟨_, _, _, _, form, _⟩ := deferChildren?_some (deferral?_some made)
        exact .inr ⟨by simp [Node.isElement, form], by simp [isElement_of_deferral made]⟩

theorem isElement (h : Normalized s n m) : m.isElement = n.isElement := by
  rcases h.paired with paired | ⟨left, right⟩
  · obtain ⟨form, layout⟩ := n
    obtain ⟨form', layout'⟩ := m
    simp only [form_mk] at paired
    cases paired <;> rfl
  · rw [left, right]

theorem isBlankText (h : Normalized s n m) : m.isBlankText = n.isBlankText := by
  rcases h.paired with paired | ⟨left, right⟩
  · obtain ⟨form, layout⟩ := n
    obtain ⟨form', layout'⟩ := m
    simp only [form_mk] at paired
    cases paired <;> rfl
  · obtain ⟨_, _, _, _, rfl⟩ := eq_mk_of_isElement left
    obtain ⟨_, _, _, _, rfl⟩ := eq_mk_of_isElement right
    rfl

theorem contained? (h : Normalized s n m) :
    n.contained? = none ∧ m.contained? = none ∨
      ∃ e e', n.contained? = some e ∧ m.contained? = some e' ∧ Normalized s e e' := by
  rcases h.paired with paired | ⟨left, right⟩
  · obtain ⟨form, layout⟩ := n
    obtain ⟨form', layout'⟩ := m
    simp only [form_mk] at paired
    cases paired with
    | container expression => exact .inr ⟨_, _, rfl, rfl, expression⟩
    | _ => exact .inl ⟨rfl, rfl⟩
  · obtain ⟨_, _, _, _, rfl⟩ := eq_mk_of_isElement left
    obtain ⟨_, _, _, _, rfl⟩ := eq_mk_of_isElement right
    exact .inl ⟨rfl, rfl⟩

theorem isEmptyExpression (h : Normalized s n m) : m.isEmptyExpression = n.isEmptyExpression := by
  rcases h.paired with paired | ⟨left, right⟩
  · obtain ⟨form, layout⟩ := n
    obtain ⟨form', layout'⟩ := m
    simp only [form_mk] at paired
    cases paired <;> rfl
  · obtain ⟨_, _, _, _, rfl⟩ := eq_mk_of_isElement left
    obtain ⟨_, _, _, _, rfl⟩ := eq_mk_of_isElement right
    rfl

theorem unwrapParens (h : Normalized s n m) : Normalized s n.unwrapParens m.unwrapParens := by
  induction n using inductionOnChildren generalizing m with
  | step n ih =>
      rcases h.paired with paired | ⟨left, right⟩
      · obtain ⟨form, layout⟩ := n
        obtain ⟨form', layout'⟩ := m
        simp only [form_mk] at paired
        cases paired with
        | @parens e e' expression =>
            have inner := ih e (.head _) expression
            exact inner
        | _ => exact h
      · obtain ⟨_, _, _, _, rfl⟩ := eq_mk_of_isElement left
        obtain ⟨_, _, _, _, rfl⟩ := eq_mk_of_isElement right
        exact h

theorem isDeferredValue (h : Normalized s n m) : m.isDeferredValue = n.isDeferredValue := by
  unfold Node.isDeferredValue
  have inner := h.unwrapParens
  generalize n.unwrapParens = k at inner ⊢
  generalize m.unwrapParens = k' at inner ⊢
  rcases inner.paired with paired | ⟨left, right⟩
  · obtain ⟨form, layout⟩ := k
    obtain ⟨form', layout'⟩ := k'
    simp only [form_mk] at paired
    cases paired <;> rfl
  · obtain ⟨_, _, _, _, rfl⟩ := eq_mk_of_isElement left
    obtain ⟨_, _, _, _, rfl⟩ := eq_mk_of_isElement right
    rfl

end Normalized

theorem keptContent_normalized {content content' : List Node}
    (h : Pointwise (Normalized s) content content') :
    Pointwise (Normalized s) (keptContent content) (keptContent content') := by
  induction content generalizing content' with
  | nil => rw [h.of_nil]; exact .nil
  | cons c content ih =>
      obtain ⟨c', content', rfl, normalized, rest⟩ := h.of_cons
      have blank := normalized.isBlankText
      simp only [keptContent, List.filter_cons, blank]
      split
      · exact .cons normalized (ih rest)
      · exact ih rest

theorem isDeferredContent_normalized {kept kept' : List Node}
    (h : Pointwise (Normalized s) kept kept') : isDeferredContent kept' = isDeferredContent kept := by
  rcases kept with _ | ⟨c, _ | ⟨d, kept⟩⟩
  · rw [h.of_nil]
  · obtain ⟨c', rfl, normalized⟩ := h.of_single
    simp only [isDeferredContent]
    rcases normalized.contained? with ⟨left, right⟩ | ⟨e, e', left, right, expression⟩
    · rw [left, right]
    · simp [left, right, expression.isDeferredValue]
  · obtain ⟨c', rest, rfl, _, h⟩ := h.of_cons
    obtain ⟨d', rest, rfl, _, _⟩ := h.of_cons
    rfl

theorem opensWithValue_normalized {kept kept' : List Node}
    (h : Pointwise (Normalized s) kept kept') : opensWithValue kept' = opensWithValue kept := by
  cases kept with
  | nil => rw [h.of_nil]
  | cons c kept =>
      obtain ⟨c', kept', rfl, normalized, _⟩ := h.of_cons
      simp only [opensWithValue, normalized.isElement]
      rcases normalized.contained? with ⟨left, right⟩ | ⟨e, e', left, right, expression⟩
      · rw [left, right]
      · simp [left, right, expression.isDeferredValue]

theorem deferredBody?_normalized {kept kept' : List Node} (h : Pointwise (Normalized s) kept kept')
    (fragment fragment' : Node) :
    (deferredBody? kept' fragment').isSome = (deferredBody? kept fragment).isSome := by
  rcases kept with _ | ⟨c, _ | ⟨d, kept⟩⟩
  · rw [h.of_nil]
    rfl
  · obtain ⟨c', rfl, normalized⟩ := h.of_single
    rcases normalized.paired with paired | ⟨left, right⟩
    · obtain ⟨form, layout⟩ := c
      obtain ⟨form', layout'⟩ := c'
      simp only [form_mk] at paired
      cases paired with
      | container expression =>
          simp only [deferredBody?, form_mk, expression.isEmptyExpression]
          split <;> rfl
      | _ => rfl
    · obtain ⟨_, _, _, _, rfl⟩ := eq_mk_of_isElement left
      obtain ⟨_, _, _, _, rfl⟩ := eq_mk_of_isElement right
      rfl
  · obtain ⟨c', rest, rfl, _, h⟩ := h.of_cons
    obtain ⟨d', rest, rfl, _, _⟩ := h.of_cons
    rfl

theorem isSome_deferChildren? {n opening name : Node} {content attributes : List Node}
    {closing : Option Node} {selfClosing : Bool} (form : n.form = .element (some opening) content closing)
    (tag : opening.form = .openingTag name attributes selfClosing) :
    n.deferChildren?.isSome = (!selfClosing && name.identifier?.isSome &&
      !isDeferredContent (keptContent content) && opensWithValue (keptContent content) &&
      (deferredBody? (keptContent content) (n.keptFragment content)).isSome) := by
  unfold deferChildren?
  simp only [form, tag]
  cases selfClosing with
  | true => rfl
  | false =>
      cases named : name.identifier? <;> cases isDeferredContent (keptContent content) <;>
        cases opensWithValue (keptContent content) <;> simp [named]

theorem deferChildren?_normalized {n opening name : Node} {content attributes cs : List Node}
    {closing : Option Node} {selfClosing : Bool} (form : n.form = .element (some opening) content closing)
    (tag : opening.form = .openingTag name attributes selfClosing)
    (h : Pointwise (Normalized s) n.children cs) :
    (n.withChildren cs).deferChildren?.isSome = n.deferChildren?.isSome := by
  have paired := paired_withChildren h
  generalize n.withChildren cs = m at paired ⊢
  rw [isSome_deferChildren? form tag]
  rw [form] at paired
  cases form' : m.form with
  | element opening' content' closing' =>
      rw [form'] at paired
      cases paired with
      | element tags contents _ =>
          cases opening' with
          | none => exact absurd tags.length (by simp)
          | some opening' =>
              rcases tags.head.paired with paired | ⟨left, _⟩
              · rw [tag] at paired
                cases tag' : opening'.form with
                | openingTag name' attributes' selfClosing' =>
                    rw [tag'] at paired
                    cases paired with
                    | openingTag _ names _ =>
                        have kept := keptContent_normalized contents
                        rw [isSome_deferChildren? form' tag', isDeferredContent_normalized kept,
                          opensWithValue_normalized kept,
                          deferredBody?_normalized kept (n.keptFragment content), names.exchange.identifier?]
                | _ => rw [tag'] at paired; cases paired
              · simp [isElement, tag] at left
  | _ => rw [form'] at paired; cases paired

theorem deferral?_normalized {n : Node} {cs : List Node} (element : n.isElement = true)
    (h : Pointwise (Normalized s) n.children cs) (pending : n.deferral? s = none) :
    (n.withChildren cs).deferral? s = none := by
  have below := h.mono fun _ _ _ _ normalized => normalized.exchange
  unfold deferral? at pending ⊢
  rw [tagName?_withChildren below element]
  split
  · rename_i asked
    rw [if_pos asked] at pending
    obtain ⟨opening, content, closing, layout, rfl⟩ := eq_mk_of_isElement element
    cases opening with
    | none => cases asked
    | some opening =>
        cases tag : opening.form with
        | openingTag name attributes selfClosing =>
            have same := deferChildren?_normalized rfl tag h
            rw [pending] at same
            exact Option.isSome_eq_false_iff.1 same |> Option.isNone_iff_eq_none.1
        | _ => simp [tagName?, openingTag?, tag] at asked
  · rfl

/-- An element without children to defer is given none by a rewrite below it: if its tag asks for
deferring, it shelters what is below. -/
theorem deferral?_withChildren (reactive : ∀ tag ∈ s.deferringComponents, tag ∈ s.reactiveComponents)
    {n : Node} {cs : List Node} (element : n.isElement = true) (pending : n.deferral? s = none)
    (below : Pointwise (Exchange s.policy) n.children cs)
    (sheltered : n.shelters s = true → Pointwise (Normalized s) n.children cs) :
    (n.withChildren cs).deferral? s = none := by
  cases asked : n.tagName?.any s.deferringComponents.contains with
  | false =>
      rw [deferral?, tagName?_withChildren below element, asked]
      rfl
  | true =>
      have named : n.isElementNamed s.reactiveComponents = true := by
        cases ht : n.tagName? with
        | none => simp [ht] at asked
        | some tag =>
            rw [ht] at asked
            have member := reactive tag (by simpa using asked)
            simp [isElementNamed, element, ht, member]
      exact deferral?_normalized element (sheltered (by rw [shelters, named, Bool.true_or])) pending

theorem deferral?_boundary (component : String) (e : Node) (source : Option Node) :
    (e.boundary component source).deferral? s = none := by
  unfold deferral?
  split
  · simp [deferChildren?, boundary, keptContent_thunk, isDeferredContent_thunk]
  · rfl

theorem typeName_of_isElement {n : Node} (h : n.isElement = true) : n.typeName = "JSXElement" := by
  obtain ⟨_, _, _, _, rfl⟩ := eq_mk_of_isElement h
  rfl

theorem decideDeferral_idle {n : Node} (idle : n.deferral? s = none) (p : Progress) :
    (n.decideDeferral s).runFrom p = (.ok (.keep n), p) := by
  unfold decideDeferral
  split
  · rename_i m made
    split
    · rename_i tag ht
      obtain ⟨named, listed⟩ := Option.filter_eq_some_iff.1 ht
      have asked : n.tagName?.any s.deferringComponents.contains = true := by
        rw [named]
        exact listed
      rw [deferral?, if_pos asked, made] at idle
      cases idle
    · rfl
  · rfl

theorem decide_keep {ancestors : Ancestors} {n : Node} (quiet : Quiet s ancestors n) (idle : Idle s n)
    (p : Progress) : (n.decide s ancestors).runFrom p = (.ok (.keep n), p) := by
  unfold decide
  split
  · rename_i form
    have element : n.isElement = true := by simp [isElement, form]
    obtain ⟨tagged, pending⟩ := idle element
    unfold decideElement
    split
    · rename_i untagged
      simp [untagged] at tagged
    · rename_i tag ht
      rw [Step.runFrom_bind, decideDeferral_idle pending]
      have silent : (isSheltered s ancestors || !tag.hasReadingAttribute s.policy) = true := by
        cases sheltered : isSheltered s ancestors with
        | true => rfl
        | false =>
            obtain ⟨tag', ht', silent⟩ := quiet.element element sheltered
            rw [ht] at ht'
            cases ht'
            simp [silent]
      simp only [silent, if_true]
      rfl
  · rename_i e form
    unfold decideContainer
    split
    · rfl
    · rename_i outside
      obtain ⟨plain, bare⟩ : ancestors.insideAttribute = false ∧ isSheltered s ancestors = false := by
        simpa using outside
      rw [dif_neg (by simp [quiet.container e form plain bare])]
      rfl
  · rfl

/-- If every deferring component is reactive, a rewrite that puts no element behind a boundary as a
whole leaves no element with children to defer. -/
theorem Rewrites.settled (reactive : ∀ tag ∈ s.deferringComponents, tag ∈ s.reactiveComponents)
    {ancestors : Ancestors} {n n' : Node} {log : List Action} (h : Rewrites s ancestors n n' log)
    (parts : ∀ before after, .boundary "JSXElement" before after ∉ log) : Settled s n' := by
  induction h with
  | @stop ancestors n c chosen stays =>
      cases chosen with
      | @whole m actions tag before after he hd =>
          refine absurd ?_ (parts before after)
          rw [typeName_of_isElement (hd.isElement he)]
          exact List.mem_append_right _ (.head _)
      | other | container | boundary | element => cases stays
  | @onward ancestors n c results chosen descends length each ih =>
      have derived : Pointwise (fun a r => Rewrites s (c.node :: ancestors) a r.1 r.2) c.node.children
          results := ⟨length, each⟩
      have below := derived.map_right fun _ _ rewrites => rewrites.exchange
      -- Below a node that shelters, a rewrite only defers children, which gives the node none to defer.
      have sheltered : c.node.shelters s = true →
          Pointwise (Normalized s) c.node.children (results.map (·.1)) := by
        intro shelters
        refine derived.map_right fun _ _ rewrites => (rewrites.normalized ?_).1
        rw [isSheltered_cons, shelters, Bool.true_or]
      have idle : c.node.isElement = true → c.node.openingTag?.isSome = true →
          c.node.deferral? s = none → Idle s (c.node.withChildren (results.map (·.1))) := by
        intro element tagged pending _
        obtain ⟨tag, ht⟩ := Option.isSome_iff_exists.1 tagged
        obtain ⟨tag', ht', _⟩ := openingTag?_withChildren below element ht
        exact ⟨by rw [ht']; rfl, deferral?_withChildren reactive element pending below sheltered⟩
      refine .node ?_ fun child member => ?_
      · cases chosen with
        | other he =>
            intro element
            rw [isElement_withChildren, he] at element
            cases element
        | container hn =>
            intro element
            rw [isElement_withChildren] at element
            simp [isElement, hn] at element
        | boundary => exact idle rfl rfl (deferral?_boundary _ _ _)
        | element he hd ht =>
            refine idle (hd.isElement he) (by rw [hd.openingTag?, ht]; rfl) ?_
            cases hd with
            | stays pending => exact pending
            | deferred made => exact deferral?_of_deferral made
        | whole => cases descends
      · have settled : Pointwise (fun _ r => (∀ before after, .boundary "JSXElement" before after ∉ r.2) →
            Settled s r.1) c.node.children results := ⟨length, ih⟩
        rw [c.node.children_withChildren below.length] at member
        obtain ⟨r, listed, rfl⟩ := List.mem_map.1 member
        obtain ⟨_, _, settled⟩ := settled.exists_left listed
        refine settled fun before after recorded => parts before after ?_
        exact List.mem_append_right _ (List.mem_flatMap_of_mem listed recorded)

end Node

end JsxBoundary
