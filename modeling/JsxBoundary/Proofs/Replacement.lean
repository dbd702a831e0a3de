import JsxBoundary.Proofs.Derivation
import JsxBoundary.Proofs.Exchange

namespace JsxBoundary

namespace Node

variable {policy : ReadPolicy} {s : Settings}

def isArrow (n : Node) : Bool :=
  match n.form with
  | .arrow _ _ => true
  | _ => false

/-- A tag, a name, a function, a container around a function, or a fragment: what a replacement puts around
the nodes that it keeps, besides the element itself. -/
def isScaffold (n : Node) : Bool :=
  match n.form with
  | .identifier _ | .openingTag _ _ _ | .closingTag _ | .arrow _ _ | .fragment _ => true
  | .container e => e.isArrow
  | _ => false

theorem isFunction_of_isArrow {n : Node} (arrow : n.isArrow = true) : n.isFunction = true := by
  unfold isArrow at arrow
  unfold isFunction
  split at arrow
  · rename_i form
    rw [form]
    rfl
  · cases arrow

theorem isScaffold_thunk (body : Node) (source : Option Node) : (body.thunk source).isScaffold = true := by
  obtain ⟨layout, form⟩ := form_thunk body source
  rw [isScaffold, form]
  rfl

theorem containsRead_of_isFunction {n : Node} (h : n.isFunction = true) :
    n.containsRead policy = false := by
  rw [containsRead_eq, h]
  rfl

@[simp] theorem containsRead_thunk (policy : ReadPolicy) (body : Node) (source : Option Node) :
    (body.thunk source).containsRead policy = false := by
  obtain ⟨layout, form⟩ := form_thunk body source
  have arrow : (mk (.arrow body none) layout).containsRead policy = false :=
    containsRead_of_isFunction rfl
  rw [containsRead_eq]
  simp [isRead, children, form, Form.children, arrow]

theorem children_boundary (component : String) (e : Node) (source : Option Node) :
    (e.boundary component source).children =
      [fresh (.openingTag (fresh (.identifier component)) [] false), e.thunk source,
        fresh (.closingTag (fresh (.identifier component)))] := rfl

@[simp] theorem containsRead_boundary (policy : ReadPolicy) (component : String) (e : Node)
    (source : Option Node) : (e.boundary component source).containsRead policy = false := by
  have tag : (fresh (.openingTag (fresh (.identifier component)) [] false)).containsRead policy
      = false := by
    simp [containsRead_eq, isRead, children, Form.children]
  have closing : (fresh (.closingTag (fresh (.identifier component)))).containsRead policy
      = false := by
    simp [containsRead_eq, isRead, children, Form.children]
  have own : (e.boundary component source).isRead policy = false := rfl
  rw [containsRead_eq, children_boundary, own]
  simp [tag, closing]

theorem isElement_boundary (component : String) (e : Node) (source : Option Node) :
    (e.boundary component source).isElement = true := rfl

theorem openingTag?_boundary (component : String) (e : Node) (source : Option Node) :
    (e.boundary component source).openingTag? = some ⟨fresh (.identifier component), [], false⟩ := rfl

theorem isElementNamed_boundary {component : String} {names : List String}
    (h : component ∈ names) (e : Node) (source : Option Node) :
    (e.boundary component source).isElementNamed names = true := by
  simp [isElementNamed, isElement_boundary, tagName?, openingTag?_boundary, identifier?, h]

theorem deferChildren?_some {n m : Node} (h : n.deferChildren? = some m) :
    ∃ opening content closing body, n.form = .element (some opening) content closing ∧
      (∃ name attributes, opening.form = .openingTag name attributes false ∧
        name.identifier?.isSome = true) ∧
      isDeferredContent (keptContent content) = false ∧ opensWithValue (keptContent content) = true ∧
      deferredBody? (keptContent content) (n.keptFragment content) = some body ∧
      m = fresh (.element (some opening) [body.thunk (loneContainer? (keptContent content))] closing) := by
  unfold deferChildren? at h
  split at h
  · rename_i opening content closing form
    split at h
    · rename_i name attributes tag
      dsimp only at h
      split at h
      · cases h
      · rename_i applies
        obtain ⟨body, hb, rfl⟩ := Option.map_eq_some_iff.1 h
        obtain ⟨⟨named, pending⟩, opens⟩ : (name.identifier?.isSome = true ∧
            isDeferredContent (keptContent content) = false) ∧
            opensWithValue (keptContent content) = true := by
          simpa [Option.isSome_iff_ne_none] using applies
        exact ⟨opening, content, closing, body, form, ⟨name, attributes, tag, named⟩, pending, opens,
          hb, rfl⟩
    · cases h
  · cases h

theorem deferral?_some {n m : Node} (h : n.deferral? s = some m) : n.deferChildren? = some m := by
  unfold deferral? at h
  split at h
  · exact h
  · cases h

theorem isElement_of_deferral {n m : Node} (h : n.deferral? s = some m) : m.isElement = true := by
  obtain ⟨opening, content, closing, body, _, _, _, _, _, rfl⟩ := deferChildren?_some (deferral?_some h)
  rfl

theorem openingTag?_of_deferral {n m : Node} (h : n.deferral? s = some m) :
    m.openingTag? = n.openingTag? := by
  obtain ⟨opening, content, closing, body, form, _, _, _, _, rfl⟩ :=
    deferChildren?_some (deferral?_some h)
  rw [openingTag?_element form]
  rfl

theorem containsRead_of_deferral {n m : Node} (h : n.deferral? s = some m)
    (reading : m.containsRead policy = true) : n.containsRead policy = true := by
  obtain ⟨opening, content, closing, body, form, _, _, _, _, rfl⟩ :=
    deferChildren?_some (deferral?_some h)
  rw [containsRead_eq] at reading ⊢
  simp only [isFunction, isRead, children, form, form_mk, Form.isFunction, Form.children,
    Option.toList, List.any_append, List.any_cons, List.any_nil, containsRead_thunk] at reading ⊢
  simp only [Bool.not_false, Bool.true_and, Bool.or_false, Bool.false_or, Bool.or_eq_true] at reading ⊢
  exact reading.imp_right .inr

theorem keptContent_thunk (body : Node) (source : Option Node) :
    keptContent [body.thunk source] = [body.thunk source] := by
  obtain ⟨layout, form⟩ := form_thunk body source
  simp [keptContent, isBlankText, form]

theorem isDeferredContent_thunk (body : Node) (source : Option Node) :
    isDeferredContent [body.thunk source] = true := by
  obtain ⟨layout, form⟩ := form_thunk body source
  simp [isDeferredContent, contained?, form, isDeferredValue, unwrapParens]

theorem deferral?_of_deferral {n m : Node} (h : n.deferral? s = some m) : m.deferral? s = none := by
  obtain ⟨opening, content, closing, body, _, ⟨name, attributes, tag, _⟩, _, _, _, rfl⟩ :=
    deferChildren?_some (deferral?_some h)
  unfold deferral?
  split
  · simp [deferChildren?, tag, keptContent_thunk, isDeferredContent_thunk]
  · rfl

theorem Deferring.isElement {n m : Node} {actions : List Action} (h : Deferring s n m actions)
    (he : n.isElement = true) : m.isElement = true := by
  cases h with
  | stays => exact he
  | deferred h => exact isElement_of_deferral h

theorem Deferring.openingTag? {n m : Node} {actions : List Action} (h : Deferring s n m actions) :
    m.openingTag? = n.openingTag? := by
  cases h with
  | stays => rfl
  | deferred h => exact openingTag?_of_deferral h

theorem isMarkup_of_container {n e : Node} (h : n.form = .container e) : n.isMarkup = true := by
  simp [isMarkup, h]

theorem Rewrites.exchange {ancestors : Ancestors} {n n' : Node} {log : List Action}
    (h : Rewrites s ancestors n n' log) : Exchange s.policy n n' := by
  induction h with
  | stop chosen stays =>
      cases chosen with
      | whole he => exact .markup (isMarkup_of_isElement he) rfl (by simp)
      | other | container | boundary | element => cases stays
  | @onward ancestors n c results chosen descends length each ih =>
      have derived : Pointwise (fun a r => Exchange s.policy a r.1) c.node.children results :=
        ⟨length, ih⟩
      have kept := Exchange.of_pointwise (derived.map_right fun _ _ exchange => exchange)
      cases chosen with
      | other | container => exact kept
      | boundary hn =>
          refine .markup (isMarkup_of_container hn) (by simp [isElement_boundary]) ?_
          intro reading
          have none := kept.reads reading
          simp at none
      | element he hd =>
          cases hd with
          | stays => exact kept
          | deferred h =>
              refine .markup (isMarkup_of_isElement he) (by simp [isElement_of_deferral h]) ?_
              intro reading
              exact containsRead_of_deferral h (kept.reads reading)
      | whole => cases descends

end Node

end JsxBoundary
