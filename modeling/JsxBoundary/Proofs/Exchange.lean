import JsxBoundary.Proofs.Paired
import JsxBoundary.Read
import JsxBoundary.Surroundings
import JsxBoundary.Tree.Print

namespace JsxBoundary

namespace Node

@[simp] theorem withChildren_mk (form : Form Node) (layout : Option (List (Piece Node)))
    (cs : List Node) : (mk form layout).withChildren cs = mk (form.withChildren cs) layout := rfl

theorem paired_withChildren {R : Node → Node → Prop} {n : Node} {cs : List Node}
    (h : Pointwise R n.children cs) : Form.Paired R n.form (n.withChildren cs).form :=
  Form.paired_withChildren h

@[simp] theorem identifier?_withChildren (n : Node) (cs : List Node) :
    (n.withChildren cs).identifier? = n.identifier? := by
  obtain ⟨form, layout⟩ := n
  rw [withChildren_mk]
  unfold Form.withChildren
  split <;> rfl

@[simp] theorem isElement_withChildren (n : Node) (cs : List Node) :
    (n.withChildren cs).isElement = n.isElement := by
  obtain ⟨form, layout⟩ := n
  rw [withChildren_mk]
  unfold Form.withChildren
  split <;> rfl

@[simp] theorem isAttribute_withChildren (n : Node) (cs : List Node) :
    (n.withChildren cs).isAttribute = n.isAttribute := by
  obtain ⟨form, layout⟩ := n
  rw [withChildren_mk]
  unfold Form.withChildren
  split <;> rfl

@[simp] theorem isFunction_withChildren (n : Node) (cs : List Node) :
    (n.withChildren cs).isFunction = n.isFunction := by
  obtain ⟨form, layout⟩ := n
  rw [withChildren_mk]
  unfold Form.withChildren
  split <;> rfl

def isMarkup (n : Node) : Bool :=
  match n.form with
  | .element _ _ _ | .container _ => true
  | _ => false

theorem isMarkup_of_isElement {n : Node} (h : n.isElement) : n.isMarkup := by
  obtain ⟨form, layout⟩ := n
  cases form <;> first | rfl | cases h

theorem eq_mk_of_isElement {n : Node} (h : n.isElement = true) :
    ∃ opening content closing layout, n = mk (.element opening content closing) layout := by
  obtain ⟨form, layout⟩ := n
  cases form <;> first | exact ⟨_, _, _, _, rfl⟩ | cases h

theorem identifier?_of_isMarkup {n : Node} (h : n.isMarkup) : n.identifier? = none := by
  obtain ⟨form, layout⟩ := n
  cases form <;> first | rfl | cases h

theorem rootName?_of_isMarkup {n : Node} (h : n.isMarkup) : n.rootName? = none := by
  obtain ⟨form, layout⟩ := n
  cases form <;> first | rfl | cases h

def ownTag? (n : Node) : Option OpeningTag :=
  match n.form with
  | .openingTag name attributes selfClosing => some ⟨name, attributes, selfClosing⟩
  | _ => none

theorem ownTag?_of_isMarkup {n : Node} (h : n.isMarkup) : n.ownTag? = none := by
  obtain ⟨form, layout⟩ := n
  cases form <;> first | rfl | cases h

theorem openingTag?_element {n : Node} {opening closing : Option Node} {content : List Node}
    (h : n.form = .element opening content closing) :
    n.openingTag? = opening.bind ownTag? := by
  unfold openingTag?
  rw [h]
  rfl

/-- Markup of the first node has given way to elements in the second, none of which reads more. -/
inductive Exchange (policy : ReadPolicy) : Node → Node → Prop
  | children {n : Node} {cs : List Node} (length : cs.length = n.children.length)
      (each : ∀ (i : Nat) (a b : Node), n.children[i]? = some a → cs[i]? = some b →
        Exchange policy a b) : Exchange policy n (n.withChildren cs)
  | markup {n m : Node} (gone : n.isMarkup = true) (element : m.isElement = true)
      (reads : m.containsRead policy = true → n.containsRead policy = true) : Exchange policy n m

namespace Exchange

variable {policy : ReadPolicy} {n m : Node}

theorem of_pointwise {cs : List Node} (h : Pointwise (Exchange policy) n.children cs) :
    Exchange policy n (n.withChildren cs) :=
  .children h.length h.each

theorem identifier? (h : Exchange policy n m) : m.identifier? = n.identifier? := by
  cases h with
  | children => exact identifier?_withChildren _ _
  | markup gone element _ =>
      rw [identifier?_of_isMarkup gone, identifier?_of_isMarkup (isMarkup_of_isElement element)]

theorem rootName? (h : Exchange policy n m) : m.rootName? = n.rootName? := by
  induction h with
  | @children n cs length each ih =>
      obtain ⟨form, layout⟩ := n
      have paired : Form.Paired _ form (form.withChildren cs) :=
        Form.paired_withChildren ⟨length, ih⟩
      rw [withChildren_mk]
      generalize form.withChildren cs = form' at paired
      cases paired with
      | parens expression => exact expression
      | member _ _ object _ => exact object
      | identifier => rfl
      | _ => rfl
  | markup gone element _ =>
      rw [rootName?_of_isMarkup gone, rootName?_of_isMarkup (isMarkup_of_isElement element)]

theorem unwrapParens (h : Exchange policy n m) :
    Exchange policy n.unwrapParens m.unwrapParens := by
  induction h with
  | @children n cs length each ih =>
      obtain ⟨form, layout⟩ := n
      have whole : Exchange policy (mk form layout) (mk (form.withChildren cs) layout) :=
        .children length each
      have paired : Form.Paired _ form (form.withChildren cs) :=
        Form.paired_withChildren ⟨length, ih⟩
      rw [withChildren_mk]
      generalize form.withChildren cs = form' at paired whole
      cases paired with
      | parens expression => exact expression
      | _ => exact whole
  | @markup n m gone element reads =>
      have keeps : ∀ {k : Node}, k.isMarkup → k.unwrapParens = k := by
        intro k markup
        obtain ⟨form, layout⟩ := k
        cases form <;> first | rfl | cases markup
      rw [keeps gone, keeps (isMarkup_of_isElement element)]
      exact .markup gone element reads

theorem paired (h : Exchange policy n m) :
    Form.Paired (Exchange policy) n.form m.form ∨ n.isMarkup = true ∧ m.isElement = true := by
  cases h with
  | children length each => exact .inl (paired_withChildren ⟨length, each⟩)
  | markup gone element _ => exact .inr ⟨gone, element⟩

end Exchange

section

variable {policy : ReadPolicy} {n : Node} {cs : List Node}

theorem isRead_withChildren (h : Pointwise (Exchange policy) n.children cs) :
    (n.withChildren cs).isRead policy = n.isRead policy := by
  obtain ⟨form, layout⟩ := n
  have paired := paired_withChildren h
  rw [withChildren_mk] at paired ⊢
  simp only [form_mk] at paired
  generalize form.withChildren cs = form' at paired
  cases paired with
  | @call callee callee' arguments arguments' optional called given =>
      cases arguments with
      | cons argument arguments =>
          obtain ⟨argument', arguments', rfl, _, _⟩ := given.of_cons
          rfl
      -- Only a call without arguments may be a read; its callee is never markup then.
      | nil =>
          cases given.of_nil
          simp only [isRead, form_mk]
          rcases called.unwrapParens.paired with paired | ⟨gone, element⟩
          · generalize callee.unwrapParens.form = inner at paired ⊢
            generalize callee'.unwrapParens.form = inner' at paired ⊢
            cases paired with
            | member computed optional object property =>
                cases computed <;> simp only [object.rootName?, property.identifier?]
            | _ => rfl
          · have noMember : ∀ {m : Node}, m.isMarkup → ∀ object property computed optional,
                m.form ≠ .member object property computed optional := by
              intro m markup object property computed optional form
              simp [isMarkup, form] at markup
            split
            · rename_i form
              exact absurd form (noMember (isMarkup_of_isElement element) _ _ _ _)
            · split
              · rename_i form
                exact absurd form (noMember gone _ _ _ _)
              · rfl
  | _ => rfl

theorem isCallNamed_withChildren (h : Pointwise (Exchange policy) n.children cs)
    (names : List String) : (n.withChildren cs).isCallNamed names = n.isCallNamed names := by
  obtain ⟨form, layout⟩ := n
  have paired := paired_withChildren h
  rw [withChildren_mk] at paired ⊢
  simp only [form_mk] at paired
  generalize form.withChildren cs = form' at paired
  cases paired with
  | call optional callee _ => simp only [isCallNamed, form_mk, callee.identifier?]
  | _ => rfl

end

namespace Exchange

variable {policy : ReadPolicy} {n m : Node}

theorem reads (h : Exchange policy n m) (reading : m.containsRead policy = true) :
    n.containsRead policy = true := by
  induction h with
  | markup _ _ reads => exact reads reading
  | @children n cs length each ih =>
      have below : Pointwise (Exchange policy) n.children cs := ⟨length, each⟩
      rw [containsRead_eq, isFunction_withChildren, isRead_withChildren below,
        n.children_withChildren length] at reading
      rw [containsRead_eq]
      simp only [Bool.and_eq_true, Bool.or_eq_true, List.any_eq_true] at reading ⊢
      obtain ⟨plain, own | ⟨c, member, reading⟩⟩ := reading
      · exact ⟨plain, .inl own⟩
      · have origin : Pointwise (fun a b => b.containsRead policy = true → a.containsRead policy = true)
            n.children cs := ⟨length, ih⟩
        obtain ⟨a, member, reads⟩ := origin.exists_left member
        exact ⟨plain, .inr ⟨a, member, reads reading⟩⟩

theorem isReadingAttribute (h : Exchange policy n m) (reading : m.isReadingAttribute policy = true) :
    n.isReadingAttribute policy = true := by
  rcases h.paired with paired | ⟨_, element⟩
  · obtain ⟨form, layout⟩ := n
    obtain ⟨form', layout'⟩ := m
    simp only [form_mk] at paired
    cases paired with
    | @attr value value' name exchange =>
        simp only [Node.isReadingAttribute, form_mk, Bool.and_eq_true] at reading ⊢
        refine ⟨reading.1, ?_⟩
        have reading := reading.2
        rcases exchange.paired with paired | ⟨_, element⟩
        · generalize value.form = held at paired ⊢
          generalize value'.form = held' at paired reading
          cases paired with
          | container expression => exact expression.reads reading
          | _ => cases reading
        · split at reading
          · rename_i form
            simp [isElement, form] at element
          · cases reading
    | spreadAttr argument => exact argument.reads reading
    | _ => cases reading
  · unfold Node.isReadingAttribute at reading
    split at reading
    · rename_i form
      simp [isElement, form] at element
    · rename_i form
      simp [isElement, form] at element
    · cases reading

theorem ownTag? (h : Exchange policy n m) {tag : OpeningTag} (own : n.ownTag? = some tag) :
    ∃ tag', m.ownTag? = some tag' ∧ tag'.name.identifier? = tag.name.identifier? ∧
      (tag'.hasReadingAttribute policy = true → tag.hasReadingAttribute policy = true) := by
  rcases h.paired with paired | ⟨gone, _⟩
  · obtain ⟨form, layout⟩ := n
    obtain ⟨form', layout'⟩ := m
    simp only [form_mk] at paired
    cases paired with
    | openingTag selfClosing name attributes =>
        cases own
        refine ⟨_, rfl, name.identifier?, ?_⟩
        intro reading
        simp only [OpeningTag.hasReadingAttribute, List.any_eq_true] at reading ⊢
        obtain ⟨b, member, reading⟩ := reading
        obtain ⟨a, member, exchange⟩ := attributes.exists_left member
        exact ⟨a, member, exchange.isReadingAttribute reading⟩
    | _ => cases own
  · rw [ownTag?_of_isMarkup gone] at own
    cases own

theorem ownTag?_eq_none (h : Exchange policy n m) (untagged : n.ownTag? = none) :
    m.ownTag? = none := by
  rcases h.paired with paired | ⟨_, element⟩
  · obtain ⟨form, layout⟩ := n
    obtain ⟨form', layout'⟩ := m
    simp only [form_mk] at paired
    cases paired with
    | openingTag => cases untagged
    | _ => rfl
  · exact ownTag?_of_isMarkup (isMarkup_of_isElement element)

end Exchange

section

variable {policy : ReadPolicy} {n : Node} {cs : List Node}

theorem openingTag?_withChildren (h : Pointwise (Exchange policy) n.children cs)
    (he : n.isElement = true) {tag : OpeningTag} (ht : n.openingTag? = some tag) :
    ∃ tag', (n.withChildren cs).openingTag? = some tag' ∧
      tag'.name.identifier? = tag.name.identifier? ∧
      (tag'.hasReadingAttribute policy = true → tag.hasReadingAttribute policy = true) := by
  obtain ⟨form, layout⟩ := n
  have paired := paired_withChildren h
  rw [withChildren_mk] at paired ⊢
  simp only [form_mk] at paired
  generalize form.withChildren cs = form' at paired
  cases paired with
  | @element opening opening' closing closing' content content' tags _ _ =>
      rw [openingTag?_element rfl] at ht ⊢
      obtain ⟨rfl, rfl⟩ | ⟨opening, opening', rfl, rfl, exchange⟩ := tags.of_option
      · cases ht
      · exact exchange.ownTag? ht
  | _ => cases he

theorem openingTag?_withChildren_eq_none (h : Pointwise (Exchange policy) n.children cs)
    (he : n.isElement = true) (ht : n.openingTag? = none) :
    (n.withChildren cs).openingTag? = none := by
  obtain ⟨form, layout⟩ := n
  have paired := paired_withChildren h
  rw [withChildren_mk] at paired ⊢
  simp only [form_mk] at paired
  generalize form.withChildren cs = form' at paired
  cases paired with
  | @element opening opening' closing closing' content content' tags _ _ =>
      rw [openingTag?_element rfl] at ht ⊢
      obtain ⟨rfl, rfl⟩ | ⟨opening, opening', rfl, rfl, exchange⟩ := tags.of_option
      · rfl
      · exact exchange.ownTag?_eq_none ht
  | _ => cases he

theorem tagName?_withChildren (h : Pointwise (Exchange policy) n.children cs)
    (he : n.isElement = true) : (n.withChildren cs).tagName? = n.tagName? := by
  unfold tagName?
  cases ht : n.openingTag? with
  | none => rw [openingTag?_withChildren_eq_none h he ht]
  | some tag =>
      obtain ⟨tag', ht', name, _⟩ := openingTag?_withChildren h he ht
      rw [ht']
      exact name

theorem isElementNamed_withChildren (h : Pointwise (Exchange policy) n.children cs)
    (names : List String) : (n.withChildren cs).isElementNamed names = n.isElementNamed names := by
  cases he : n.isElement with
  | false => simp [isElementNamed, he]
  | true => simp [isElementNamed, he, tagName?_withChildren h he]

end

end Node

end JsxBoundary
