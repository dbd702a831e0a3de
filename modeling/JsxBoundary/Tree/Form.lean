namespace JsxBoundary

inductive Form (α : Type) where
  | identifier (name : String)
  /-- Property access `object.property`, `object?.property`, or `object[property]` if computed. -/
  | member (object property : α) (computed optional : Bool)
  | call (callee : α) (arguments : List α) (optional : Bool)
  | arrow (body : α) (params : Option α)
  | function (kind : String) (parts : List α)
  | parens (expression : α)
  | generic (kind : String) (parts : List α)
  | importSpecifier (imported binding : String)
  | importDecl (source : String) (specifiers : List α) (default? : Option String)
      (namespace? : Option String)
  | program (body : List α)
  | text (value : String)
  | emptyExpression
  | container (expression : α)
  | attr (name : String) (value : Option α)
  | spreadAttr (argument : α)
  | openingTag (name : α) (attributes : List α) (selfClosing : Bool)
  | closingTag (name : α)
  | element (opening : Option α) (content : List α) (closing : Option α)
  | fragment (content : List α)

namespace Form

variable {α : Type}

def children : Form α → List α
  | .member object property _ _ => [object, property]
  | .call callee arguments _ => callee :: arguments
  | .arrow body params => body :: params.toList
  | .function _ parts => parts
  | .parens expression => [expression]
  | .generic _ parts => parts
  | .importDecl _ specifiers _ _ => specifiers
  | .program body => body
  | .container expression => [expression]
  | .attr _ value => value.toList
  | .spreadAttr argument => [argument]
  | .openingTag name attributes _ => name :: attributes
  | .closingTag name => [name]
  | .element opening content closing => opening.toList ++ (content ++ closing.toList)
  | .fragment content => content
  | .identifier _ | .importSpecifier _ _ | .text _ | .emptyExpression => []

/-- The form with `cs` in the place of its children; a list of another length changes nothing that
is promised. -/
def withChildren : Form α → List α → Form α
  | .member _ _ computed optional, [object, property] => .member object property computed optional
  | .call _ _ optional, callee :: arguments => .call callee arguments optional
  | .arrow _ none, [body] => .arrow body none
  | .arrow _ (some _), [body, params] => .arrow body (some params)
  | .function kind _, cs => .function kind cs
  | .parens _, [expression] => .parens expression
  | .generic kind _, cs => .generic kind cs
  | .importDecl source _ default? namespace?, cs => .importDecl source cs default? namespace?
  | .program _, cs => .program cs
  | .container _, [expression] => .container expression
  | .attr name (some _), [value] => .attr name (some value)
  | .spreadAttr _, [argument] => .spreadAttr argument
  | .openingTag _ _ selfClosing, name :: attributes => .openingTag name attributes selfClosing
  | .closingTag _, [name] => .closingTag name
  | .element none content closing, cs =>
    .element none (cs.take content.length) (closing.bind fun _ => cs[content.length]?)
  | .element (some _) content closing, opening :: cs =>
    .element (some opening) (cs.take content.length) (closing.bind fun _ => cs[content.length]?)
  | .fragment _, cs => .fragment cs
  | form, _ => form

def map {β : Type} (f : α → β) : Form α → Form β
  | .identifier name => .identifier name
  | .member object property computed optional => .member (f object) (f property) computed optional
  | .call callee arguments optional => .call (f callee) (arguments.map f) optional
  | .arrow body params => .arrow (f body) (params.map f)
  | .function kind parts => .function kind (parts.map f)
  | .parens expression => .parens (f expression)
  | .generic kind parts => .generic kind (parts.map f)
  | .importSpecifier imported binding => .importSpecifier imported binding
  | .importDecl source specifiers default? namespace? =>
    .importDecl source (specifiers.map f) default? namespace?
  | .program body => .program (body.map f)
  | .text value => .text value
  | .emptyExpression => .emptyExpression
  | .container expression => .container (f expression)
  | .attr name value => .attr name (value.map f)
  | .spreadAttr argument => .spreadAttr (f argument)
  | .openingTag name attributes selfClosing => .openingTag (f name) (attributes.map f) selfClosing
  | .closingTag name => .closingTag (f name)
  | .element opening content closing => .element (opening.map f) (content.map f) (closing.map f)
  | .fragment content => .fragment (content.map f)

def typeName : Form α → String
  | .identifier _ => "Identifier"
  | .member _ _ _ _ => "MemberExpression"
  | .call _ _ _ => "CallExpression"
  | .arrow _ _ => "ArrowFunction"
  | .function _ _ => "FunctionNode"
  | .parens _ => "ParenthesizedExpression"
  | .generic _ _ => "Opaque"
  | .importSpecifier _ _ => "ImportSpecifier"
  | .importDecl _ _ _ _ => "ImportDeclaration"
  | .program _ => "Program"
  | .text _ => "JSXText"
  | .emptyExpression => "JSXEmptyExpression"
  | .container _ => "JSXExpressionContainer"
  | .attr _ _ => "JSXAttribute"
  | .spreadAttr _ => "JSXSpreadAttribute"
  | .openingTag _ _ _ => "JSXOpeningElement"
  | .closingTag _ => "JSXClosingElement"
  | .element _ _ _ => "JSXElement"
  | .fragment _ => "JSXFragment"

def isFunction : Form α → Bool
  | .arrow _ _ | .function _ _ => true
  | _ => false

@[simp] theorem withChildren_children (form : Form α) : form.withChildren form.children = form := by
  cases form with
  | arrow body params => cases params <;> rfl
  | attr name value => cases value <;> rfl
  | element opening content closing =>
    cases opening <;> cases closing <;> simp [children, withChildren]
  | _ => rfl

theorem children_withChildren (form : Form α) {cs : List α}
    (h : cs.length = form.children.length) : (form.withChildren cs).children = cs := by
  match form, cs with
  | .arrow _ none, [_] | .arrow _ (some _), [_, _] | .attr _ none, [] | .attr _ (some _), [_]
  | .member _ _ _ _, [_, _] | .call _ _ _, _ :: _ | .openingTag _ _ _, _ :: _
  | .parens _, [_] | .container _, [_] | .spreadAttr _, [_] | .closingTag _, [_]
  | .identifier _, [] | .importSpecifier _ _, [] | .text _, [] | .emptyExpression, []
  | .function _ _, _ | .generic _ _, _ | .importDecl _ _ _ _, _ | .program _, _
  | .fragment _, _ => rfl
  | .element none content none, cs | .element (some _) content none, _ :: cs =>
    have hc : cs.length = content.length := by simpa [children] using h
    simp [children, withChildren, ← hc]
  | .element none content (some _), cs | .element (some _) content (some _), _ :: cs =>
    have hc : cs.length = content.length + 1 := by simpa [children] using h
    have ht : cs.drop content.length = [cs[content.length]] := by
      rw [List.drop_eq_getElem_cons (by omega), List.drop_of_length_le (by omega)]
    simp [children, withChildren, List.getElem?_eq_getElem (by omega : content.length < cs.length),
      ← ht]

theorem withChildren_withChildren (form : Form α) {as bs : List α}
    (ha : as.length = form.children.length) (hb : bs.length = form.children.length) :
    (form.withChildren as).withChildren bs = form.withChildren bs := by
  match form, as, bs with
  | .arrow _ none, [_], [_] | .arrow _ (some _), [_, _], [_, _] | .attr _ none, [], []
  | .attr _ (some _), [_], [_] | .member _ _ _ _, [_, _], [_, _] | .call _ _ _, _ :: _, _ :: _
  | .openingTag _ _ _, _ :: _, _ :: _ | .parens _, [_], [_] | .container _, [_], [_]
  | .spreadAttr _, [_], [_] | .closingTag _, [_], [_] | .identifier _, [], []
  | .importSpecifier _ _, [], [] | .text _, [], [] | .emptyExpression, [], []
  | .function _ _, _, _ | .generic _ _, _, _ | .importDecl _ _ _ _, _, _ | .program _, _, _
  | .fragment _, _, _ => rfl
  | .element none content none, as, bs | .element (some _) content none, _ :: as, _ :: bs =>
    have length : as.length = content.length := by simpa [children] using ha
    simp [withChildren, length]
  | .element none content (some _), as, bs | .element (some _) content (some _), _ :: as, _ :: bs =>
    have length : as.length = content.length + 1 := by simpa [children] using ha
    simp [withChildren, length]

@[simp] theorem children_map {β : Type} (f : α → β) (form : Form α) :
    (form.map f).children = form.children.map f := by
  cases form with
  | arrow body params => cases params <;> rfl
  | attr name value => cases value <;> rfl
  | element opening content closing => cases opening <;> cases closing <;> simp [map, children]
  | _ => rfl

@[simp] theorem map_id (form : Form α) : form.map id = form := by
  cases form <;> simp [map]

theorem map_map {β γ : Type} (f : α → β) (g : β → γ) (form : Form α) :
    (form.map f).map g = form.map (g ∘ f) := by
  cases form <;> simp [map]

theorem map_congr {β : Type} {f g : α → β} {form : Form α} (h : ∀ c ∈ form.children, f c = g c) :
    form.map f = form.map g := by
  cases form with
  | arrow _ value | attr _ value => cases value <;> simp_all [map, children]
  | element opening content closing =>
    cases opening <;> cases closing <;> simp_all [map, children]
  | _ => simp_all [map, children]

theorem exists_map_eq {β : Type} {f : α → β} {form : Form β} {cs : List α} (h : form.children = cs.map f) :
    ∃ pre : Form α, pre.children = cs ∧ pre.map f = form := by
  have option : ∀ {o : Option β} {cs : List α}, o.toList = cs.map f →
      ∃ o' : Option α, o'.toList = cs ∧ o'.map f = o := by
    intro o cs images
    match o, cs with
    | none, [] => exact ⟨none, rfl, rfl⟩
    | some b, [a] => exact ⟨some a, rfl, by simpa using images.symm⟩
    | none, _ :: _ | some _, [] | some _, _ :: _ :: _ => simp at images
  match form, cs with
  | .identifier name, [] => exact ⟨.identifier name, rfl, rfl⟩
  | .importSpecifier imported binding, [] => exact ⟨.importSpecifier imported binding, rfl, rfl⟩
  | .text value, [] => exact ⟨.text value, rfl, rfl⟩
  | .emptyExpression, [] => exact ⟨.emptyExpression, rfl, rfl⟩
  | .member _ _ computed optional, [a, b] => exact ⟨.member a b computed optional, rfl, by simp_all [children, map]⟩
  | .call _ _ optional, a :: as => exact ⟨.call a as optional, rfl, by simp_all [children, map]⟩
  | .arrow body params, a :: as =>
    obtain ⟨same, rest⟩ : body = f a ∧ params.toList = as.map f := by simpa [children] using h
    obtain ⟨params', rfl, rfl⟩ := option rest
    exact ⟨.arrow a params', rfl, by rw [same, map]⟩
  | .function kind _, as => exact ⟨.function kind as, rfl, by simp_all [children, map]⟩
  | .parens _, [a] => exact ⟨.parens a, rfl, by simp_all [children, map]⟩
  | .generic kind _, as => exact ⟨.generic kind as, rfl, by simp_all [children, map]⟩
  | .importDecl source _ default? namespace?, as =>
    exact ⟨.importDecl source as default? namespace?, rfl, by simp_all [children, map]⟩
  | .program _, as => exact ⟨.program as, rfl, by simp_all [children, map]⟩
  | .container _, [a] => exact ⟨.container a, rfl, by simp_all [children, map]⟩
  | .attr name value, as =>
    obtain ⟨value', rfl, rfl⟩ := option h
    exact ⟨.attr name value', rfl, rfl⟩
  | .spreadAttr _, [a] => exact ⟨.spreadAttr a, rfl, by simp_all [children, map]⟩
  | .openingTag _ _ selfClosing, a :: as =>
    exact ⟨.openingTag a as selfClosing, rfl, by simp_all [children, map]⟩
  | .closingTag _, [a] => exact ⟨.closingTag a, rfl, by simp_all [children, map]⟩
  | .element opening content closing, as =>
    obtain ⟨first, rest, rfl, ho, h⟩ := List.append_eq_map_iff.1 h
    obtain ⟨middle, last, rfl, rfl, hc⟩ := List.append_eq_map_iff.1 h.symm
    obtain ⟨opening', rfl, rfl⟩ := option ho.symm
    obtain ⟨closing', rfl, rfl⟩ := option hc.symm
    exact ⟨.element opening' middle closing', rfl, rfl⟩
  | .fragment _, as => exact ⟨.fragment as, rfl, by simp_all [children, map]⟩

theorem map_eq_withChildren {β : Type} (f g : α → β) (form : Form α) :
    form.map g = (form.map f).withChildren (form.children.map g) := by
  cases form with
  | arrow _ value | attr _ value => cases value <;> rfl
  | element opening content closing =>
    cases opening <;> cases closing <;> simp [map, children, withChildren, List.take_of_length_le]
  | _ => rfl

end Form

end JsxBoundary
