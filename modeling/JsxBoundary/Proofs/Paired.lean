import JsxBoundary.Tree.Node

namespace JsxBoundary

universe u v

/-- Two lists of one length, related place by place. -/
structure Pointwise {α : Type u} {β : Type v} (R : α → β → Prop) (as : List α) (bs : List β) :
    Prop where
  length : bs.length = as.length
  each : ∀ (i : Nat) (a : α) (b : β), as[i]? = some a → bs[i]? = some b → R a b

namespace Pointwise

variable {α : Type u} {β : Type v} {R S : α → β → Prop} {as as' : List α} {bs bs' : List β}
  {a : α} {b : β}

theorem nil : Pointwise R ([] : List α) ([] : List β) :=
  ⟨rfl, by simp⟩

theorem cons (head : R a b) (tail : Pointwise R as bs) : Pointwise R (a :: as) (b :: bs) := by
  refine ⟨by simp [tail.length], fun i x y hx hy => ?_⟩
  cases i with
  | zero =>
      cases hx
      cases hy
      exact head
  | succ i => exact tail.each i x y hx hy

theorem head (h : Pointwise R (a :: as) (b :: bs)) : R a b :=
  h.each 0 a b rfl rfl

theorem tail (h : Pointwise R (a :: as) (b :: bs)) : Pointwise R as bs :=
  ⟨by simpa using h.length, fun i x y hx hy => h.each (i + 1) x y hx hy⟩

theorem mono (h : Pointwise R as bs) (le : ∀ a b, a ∈ as → b ∈ bs → R a b → S a b) :
    Pointwise S as bs :=
  ⟨h.length, fun i a b ha hb =>
    le a b (List.mem_of_getElem? ha) (List.mem_of_getElem? hb) (h.each i a b ha hb)⟩

theorem of_nil (h : Pointwise R ([] : List α) bs) : bs = [] :=
  List.eq_nil_of_length_eq_zero h.length

theorem of_cons (h : Pointwise R (a :: as) bs) :
    ∃ b bs', bs = b :: bs' ∧ R a b ∧ Pointwise R as bs' := by
  cases bs with
  | nil => exact absurd h.length (by simp)
  | cons b bs' => exact ⟨b, bs', rfl, h.head, h.tail⟩

theorem of_single (h : Pointwise R [a] bs) : ∃ b, bs = [b] ∧ R a b := by
  obtain ⟨b, rest, rfl, related, h⟩ := h.of_cons
  rw [h.of_nil]
  exact ⟨b, rfl, related⟩

theorem of_pair {a' : α} (h : Pointwise R [a, a'] bs) : ∃ b b', bs = [b, b'] ∧ R a b ∧ R a' b' := by
  obtain ⟨b, rest, rfl, related, h⟩ := h.of_cons
  obtain ⟨b', rfl, related'⟩ := h.of_single
  exact ⟨b, b', rfl, related, related'⟩

theorem of_triple {a' a'' : α} (h : Pointwise R [a, a', a''] bs) :
    ∃ b b' b'', bs = [b, b', b''] ∧ R a b ∧ R a' b' ∧ R a'' b'' := by
  obtain ⟨b, rest, rfl, related, h⟩ := h.of_cons
  obtain ⟨b', b'', rfl, related', related''⟩ := h.of_pair
  exact ⟨b, b', b'', rfl, related, related', related''⟩

theorem of_option {a? : Option α} {b? : Option β} (h : Pointwise R a?.toList b?.toList) :
    (a? = none ∧ b? = none) ∨ ∃ a b, a? = some a ∧ b? = some b ∧ R a b := by
  cases a? with
  | none =>
      cases b? with
      | none => exact .inl ⟨rfl, rfl⟩
      | some b => exact absurd h.of_nil (by simp)
  | some a =>
      cases b? with
      | none => exact absurd h.length (by simp)
      | some b => exact .inr ⟨a, b, rfl, rfl, h.head⟩

theorem of_append (h : Pointwise R (as ++ as') bs) :
    ∃ cs ds, bs = cs ++ ds ∧ Pointwise R as cs ∧ Pointwise R as' ds := by
  induction as generalizing bs with
  | nil => exact ⟨[], bs, rfl, .nil, h⟩
  | cons a as ih =>
      obtain ⟨b, bs', rfl, related, rest⟩ := h.of_cons
      obtain ⟨cs, ds, rfl, front, back⟩ := ih rest
      exact ⟨b :: cs, ds, rfl, .cons related front, back⟩

theorem append (front : Pointwise R as bs) (back : Pointwise R as' bs') :
    Pointwise R (as ++ as') (bs ++ bs') := by
  induction as generalizing bs with
  | nil =>
      rw [front.of_nil]
      exact back
  | cons a as ih =>
      obtain ⟨b, bs, rfl, head, front⟩ := front.of_cons
      exact .cons head (ih front)

theorem map_right {γ : Type u} {T : α → γ → Prop} {f : β → γ} (h : Pointwise R as bs)
    (image : ∀ a b, R a b → T a (f b)) : Pointwise T as (bs.map f) := by
  refine ⟨by simp [h.length], fun i a c ha hc => ?_⟩
  rw [List.getElem?_map] at hc
  obtain ⟨b, hb, rfl⟩ := Option.map_eq_some_iff.1 hc
  exact image a b (h.each i a b ha hb)

theorem choose {γ : Type u} {P : α → β → γ → Prop} (h : Pointwise (fun a b => ∃ c, P a b c) as bs) :
    ∃ ps : List (β × γ), ps.map (·.1) = bs ∧ Pointwise (fun a p => P a p.1 p.2) as ps := by
  induction as generalizing bs with
  | nil => exact ⟨[], h.of_nil.symm, .nil⟩
  | cons a as ih =>
      obtain ⟨b, bs', rfl, ⟨c, holds⟩, rest⟩ := h.of_cons
      obtain ⟨ps, firsts, pairs⟩ := ih rest
      exact ⟨(b, c) :: ps, by simp [firsts], .cons holds pairs⟩

theorem exists_left (h : Pointwise R as bs) (mem : b ∈ bs) : ∃ a ∈ as, R a b := by
  obtain ⟨i, hi, rfl⟩ := List.getElem_of_mem mem
  have bound : i < as.length := h.length ▸ hi
  exact ⟨as[i], List.getElem_mem bound, h.each i _ _ (by simp [bound]) (by simp [hi])⟩

theorem exists_right (h : Pointwise R as bs) (mem : a ∈ as) : ∃ b ∈ bs, R a b := by
  obtain ⟨i, hi, rfl⟩ := List.getElem_of_mem mem
  have bound : i < bs.length := h.length ▸ hi
  exact ⟨bs[i], List.getElem_mem bound, h.each i _ _ (by simp [hi]) (by simp [bound])⟩

theorem eq {as bs : List α} (h : Pointwise (fun a b => b = a) as bs) : bs = as := by
  induction as generalizing bs with
  | nil => exact h.of_nil
  | cons a as ih =>
      obtain ⟨b, bs', rfl, rfl, rest⟩ := h.of_cons
      rw [ih rest]

theorem map_eq {β : Type v} {f : α → β} {as bs : List α} (h : Pointwise (fun a b => f b = f a) as bs) :
    bs.map f = as.map f := by
  induction as generalizing bs with
  | nil => rw [h.of_nil]
  | cons a as ih =>
      obtain ⟨b, bs, rfl, same, rest⟩ := h.of_cons
      rw [List.map_cons, List.map_cons, same, ih rest]

theorem join {γ : Type u} {S : α → γ → Prop} {cs : List γ} (h : Pointwise R as bs)
    (h' : Pointwise S as cs) : Pointwise (fun b c => ∃ a, R a b ∧ S a c) bs cs := by
  refine ⟨h'.length.trans h.length.symm, fun i b c hb hc => ?_⟩
  have bound : i < as.length := h.length ▸ (List.getElem?_eq_some_iff.1 hb).1
  have ha := List.getElem?_eq_getElem bound
  exact ⟨as[i], h.each i _ _ ha hb, h'.each i _ _ ha hc⟩

theorem modify {R : α → α → Prop} {i : Nat} {f : α → α} (refl : ∀ a, R a a)
    (changed : ∀ a, as[i]? = some a → R a (f a)) : Pointwise R as (as.modify i f) := by
  refine ⟨List.length_modify .., fun j a b before after => ?_⟩
  rw [List.getElem?_modify, before] at after
  cases after
  by_cases same : i = j
  · subst same
    simpa using changed a before
  · simpa [same] using refl a

theorem same {R : α → α → Prop} (h : ∀ a ∈ as, R a a) : Pointwise R as as := by
  refine ⟨rfl, fun i a b ha hb => ?_⟩
  rw [ha] at hb
  cases hb
  exact h a (List.mem_of_getElem? ha)

end Pointwise

namespace Form

variable {α β : Type}

inductive Paired (R : α → β → Prop) : Form α → Form β → Prop
  | identifier (name : String) : Paired R (.identifier name) (.identifier name)
  | member {o p : α} {o' p' : β} (computed optional : Bool) (object : R o o') (property : R p p') :
      Paired R (.member o p computed optional) (.member o' p' computed optional)
  | call {c : α} {c' : β} {as : List α} {as' : List β} (optional : Bool) (callee : R c c')
      (arguments : Pointwise R as as') : Paired R (.call c as optional) (.call c' as' optional)
  | arrow {b : α} {b' : β} (body : R b b') : Paired R (.arrow b none) (.arrow b' none)
  | arrowParams {b p : α} {b' p' : β} (body : R b b') (params : R p p') :
      Paired R (.arrow b (some p)) (.arrow b' (some p'))
  | function {cs : List α} {cs' : List β} (kind : String) (parts : Pointwise R cs cs') :
      Paired R (.function kind cs) (.function kind cs')
  | parens {e : α} {e' : β} (expression : R e e') : Paired R (.parens e) (.parens e')
  | generic {cs : List α} {cs' : List β} (kind : String) (parts : Pointwise R cs cs') :
      Paired R (.generic kind cs) (.generic kind cs')
  | importSpecifier (imported binding : String) :
      Paired R (.importSpecifier imported binding) (.importSpecifier imported binding)
  | importDecl {cs : List α} {cs' : List β} (source : String) (default? namespace? : Option String)
      (specifiers : Pointwise R cs cs') :
      Paired R (.importDecl source cs default? namespace?) (.importDecl source cs' default? namespace?)
  | program {cs : List α} {cs' : List β} (body : Pointwise R cs cs') : Paired R (.program cs) (.program cs')
  | text (value : String) : Paired R (.text value) (.text value)
  | emptyExpression : Paired R .emptyExpression .emptyExpression
  | container {e : α} {e' : β} (expression : R e e') : Paired R (.container e) (.container e')
  | attrName (name : String) : Paired R (.attr name none) (.attr name none)
  | attr {v : α} {v' : β} (name : String) (value : R v v') :
      Paired R (.attr name (some v)) (.attr name (some v'))
  | spreadAttr {e : α} {e' : β} (argument : R e e') : Paired R (.spreadAttr e) (.spreadAttr e')
  | openingTag {t : α} {t' : β} {as : List α} {as' : List β} (selfClosing : Bool) (name : R t t')
      (attributes : Pointwise R as as') :
      Paired R (.openingTag t as selfClosing) (.openingTag t' as' selfClosing)
  | closingTag {t : α} {t' : β} (name : R t t') : Paired R (.closingTag t) (.closingTag t')
  | element {o : Option α} {o' : Option β} {c : Option α} {c' : Option β} {cs : List α} {cs' : List β}
      (opening : Pointwise R o.toList o'.toList) (content : Pointwise R cs cs')
      (closing : Pointwise R c.toList c'.toList) :
      Paired R (.element o cs c) (.element o' cs' c')
  | fragment {cs : List α} {cs' : List β} (content : Pointwise R cs cs') :
      Paired R (.fragment cs) (.fragment cs')

theorem paired_map {R : α → β → Prop} {f : α → β} {form : Form α} (h : ∀ c ∈ form.children, R c (f c)) :
    Paired R form (form.map f) := by
  have list : ∀ cs : List α, (∀ c ∈ cs, c ∈ form.children) → Pointwise R cs (cs.map f) := by
    intro cs inside
    refine ⟨by simp, fun i a b ha hb => ?_⟩
    rw [List.getElem?_map, ha] at hb
    cases hb
    exact h a (inside a (List.mem_of_getElem? ha))
  have option : ∀ o : Option α, (∀ c ∈ o.toList, c ∈ form.children) →
      Pointwise R o.toList (o.map f).toList := by
    intro o inside
    have pairs := list o.toList inside
    cases o <;> exact pairs
  cases form with
  | identifier name => exact .identifier name
  | member object property computed optional =>
      exact .member computed optional (h _ (by simp [children])) (h _ (by simp [children]))
  | call callee arguments optional =>
      exact .call optional (h _ (by simp [children])) (list _ fun c member => by simp [children, member])
  | arrow body params =>
      cases params with
      | none => exact .arrow (h _ (by simp [children]))
      | some params => exact .arrowParams (h _ (by simp [children])) (h _ (by simp [children]))
  | function kind parts => exact .function kind (list _ fun _ member => member)
  | parens expression => exact .parens (h _ (by simp [children]))
  | generic kind parts => exact .generic kind (list _ fun _ member => member)
  | importSpecifier imported binding => exact .importSpecifier imported binding
  | importDecl source specifiers default? namespace? =>
      exact .importDecl source default? namespace? (list _ fun _ member => member)
  | program body => exact .program (list _ fun _ member => member)
  | text value => exact .text value
  | emptyExpression => exact .emptyExpression
  | container expression => exact .container (h _ (by simp [children]))
  | attr name value =>
      cases value with
      | none => exact .attrName name
      | some value => exact .attr name (h _ (by simp [children]))
  | spreadAttr argument => exact .spreadAttr (h _ (by simp [children]))
  | openingTag name attributes selfClosing =>
      exact .openingTag selfClosing (h _ (by simp [children]))
        (list _ fun c member => by simp [children, member])
  | closingTag name => exact .closingTag (h _ (by simp [children]))
  | element opening content closing =>
      exact .element (option _ fun _ member => List.mem_append_left _ member)
        (list _ fun _ member => List.mem_append_right _ (List.mem_append_left _ member))
        (option _ fun _ member => List.mem_append_right _ (List.mem_append_right _ member))
  | fragment content => exact .fragment (list _ fun _ member => member)

theorem Paired.mono {R S : α → β → Prop} {a : Form α} {b : Form β} (h : Paired R a b)
    (le : ∀ x y, R x y → S x y) : Paired S a b := by
  cases h <;> constructor <;>
    first | exact le _ _ ‹_› | exact Pointwise.mono ‹_› fun x y _ _ => le x y

theorem Paired.join {γ : Type} {R : α → β → Prop} {S : α → γ → Prop} {a : Form α} {b : Form β}
    {c : Form γ} (first : Paired R a b) (second : Paired S a c) :
    Paired (fun y z => ∃ x, R x y ∧ S x z) b c := by
  cases first <;> cases second <;> constructor <;>
    first | exact ⟨_, ‹_›, ‹_›⟩ | exact Pointwise.join ‹_› ‹_›

theorem paired_withChildren {R : α → α → Prop} {form : Form α} {cs : List α} (h : Pointwise R form.children cs) :
    Paired R form (form.withChildren cs) := by
  cases form with
  | identifier name => exact .identifier name
  | member object property computed optional =>
      obtain ⟨object', property', rfl, ho, hp⟩ := h.of_pair
      exact .member computed optional ho hp
  | call callee arguments optional =>
      obtain ⟨callee', arguments', rfl, hc, ha⟩ := h.of_cons
      exact .call optional hc ha
  | arrow body params =>
      cases params with
      | none =>
          obtain ⟨body', rfl, hb⟩ := h.of_single
          exact .arrow hb
      | some params =>
          obtain ⟨body', params', rfl, hb, hp⟩ := h.of_pair
          exact .arrowParams hb hp
  | function kind parts => exact .function kind h
  | parens expression =>
      obtain ⟨expression', rfl, he⟩ := h.of_single
      exact .parens he
  | generic kind parts => exact .generic kind h
  | importSpecifier imported binding => exact .importSpecifier imported binding
  | importDecl source specifiers default? namespace? => exact .importDecl source default? namespace? h
  | program body => exact .program h
  | text value => exact .text value
  | emptyExpression => exact .emptyExpression
  | container expression =>
      obtain ⟨expression', rfl, he⟩ := h.of_single
      exact .container he
  | attr name value =>
      cases value with
      | none => exact .attrName name
      | some value =>
          obtain ⟨value', rfl, hv⟩ := h.of_single
          exact .attr name hv
  | spreadAttr argument =>
      obtain ⟨argument', rfl, ha⟩ := h.of_single
      exact .spreadAttr ha
  | openingTag name attributes selfClosing =>
      obtain ⟨name', attributes', rfl, hn, ha⟩ := h.of_cons
      exact .openingTag selfClosing hn ha
  | closingTag name =>
      obtain ⟨name', rfl, hn⟩ := h.of_single
      exact .closingTag hn
  | element opening content closing =>
      obtain ⟨openings, rest, rfl, ho, h⟩ := h.of_append
      obtain ⟨content', closings, rfl, hc, hl⟩ := h.of_append
      have taken : (content' ++ closings).take content.length = content' := by
        rw [← hc.length, List.take_left']
        rfl
      obtain ⟨closing', hl', closed⟩ : ∃ closing', Pointwise R closing.toList closing'.toList ∧
          closing.bind (fun _ => (content' ++ closings)[content.length]?) = closing' := by
        cases closing with
        | none => exact ⟨none, .nil, rfl⟩
        | some closing =>
            obtain ⟨closing', rfl, related⟩ := hl.of_single
            exact ⟨some closing', .cons related .nil, by simp [← hc.length]⟩
      cases opening with
      | none =>
          cases ho.of_nil
          simp only [withChildren, List.nil_append, taken, closed]
          exact .element ho hc hl'
      | some opening =>
          obtain ⟨opening', rfl, ho'⟩ := ho.of_single
          simp only [withChildren, List.cons_append, List.nil_append, taken, closed]
          exact .element (.cons ho' .nil) hc hl'
  | fragment content => exact .fragment h

end Form

end JsxBoundary
