import JsxBoundary.Proofs.InPlace.Deferral
import JsxBoundary.Proofs.InPlace.Sight
import JsxBoundary.Proofs.Replacement

namespace JsxBoundary

theorem Node.isArrow_of_isMarkup {n : Node} (markup : n.isMarkup = true) : n.isArrow = false := by
  unfold isMarkup at markup
  unfold isArrow
  split at markup <;> simp_all

namespace InPlace

variable {h h' h₁ h₂ : Heap} {r x c : Ref} {n : Node}

namespace Heap

def isElement (h : Heap) (r : Ref) : Bool :=
  match h.form? r with
  | some (.element _ _ _) => true
  | _ => false

def isArrow (h : Heap) (r : Ref) : Bool :=
  match h.form? r with
  | some (.arrow _ _) => true
  | _ => false

/-- A tag, a name, a function, a container around a function, or a fragment. -/
def isScaffold (h : Heap) (r : Ref) : Bool :=
  match h.form? r with
  | some (.identifier _) | some (.openingTag _ _ _) | some (.closingTag _) | some (.arrow _ _)
  | some (.fragment _) => true
  | some (.container e) => h.isArrow e
  | _ => false

theorem isElement_of_isScaffold (scaffold : h.isScaffold r = true) : h.isElement r = false := by
  unfold isScaffold at scaffold
  unfold isElement
  split at scaffold <;> simp_all

theorem lt_of_isElement {x : Nat} (element : h.isElement x = true) : x < h.length := by
  by_contra outside
  have absent : h.form? x = none := by
    rw [form?, List.getElem?_eq_none (Nat.not_lt.1 outside)]
    rfl
  rw [Heap.isElement, absent] at element
  cases element

theorem Alike.isElement (alike : h.Alike 1 r n) : h.isElement r = n.isElement := by
  obtain ⟨form, found, pairs⟩ := alike
  unfold Heap.isElement Node.isElement
  rw [found]
  generalize n.form = other at pairs
  cases pairs <;> rfl

theorem Alike.isArrow (alike : h.Alike 1 r n) : h.isArrow r = n.isArrow := by
  obtain ⟨form, found, pairs⟩ := alike
  unfold Heap.isArrow Node.isArrow
  rw [found]
  generalize n.form = other at pairs
  cases pairs <;> rfl

theorem isArrow_of_isMarkup (markup : h.isMarkup r = true) : h.isArrow r = false := by
  unfold Heap.isMarkup at markup
  unfold Heap.isArrow
  split at markup <;> simp_all

theorem Alike.isScaffold (alike : h.Alike 2 r n) : h.isScaffold r = n.isScaffold := by
  obtain ⟨form, found, pairs⟩ := alike
  unfold Heap.isScaffold Node.isScaffold
  rw [found]
  generalize n.form = other at pairs
  cases pairs with
  | container expression =>
      rcases expression with ⟨markup, markup'⟩ | expression
      · exact (isArrow_of_isMarkup markup).trans (Node.isArrow_of_isMarkup markup').symm
      · exact expression.isArrow
  | _ => rfl

theorem Keeps.isElement (keeps : h.Keeps h') (bound : x < h.length) : h'.isElement x = h.isElement x := by
  have found : h.form? x = some h[x].form := form?_eq (List.getElem?_eq_getElem bound)
  -- Its form over nodes that are not looked at any more.
  have alike : h.Alike 1 x (.fresh (h[x].form.map fun _ => .fresh .emptyExpression)) :=
    ⟨_, found, Form.paired_map fun _ _ => .inr trivial⟩
  exact (keeps 1 x _ alike).isElement.trans alike.isElement.symm

theorem isScaffold_of_longer (longer : h <+: h') (scaffold : h.isScaffold x = true) :
    h'.isScaffold x = true := by
  have arrow : ∀ e, h.isArrow e = true → h'.isArrow e = true := by
    intro e arrow
    unfold isArrow at arrow ⊢
    cases found : h.form? e with
    | none => simp [found] at arrow
    | some form => rwa [form?_of_longer longer found, ← found]
  unfold isScaffold at scaffold ⊢
  cases found : h.form? x with
  | none => simp [found] at scaffold
  | some form =>
      rw [found] at scaffold
      rw [form?_of_longer longer found]
      cases form with
      | container e => exact arrow e scaffold
      | _ => exact scaffold

structure Scaffolds (h h' : Heap) : Prop where
  longer : h <+: h'
  added : ∀ x : Nat, h.length ≤ x → x < h'.length → h'.isScaffold x = true

structure Frames (h h' : Heap) (c : Ref) : Prop where
  longer : h <+: h'
  others : ∀ x : Nat, h.length ≤ x → x < h'.length → x ≠ c → h'.isScaffold x = true

namespace Scaffolds

theorem refl (h : Heap) : h.Scaffolds h :=
  ⟨List.prefix_refl h, fun _ low high => absurd high (Nat.not_lt.2 low)⟩

theorem trans (first : h.Scaffolds h₁) (second : h₁.Scaffolds h₂) : h.Scaffolds h₂ := by
  refine ⟨first.longer.trans second.longer, fun x low high => ?_⟩
  by_cases old : x < h₁.length
  · exact isScaffold_of_longer second.longer (first.added x low old)
  · exact second.added x (Nat.not_lt.1 old) high

theorem concat {o : Object} (scaffold : (h ++ [o]).isScaffold h.length = true) : h.Scaffolds (h ++ [o]) := by
  refine ⟨List.prefix_append h _, fun x low high => ?_⟩
  have last : x = h.length := by
    simp only [List.length_append, List.length_singleton] at high
    omega
  exact last ▸ scaffold

theorem frames (scaffolds : h.Scaffolds h₁) (o : Object) : h.Frames (h₁ ++ [o]) h₁.length := by
  refine ⟨scaffolds.longer.trans (List.prefix_append h₁ _), fun x low high other => ?_⟩
  have old : x < h₁.length := by
    simp only [List.length_append, List.length_singleton] at high
    omega
  exact isScaffold_of_longer (List.prefix_append h₁ _) (scaffolds.added x low old)

end Scaffolds

end Heap

namespace Build

open Heap

theorem form?_concat (h : Heap) (o : Object) : (h ++ [o]).form? h.length = some o.form :=
  form?_eq (h.getElem?_concat o)

theorem thunk_scaffolds (body : Ref) (source : Option Ref) (h : Heap) :
    h.Scaffolds (thunk body source h).2 := by
  have pair : ∀ layout layout',
      h.Scaffolds (h ++ [⟨.arrow body none, layout⟩] ++ [⟨.container h.length, layout'⟩]) := by
    intro layout layout'
    have arrow : (h ++ [⟨.arrow body none, layout⟩] : Heap).form? h.length = some (.arrow body none) :=
      form?_concat h _
    refine .trans (.concat ?_) (.concat ?_)
    · rw [isScaffold, arrow]
    · rw [isScaffold, form?_concat]
      show Heap.isArrow _ _ = true
      rw [Heap.isArrow, form?_of_longer (List.prefix_append _ _) arrow]
  cases shown : (source.bind h.layout?).filter (·.contains (.node body)) with
  | none =>
      rw [thunk_fresh shown]
      exact pair none none
  | some marks =>
      rw [thunk_marked shown]
      exact pair _ _

theorem name_scaffolds (component : String) (h : Heap) : h.Scaffolds (h ++ [⟨.identifier component, none⟩]) :=
  .concat (by rw [isScaffold, form?_concat])

theorem boundary_frames (component : String) (body : Ref) (source : Option Ref) (h : Heap) :
    h.Frames (boundary component body source h).2 (boundary component body source h).1 := by
  simp only [boundary, bind_apply, alloc_apply]
  have opening : h.Scaffolds
      (h ++ [⟨.identifier component, none⟩] ++ [⟨.openingTag h.length [] false, none⟩]) :=
    .trans (name_scaffolds component h) (.concat (by rw [isScaffold, form?_concat]))
  have inner := opening.trans (thunk_scaffolds body source _)
  generalize thunk body source _ = result at inner ⊢
  obtain ⟨i, h₁⟩ := result
  have closing : h₁.Scaffolds
      (h₁ ++ [⟨.identifier component, none⟩] ++ [⟨.closingTag h₁.length, none⟩]) :=
    .trans (name_scaffolds component h₁) (.concat (by rw [isScaffold, form?_concat]))
  exact (inner.trans closing).frames _

theorem deferredBody_scaffolds (element opening : Ref) (closing : Option Ref) (kept : List Ref) (h : Heap) :
    h.Scaffolds (deferredBody element opening closing kept h).2 := by
  have fragment : ∀ layout, h.Scaffolds (h ++ [⟨.fragment kept, layout⟩]) :=
    fun layout => .concat (by rw [isScaffold, form?_concat])
  unfold deferredBody
  rw [bind_apply, get_apply]
  rcases kept with _ | ⟨c, _ | ⟨d, more⟩⟩
  · exact fragment _
  · dsimp only
    generalize h.form? c = found
    rcases found with _ | form
    · exact .refl h
    · cases form <;> exact .refl h
  · exact fragment _

theorem deferral_frames (made : (deferral r h).1 = some c) : h.Frames (deferral r h).2 c := by
  rw [deferral, bind_apply, get_apply] at made ⊢
  rcases accepted : h.deferrable? r with _ | ⟨opening, kept, closing⟩
  · rw [accepted] at made
    cases made
  · rw [accepted] at made
    dsimp only at made ⊢
    rw [bind_apply] at made ⊢
    have body := deferredBody_scaffolds r opening closing kept h
    generalize deferredBody r opening closing kept h = result at made body ⊢
    obtain ⟨body?, h₁⟩ := result
    cases body? with
    | none => cases made
    | some b =>
        dsimp only at made body ⊢
        rw [bind_apply, map_apply, alloc_apply] at made ⊢
        cases made
        exact (body.trans (thunk_scaffolds b _ h₁)).frames _

end Build

end InPlace

end JsxBoundary
