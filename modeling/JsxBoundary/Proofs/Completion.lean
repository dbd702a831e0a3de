import JsxBoundary.Proofs.Printable
import JsxBoundary.Proofs.Settling

namespace JsxBoundary

namespace Node

variable {s : Settings} {n : Node}

def Finishes (s : Settings) (n : Node) : Prop :=
  ∀ ancestors w, w.fault = none → (n.rewrite s ancestors w).2.fault = none

theorem Finishes.of_decides (decides : ∀ ancestors p, ∃ d q,
    (n.decide s ancestors).runFrom p = (.ok d, q) ∧
      (d.descend = true → ∀ c ∈ d.node.children, Finishes s c)) : Finishes s n := by
  intro ancestors w start
  obtain ⟨d, q, decided, below⟩ := decides ancestors w.progress
  rw [rewrite_eq, if_neg (by simp [start]), decided]
  dsimp only
  split
  · rename_i descends
    exact Walk.mapM_keeps (P := fun w => w.fault = none)
      (fun c member w start => below descends c member _ w start) rfl
  · rfl

theorem Finishes.specifier (own : n.isSpecifier = true) : Finishes s n := by
  have element : n.isElement = false := by
    obtain ⟨form, layout⟩ := n
    cases form <;> first | rfl | cases own
  have contained : n.contained? = none := by
    obtain ⟨form, layout⟩ := n
    cases form <;> first | rfl | cases own
  have childless : n.children = [] := by
    obtain ⟨form, layout⟩ := n
    cases form <;> first | rfl | cases own
  refine of_decides fun ancestors p => ⟨_, _, decide_keep (.of_plain element contained ancestors)
    (fun element' => by rw [element] at element'; cases element') p, fun _ c member => ?_⟩
  rw [Decision.keep, childless] at member
  cases member

theorem Printable.decideDeferral_ok (h : Printable n) (p : Progress) :
    ∃ d q, (n.decideDeferral s).runFrom p = (.ok d, q) := by
  obtain ⟨before, hb⟩ := h.prints
  unfold decideDeferral
  split
  · rename_i m made
    split
    · obtain ⟨after, ha⟩ := (h.deferral made).prints
      rw [Step.modify_bind, hb, ha]
      exact ⟨_, _, rfl⟩
    · exact ⟨_, _, rfl⟩
  · exact ⟨_, _, rfl⟩

theorem Printable.decide_ok (h : Printable n) (ancestors : Ancestors) (p : Progress) :
    ∃ d q, (n.decide s ancestors).runFrom p = (.ok d, q) := by
  unfold decide
  split
  · rename_i form
    have tagged := h.openingTag? (by simp [isElement, form])
    unfold decideElement
    split
    · rename_i untagged
      simp [untagged] at tagged
    · obtain ⟨d, q, decided⟩ := h.decideDeferral_ok (s := s) p
      rw [Step.runFrom_bind, decided]
      dsimp only
      split
      · exact ⟨_, _, rfl⟩
      · obtain ⟨actions, deferring, _, _⟩ := Node.decideDeferral_ok decided
        have current := deferring.printable h
        obtain ⟨before, hb⟩ := current.prints
        have alone : ∀ c ∈ (none : Option Node), Printable c := fun c same => by cases same
        obtain ⟨after, ha⟩ := (current.boundary s.componentName alone).prints
        rw [hb, ha]
        exact ⟨_, _, rfl⟩
  · rename_i e form
    unfold decideContainer
    split
    · exact ⟨_, _, rfl⟩
    · split
      · have inner : Printable e :=
          h.child (by simp [isImport, form]) (by simp [children, form, Form.children])
        have outer : Printable (e.boundary s.componentName (some n)) := by
          refine inner.boundary s.componentName fun c same => ?_
          cases Option.mem_some_iff.1 same
          exact h
        obtain ⟨before, hb⟩ := h.prints
        obtain ⟨after, ha⟩ := outer.prints
        rw [Step.modify_bind, hb, ha]
        exact ⟨_, _, rfl⟩
      · exact ⟨_, _, rfl⟩
  · exact ⟨_, _, rfl⟩

theorem Printable.finishes {n : Node} (h : Printable n) : Finishes s n := by
  refine .of_decides fun ancestors p => ?_
  obtain ⟨d, q, decided⟩ := h.decide_ok (s := s) ancestors p
  obtain ⟨c, chosen, node, _⟩ := decide_chosen decided
  have outer : Printable d.node := node ▸ chosen.printable h
  refine ⟨d, q, decided, fun descends c member => ?_⟩
  cases own : d.node.isImport with
  | true => exact .specifier (outer.specifier own member)
  | false => exact (outer.child own member).finishes
termination_by n.weight
decreasing_by exact d.lighter descends _ member

end Node

end JsxBoundary
