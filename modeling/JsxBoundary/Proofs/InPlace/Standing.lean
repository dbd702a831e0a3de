import JsxBoundary.Proofs.InPlace.Holds
import JsxBoundary.Proofs.Printing

namespace JsxBoundary.InPlace

variable {h h' : Heap} {r c : Ref} {n m : Node} {o : Object}

namespace Object

theorem sizeOf_lt_toNode (t : Ref → Node) (listed : c ∈ o.refs) : sizeOf (t c) < sizeOf (o.toNode t) := by
  by_cases child : c ∈ o.form.children
  · apply Node.sizeOf_lt_of_mem_children
    rw [children_toNode]
    exact List.mem_map_of_mem child
  · obtain ⟨form, layout⟩ := o
    have marked := (mem_refs.1 listed).resolve_left child
    cases layout with
    | none => cases marked
    | some marks =>
        refine Node.sizeOf_lt_of_loose_mem (n := toNode t ⟨form, some marks⟩) rfl ?_
        exact List.mem_map.2 ⟨.node c, (mem_marked rfl).1 marked, if_neg child⟩

end Object

/-- The tree below the reference is `n`. -/
inductive Heap.Stands (h : Heap) : Ref → Node → Prop
  | intro {r : Ref} {o : Object} {tree : Ref → Node} (found : h[r]? = some o)
      (below : ∀ c ∈ o.refs, Stands h c (tree c)) : Stands h r (o.toNode tree)

theorem Heap.Holds.stands {S : Finset Ref} (holds : h.Holds r n S) : h.Stands r n := by
  induction holds with
  | intro found _ _ _ _ _ ih => exact .intro found ih

namespace Heap.Stands

theorem unique (stands : h.Stands r n) (again : h.Stands r m) : m = n := by
  induction stands generalizing m with
  | intro found _ ih =>
      cases again with
      | intro found' below' =>
          cases found.symm.trans found'
          exact Object.toNode_congr fun c listed => ih c listed (below' c listed)

theorem frame (stands : h.Stands r n)
    (same : ∀ x k, h.Stands x k → sizeOf k ≤ sizeOf n → h'[x]? = h[x]?) : h'.Stands r n := by
  induction stands with
  | @intro r o tree found below ih =>
      refine .intro ((same r _ (.intro found below) (Nat.le_refl _)).trans found) fun c listed => ?_
      refine ih c listed fun x k stands small => same x k stands ?_
      exact small.trans (Object.sizeOf_lt_toNode tree listed).le

/-- The objects above the reference have larger trees, so the reference is none of them. With each step
down one object less is left. -/
theorem treeWithin_eq (stands : h.Stands r n) (above : Finset Ref)
    (larger : ∀ x ∈ above, ∃ k, h.Stands x k ∧ sizeOf n < sizeOf k) {depth : Nat}
    (enough : h.length ≤ depth + above.card) : h.treeWithin depth r = n := by
  induction stands generalizing above depth with
  | @intro r o tree found below ih =>
      have outside : r ∉ above := fun member => by
        obtain ⟨k, stands, lt⟩ := larger r member
        rw [unique (.intro found below) stands] at lt
        exact Nat.lt_irrefl _ lt
      have bound : ∀ x ∈ insert r above, x ∈ Finset.range h.length := by
        intro x member
        rw [Finset.mem_range]
        rcases Finset.mem_insert.1 member with rfl | member
        · exact (List.getElem?_eq_some_iff.1 found).1
        · obtain ⟨_, ⟨found', _⟩, _⟩ := larger x member
          exact (List.getElem?_eq_some_iff.1 found').1
      have count := Finset.card_le_card bound
      rw [Finset.card_range, Finset.card_insert_of_notMem outside] at count
      obtain ⟨depth, rfl⟩ : ∃ d, depth = d + 1 := ⟨depth - 1, by omega⟩
      rw [treeWithin, found]
      refine Object.toNode_congr fun c listed => ih c listed (insert r above) (fun x member => ?_) ?_
      · have smaller := Object.sizeOf_lt_toNode tree listed
        rcases Finset.mem_insert.1 member with rfl | member
        · exact ⟨_, .intro found below, smaller⟩
        · obtain ⟨k, stands, lt⟩ := larger x member
          exact ⟨k, stands, smaller.trans lt⟩
      · rw [Finset.card_insert_of_notMem outside]
        omega

theorem tree_eq (stands : h.Stands r n) : h.tree r = n :=
  stands.treeWithin_eq ∅ (fun x member => absurd member (Finset.notMem_empty x)) (by simp)

theorem object (stands : h.Stands r n) : ∃ o, h[r]? = some o ∧ n = o.toNode h.tree ∧
    ∀ c ∈ o.refs, h.Stands c (h.tree c) := by
  cases stands with
  | @intro _ o tree found below =>
      refine ⟨o, found, ?_, fun c listed => ?_⟩
      · exact Object.toNode_congr fun c listed => (below c listed).tree_eq.symm
      · rw [(below c listed).tree_eq]
        exact below c listed

theorem lt_length (stands : h.Stands r n) : r < h.length := by
  obtain ⟨_, found, _⟩ := stands.object
  exact (List.getElem?_eq_some_iff.1 found).1

end Heap.Stands

theorem Heap.stands_of_ordered (ordered : ∀ r (bound : r < h.length), ∀ c ∈ h[r].refs, c < r) (r : Ref)
    (bound : r < h.length) : h.Stands r (h.tree r) := by
  induction r using Nat.strongRecOn with
  | ind r ih =>
      have stands : h.Stands r (h[r].toNode h.tree) :=
        .intro (List.getElem?_eq_getElem bound) fun c listed =>
          ih c (ordered r bound c listed) ((ordered r bound c listed).trans bound)
      rwa [← stands.tree_eq] at stands

namespace Mark

def part (t : Ref → Node) : Mark → Part
  | text value => .text value
  | node r => .node (t r)

/-- The source text of the marks, one after the other. -/
def print (t : Ref → Node) (marks : List Mark) : Except Fault String := do
  let texts ← (marks.map (part t)).mapM Part.print
  return String.join texts

theorem print_append (t : Ref → Node) (front back : List Mark) :
    print t (front ++ back) = (· ++ ·) <$> print t front <*> print t back := by
  unfold print
  rw [List.map_append, List.mapM_append]
  cases (front.map (part t)).mapM Part.print with
  | error fault => rfl
  | ok left =>
      cases (back.map (part t)).mapM Part.print with
      | error fault => rfl
      | ok right => exact congrArg Except.ok String.join_append

theorem print_congr {t u : Ref → Node} {marks : List Mark} (same : ∀ c, .node c ∈ marks → t c = u c) :
    print t marks = print u marks := by
  have parts : marks.map (part t) = marks.map (part u) := by
    refine List.map_congr_left fun mark listed => ?_
    cases mark with
    | text value => rfl
    | node c => exact congrArg Part.node (same c listed)
  rw [print, parts, print]

theorem ofPiece_toPiece (t : Ref → Node) (children : List Ref) (mark : Mark) :
    Part.ofPiece (children.map t) (mark.toPiece children t) = [mark.part t] := by
  cases mark with
  | text value => rfl
  | node r =>
      by_cases child : r ∈ children
      · rw [toPiece, if_pos child]
        simp only [Part.ofPiece, List.getElem?_map, List.getElem?_idxOf child, Option.map_some,
          Option.toList_some, part]
      · rw [toPiece, if_neg child]
        rfl

end Mark

theorem Object.print_toNode (t : Ref → Node) (form : Form Ref) (marks : List Mark) :
    (toNode t ⟨form, some marks⟩).print = Mark.print t marks := by
  have parts : (toNode t ⟨form, some marks⟩).parts = .ok (marks.map (Mark.part t)) := by
    unfold Node.parts
    rw [children_toNode]
    simp only [toNode, Node.layout_mk, Option.map_some, List.flatMap_map, Mark.ofPiece_toPiece]
    rw [← List.map_eq_flatMap]
  rw [Node.print_eq, parts]
  rfl

end JsxBoundary.InPlace
