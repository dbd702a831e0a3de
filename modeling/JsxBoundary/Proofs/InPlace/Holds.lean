import Mathlib.Data.Finset.Card
import Mathlib.Data.Finset.Union
import Mathlib.Data.List.Nodup
import Mathlib.Data.List.Pairwise
import Mathlib.Data.Set.Function
import JsxBoundary.InPlace.Heap
import JsxBoundary.Proofs.Paired

/-!
# Heaps that hold trees

`Heap.Holds` says which tree stands at a reference and which objects it is made of. No object of it is
reached in two ways, so the objects of one part can change without a change of another part
(`Holds.frame`), and a part can give way to another one (`Holds.exchange`).
-/

namespace JsxBoundary.InPlace

theorem Mark.mem_refs {r : Ref} {marks : List Mark} : r ∈ refs marks ↔ .node r ∈ marks := by
  rw [refs, List.mem_filterMap]
  constructor
  · rintro ⟨_ | r, member, found⟩ <;> cases found
    exact member
  · exact fun member => ⟨_, member, rfl⟩

namespace Object

variable {o : Object} {f : Ref → Ref} {t u : Ref → Node}

theorem mem_marked {r : Ref} {marks : List Mark} (layout : o.layout = some marks) :
    r ∈ o.marked ↔ .node r ∈ marks := by
  rw [marked, layout]
  exact Mark.mem_refs

theorem mem_refs {r : Ref} : r ∈ o.refs ↔ r ∈ o.form.children ∨ r ∈ o.marked := by
  simp only [refs, loose, List.mem_append, List.mem_filter, decide_eq_true_eq]
  tauto

theorem toNode_congr (h : ∀ c ∈ o.refs, t c = u c) : o.toNode t = o.toNode u := by
  have forms : o.form.map t = o.form.map u := Form.map_congr fun c member => h c (mem_refs.2 (.inl member))
  obtain ⟨form, layout⟩ := o
  cases layout with
  | none => exact congrArg (Node.mk · none) forms
  | some marks =>
      have same : marks.map (Mark.toPiece form.children t) = marks.map (Mark.toPiece form.children u) := by
        refine List.map_congr_left fun mark member => ?_
        cases mark with
        | text value => rfl
        | node r =>
            have agree := h r (mem_refs.2 (.inr ((mem_marked rfl).2 member)))
            simp only [Mark.toPiece, agree]
      show Node.mk (form.map t) (some (marks.map _)) = Node.mk (form.map u) (some (marks.map _))
      rw [same]
      exact congrArg (Node.mk · _) forms

theorem mem_loose {r : Ref} : r ∈ o.loose ↔ r ∈ o.marked ∧ r ∉ o.form.children := by
  simp [loose]

theorem marked_map (f : Ref → Ref) (o : Object) : (o.map f).marked = o.marked.map f := by
  obtain ⟨form, layout⟩ := o
  cases layout with
  | none => rfl
  | some marks =>
      show Mark.refs (marks.map (Mark.map f)) = (Mark.refs marks).map f
      rw [Mark.refs, Mark.refs, List.filterMap_map, List.map_filterMap]
      congr 1
      funext mark
      cases mark <;> rfl

@[simp] theorem map_id (o : Object) : o.map id = o := by
  have marks : Mark.map id = id := by
    funext mark
    cases mark <;> rfl
  simp [map, marks]

theorem mem_children_map (inj : ∀ c ∈ o.refs, ∀ d ∈ o.refs, f c = f d → c = d) {r : Ref}
    (member : r ∈ o.refs) : f r ∈ (o.map f).form.children ↔ r ∈ o.form.children := by
  have listed : (o.map f).form.children = o.form.children.map f := Form.children_map f o.form
  rw [listed, List.mem_map]
  constructor
  · rintro ⟨c, child, same⟩
    rwa [← inj c (mem_refs.2 (.inl child)) r member same]
  · exact fun child => ⟨r, child, rfl⟩

theorem refs_map (inj : ∀ c ∈ o.refs, ∀ d ∈ o.refs, f c = f d → c = d) :
    (o.map f).refs = o.refs.map f := by
  have listed : (o.map f).form.children = o.form.children.map f := Form.children_map f o.form
  have rest : (o.map f).loose = o.loose.map f := by
    rw [loose, marked_map, List.filter_map, loose]
    congr 1
    refine List.filter_congr fun r member => ?_
    have same := mem_children_map inj (mem_refs.2 (.inr member))
    simp only [Function.comp_apply, same]
  rw [refs, listed, rest, refs, List.map_append]

theorem idxOf_map {cs : List Ref} {r : Ref} (inj : ∀ c ∈ cs, f c = f r → c = r) :
    (cs.map f).idxOf (f r) = cs.idxOf r := by
  induction cs with
  | nil => rfl
  | cons c cs ih =>
      rw [List.map_cons, List.idxOf_cons, List.idxOf_cons, ih fun d member => inj d (.tail _ member)]
      have equal : (f c == f r) = (c == r) := by
        rw [Bool.eq_iff_iff, beq_iff_eq, beq_iff_eq]
        exact ⟨inj c (.head _), congrArg f⟩
      rw [equal]

theorem toNode_map {v : Ref → Node} (inj : ∀ c ∈ o.refs, ∀ d ∈ o.refs, f c = f d → c = d)
    (image : ∀ c ∈ o.refs, u (f c) = v c) (stays : ∀ c ∈ o.loose, v c = t c) :
    (o.map f).toNode u = (o.toNode t).withChildren (o.form.children.map v) := by
  have forms : (o.form.map f).map u = (o.form.map t).withChildren (o.form.children.map v) := by
    rw [Form.map_map, ← Form.map_eq_withChildren]
    exact Form.map_congr fun c member => image c (mem_refs.2 (.inl member))
  have listed : (o.form.map f).children = o.form.children.map f := Form.children_map f o.form
  have pieces : ∀ marks, o.layout = some marks →
      (marks.map (Mark.map f)).map (Mark.toPiece (o.form.map f).children u) =
        marks.map (Mark.toPiece o.form.children t) := by
    intro marks layout
    rw [List.map_map]
    refine List.map_congr_left fun mark member => ?_
    cases mark with
    | text value => rfl
    | node r =>
        have shown : r ∈ o.marked := (mem_marked layout).2 member
        have inside : r ∈ o.refs := mem_refs.2 (.inr shown)
        have child : f r ∈ (o.form.map f).children ↔ r ∈ o.form.children := mem_children_map inj inside
        simp only [Function.comp_apply, Mark.map, Mark.toPiece]
        by_cases own : r ∈ o.form.children
        · rw [if_pos (child.2 own), if_pos own, listed]
          rw [idxOf_map fun c member => inj c (mem_refs.2 (.inl member)) r inside]
        · rw [if_neg fun own' => own (child.1 own'), if_neg own, image r inside,
            stays r (mem_loose.2 ⟨shown, own⟩)]
  unfold toNode map Node.withChildren
  rw [Node.form_mk, Node.layout_mk, forms]
  cases layout : o.layout with
  | none => rfl
  | some marks => rw [Option.map_some, Option.map_some, Option.map_some, pieces marks layout]

theorem children_toNode (o : Object) (t : Ref → Node) :
    (o.toNode t).children = o.form.children.map t :=
  Form.children_map t o.form

end Object

/-- The tree below the reference is `n`, and it is made of these objects. None is reached twice. -/
inductive Heap.Holds (h : Heap) : Ref → Node → Finset Ref → Prop
  | intro {r : Ref} {o : Object} {tree : Ref → Node} {area : Ref → Finset Ref} (found : h[r]? = some o)
      (once : o.refs.Nodup) (shown : o.marked.Nodup)
      (below : ∀ c ∈ o.refs, Holds h c (tree c) (area c))
      (apart : ∀ c ∈ o.refs, ∀ d ∈ o.refs, c ≠ d → Disjoint (area c) (area d))
      (own : ∀ c ∈ o.refs, r ∉ area c) :
      Holds h r (o.toNode tree) (insert r (o.refs.toFinset.biUnion area))

theorem Heap.mem_area {r x : Ref} {cs : List Ref} {area : Ref → Finset Ref} :
    x ∈ insert r (cs.toFinset.biUnion area) ↔ x = r ∨ ∃ c ∈ cs, x ∈ area c := by
  simp only [Finset.mem_insert, Finset.mem_biUnion, List.mem_toFinset]

namespace Heap.Holds

variable {h h' : Heap} {r : Ref} {n m : Node} {S T : Finset Ref}

theorem self_mem (holds : h.Holds r n S) : r ∈ S := by
  cases holds with
  | intro => exact Finset.mem_insert_self _ _

theorem lt_of_mem (holds : h.Holds r n S) : ∀ x : Nat, x ∈ S → x < h.length := by
  induction holds with
  | intro found once shown below apart own ih =>
      intro x member
      rw [mem_area] at member
      rcases member with rfl | ⟨c, listed, inside⟩
      · exact (List.getElem?_eq_some_iff.1 found).1
      · exact ih c listed x inside

theorem frame (holds : h.Holds r n S) (same : ∀ x ∈ S, h'[x]? = h[x]?) : h'.Holds r n S := by
  induction holds with
  | @intro r o tree area found once shown below apart own ih =>
      refine .intro ((same r (Finset.mem_insert_self _ _)).trans found) once shown (fun c listed => ?_)
        apart own
      refine ih c listed fun x inside => same x ?_
      rw [mem_area]
      exact .inr ⟨c, listed, inside⟩

theorem unique (holds : h.Holds r n S) (again : h.Holds r m T) : m = n ∧ T = S := by
  induction holds generalizing m T with
  | @intro r o tree area found once shown below apart own ih =>
      cases again with
      | @intro _ o' tree' area' found' _ _ below' _ _ =>
          cases found.symm.trans found'
          have same := fun c listed => ih c listed (below' c listed)
          refine ⟨Object.toNode_congr fun c listed => (same c listed).1, ?_⟩
          congr 1
          exact Finset.biUnion_congr rfl fun c listed => (same c (List.mem_toFinset.1 listed)).2

theorem treeWithin_eq (holds : h.Holds r n S) {depth : Nat} (bound : S.card ≤ depth) :
    h.treeWithin depth r = n := by
  induction holds generalizing depth with
  | @intro r o tree area found once shown below apart own ih =>
      have outside : r ∉ o.refs.toFinset.biUnion area := by
        simpa [Finset.mem_biUnion] using own
      rw [Finset.card_insert_of_notMem outside] at bound
      obtain ⟨depth, rfl⟩ : ∃ d, depth = d + 1 := ⟨depth - 1, by omega⟩
      rw [treeWithin, found]
      refine Object.toNode_congr fun c listed => ih c listed ?_
      have inside : area c ⊆ o.refs.toFinset.biUnion area :=
        Finset.subset_biUnion_of_mem area (List.mem_toFinset.2 listed)
      have := Finset.card_le_card inside
      omega

theorem tree_eq (holds : h.Holds r n S) : h.tree r = n := by
  refine holds.treeWithin_eq ?_
  have inside : S ⊆ Finset.range h.length := fun x member =>
    Finset.mem_range.2 (holds.lt_of_mem x member)
  simpa using Finset.card_le_card inside

theorem exchange {o : Object} {f : Ref → Ref} {t v : Ref → Node} (area : Ref → Finset Ref)
    (found : h'[r]? = some (o.map f)) (once : o.refs.Nodup) (shown : o.marked.Nodup)
    (below : ∀ c ∈ o.refs, h'.Holds (f c) (v c) (area c)) (stays : ∀ c ∈ o.loose, v c = t c)
    (apart : ∀ c ∈ o.refs, ∀ d ∈ o.refs, c ≠ d → Disjoint (area c) (area d))
    (own : ∀ c ∈ o.refs, r ∉ area c) :
    h'.Holds r ((o.toNode t).withChildren (o.form.children.map v))
      (insert r (o.refs.toFinset.biUnion area)) := by
  -- References with one image would have the object there in common.
  have inj : ∀ c ∈ o.refs, ∀ d ∈ o.refs, f c = f d → c = d := by
    intro c hc d hd same
    by_contra ne
    have inside := (below d hd).self_mem
    rw [← same] at inside
    exact Finset.disjoint_left.1 (apart c hc d hd ne) (below c hc).self_mem inside
  have back : Set.LeftInvOn (Function.invFunOn f {c | c ∈ o.refs}) f {c | c ∈ o.refs} :=
    Set.InjOn.leftInvOn_invFunOn fun c hc d hd same => inj c hc d hd same
  generalize Function.invFunOn f {c | c ∈ o.refs} = g at back
  have listed : (o.map f).refs = o.refs.map f := Object.refs_map inj
  have each : ∀ x ∈ (o.map f).refs, ∃ c ∈ o.refs, x = f c ∧ g x = c := by
    intro x member
    rw [listed] at member
    obtain ⟨c, hc, rfl⟩ := List.mem_map.1 member
    exact ⟨c, hc, rfl, back hc⟩
  have whole : h'.Holds r ((o.map f).toNode (v ∘ g))
      (insert r ((o.map f).refs.toFinset.biUnion (area ∘ g))) := by
    refine .intro found ?_ ?_ (fun x member => ?_) (fun x hx y hy ne => ?_) fun x member => ?_
    · rw [listed]
      exact once.map_on fun c hc d hd same => inj c hc d hd same
    · rw [Object.marked_map]
      exact shown.map_on fun c hc d hd same =>
        inj c (Object.mem_refs.2 (.inr hc)) d (Object.mem_refs.2 (.inr hd)) same
    · obtain ⟨c, hc, rfl, origin⟩ := each x member
      simp only [Function.comp_apply, origin]
      exact below c hc
    · obtain ⟨c, hc, rfl, origin⟩ := each x hx
      obtain ⟨d, hd, rfl, origin'⟩ := each y hy
      simp only [Function.comp_apply, origin, origin']
      exact apart c hc d hd fun same => ne (by rw [same])
    · obtain ⟨c, hc, rfl, origin⟩ := each x member
      simp only [Function.comp_apply, origin]
      exact own c hc
  have areas : (o.map f).refs.toFinset.biUnion (area ∘ g) = o.refs.toFinset.biUnion area := by
    ext x
    simp only [Finset.mem_biUnion, List.mem_toFinset, Function.comp_apply]
    constructor
    · rintro ⟨y, member, inside⟩
      obtain ⟨c, hc, rfl, origin⟩ := each y member
      exact ⟨c, hc, by rwa [origin] at inside⟩
    · rintro ⟨c, hc, inside⟩
      refine ⟨f c, ?_, by rwa [back hc]⟩
      rw [listed]
      exact List.mem_map_of_mem hc
  have node : (o.map f).toNode (v ∘ g) = (o.toNode t).withChildren (o.form.children.map v) :=
    Object.toNode_map inj (fun c hc => congrArg v (back hc)) stays
  rw [node, areas] at whole
  exact whole

theorem extend (holds : h.Holds r n S) (longer : h <+: h') : h'.Holds r n S := by
  obtain ⟨more, rfl⟩ := longer
  exact holds.frame fun x inside => List.getElem?_append_left (holds.lt_of_mem x inside)

end Heap.Holds

structure Heap.Layer (h : Heap) (r : Ref) (o : Object) (area : Ref → Finset Ref) : Prop where
  found : h[r]? = some o
  once : o.refs.Nodup
  shown : o.marked.Nodup
  below : ∀ c ∈ o.refs, h.Holds c (h.tree c) (area c)
  apart : ∀ c ∈ o.refs, ∀ d ∈ o.refs, c ≠ d → Disjoint (area c) (area d)
  own : ∀ c ∈ o.refs, r ∉ area c

namespace Heap

variable {h h' : Heap} {r : Ref} {n : Node} {S : Finset Ref} {o : Object} {area : Ref → Finset Ref}

theorem form?_eq (found : h[r]? = some o) : h.form? r = some o.form := by
  simp [form?, found]

theorem form?_of_longer {form : Form Ref} (longer : h <+: h') (found : h.form? r = some form) :
    h'.form? r = some form := by
  obtain ⟨more, rfl⟩ := longer
  obtain ⟨o, here, rfl⟩ := Option.map_eq_some_iff.1 found
  exact form?_eq ((List.getElem?_append_left (List.getElem?_eq_some_iff.1 here).1).trans here)

theorem Layer.holds (layer : h.Layer r o area) :
    h.Holds r (o.toNode h.tree) (insert r (o.refs.toFinset.biUnion area)) :=
  .intro layer.found layer.once layer.shown layer.below layer.apart layer.own

theorem Holds.layer (holds : h.Holds r n S) :
    ∃ o area, h.Layer r o area ∧ n = o.toNode h.tree ∧ S = insert r (o.refs.toFinset.biUnion area) := by
  cases holds with
  | @intro _ o tree area found once shown below apart own =>
      have same : ∀ c ∈ o.refs, h.tree c = tree c := fun c listed => (below c listed).tree_eq
      refine ⟨o, area, ⟨found, once, shown, fun c listed => ?_, apart, own⟩, ?_, rfl⟩
      · rw [same c listed]
        exact below c listed
      · exact Object.toNode_congr fun c listed => (same c listed).symm

theorem area_subset (r : Ref) (area : Ref → Finset Ref) {c : Ref} (listed : c ∈ o.refs) :
    area c ⊆ insert r (o.refs.toFinset.biUnion area) :=
  (Finset.subset_biUnion_of_mem area (List.mem_toFinset.2 listed)).trans (Finset.subset_insert _ _)

theorem Holds.part (holds : h.Holds r n S) {x : Ref} (inside : x ∈ S) : ∃ m A, h.Holds x m A ∧ A ⊆ S := by
  induction holds with
  | @intro r o tree area found once shown below apart own ih =>
      rw [mem_area] at inside
      rcases inside with rfl | ⟨c, listed, inside⟩
      · exact ⟨_, _, .intro found once shown below apart own, subset_rfl⟩
      · obtain ⟨m, A, holds, within⟩ := ih c listed inside
        exact ⟨m, A, holds, within.trans (area_subset r area listed)⟩

theorem Layer.erase (layer : h.Layer r o area) :
    (insert r (o.refs.toFinset.biUnion area)).erase r = o.refs.toFinset.biUnion area := by
  refine Finset.erase_insert fun inside => ?_
  obtain ⟨c, listed, inside⟩ := Finset.mem_biUnion.1 inside
  exact layer.own c (List.mem_toFinset.1 listed) inside

theorem Layer.apart_update {c : Ref} {T : Finset Ref} (layer : h.Layer r o area) (part : c ∈ o.refs)
    (within : ∀ x ∈ T, x ∈ area c ∨ h.length ≤ x) : ∀ d ∈ o.refs, ∀ e ∈ o.refs, d ≠ e →
      Disjoint (Function.update area c T d) (Function.update area c T e) := by
  have clear : ∀ d ∈ o.refs, d ≠ c → Disjoint T (area d) := by
    intro d listed ne
    refine Finset.disjoint_left.2 fun x left right => ?_
    rcases within x left with old | new
    · exact Finset.disjoint_left.1 (layer.apart c part d listed ne.symm) old right
    · exact Nat.not_lt.2 new ((layer.below d listed).lt_of_mem x right)
  intro d hd e he ne
  by_cases first : d = c
  · have second : e ≠ c := fun same => ne (first.trans same.symm)
    simpa [first, second] using clear e he second
  · by_cases second : e = c
    · simpa [first, second] using (clear d hd first).symm
    · simpa [first, second] using layer.apart d hd e he ne

theorem Layer.swapped {old new r' : Ref} {m : Node} {T : Finset Ref} (layer : h.Layer r o area)
    (child : old ∈ o.form.children)
    (found : h'[r']? = some (o.map fun x => if x = old then new else x)) (holds : h'.Holds new m T)
    (within : ∀ x ∈ T, x ∈ area old ∨ h.length ≤ x) (outside : r' ∉ T)
    (others : ∀ c ∈ o.refs, c ≠ old → h'.Holds c (h.tree c) (area c) ∧ r' ∉ area c) :
    h'.Holds r' ((o.toNode h.tree).withChildren (o.form.children.map (Function.update h.tree old m)))
      (insert r' (o.refs.toFinset.biUnion (Function.update area old T))) := by
  have listed : old ∈ o.refs := Object.mem_refs.2 (.inl child)
  refine Holds.exchange (f := fun x => if x = old then new else x) (t := h.tree) _ found layer.once layer.shown
    (fun c member => ?_) (fun c loose => ?_) (layer.apart_update listed within) fun c member => ?_
  · by_cases same : c = old
    · simpa [same] using holds
    · simpa [same] using (others c member same).1
  · have ne : c ≠ old := fun same => (Object.mem_loose.1 loose).2 (same ▸ child)
    exact Function.update_of_ne ne _ _
  · by_cases same : c = old
    · simpa [same] using outside
    · simpa [same] using (others c member same).2

theorem mem_swapped_parts {old r' x : Ref} {T : Finset Ref} (listed : old ∈ o.refs)
    (within : ∀ x ∈ T, x ∈ area old ∨ h.length ≤ x)
    (member : x ∈ insert r' (o.refs.toFinset.biUnion (Function.update area old T))) :
    x = r' ∨ h.length ≤ x ∨ x ∈ o.refs.toFinset.biUnion area := by
  have part : ∀ c ∈ o.refs, x ∈ area c → x ∈ o.refs.toFinset.biUnion area :=
    fun c listed inside => Finset.mem_biUnion.2 ⟨c, List.mem_toFinset.2 listed, inside⟩
  rw [mem_area] at member
  rcases member with same | ⟨c, member, inside⟩
  · exact .inl same
  · right
    by_cases same : c = old
    · rw [same, Function.update_self] at inside
      exact (within x inside).symm.imp_right (part old listed)
    · rw [Function.update_of_ne same] at inside
      exact .inr (part c member inside)

theorem mem_swapped {old r' x : Ref} {T : Finset Ref} (listed : old ∈ o.refs)
    (within : ∀ x ∈ T, x ∈ area old ∨ h.length ≤ x)
    (member : x ∈ insert r' (o.refs.toFinset.biUnion (Function.update area old T))) :
    x = r' ∨ h.length ≤ x ∨ x ∈ insert r (o.refs.toFinset.biUnion area) :=
  (mem_swapped_parts listed within member).imp_right (Or.imp_right Finset.mem_insert_of_mem)

theorem mem_swapped_new {old r x : Ref} {T : Finset Ref} (listed : old ∈ o.refs) (member : x ∈ T) :
    x ∈ insert r (o.refs.toFinset.biUnion (Function.update area old T)) :=
  mem_area.2 (.inr ⟨old, listed, by rwa [Function.update_self]⟩)

theorem mem_swapped_kept {old r x : Ref} {T : Finset Ref} (member : x ∈ insert r (o.refs.toFinset.biUnion area))
    (kept : x ∈ area old → x ∈ T) : x ∈ insert r (o.refs.toFinset.biUnion (Function.update area old T)) := by
  refine mem_area.2 ((mem_area.1 member).imp_right fun ⟨c, listed, inside⟩ => ⟨c, listed, ?_⟩)
  by_cases same : c = old
  · rw [same, Function.update_self]
    exact kept (same ▸ inside)
  · rwa [Function.update_of_ne same]

theorem Layer.renew {c : Ref} {m : Node} {T : Finset Ref} (layer : h.Layer r o area) (part : c ∈ o.refs)
    (found : h'[r]? = some o) (made : h'.Holds c m T) (within : ∀ x ∈ T, x ∈ area c ∨ h.length ≤ x)
    (others : ∀ d ∈ o.refs, d ≠ c → h'.Holds d (h.tree d) (area d)) :
    ∃ n, h'.Holds r n (insert r (o.refs.toFinset.biUnion (Function.update area c T))) := by
  have bound : (r : Nat) < h.length := (List.getElem?_eq_some_iff.1 layer.found).1
  refine ⟨o.toNode (Function.update h.tree c m), .intro found layer.once layer.shown (fun d listed => ?_)
    (layer.apart_update part within) fun d listed => ?_⟩
  · by_cases same : d = c
    · subst same
      simpa using made
    · simpa [same] using others d listed same
  · by_cases same : d = c
    · subst same
      rw [Function.update_self]
      exact fun member => (within r member).elim (layer.own d listed) (Nat.not_le.2 bound)
    · rw [Function.update_of_ne same]
      exact layer.own d listed

theorem exists_area {parts : List (Ref × Finset Ref)} (apart : parts.Pairwise fun p q => Disjoint p.2 q.2) :
    ∃ area : Ref → Finset Ref, (∀ c ∈ parts.map (·.1), (c, area c) ∈ parts) ∧
      ∀ c ∈ parts.map (·.1), ∀ d ∈ parts.map (·.1), c ≠ d → Disjoint (area c) (area d) := by
  have origin : ∀ c, ∃ S, c ∈ parts.map (·.1) → (c, S) ∈ parts := by
    intro c
    by_cases member : c ∈ parts.map (·.1)
    · obtain ⟨⟨_, S⟩, inside, rfl⟩ := List.mem_map.1 member
      exact ⟨S, fun _ => inside⟩
    · exact ⟨∅, fun inside => absurd inside member⟩
  choose area area_mem using origin
  refine ⟨area, area_mem, fun c hc d hd ne => ?_⟩
  have : Std.Symm fun p q : Ref × Finset Ref => Disjoint p.2 q.2 := ⟨fun _ _ apart => Disjoint.symm apart⟩
  exact apart.forall (area_mem c hc) (area_mem d hd) fun same => ne (congrArg Prod.fst same)

theorem Holds.of_parts (parts : List (Ref × Finset Ref)) (found : h[r]? = some o)
    (listed : o.refs = parts.map (·.1)) (shown : o.marked.Nodup)
    (below : ∀ p ∈ parts, ∃ n, h.Holds p.1 n p.2) (apart : parts.Pairwise fun p q => Disjoint p.2 q.2)
    (own : ∀ p ∈ parts, r ∉ p.2) :
    ∃ T, h.Holds r (o.toNode h.tree) T ∧ ∀ x ∈ T, x = r ∨ ∃ p ∈ parts, x ∈ p.2 := by
  obtain ⟨area, area_mem, disjoint⟩ := exists_area apart
  rw [← listed] at area_mem disjoint
  have once : o.refs.Nodup := by
    rw [listed, List.Nodup, List.pairwise_map]
    refine apart.imp_of_mem fun {p q} hp hq disjoint same => ?_
    obtain ⟨_, left⟩ := below p hp
    obtain ⟨_, right⟩ := below q hq
    exact Finset.disjoint_left.1 disjoint left.self_mem (same ▸ right.self_mem)
  have layer : h.Layer r o area := by
    refine ⟨found, once, shown, fun c member => ?_, disjoint, fun c member => own _ (area_mem c member)⟩
    obtain ⟨n, holds⟩ := below _ (area_mem c member)
    rw [holds.tree_eq]
    exact holds
  refine ⟨_, layer.holds, fun x inside => ?_⟩
  rw [mem_area] at inside
  rcases inside with same | ⟨c, member, inside⟩
  · exact .inl same
  · exact .inr ⟨_, area_mem c member, inside⟩

end Heap

end JsxBoundary.InPlace
