import JsxBoundary.InPlace.Replacement
import JsxBoundary.Proofs.InPlace.Holds

namespace JsxBoundary.InPlace

variable {h h' : Heap} {r body : Ref} {n e : Node} {S : Finset Ref}

/-- `n` stands at a new reference of the second heap, made of objects in `S` and of new ones. -/
structure Heap.Gains (h h' : Heap) (S : Finset Ref) (r : Ref) (n : Node) : Prop where
  longer : h <+: h'
  fresh : h.length ≤ r
  holds : ∃ T, h'.Holds r n T ∧ ∀ x ∈ T, x ∈ S ∨ h.length ≤ x

namespace Heap

theorem getElem?_concat (h : Heap) (o : Object) : (h ++ [o])[h.length]? = some o := by
  simp

theorem gains_concat {o : Object} (parts : List (Ref × Finset Ref)) (listed : o.refs = parts.map (·.1))
    (shown : o.marked.Nodup) (below : ∀ p ∈ parts, ∃ n, h.Holds p.1 n p.2)
    (apart : parts.Pairwise fun p q => Disjoint p.2 q.2) (inside : ∀ p ∈ parts, ∀ x ∈ p.2, x ∈ S) :
    h.Gains (h ++ [o]) S h.length (o.toNode h.tree) := by
  have longer : h <+: h ++ [o] := List.prefix_append h [o]
  have same : o.toNode (h ++ [o]).tree = o.toNode h.tree := by
    refine Object.toNode_congr fun c member => ?_
    rw [listed] at member
    obtain ⟨p, inside, rfl⟩ := List.mem_map.1 member
    obtain ⟨n, holds⟩ := below p inside
    rw [holds.tree_eq, (holds.extend longer).tree_eq]
  obtain ⟨T, holds, within⟩ := Holds.of_parts parts (h.getElem?_concat o) listed shown
    (fun p member => (below p member).imp fun n holds => holds.extend longer) apart fun p member own => by
      obtain ⟨n, holds⟩ := below p member
      exact absurd (holds.lt_of_mem _ own) (Nat.lt_irrefl _)
  refine ⟨longer, Nat.le_refl _, T, same ▸ holds, fun x member => ?_⟩
  rcases within x member with rfl | ⟨p, part, member⟩
  · exact .inr (Nat.le_refl _)
  · exact .inl (inside p part x member)

theorem refs_fresh (form : Form Ref) : (⟨form, none⟩ : Object).refs = form.children := by
  simp [Object.refs, Object.loose, Object.marked, Mark.refs]

theorem gains_leaf (form : Form Ref) (childless : form.children = []) :
    h.Gains (h ++ [⟨form, none⟩]) ∅ h.length (.fresh (form.map h.tree)) :=
  gains_concat [] ((refs_fresh form).trans childless) List.nodup_nil nofun .nil nofun

theorem gains_single (form : Form Ref) (holds : h.Holds r n S) (lone : form.children = [r]) :
    h.Gains (h ++ [⟨form, none⟩]) S h.length (.fresh (form.map h.tree)) := by
  refine gains_concat [(r, S)] ((refs_fresh form).trans lone) List.nodup_nil ?_
    (List.pairwise_singleton _ _) (by simp)
  intro p member
  cases List.mem_singleton.1 member
  exact ⟨n, holds⟩

theorem gains_element {opening i : Ref} {m : Node} {A B : Finset Ref} (closing : Option Ref)
    (last : Ref → Node) (area : Ref → Finset Ref) (first : h.Holds opening m A) (inner : h.Holds i e B)
    (tag : ∀ d ∈ closing, h.Holds d (last d) (area d)) (apart : Disjoint A B)
    (clear : ∀ d ∈ closing, Disjoint A (area d) ∧ Disjoint B (area d))
    (inside : A ⊆ S ∧ B ⊆ S ∧ ∀ d ∈ closing, area d ⊆ S) :
    h.Gains (h ++ [⟨.element (some opening) [i] closing, none⟩]) S h.length
      (.fresh (.element (some m) [e] (closing.map last))) := by
  have gains := gains_concat (S := S) (o := ⟨.element (some opening) [i] closing, none⟩)
    ((opening, A) :: (i, B) :: closing.toList.map fun d => (d, area d))
    ((refs_fresh _).trans (by simp [Form.children, Function.comp_def])) List.nodup_nil
    (by
      simp only [List.forall_mem_cons, List.forall_mem_map, Option.mem_toList]
      exact ⟨⟨m, first⟩, ⟨e, inner⟩, fun d final => ⟨last d, tag d final⟩⟩)
    (by
      simp only [List.pairwise_cons, List.forall_mem_cons, List.forall_mem_map, Option.mem_toList]
      refine ⟨⟨apart, fun d final => (clear d final).1⟩, fun d final => (clear d final).2, ?_⟩
      cases closing with
      | none => exact .nil
      | some d => exact List.pairwise_singleton _ _)
    (by
      simp only [List.forall_mem_cons, List.forall_mem_map, Option.mem_toList]
      exact ⟨fun x => (inside.1 ·), fun x => (inside.2.1 ·), fun d final x => (inside.2.2 d final ·)⟩)
  have node : (⟨.element (some opening) [i] closing, none⟩ : Object).toNode h.tree =
      .fresh (.element (some m) [e] (closing.map last)) := by
    have final : closing.map h.tree = closing.map last :=
      Option.map_congr fun d member => (tag d member).tree_eq
    show Node.mk (.element (some (h.tree opening)) [h.tree i] (closing.map h.tree)) none = _
    rw [first.tree_eq, inner.tree_eq, final]
  rwa [node] at gains

theorem Gains.trans {h₁ h₂ : Heap} {r' : Ref} {n' : Node} (first : h.Gains h₁ S r n)
    (second : ∀ T, h₁.Holds r n T → h₁.Gains h₂ T r' n') : h.Gains h₂ S r' n' := by
  obtain ⟨T, holds, within⟩ := first.holds
  obtain ⟨longer, fresh, T', holds', within'⟩ := (second T holds)
  have grown : h.length ≤ h₁.length := first.longer.length_le
  refine ⟨first.longer.trans longer, grown.trans fresh, T', holds', fun x member => ?_⟩
  rcases within' x member with old | new
  · exact within x old
  · exact .inr (grown.trans new)

theorem Gains.after {h₁ : Heap} (gains : h₁.Gains h' S r n) (longer : h <+: h₁) : h.Gains h' S r n := by
  obtain ⟨T, holds, within⟩ := gains.holds
  have grown := longer.length_le
  exact ⟨longer.trans gains.longer, grown.trans gains.fresh, T, holds,
    fun x member => (within x member).imp_right grown.trans⟩

theorem Gains.mono {S' : Finset Ref} (gains : h.Gains h' S r n) (le : S ⊆ S') : h.Gains h' S' r n := by
  obtain ⟨T, holds, within⟩ := gains.holds
  exact ⟨gains.longer, gains.fresh, T, holds, fun x member => (within x member).imp_left (le ·)⟩

end Heap

namespace Build

variable {α β : Type}

@[simp] theorem bind_apply (build : Build α) (next : α → Build β) (h : Heap) :
    (build >>= next) h = next (build h).1 (build h).2 := rfl

@[simp] theorem get_apply (h : Heap) : (get : Build Heap) h = (h, h) := rfl

@[simp] theorem pure_apply (a : α) (h : Heap) : (pure a : Build α) h = (a, h) := rfl

@[simp] theorem map_apply (f : α → β) (build : Build α) (h : Heap) :
    (f <$> build) h = (f (build h).1, (build h).2) := rfl

@[simp] theorem alloc_apply (form : Form Ref) (layout : Option (List Mark)) (h : Heap) :
    alloc form layout h = (h.length, h ++ [⟨form, layout⟩]) := rfl

/-- `body` stands for `e`, with its surroundings in the container `source` if there is one. The objects are
those of `body`, or those below the container. -/
inductive Wraps (h : Heap) (body : Ref) (e : Node) : Finset Ref → Option Ref → Option Node → Prop
  | bare {S : Finset Ref} (holds : h.Holds body e S) : Wraps h body e S none none
  | held {c : Ref} {m : Node} {S : Finset Ref} (holds : h.Holds c m S)
      (form : h.form? c = some (.container body)) (same : h.tree body = e) :
      Wraps h body e (S.erase c) (some c) (some m)

theorem thunk_fresh {source : Option Ref}
    (plain : (source.bind h.layout?).filter (·.contains (.node body)) = none) :
    thunk body source h =
      (h.length + 1, h ++ [⟨.arrow body none, none⟩] ++ [⟨.container h.length, none⟩]) := by
  rw [thunk, bind_apply, get_apply, plain]
  simp

theorem thunk_marked {source : Option Ref} {marks : List Mark}
    (shown : (source.bind h.layout?).filter (·.contains (.node body)) = some marks) :
    thunk body source h =
      (h.length + 1, h ++
        [⟨.arrow body none, some (if (h.tree body).needsBodyParens
          then [.text "() => (", .node body, .text ")"] else [.text "() => ", .node body])⟩] ++
        [⟨.container h.length, some (marks.map (Mark.map fun r => if r = body then h.length else r))⟩]) := by
  rw [thunk, bind_apply, get_apply, shown]
  simp

theorem any_isFirstChild (marks : List Mark) (tree : Ref → Node) :
    (marks.map (Mark.toPiece [body] tree)).any Piece.isFirstChild = marks.contains (.node body) := by
  rw [List.any_map, List.contains_eq_any_beq]
  congr 1
  funext mark
  cases mark with
  | text value => rfl
  | node r =>
      by_cases same : r = body
      · simp [Mark.toPiece, same, Piece.isFirstChild]
      · simp [Mark.toPiece, same, Piece.isFirstChild, Ne.symm same]

theorem gains_arrow (holds : h.Holds body e S) (layout : Option (List Mark))
    (written : layout = none ∨ layout = some (if e.needsBodyParens
      then [.text "() => (", .node body, .text ")"] else [.text "() => ", .node body])) :
    h.Gains (h ++ [⟨.arrow body none, layout⟩]) S h.length
      (.mk (.arrow e none) (layout.map (·.map (Mark.toPiece [body] h.tree)))) := by
  have marked : (⟨.arrow body none, layout⟩ : Object).marked = [] ∨
      (⟨.arrow body none, layout⟩ : Object).marked = [body] := by
    rcases written with rfl | rfl
    · exact .inl rfl
    · right
      show Mark.refs (if _ then _ else _) = _
      split <;> rfl
  have listed : (⟨.arrow body none, layout⟩ : Object).refs = [(body, S)].map (·.1) := by
    rcases marked with none | some <;> simp [Object.refs, Object.loose, *, Form.children]
  have gains := Heap.gains_concat [(body, S)] listed (by rcases marked with same | same <;> simp [same])
    (fun p member => by
      cases List.mem_singleton.1 member
      exact ⟨e, holds⟩)
    (List.pairwise_singleton _ _) (S := S) (by simp)
  have node : (⟨.arrow body none, layout⟩ : Object).toNode h.tree =
      .mk (.arrow e none) (layout.map (·.map (Mark.toPiece [body] h.tree))) := by
    rw [← holds.tree_eq]
    rfl
  rwa [node] at gains

theorem shown_pieces {o : Object} (own : o.form = .container body) (tree : Ref → Node) :
    (o.toNode tree).layout.filter (·.any Piece.isFirstChild) =
      (o.layout.filter (·.contains (.node body))).map (·.map (Mark.toPiece [body] tree)) := by
  obtain ⟨form, layout⟩ := o
  cases own
  cases layout with
  | none => rfl
  | some marks =>
      show (some (marks.map (Mark.toPiece [body] tree))).filter _ = _
      rw [Option.filter_some, Option.filter_some, any_isFirstChild]
      split <;> rfl

theorem thunk_node {o : Object} {marks : List Mark} {tree : Ref → Node} (own : o.form = .container body)
    (shown : o.layout.filter (·.contains (.node body)) = some marks) :
    e.thunk (some (o.toNode tree)) = (o.toNode tree).withChildren [.mk (.arrow e none)
      (some ((if e.needsBodyParens then [.text "() => (", .node body, .text ")"]
        else [.text "() => ", .node body]).map (Mark.toPiece [body] tree)))] := by
  have pieces := shown_pieces own tree
  have written : o.layout = some marks := (Option.filter_eq_some_iff.1 shown).1
  rw [shown] at pieces
  obtain ⟨form, layout⟩ := o
  cases own
  cases written
  rw [Node.thunk, Option.bind_some, pieces]
  have opened : (if e.needsBodyParens then [.text "() => (", .child 0, .text ")"]
      else [.text "() => ", .child 0] : List (Piece Node)) =
      (if e.needsBodyParens then [.text "() => (", .node body, .text ")"]
        else [.text "() => ", .node body]).map (Mark.toPiece [body] tree) := by
    split <;> simp [Mark.toPiece]
  simp only [Option.map_some]
  rw [opened]
  rfl

theorem thunk_fresh_gains {B : Finset Ref} {source : Option Ref} (holds : h.Holds body e B) (inside : B ⊆ S)
    (plain : (source.bind h.layout?).filter (·.contains (.node body)) = none) :
    h.Gains (thunk body source h).2 S (thunk body source h).1
      (.fresh (.container (.fresh (.arrow e none)))) := by
  rw [thunk_fresh plain]
  refine ((gains_arrow holds none (.inl rfl)).mono inside).trans fun T arrow => ?_
  have container := Heap.gains_single (.container h.length) arrow rfl
  rwa [Form.map, arrow.tree_eq, List.length_append] at container

theorem thunk_marked_gains {c : Ref} {o : Object} {area : Ref → Finset Ref} {marks : List Mark}
    (layer : h.Layer c o area) (own : o.form = .container body)
    (shown : o.layout.filter (·.contains (.node body)) = some marks) :
    h.Gains (thunk body (some c) h).2 (o.refs.toFinset.biUnion area) (thunk body (some c) h).1
      ((h.tree body).thunk (some (o.toNode h.tree))) := by
  have content : body ∈ o.form.children := by simp [own, Form.children]
  have layout : (some c).bind h.layout? = o.layout := by simp [Heap.layout?, layer.found]
  have written : o.layout = some marks := (Option.filter_eq_some_iff.1 shown).1
  have container : (⟨.container h.length, some (marks.map (Mark.map fun x =>
      if x = body then h.length else x))⟩ : Object) =
      o.map fun x => if x = body then h.length else x := by
    simp [Object.map, own, written, Form.map]
  rw [thunk_marked (layout ▸ shown), container]
  obtain ⟨longer, _, T, arrow, within⟩ :=
    gains_arrow (layer.below body (Object.mem_refs.2 (.inl content))) _ (.inr rfl)
  generalize grown : h ++ [_] = h₁ at longer arrow ⊢
  have length : h₁.length = h.length + 1 := by simp [← grown]
  have last : h₁ <+: h₁ ++ [o.map fun x => if x = body then h.length else x] := List.prefix_append _ _
  have placed : (h₁ ++ [o.map fun x => if x = body then h.length else x])[h₁.length]? = some _ :=
    h₁.getElem?_concat _
  have holds := layer.swapped content placed (arrow.extend last) within
    (fun member => Nat.lt_irrefl _ (arrow.lt_of_mem _ member)) fun d member _ => by
      have before := (layer.below d member).extend longer
      exact ⟨before.extend last, fun member => Nat.lt_irrefl _ (before.lt_of_mem _ member)⟩
  rw [length] at holds
  refine ⟨longer.trans last, Nat.le_succ _,
    insert (h.length + 1) (o.refs.toFinset.biUnion (Function.update area body T)), ?_, fun x member => ?_⟩
  · rw [thunk_node own shown]
    simpa [own, Form.children] using holds
  · rcases Heap.mem_swapped_parts (Object.mem_refs.2 (.inl content)) within member with rfl | new | old
    · exact .inr (Nat.le_succ _)
    · exact .inr new
    · exact .inl old

theorem thunk_gains {source : Option Ref} {outer : Option Node} (wraps : Wraps h body e S source outer) :
    h.Gains (thunk body source h).2 S (thunk body source h).1 (e.thunk outer) := by
  cases wraps with
  | bare holds => exact thunk_fresh_gains holds subset_rfl rfl
  | @held c m S holds form same =>
      obtain ⟨o, area, layer, rfl, rfl⟩ := holds.layer
      have own : o.form = .container body := by
        rw [Heap.form?_eq layer.found] at form
        exact Option.some.inj form
      subst same
      rw [layer.erase]
      cases shown : o.layout.filter (·.contains (.node body)) with
      | none =>
          have pieces := shown_pieces own h.tree
          rw [shown] at pieces
          have child : body ∈ o.refs := Object.mem_refs.2 (.inl (by simp [own, Form.children]))
          have layout : (some c).bind h.layout? = o.layout := by simp [Heap.layout?, layer.found]
          rw [Node.thunk, Option.bind_some, pieces]
          refine thunk_fresh_gains (layer.below body child) ?_ (layout ▸ shown)
          exact Finset.subset_biUnion_of_mem area (List.mem_toFinset.2 child)
      | some marks => exact thunk_marked_gains layer own shown

theorem Wraps.lt_of_mem {source : Option Ref} {outer : Option Node} (wraps : Wraps h body e S source outer) :
    ∀ x : Nat, x ∈ S → x < h.length := by
  cases wraps with
  | bare holds => exact holds.lt_of_mem
  | held holds => exact fun x inside => holds.lt_of_mem x (Finset.mem_of_mem_erase inside)

theorem Wraps.extend {source : Option Ref} {outer : Option Node} (wraps : Wraps h body e S source outer)
    (longer : h <+: h') : Wraps h' body e S source outer := by
  cases wraps with
  | bare holds => exact .bare (holds.extend longer)
  | held holds form same =>
      refine .held (holds.extend longer) (Heap.form?_of_longer longer form) ?_
      obtain ⟨o, area, layer, _, _⟩ := holds.layer
      have own : o.form = .container body := by
        rw [Heap.form?_eq layer.found] at form
        exact Option.some.inj form
      have below := layer.below body (Object.mem_refs.2 (.inl (by simp [own, Form.children])))
      exact (below.extend longer).tree_eq.trans same

theorem tag_gains (component : String) (tag : Form Ref) (lone : tag.children = [h.length]) :
    h.Gains (h ++ [⟨.identifier component, none⟩] ++ [⟨tag, none⟩]) ∅ (h.length + 1)
      (.fresh (tag.map fun _ => .fresh (.identifier component))) := by
  refine (Heap.gains_leaf (.identifier component) rfl).trans fun T name => ?_
  have whole := Heap.gains_single tag name lone
  have same : (tag.map (h ++ [⟨.identifier component, none⟩] : Heap).tree) =
      tag.map fun _ => .fresh (.identifier component) := by
    refine Form.map_congr fun c child => ?_
    rw [lone] at child
    cases List.mem_singleton.1 child
    exact name.tree_eq
  rwa [same, List.length_append] at whole

theorem boundary_gains (component : String) {source : Option Ref} {outer : Option Node}
    (wraps : Wraps h body e S source outer) :
    h.Gains (boundary component body source h).2 S (boundary component body source h).1
      (e.boundary component outer) := by
  obtain ⟨longer, new, T₁, opening, within₁⟩ :=
    tag_gains (h := h) component (.openingTag h.length [] false) rfl
  generalize opened : h ++ [_] ++ [_] = h₂ at longer opening
  have length₂ : h₂.length = h.length + 2 := by simp [← opened]
  obtain ⟨longer', new', T₂, inner, within₂⟩ := thunk_gains (wraps.extend longer)
  generalize built : thunk body source h₂ = result at longer' new' inner
  obtain ⟨i, h₃⟩ := result
  dsimp only at longer' new' inner
  obtain ⟨longer'', new'', T₃, closing, within₃⟩ :=
    tag_gains (h := h₃) component (.closingTag h₃.length) rfl
  generalize closed : h₃ ++ [_] ++ [_] = h₅ at longer'' closing
  have run : boundary component body source h = (h₅.length,
      h₅ ++ [⟨.element (some (h.length + 1)) [i] (some (h₃.length + 1)), none⟩]) := by
    subst opened closed
    simp only [List.append_assoc, List.cons_append, List.nil_append] at built
    simp [boundary, built]
  rw [run]
  -- The tags are new, and the references of the second one come after those of the function.
  have low : ∀ x : Nat, x ∈ T₁ → h.length ≤ x ∧ x < h₂.length := fun x member =>
    ⟨by simpa using within₁ x member, opening.lt_of_mem x member⟩
  have middle : ∀ x : Nat, x ∈ T₂ → (x < h.length ∨ h₂.length ≤ x) ∧ x < h₃.length := fun x member =>
    ⟨(within₂ x member).imp_left (wraps.lt_of_mem x), inner.lt_of_mem x member⟩
  have high : ∀ x : Nat, x ∈ T₃ → h₃.length ≤ x := fun x member => by simpa using within₃ x member
  have first : Disjoint T₁ T₂ := Finset.disjoint_left.2 fun x a b => by
    have := low x a
    have := middle x b
    omega
  have second : Disjoint T₁ T₃ := Finset.disjoint_left.2 fun x a b => by
    have := low x a
    have := high x b
    have := longer'.length_le
    omega
  have third : Disjoint T₂ T₃ := Finset.disjoint_left.2 fun x a b => by
    have := middle x a
    have := high x b
    omega
  have element := Heap.gains_element (S := T₁ ∪ (T₂ ∪ T₃)) (some (h₃.length + 1)) (fun _ => _) (fun _ => T₃)
    ((opening.extend longer').extend longer'') (inner.extend longer'')
    (fun d final => by
      cases Option.mem_some_iff.1 final
      exact closing)
    first (fun d final => ⟨second, third⟩)
    ⟨Finset.subset_union_left, Finset.subset_union_left.trans Finset.subset_union_right,
      fun d final => Finset.subset_union_right.trans Finset.subset_union_right⟩
  have grown : h.length ≤ h₅.length := ((longer.trans longer').trans longer'').length_le
  obtain ⟨T, holds, within⟩ := element.holds
  refine ⟨((longer.trans longer').trans longer'').trans element.longer, grown, T, holds, fun x member => ?_⟩
  rcases within x member with part | new
  · simp only [Finset.mem_union] at part
    rcases part with part | part | part
    · exact .inr (low x part).1
    · exact (within₂ x part).imp_right fun new => by omega
    · have := high x part
      have := longer'.length_le
      exact .inr (by omega)
  · exact .inr (grown.trans new)

end Build

end JsxBoundary.InPlace
