import JsxBoundary.Proofs.InPlace.Building

namespace JsxBoundary.InPlace

namespace Mark

variable {children content : List Ref} {tree : Ref → Node}

theorem toPiece_shows (tree : Ref → Node) {k : Ref} (child : k ∈ children) (mark : Mark) :
    (match mark.toPiece children tree with
      | .child j => j == children.idxOf k
      | _ => false) = (mark == .node k) := by
  cases mark with
  | text value => rfl
  | node r =>
      by_cases member : r ∈ children
      · simp only [toPiece, if_pos member]
        rw [Bool.eq_iff_iff, beq_iff_eq, beq_iff_eq, List.idxOf_inj member]
        exact ⟨congrArg _, fun same => by cases same; rfl⟩
      · simp only [toPiece, if_neg member]
        have ne : r ≠ k := fun same => member (same ▸ child)
        simp [ne]

theorem idxOf_filter {p : Ref → Bool} {cs : List Ref} {r : Ref} {i : Nat} (once : cs.Nodup)
    (found : cs[i]? = some r) (kept : p r = true) :
    (cs.filter p).idxOf r = ((cs.take i).filter p).length := by
  obtain ⟨bound, same⟩ := List.getElem?_eq_some_iff.1 found
  have split : cs = cs.take i ++ r :: cs.drop (i + 1) := by
    rw [← same, List.getElem_cons_drop, List.take_append_drop]
  have outside : r ∉ cs.take i := by
    rw [split] at once
    exact fun member => (List.nodup_append.1 once).2.2 r member r (.head _) rfl
  conv_lhs => rw [split, List.filter_append, List.filter_cons, if_pos kept]
  rw [List.idxOf_append_of_notMem fun member => outside (List.mem_filter.1 member).1, List.idxOf_cons_self,
    Nat.add_zero]

theorem keptPiece_content {cs : List Node} {r : Ref} {j : Nat} (unique : content.Nodup)
    (place : content[j]? = some r) :
    Node.keptPiece cs (content.map tree) (.child (j + 1)) =
      [(Mark.node r).toPiece (content.filter fun c => !(tree c).isBlankText) tree] := by
  have there : (content.map tree)[j]? = some (tree r) := by
    rw [List.getElem?_map, place, Option.map_some]
  simp only [Node.keptPiece, there, toPiece]
  by_cases blank : (tree r).isBlankText = true
  · have gone : r ∉ content.filter (fun c => !(tree c).isBlankText) := by simp [blank]
    rw [if_pos blank, if_neg gone]
  · have kept : r ∈ content.filter (fun c => !(tree c).isBlankText) := by
      simp [blank, List.mem_of_getElem? place]
    rw [if_neg blank, if_pos kept, idxOf_filter unique place (by simp [blank])]
    simp [Node.keptContent, ← List.map_take, List.filter_map, Function.comp_def]

theorem keptPiece_beside {cs : List Node} {r : Ref} {i : Nat} (outside : r ∉ content)
    (beside : i = 0 ∨ content.length < i) (shown : cs[i]? = some (tree r)) :
    Node.keptPiece cs (content.map tree) (.child i) =
      [(Mark.node r).toPiece (content.filter fun c => !(tree c).isBlankText) tree] := by
  have gone : r ∉ content.filter (fun c => !(tree c).isBlankText) :=
    fun kept => outside (List.mem_filter.1 kept).1
  rw [toPiece, if_neg gone]
  cases i with
  | zero =>
      rw [Node.keptPiece, shown]
      rfl
  | succ j =>
      have nowhere : (content.map tree)[j]? = none := by
        rw [List.getElem?_eq_none_iff, List.length_map]
        omega
      simp only [Node.keptPiece, nowhere, shown]
      rfl

theorem keptPiece_toPiece {opening : Ref} {closing : List Ref}
    (once : (opening :: (content ++ closing)).Nodup) (mark : Mark) :
    Node.keptPiece ((opening :: (content ++ closing)).map tree) (content.map tree)
        (mark.toPiece (opening :: (content ++ closing)) tree) =
      [mark.toPiece (content.filter fun c => !(tree c).isBlankText) tree] := by
  obtain ⟨first, rest⟩ := List.nodup_cons.1 once
  obtain ⟨unique, _, last⟩ := List.nodup_append.1 rest
  cases mark with
  | text value => rfl
  | node r =>
      by_cases member : r ∈ opening :: (content ++ closing)
      · have place := List.getElem?_idxOf member
        have shown : ((opening :: (content ++ closing)).map tree)[(opening :: (content ++ closing)).idxOf r]? =
            some (tree r) := by
          rw [List.getElem?_map, place, Option.map_some]
        rw [toPiece, if_pos member]
        generalize (opening :: (content ++ closing)).idxOf r = i at place shown
        cases i with
        | zero =>
            cases place
            exact keptPiece_beside (fun other => first (List.mem_append_left _ other)) (.inl rfl) shown
        | succ j =>
            rw [List.getElem?_cons_succ] at place
            by_cases bound : j < content.length
            · rw [List.getElem?_append_left bound] at place
              exact keptPiece_content unique place
            · have after := Nat.le_of_not_lt bound
              rw [List.getElem?_append_right after] at place
              exact keptPiece_beside (fun other => last r other r (List.mem_of_getElem? place) rfl)
                (.inr (Nat.lt_succ_of_le after)) shown
      · have outside : r ∉ content.filter (fun c => !(tree c).isBlankText) := fun kept =>
          member (.tail _ (List.mem_append_left _ (List.mem_filter.1 kept).1))
        rw [toPiece, if_neg member, toPiece, if_neg outside]
        rfl

end Mark

variable {h h' : Heap} {r opening : Ref} {content : List Ref} {closing : Option Ref} {o : Object}
  {tree : Ref → Node}

theorem innerPieces_toNode (found : h[r]? = some o)
    (own : o.form = .element (some opening) content closing) (once : o.form.children.Nodup) :
    (o.toNode tree).innerPieces =
      (h.innerMarks r opening closing).map (·.map (Mark.toPiece o.form.children tree)) := by
  have written : h.layout? r = o.layout := by simp [Heap.layout?, found]
  unfold Heap.innerMarks
  rw [written]
  clear written found
  obtain ⟨form, layout⟩ := o
  cases own
  cases layout with
  | none => cases closing <;> rfl
  | some marks =>
      cases closing with
      | none => rfl
      | some closing =>
          simp only [Form.children, Option.toList_some, List.cons_append, List.nil_append] at once ⊢
          have opens : opening ∈ opening :: (content ++ [closing]) := .head _
          have closes : closing ∈ opening :: (content ++ [closing]) := by simp
          have first := Mark.toPiece_shows tree opens
          have last := Mark.toPiece_shows tree closes
          rw [List.idxOf_cons_self] at first
          have outside : closing ∉ opening :: content := by
            rw [← List.cons_append] at once
            exact fun member => (List.nodup_append.1 once).2.2 closing member closing (.head _) rfl
          rw [← List.cons_append, List.idxOf_append_of_notMem outside, List.idxOf_cons_self] at last
          simp only [Node.innerPieces, Object.toNode, Node.form_mk, Node.layout_mk, Form.map,
            Option.map_some, List.length_map, List.findIdx?_map]
          refine (congrArg₂ (fun p q => do
            let start ← marks.findIdx? p
            let stop ← marks.findIdx? q
            return ((marks.map (Mark.toPiece (opening :: (content ++ [closing])) tree)).take stop).drop
              (start + 1)) (funext first) (funext last)).trans ?_
          cases start : marks.findIdx? (· == .node opening) <;>
            cases stop : marks.findIdx? (· == .node closing) <;> simp [start, stop]

theorem innerMarks_refs {inner : List Mark} (found : h[r]? = some o) (shown : o.marked.Nodup)
    (cut : h.innerMarks r opening closing = some inner) :
    (Mark.refs inner).Sublist o.marked ∧ opening ∉ Mark.refs inner ∧ ∀ c ∈ closing, c ∉ Mark.refs inner := by
  simp only [Heap.innerMarks, Option.bind_eq_bind, Option.bind_eq_some_iff, Option.pure_def,
    Option.some.injEq] at cut
  obtain ⟨marks, written, last, rfl, start, first, stop, second, rfl⟩ := cut
  have all : o.marked = Mark.refs marks := by
    rw [Heap.layout?, found, Option.bind_some] at written
    rw [Object.marked, written]
    rfl
  -- A tag that stands at a place of the layout stands neither before it nor after it.
  have apart : ∀ {k : Ref} {i : Nat}, marks.findIdx? (· == .node k) = some i →
      k ∉ Mark.refs (marks.take i) ∧ k ∉ Mark.refs (marks.drop (i + 1)) := by
    intro k i here
    obtain ⟨bound, same, _⟩ := List.findIdx?_eq_some_iff_getElem.1 here
    have split : marks = marks.take i ++ .node k :: marks.drop (i + 1) := by
      rw [← eq_of_beq same, List.getElem_cons_drop, List.take_append_drop]
    have once : (Mark.refs (marks.take i) ++ k :: Mark.refs (marks.drop (i + 1))).Nodup := by
      have listed : Mark.refs marks = Mark.refs (marks.take i) ++ k :: Mark.refs (marks.drop (i + 1)) := by
        conv_lhs => rw [split]
        simp [Mark.refs, Mark.ref?]
      rwa [← listed, ← all]
    obtain ⟨_, after, before⟩ := List.nodup_append.1 once
    exact ⟨fun member => before k member k (.head _) rfl, (List.nodup_cons.1 after).1⟩
  refine ⟨?_, fun member => (apart first).2 ?_, ?_⟩
  · rw [all]
    exact ((List.drop_sublist _ _).trans (List.take_sublist _ _)).filterMap _
  · rw [List.drop_take] at member
    exact ((List.take_sublist _ _).filterMap _).subset member
  · intro c same member
    cases Option.mem_some_iff.1 same
    exact (apart second).1 (((List.drop_sublist _ _).filterMap _).subset member)

def fragmentObject (kept : List Ref) (inner : Option (List Mark)) : Object where
  form := .fragment kept
  layout := inner.map fun inner => .text "<>" :: inner ++ [.text "</>"]

theorem fragment_refs {area : Ref → Finset Ref} (layer : h.Layer r o area)
    (own : o.form = .element (some opening) content closing) (p : Ref → Bool) :
    let F := fragmentObject (content.filter p) (h.innerMarks r opening closing)
    F.refs.Nodup ∧ F.marked.Nodup ∧ ∀ c ∈ F.refs, c ∈ o.refs ∧ c ≠ opening ∧ ∀ d ∈ closing, c ≠ d := by
  intro F
  have listed : o.form.children = opening :: (content ++ closing.toList) := by rw [own]; rfl
  have once : (opening :: (content ++ closing.toList)).Nodup := by
    rw [← listed]
    exact (List.nodup_append.1 layer.once).1
  obtain ⟨first, rest⟩ := List.nodup_cons.1 once
  obtain ⟨unique, _, last⟩ := List.nodup_append.1 rest
  have inner : F.marked.Nodup ∧ ∀ c ∈ F.marked, c ∈ o.refs ∧ c ≠ opening ∧ ∀ d ∈ closing, c ≠ d := by
    cases cut : h.innerMarks r opening closing with
    | none =>
        have empty : F.marked = [] := by simp [F, cut, fragmentObject, Object.marked, Mark.refs]
        simp [empty]
    | some inner =>
        have same : F.marked = Mark.refs inner := by
          simp [F, cut, fragmentObject, Object.marked, Mark.refs, Mark.ref?, List.filterMap_cons]
        obtain ⟨sub, before, after⟩ := innerMarks_refs layer.found layer.shown cut
        rw [same]
        refine ⟨layer.shown.sublist sub, fun c member => ⟨?_, ?_, ?_⟩⟩
        · exact Object.mem_refs.2 (.inr (sub.subset member))
        · exact fun same => before (same ▸ member)
        · exact fun d tag same => after d tag (same ▸ member)
  have kept : ∀ c ∈ content.filter p, c ∈ o.refs ∧ c ≠ opening ∧ ∀ d ∈ closing, c ≠ d := by
    intro c member
    have child := (List.mem_filter.1 member).1
    refine ⟨Object.mem_refs.2 (.inl (by simp [listed, child])), fun same => ?_, fun d tag => ?_⟩
    · exact first (List.mem_append_left _ (same ▸ child))
    · exact last c child d (Option.mem_toList.2 tag)
  refine ⟨?_, inner.1, fun c member => ?_⟩
  · refine List.nodup_append.2 ⟨unique.filter p, inner.1.filter _, fun a child b loose same => ?_⟩
    exact (Object.mem_loose.1 loose).2 (same ▸ child)
  · exact (Object.mem_refs.1 member).elim (kept c) (inner.2 c)

theorem keptContent_map (tree : Ref → Node) (content : List Ref) :
    Node.keptContent (content.map tree) = (content.filter fun c => !(tree c).isBlankText).map tree := by
  simp [Node.keptContent, List.filter_map, Function.comp_def]

theorem fragment_toNode (found : h[r]? = some o)
    (own : o.form = .element (some opening) content closing) (once : o.form.children.Nodup) :
    (o.toNode tree).keptFragment (content.map tree) =
      (fragmentObject (content.filter fun c => !(tree c).isBlankText)
        (h.innerMarks r opening closing)).toNode tree := by
  have listed : o.form.children = opening :: (content ++ closing.toList) := by rw [own]; rfl
  have cut : ∀ inner : List Mark,
      (inner.map (Mark.toPiece o.form.children tree)).flatMap
          (Node.keptPiece (o.toNode tree).children (content.map tree)) =
        inner.map (Mark.toPiece (content.filter fun c => !(tree c).isBlankText) tree) := by
    intro inner
    rw [listed] at once
    rw [Object.children_toNode, listed, List.flatMap_map]
    simp only [Mark.keptPiece_toPiece once]
    exact List.flatMap_pure_eq_map _ _
  unfold Node.keptFragment
  rw [innerPieces_toNode found own once, keptContent_map]
  cases h.innerMarks r opening closing with
  | none => rfl
  | some inner =>
      simp only [Option.map_some, cut]
      simp [fragmentObject, Object.toNode, Form.map, Form.children, Mark.toPiece]

def Untagged (o : Object) (area : Ref → Finset Ref) (opening : Ref) (closing : Option Ref) (x : Ref) : Prop :=
  ∃ c ∈ o.refs, c ≠ opening ∧ (∀ d ∈ closing, c ≠ d) ∧ x ∈ area c

inductive Bodies (h : Heap) (free : Ref → Prop) (source : Option Ref) (outer : Option Node) :
    Option Ref → Heap → Option Node → Prop
  | missing : Bodies h free source outer none h none
  | made {h' : Heap} {body : Ref} {e : Node} {B : Finset Ref} (longer : h <+: h')
      (wraps : Build.Wraps h' body e B source outer) (within : ∀ x ∈ B, free x ∨ h.length ≤ x) :
      Bodies h free source outer (some body) h' (some e)

theorem fragment_bodies {area : Ref → Finset Ref} {kept : List Ref} (layer : h.Layer r o area)
    (own : o.form = .element (some opening) content closing)
    (rest : content.filter (fun c => !(h.tree c).isBlankText) = kept) :
    Bodies h (Untagged o area opening closing) none none
      (some h.length) (h ++ [fragmentObject kept (h.innerMarks r opening closing)])
      (some ((o.toNode h.tree).keptFragment (content.map h.tree))) := by
  obtain ⟨once, shown, part⟩ := fragment_refs layer own fun c => !(h.tree c).isBlankText
  rw [fragment_toNode layer.found own (List.nodup_append.1 layer.once).1]
  rw [rest] at once shown part ⊢
  generalize fragmentObject kept (h.innerMarks r opening closing) = F at once shown part
  obtain ⟨longer, _, T, holds, within⟩ := Heap.gains_concat (S := F.refs.toFinset.biUnion area)
    (F.refs.map fun c => (c, area c)) (by simp [Function.comp_def]) shown
    (fun p member => by
      obtain ⟨c, inner, rfl⟩ := List.mem_map.1 member
      exact ⟨_, layer.below c (part c inner).1⟩)
    (List.pairwise_map.2 (once.pairwise_of_forall_ne fun a ha b hb ne =>
      layer.apart a (part a ha).1 b (part b hb).1 ne))
    (fun p member x inside => by
      obtain ⟨c, inner, rfl⟩ := List.mem_map.1 member
      exact Finset.mem_biUnion.2 ⟨c, List.mem_toFinset.2 inner, inside⟩)
  refine .made longer (.bare holds) fun x member => (within x member).imp_left fun old => ?_
  obtain ⟨c, member, inside⟩ := Finset.mem_biUnion.1 old
  obtain ⟨listed, before, after⟩ := part c (List.mem_toFinset.1 member)
  exact ⟨c, listed, before, after, inside⟩

theorem deferredBody_bodies {area : Ref → Finset Ref} {kept : List Ref} (layer : h.Layer r o area)
    (own : o.form = .element (some opening) content closing)
    (rest : content.filter (fun c => !(h.tree c).isBlankText) = kept) :
    let built := Build.deferredBody r opening closing kept h
    Bodies h (Untagged o area opening closing)
      (h.loneContainer? kept) (Node.loneContainer? (kept.map h.tree)) built.1 built.2
      (Node.deferredBody? (kept.map h.tree) ((o.toNode h.tree).keptFragment (content.map h.tree))) := by
  intro built
  have fragment := fragment_bodies layer own rest
  rcases all : kept with _ | ⟨c, _ | ⟨d, more⟩⟩
  · rw [all] at fragment
    simpa [built, all, Build.deferredBody, fragmentObject, Node.deferredBody?, Heap.loneContainer?,
      Node.loneContainer?] using fragment
  · obtain ⟨_, _, part⟩ := fragment_refs layer own fun c => !(h.tree c).isBlankText
    rw [rest, all] at part
    obtain ⟨listed, before, after⟩ := part c (Object.mem_refs.2 (.inl (.head _)))
    have held := layer.below c listed
    have free : ∀ x ∈ area c, Untagged o area opening closing x ∨ h.length ≤ x :=
      fun x inside => .inl ⟨c, listed, before, after, inside⟩
    obtain ⟨p, _, layer', node, _⟩ := held.layer
    have form : (h.tree c).form = p.form.map h.tree := by
      rw [node]
      rfl
    have seen := Heap.form?_eq layer'.found
    simp only [built, all, Build.deferredBody, Build.bind_apply, Build.get_apply, List.map_cons,
      List.map_nil, Node.deferredBody?, Node.loneContainer?, Heap.loneContainer?, Node.contained?, form, seen]
    cases kind : p.form with
    | element first middle last => exact .made (List.prefix_refl h) (.bare held) free
    | container e =>
        rw [kind] at seen
        cases empty : (h.tree e).isEmptyExpression with
        | true =>
            simp only [Form.map, Build.pure_apply, empty]
            exact .missing
        | false =>
            simp only [Form.map, Build.pure_apply, empty]
            exact .made (List.prefix_refl h) (.held held seen rfl)
              fun x inside => free x (Finset.mem_of_mem_erase inside)
    | _ => exact .missing
  · rw [all] at fragment
    simpa [built, all, Build.deferredBody, fragmentObject, Node.deferredBody?, Heap.loneContainer?,
      Node.loneContainer?] using fragment

theorem element_gains {area : Ref → Finset Ref} {i : Ref} {e : Node} {T : Finset Ref}
    (layer : h.Layer r o area) (own : o.form = .element (some opening) content closing)
    (longer : h <+: h') (inner : h'.Holds i e T)
    (within : ∀ x ∈ T, Untagged o area opening closing x ∨ h.length ≤ x) :
    h.Gains (h' ++ [⟨.element (some opening) [i] closing, none⟩]) (o.refs.toFinset.biUnion area) h'.length
      (.fresh (.element (some (h.tree opening)) [e] (closing.map h.tree))) := by
  have listed : o.form.children = opening :: (content ++ closing.toList) := by rw [own]; rfl
  have once : opening ∉ closing := by
    have all := (List.nodup_append.1 layer.once).1
    rw [listed] at all
    exact fun same => (List.nodup_cons.1 all).1 (List.mem_append_right _ (Option.mem_toList.2 same))
  have first : opening ∈ o.refs := Object.mem_refs.2 (.inl (by simp [listed]))
  have final : ∀ d ∈ closing, d ∈ o.refs := fun d tag => Object.mem_refs.2 (.inl (by
    rw [listed]
    exact .tail _ (List.mem_append_right _ (Option.mem_toList.2 tag))))
  have clear : ∀ d ∈ o.refs, (d = opening ∨ d ∈ closing) → Disjoint T (area d) := by
    intro d part tag
    refine Finset.disjoint_left.2 fun x inside other => ?_
    rcases within x inside with ⟨c, listed, before, after, member⟩ | new
    · have ne : c ≠ d := by
        rcases tag with rfl | tag
        · exact before
        · exact after d tag
      exact Finset.disjoint_left.1 (layer.apart c listed d part ne) member other
    · exact absurd ((layer.below d part).lt_of_mem x other) (Nat.not_lt.2 new)
  have part : ∀ d ∈ o.refs, area d ⊆ o.refs.toFinset.biUnion area :=
    fun d listed => Finset.subset_biUnion_of_mem area (List.mem_toFinset.2 listed)
  have gains := Heap.gains_element (S := T ∪ o.refs.toFinset.biUnion area) closing h.tree area
    ((layer.below opening first).extend longer) inner
    (fun d tag => (layer.below d (final d tag)).extend longer) (clear opening first (.inl rfl)).symm
    (fun d tag => ⟨layer.apart opening first d (final d tag) fun same => once (same ▸ tag),
      clear d (final d tag) (.inr tag)⟩)
    ⟨(part opening first).trans Finset.subset_union_right, Finset.subset_union_left,
      fun d tag => (part d (final d tag)).trans Finset.subset_union_right⟩
  obtain ⟨last, _, U, holds, bound⟩ := gains
  refine ⟨longer.trans last, longer.length_le, U, holds, fun x member => ?_⟩
  rcases bound x member with inside | new
  · rcases Finset.mem_union.1 inside with inside | old
    · refine (within x inside).imp_left ?_
      rintro ⟨c, listed, _, _, member⟩
      exact part c listed member
    · exact .inl old
  · exact .inr (longer.length_le.trans new)

inductive Heap.Offers (h h' : Heap) (S : Finset Ref) : Option Ref → Option Node → Prop
  | nothing (longer : h <+: h') : Heap.Offers h h' S none none
  | made {r : Ref} {m : Node} (gains : h.Gains h' S r m) : Heap.Offers h h' S (some r) (some m)

theorem deferChildren?_toNode (found : h[r]? = some o) :
    h.deferrable? r = none ∧ (o.toNode h.tree).deferChildren? = none ∨
      ∃ opening content closing kept, h.deferrable? r = some (opening, kept, closing) ∧
        o.form = .element (some opening) content closing ∧
        content.filter (fun c => !(h.tree c).isBlankText) = kept ∧
        (o.toNode h.tree).deferChildren? =
          (Node.deferredBody? (kept.map h.tree) ((o.toNode h.tree).keptFragment (content.map h.tree))).map
            fun body => .fresh (.element (some (h.tree opening))
              [body.thunk (Node.loneContainer? (kept.map h.tree))] (closing.map h.tree)) := by
  have form : (o.toNode h.tree).form = o.form.map h.tree := rfl
  unfold Heap.deferrable? Node.deferChildren?
  rw [Heap.form?_eq found, form]
  cases own : o.form with
  | element opening content closing =>
      cases opening with
      | none => exact .inl ⟨rfl, rfl⟩
      | some opening =>
          simp only [Form.map, Option.map_some]
          cases tag : (h.tree opening).form with
          | openingTag name attributes selfClosing =>
              cases selfClosing with
              | true => exact .inl ⟨rfl, rfl⟩
              | false =>
                  simp only [keptContent_map]
                  split
                  · exact .inl ⟨rfl, rfl⟩
                  · exact .inr ⟨opening, content, closing, _, rfl, rfl, rfl, rfl⟩
          | _ => exact .inl ⟨rfl, rfl⟩
  | _ => exact .inl ⟨rfl, rfl⟩

theorem deferral_offers {n : Node} {S : Finset Ref} (holds : h.Holds r n S) :
    h.Offers (Build.deferral r h).2 (S.erase r) (Build.deferral r h).1 n.deferChildren? := by
  obtain ⟨o, area, layer, rfl, rfl⟩ := holds.layer
  rw [layer.erase, Build.deferral, Build.bind_apply, Build.get_apply]
  rcases deferChildren?_toNode layer.found with ⟨refused, same⟩ |
    ⟨opening, content, closing, kept, accepted, own, rest, same⟩
  · rw [refused, same]
    exact .nothing (List.prefix_refl h)
  · have bodies := deferredBody_bodies layer own rest
    rw [accepted, same]
    dsimp only
    rw [Build.bind_apply]
    generalize Build.deferredBody r opening closing kept h = built at bodies ⊢
    generalize Node.deferredBody? (kept.map h.tree)
      ((o.toNode h.tree).keptFragment (content.map h.tree)) = body at bodies ⊢
    obtain ⟨body?, h₁⟩ := built
    cases bodies with
    | missing => exact .nothing (List.prefix_refl _)
    | @made h₁ body e B longer wraps within =>
        obtain ⟨longer', new, T, inner, within'⟩ := Build.thunk_gains wraps
        dsimp only at longer longer' new inner within' ⊢
        rw [Build.bind_apply, Build.map_apply, Build.alloc_apply]
        generalize Build.thunk body (h.loneContainer? kept) h₁ = result at longer' new inner ⊢
        obtain ⟨i, h₂⟩ := result
        dsimp only at longer' new inner ⊢
        refine .made (element_gains layer own (longer.trans longer') inner fun x member => ?_)
        rcases within' x member with part | new
        · exact within x part
        · exact .inr (longer.length_le.trans new)

end JsxBoundary.InPlace
