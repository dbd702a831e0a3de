import JsxBoundary.Boundary
import JsxBoundary.Proofs.Paired
import JsxBoundary.Proofs.TextEdit

namespace JsxBoundary

inductive Prints : List Part → String → Prop
  | nil : Prints [] ""
  | cons {p : Part} {ps : List Part} {a b : String} (head : p.print = .ok a) (tail : Prints ps b) :
      Prints (p :: ps) (a ++ b)

namespace Prints

variable {p : Part} {ps qs : List Part} {t : String}

theorem text (value : String) {b : String} (tail : Prints ps b) :
    Prints (.text value :: ps) (value ++ b) :=
  .cons rfl tail

theorem node {n : Node} {a b : String} (head : n.print = .ok a) (tail : Prints ps b) :
    Prints (.node n :: ps) (a ++ b) :=
  .cons head tail

theorem of_toList {t' : String} (h : Prints ps t) (same : t.toList = t'.toList) : Prints ps t' :=
  String.toList_inj.1 same ▸ h

theorem of_cons (h : Prints (p :: ps) t) : ∃ a b, p.print = .ok a ∧ Prints ps b ∧ t = a ++ b := by
  cases h with
  | cons head tail => exact ⟨_, _, head, tail, rfl⟩

theorem append {a b : String} (left : Prints ps a) (right : Prints qs b) :
    Prints (ps ++ qs) (a ++ b) := by
  induction left with
  | nil => simpa using right
  | cons head _ ih =>
      rw [String.append_assoc]
      exact .cons head ih

theorem of_append (h : Prints (ps ++ qs) t) : ∃ a b, Prints ps a ∧ Prints qs b ∧ t = a ++ b := by
  induction ps generalizing t with
  | nil => exact ⟨"", t, .nil, h, by simp⟩
  | cons p ps ih =>
      obtain ⟨a, b, head, tail, rfl⟩ := h.of_cons
      obtain ⟨c, d, left, right, rfl⟩ := ih tail
      exact ⟨a ++ c, d, .cons head left, right, String.append_assoc.symm⟩

theorem single (h : p.print = .ok t) : Prints [p] t := by
  have one := Prints.cons h .nil
  rwa [String.append_empty] at one

theorem of_mem {n : Node} (h : Prints ps t) (member : .node n ∈ ps) :
    ∃ a u b, n.print = .ok u ∧ t = a ++ u ++ b := by
  obtain ⟨front, back, rfl⟩ := List.append_of_mem member
  obtain ⟨a, _, _, rest, rfl⟩ := h.of_append
  obtain ⟨u, b, own, _, rfl⟩ := rest.of_cons
  exact ⟨a, u, b, own, String.append_assoc.symm⟩

end Prints

namespace Node

theorem prints_iff_mapM (ps : List Part) (t : String) :
    Prints ps t ↔ ∃ texts, ps.mapM Part.print = .ok texts ∧ t = String.join texts := by
  induction ps generalizing t with
  | nil =>
      constructor
      · intro h
        cases h
        exact ⟨[], rfl, rfl⟩
      · rintro ⟨texts, h, rfl⟩
        cases h
        exact .nil
  | cons p ps ih =>
      rw [List.mapM_cons]
      constructor
      · intro h
        obtain ⟨a, b, head, tail, rfl⟩ := h.of_cons
        obtain ⟨texts, rest, rfl⟩ := (ih b).1 tail
        exact ⟨a :: texts, by rw [head, rest]; rfl, String.join_cons.symm⟩
      · rintro ⟨texts, h, rfl⟩
        cases head : p.print with
        | error fault => rw [head] at h; cases h
        | ok a =>
            cases rest : ps.mapM Part.print with
            | error fault => rw [head, rest] at h; cases h
            | ok texts' =>
                rw [head, rest] at h
                cases h
                rw [String.join_cons]
                exact .cons head ((ih _).2 ⟨texts', rest, rfl⟩)

theorem print_of_parts {n : Node} {ps : List Part} (parts : n.parts = .ok ps) :
    n.print = (ps.mapM Part.print).map String.join := by
  rw [print_eq, parts]
  change (ps.mapM Part.print >>= fun texts => pure (String.join texts)) = _
  cases ps.mapM Part.print <;> rfl

theorem print_ok_iff {n : Node} {t : String} :
    n.print = .ok t ↔ ∃ ps, n.parts = .ok ps ∧ Prints ps t := by
  cases parts : n.parts with
  | error fault =>
      rw [print_eq, parts]
      constructor
      · intro h
        cases h
      · rintro ⟨ps, h, _⟩
        cases h
  | ok ps =>
      rw [print_of_parts parts]
      constructor
      · intro h
        refine ⟨ps, rfl, (prints_iff_mapM ps t).2 ?_⟩
        cases printed : ps.mapM Part.print with
        | error fault =>
            rw [printed] at h
            cases h
        | ok texts =>
            rw [printed] at h
            cases h
            exact ⟨texts, rfl, rfl⟩
      · rintro ⟨_, h, prints⟩
        cases h
        obtain ⟨texts, printed, rfl⟩ := (prints_iff_mapM ps t).1 prints
        rw [printed]
        rfl

def Edits (component : String) (deferred : Bool) (n m : Node) : Prop :=
  ∀ t, n.print = .ok t → ∃ t', m.print = .ok t' ∧ TextEdit component deferred t t'

def Enlarges (component : String) (deferred : Bool) (n m : Node) : Prop :=
  ∀ t, n.print = .ok t → ∃ t', m.print = .ok t' ∧ TextEnlargement component deferred t t'

theorem Enlarges.edits {component : String} {deferred : Bool} {n m : Node}
    (h : n.Enlarges component deferred m) : n.Edits component deferred m := by
  intro t printed
  obtain ⟨t', printed', enlarged⟩ := h t printed
  exact ⟨t', printed', enlarged.edit⟩

end Node

/-- The same text, or nodes of which the second one prints as an edit of the first one. -/
inductive Part.Edits (component : String) (deferred : Bool) : Part → Part → Prop
  | text (value : String) : Part.Edits component deferred (.text value) (.text value)
  | node {n m : Node} (h : n.Edits component deferred m) :
      Part.Edits component deferred (.node n) (.node m)

section

variable {component : String} {deferred : Bool}

theorem Prints.edits {ps qs : List Part} {t : String} (h : Prints ps t)
    (pairs : Pointwise (Part.Edits component deferred) ps qs) :
    ∃ t', Prints qs t' ∧ TextEdit component deferred t t' := by
  induction h generalizing qs with
  | nil =>
      rw [pairs.of_nil]
      exact ⟨"", .nil, .same ""⟩
  | @cons p ps a b head tail ih =>
      obtain ⟨q, qs, rfl, edits, rest⟩ := pairs.of_cons
      obtain ⟨b', printed, edited⟩ := ih rest
      cases edits with
      | text =>
          cases head
          exact ⟨a ++ b', .cons rfl printed, .append (.same a) edited⟩
      | node edits =>
          obtain ⟨a', written, edited'⟩ := edits a head
          exact ⟨a' ++ b', .cons written printed, .append edited' edited⟩

theorem Prints.enlarges {ps qs : List Part} {t : String} (h : Prints ps t)
    (pairs : Pointwise (Part.Edits component deferred) ps qs) {n m : Node}
    (pair : (.node n, .node m) ∈ ps.zip qs) (enlarged : n.Enlarges component deferred m) :
    ∃ t', Prints qs t' ∧ TextEnlargement component deferred t t' := by
  induction h generalizing qs with
  | nil => cases pair
  | @cons p ps a b head tail ih =>
      obtain ⟨q, qs, rfl, edits, rest⟩ := pairs.of_cons
      rw [List.zip_cons_cons] at pair
      rcases List.mem_cons.1 pair with same | pair
      · cases same
        obtain ⟨a', written, enlarged'⟩ := enlarged a head
        obtain ⟨b', printed, edited⟩ := tail.edits rest
        exact ⟨a' ++ b', .cons written printed, enlarged'.append_left edited⟩
      · obtain ⟨b', printed, enlarged'⟩ := ih rest pair
        cases edits with
        | text =>
            cases head
            exact ⟨a ++ b', .cons rfl printed, .append_right (.same a) enlarged'⟩
        | node edits =>
            obtain ⟨a', written, edited⟩ := edits a head
            exact ⟨a' ++ b', .cons written printed, .append_right edited enlarged'⟩

namespace Node.Edits

theorem refl (n : Node) : n.Edits component deferred n :=
  fun t printed => ⟨t, printed, .same t⟩

theorem ofPiece {children cs : List Node} (below : Pointwise (Node.Edits component deferred) children cs)
    (piece : Piece Node) :
    Pointwise (Part.Edits component deferred) (Part.ofPiece children piece) (Part.ofPiece cs piece) := by
  cases piece with
  | text value => exact .cons (.text value) .nil
  | loose n => exact .cons (.node (refl n)) .nil
  | child i =>
      simp only [Part.ofPiece]
      cases ha : children[i]? with
      | none =>
          have outside : cs[i]? = none := by
            rw [List.getElem?_eq_none_iff] at ha ⊢
            rw [below.length]
            exact ha
          rw [outside]
          exact .nil
      | some a =>
          have inside : i < cs.length := by
            rw [below.length]
            exact (List.getElem?_eq_some_iff.1 ha).1
          have hb := List.getElem?_eq_getElem inside
          rw [hb]
          exact .cons (.node (below.each i _ _ ha hb)) .nil

theorem ofPieces {children cs : List Node} (below : Pointwise (Node.Edits component deferred) children cs)
    (pieces : List (Piece Node)) :
    Pointwise (Part.Edits component deferred) (pieces.flatMap (Part.ofPiece children))
      (pieces.flatMap (Part.ofPiece cs)) := by
  induction pieces with
  | nil => exact .nil
  | cons piece pieces ih => exact (ofPiece below piece).append ih

theorem withChildren {n : Node} {cs : List Node} {pieces : List (Piece Node)}
    (layout : n.layout = some pieces) (below : Pointwise (Node.Edits component deferred) n.children cs) :
    n.Edits component deferred (n.withChildren cs) := by
  intro t printed
  obtain ⟨ps, parts, prints⟩ := print_ok_iff.1 printed
  simp only [Node.parts, layout] at parts
  cases parts
  obtain ⟨t', prints', edited⟩ := prints.edits (ofPieces below pieces)
  refine ⟨t', print_ok_iff.2 ⟨_, ?_, prints'⟩, edited⟩
  simp only [Node.parts, layout_withChildren, layout, n.children_withChildren below.length]

theorem mem_zip_ofPieces {children cs : List Node} {pieces : List (Piece Node)} {i : Nat} {a b : Node}
    (below : Pointwise (Node.Edits component deferred) children cs) (shown : .child i ∈ pieces)
    (before : children[i]? = some a) (after : cs[i]? = some b) :
    (.node a, .node b) ∈ (pieces.flatMap (Part.ofPiece children)).zip
      (pieces.flatMap (Part.ofPiece cs)) := by
  obtain ⟨front, back, rfl⟩ := List.append_of_mem shown
  simp only [List.flatMap_append, List.flatMap_cons]
  rw [List.zip_append (ofPieces below front).length.symm, Part.ofPiece, before, Part.ofPiece, after]
  exact List.mem_append_right _ (.head _)

theorem withChildren_enlarges {n : Node} {cs : List Node} {pieces : List (Piece Node)}
    (layout : n.layout = some pieces) (below : Pointwise (Node.Edits component deferred) n.children cs)
    {i : Nat} {a b : Node} (shown : .child i ∈ pieces) (before : n.children[i]? = some a)
    (after : cs[i]? = some b) (enlarged : a.Enlarges component deferred b) :
    n.Enlarges component deferred (n.withChildren cs) := by
  intro t printed
  obtain ⟨ps, parts, prints⟩ := print_ok_iff.1 printed
  simp only [Node.parts, layout] at parts
  cases parts
  obtain ⟨t', prints', enlarged⟩ := prints.enlarges (ofPieces below pieces)
    (mem_zip_ofPieces below shown before after) enlarged
  refine ⟨t', print_ok_iff.2 ⟨_, ?_, prints'⟩, enlarged⟩
  simp only [Node.parts, layout_withChildren, layout, n.children_withChildren below.length]

end Node.Edits

namespace Node

def ArrowLayout (body : Node) (layout : Option (List (Piece Node))) : Prop :=
  layout = none ∨ layout = some (if body.needsBodyParens then
    [.text "() => (", .child 0, .text ")"] else [.text "() => ", .child 0])

theorem print_arrow {body : Node} {u : String} (printed : body.print = .ok u)
    {layout : Option (List (Piece Node))} (written : ArrowLayout body layout) :
    (mk (.arrow body none) layout).print =
      .ok ("() => " ++ if body.needsBodyParens then "(" ++ u ++ ")" else u) := by
  rw [print_ok_iff]
  rcases written with rfl | rfl <;> cases parens : body.needsBodyParens
  · refine ⟨[.text "()", .text " => ", .node body], by simp [parts, Form.parts, parens], ?_⟩
    exact (Prints.text "()" (.text " => " (.node printed .nil))).of_toList (by simp)
  · refine ⟨[.text "()", .text " => (", .node body, .text ")"], by simp [parts, Form.parts, parens], ?_⟩
    exact (Prints.text "()" (.text " => (" (.node printed (.text ")" .nil)))).of_toList (by simp)
  · refine ⟨[.text "() => ", .node body], by simp [parts, Part.ofPiece, children, Form.children], ?_⟩
    exact (Prints.text "() => " (.node printed .nil)).of_toList (by simp)
  · refine ⟨[.text "() => (", .node body, .text ")"],
      by simp [parts, Part.ofPiece, children, Form.children], ?_⟩
    exact (Prints.text "() => (" (.node printed (.text ")" .nil))).of_toList (by simp)

theorem print_thunk_of_bare {body : Node} {source : Option Node} {u : String}
    (bare : (source.bind layout).filter (·.any Piece.isFirstChild) = none) (printed : body.print = .ok u) :
    (body.thunk source).print =
      .ok ("\x7b" ++ ("() => " ++ if body.needsBodyParens then "(" ++ u ++ ")" else u) ++ "\x7d") := by
  have inner := print_arrow printed (.inl rfl)
  rw [thunk, bare, print_ok_iff]
  exact ⟨_, rfl, (Prints.text "\x7b" (.node inner (.text "\x7d" .nil))).of_toList (by simp)⟩

theorem print_thunk_of_layout {c body : Node} {front back : List (Piece Node)} {before u after : String}
    (layout : c.layout = some (front ++ .child 0 :: back)) (printed : body.print = .ok u)
    (head : ∀ all, Prints (front.flatMap (Part.ofPiece all)) before)
    (tail : ∀ all, Prints (back.flatMap (Part.ofPiece all)) after) :
    (body.thunk (some c)).print =
      .ok (before ++ ("() => " ++ if body.needsBodyParens then "(" ++ u ++ ")" else u) ++ after) := by
  have shown : ((some c).bind Node.layout).filter (·.any Piece.isFirstChild) =
      some (front ++ .child 0 :: back) := by
    simp [layout, Piece.isFirstChild]
  have inner := print_arrow printed (.inr rfl)
  rw [thunk, shown, print_ok_iff]
  refine ⟨_, rfl, ?_⟩
  rw [List.flatMap_append, List.flatMap_cons]
  exact ((head _).append (.node inner (tail _))).of_toList (by simp)

theorem of_print_arrow {body : Node} {v : String} {layout : Option (List (Piece Node))}
    (written : ArrowLayout body layout)
    (printed : (mk (.arrow body none) layout).print = .ok v) : ∃ u, v = "() => " ++ u := by
  obtain ⟨ps, shown, prints⟩ := print_ok_iff.1 printed
  have member : .node body ∈ ps := by
    rcases written with rfl | rfl <;> cases parens : body.needsBodyParens <;>
      simp [parts, Form.parts, Part.ofPiece, children, Form.children, parens] at shown <;>
      simp [← shown]
  obtain ⟨_, u, _, inner, _⟩ := prints.of_mem member
  rw [print_arrow inner written] at printed
  cases printed
  exact ⟨_, rfl⟩

theorem mem_of_any_isFirstChild {pieces : List (Piece Node)}
    (shown : pieces.any Piece.isFirstChild = true) : .child 0 ∈ pieces := by
  obtain ⟨piece, member, isFirst⟩ := List.any_eq_true.1 shown
  unfold Piece.isFirstChild at isFirst
  split at isFirst
  · exact member
  · cases isFirst

theorem of_print_thunk {body : Node} {source : Option Node} {v : String}
    (printed : (body.thunk source).print = .ok v) : ∃ a b, v = a ++ "() => " ++ b := by
  have around : ∀ {form : Form Node} {layout layout' : Option (List (Piece Node))} {ps : List Part},
      (mk form layout').parts = .ok ps → .node (mk (.arrow body none) layout) ∈ ps →
      ArrowLayout body layout → (mk form layout').print = .ok v → ∃ a b, v = a ++ "() => " ++ b := by
    intro form layout layout' ps shown member written printed
    obtain ⟨_, shown', prints⟩ := print_ok_iff.1 printed
    rw [shown] at shown'
    cases shown'
    obtain ⟨a, u, b, own, rfl⟩ := prints.of_mem member
    obtain ⟨w, rfl⟩ := of_print_arrow written own
    exact ⟨a, w ++ b, by simp only [String.append_assoc]⟩
  unfold thunk at printed
  split at printed
  · rename_i pieces found
    have first : Piece.child 0 ∈ pieces :=
      mem_of_any_isFirstChild (Option.filter_eq_some_iff.1 found).2
    refine around rfl (List.mem_flatMap.2 ⟨_, first, ?_⟩) (.inr rfl) printed
    exact .head _
  · exact around rfl (.tail _ (.head _)) (.inl rfl) printed

end Node

theorem TextEdit.thunk {body : Node} {t u : String} (edited : TextEdit component deferred t u)
    (printed : body.print = .ok u) {source : Option Node}
    (bare : (source.bind Node.layout).filter (·.any Piece.isFirstChild) = none) :
    ∃ v, (body.thunk source).print = .ok v ∧ TextEnlargement component deferred t v := by
  have arrow : TextEdit component deferred t
      ("() => " ++ if body.needsBodyParens then "(" ++ u ++ ")" else u) := by
    apply TextEdit.function
    split
    · exact .parens edited
    · exact edited
  exact ⟨_, Node.print_thunk_of_bare bare printed, .braces arrow⟩

namespace Node.Edits

theorem arrow {e body : Node} {layout : Option (List (Piece Node))}
    (h : e.Edits component deferred body) (written : ArrowLayout body layout) :
    e.Enlarges component deferred (mk (.arrow body none) layout) := by
  intro t printed
  obtain ⟨u, inner, edited⟩ := h t printed
  refine ⟨_, print_arrow inner written, .function ?_⟩
  split
  · exact .parens edited
  · exact edited

theorem thunk {e body : Node} (h : e.Edits component deferred body) {source : Option Node}
    (bare : (source.bind layout).filter (·.any Piece.isFirstChild) = none) :
    e.Enlarges component deferred (body.thunk source) := by
  intro t printed
  obtain ⟨u, inner, edited⟩ := h t printed
  exact edited.thunk inner bare

theorem thunkOf {c e body : Node} {pieces : List (Piece Node)} (h : e.Edits component deferred body)
    (held : c.form = .container e) (layout : c.layout = some pieces)
    (shown : pieces.any Piece.isFirstChild = true) :
    c.Enlarges component deferred (body.thunk (some c)) := by
  have found : ((some c).bind Node.layout).filter (·.any Piece.isFirstChild) = some pieces := by
    simp [layout, shown]
  have first : Piece.child 0 ∈ pieces := mem_of_any_isFirstChild shown
  obtain ⟨form, layout'⟩ := c
  cases held
  cases layout
  have inner : e.Enlarges component deferred (mk (.arrow body none) (some (if body.needsBodyParens then
      [.text "() => (", .child 0, .text ")"] else [.text "() => ", .child 0]))) := h.arrow (.inr rfl)
  rw [Node.thunk, found]
  exact withChildren_enlarges (n := mk (.container e) (some pieces)) rfl (.cons inner.edits .nil) first
    rfl rfl inner

theorem boundary {n e : Node} {source : Option Node}
    (h : n.Edits component deferred (e.thunk source)) :
    n.Enlarges component deferred (e.boundary component source) := by
  intro t printed
  obtain ⟨u, inner, edited⟩ := h t printed
  refine ⟨_, ?_, .boundary edited (of_print_thunk inner)⟩
  have name : (fresh (.identifier component)).print = .ok component :=
    print_ok_iff.2 ⟨_, rfl, (Prints.text component .nil).of_toList (by simp)⟩
  have opening : (fresh (.openingTag (fresh (.identifier component)) [] false)).print
      = .ok ("<" ++ component ++ ">") :=
    print_ok_iff.2 ⟨_, rfl, (Prints.text "<" (.node name (.text ">" .nil))).of_toList (by simp)⟩
  have closing : (fresh (.closingTag (fresh (.identifier component)))).print
      = .ok ("</" ++ component ++ ">") :=
    print_ok_iff.2 ⟨_, rfl, (Prints.text "</" (.node name (.text ">" .nil))).of_toList (by simp)⟩
  rw [print_ok_iff]
  exact ⟨_, rfl, (Prints.node opening (.node inner (.node closing .nil))).of_toList (by simp)⟩

end Node.Edits

end

end JsxBoundary
