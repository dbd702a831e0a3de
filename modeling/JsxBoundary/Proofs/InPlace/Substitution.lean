import JsxBoundary.InPlace.Substitution
import JsxBoundary.Proofs.ImportRoundTrip
import JsxBoundary.Proofs.InPlace.Injection
import JsxBoundary.Proofs.InPlace.Representation

namespace JsxBoundary

namespace InPlace

variable {h h' : Heap} {r x parent old new : Ref} {n k : Node} {o : Object}

/-! ## The changes -/

namespace Change

theorem runOn_exchangeInForm (found : h[parent]? = some o) (old new : Ref) :
    (exchangeInForm parent old new).runOn h = (.ok (o.form.children.contains old),
      h.set parent { o with form := o.form.map fun r => if r = old then new else r }) := by
  rw [exchangeInForm, runOn_get_bind, Heap.form?_eq found]
  show (Except.ok (o.form.children.contains old), h.modify parent _) = _
  rw [List.modify_eq_set_getElem?, found]
  rfl

theorem runOn_exchangeInLayout (found : h[parent]? = some o) (old new : Ref) :
    (exchangeInLayout parent old new).runOn h = (.ok (), h.set parent
      { o with layout := o.layout.map (·.map (Mark.map fun r => if r = old then new else r)) }) := by
  show (Except.ok (), h.modify parent _) = _
  rw [List.modify_eq_set_getElem?, found]
  rfl

theorem runOn_replaceChild (h : Heap) (parent old new : Ref) :
    (replaceChild parent old new).runOn h = match h.replaceChild parent old new with
      | .ok h' => (.ok (), h')
      | .error fault => (.error fault, h) := by
  rw [replaceChild, runOn_bind]
  cases found : h[parent]? with
  | none =>
      have absent : (exchangeInForm parent old new).runOn h = (.ok false, h) := by
        rw [exchangeInForm, runOn_get_bind, Heap.form?, found]
        rfl
      rw [absent, Heap.replaceChild, found]
      rfl
  | some o =>
      have bound : (parent : Nat) < h.length := (List.getElem?_eq_some_iff.1 found).1
      rw [runOn_exchangeInForm found, Heap.replaceChild, found]
      by_cases child : old ∈ o.form.children
      · have kept : (some o).filter (fun o => decide (old ∈ o.form.children)) = some o := by simp [child]
        rw [kept, List.contains_iff_mem.2 child]
        dsimp only
        rw [if_pos rfl, runOn_exchangeInLayout (List.getElem?_set_self bound), List.set_set]
        rfl
      · have dropped : (some o).filter (fun o => decide (old ∈ o.form.children)) = none := by simp [child]
        have same : (o.form.map fun r => if r = old then new else r) = o.form := by
          have fixed : (o.form.map fun r => if r = old then new else r) = o.form.map id :=
            Form.map_congr fun c member => if_neg fun (gone : c = old) => child (gone ▸ member)
          rw [fixed, Form.map_id]
        have absent : o.form.children.contains old = false := by simpa using child
        rw [dropped, same, absent]
        dsimp only
        have stays : h.set parent o = h := by
          obtain ⟨_, rfl⟩ := List.getElem?_eq_some_iff.1 found
          exact List.set_getElem_self bound
        show (if false = true then _ else _ : Change Unit).runOn (h.set parent o) = _
        rw [stays]
        rfl

end Change

/-! ## Trees that do not contain the object -/

namespace Heap

theorem Reaches.head {c : Ref} (found : h[r]? = some o) (listed : c ∈ o.refs) (reached : h.Reaches c x) :
    h.Reaches r x := by
  induction reached with
  | root => exact .step .root found (Object.mem_refs.1 listed)
  | step _ found listed ih => exact .step ih found listed

theorem Reaches.le_of_ordered (ordered : ∀ r (bound : r < h.length), ∀ c ∈ h[r].refs, c < r)
    (reached : h.Reaches r x) : x ≤ r := by
  induction reached with
  | root => exact Nat.le_refl r
  | step _ found listed ih =>
      obtain ⟨bound, rfl⟩ := List.getElem?_eq_some_iff.1 found
      exact (ordered _ bound _ (Object.mem_refs.2 listed)).le.trans ih

namespace Stands

theorem of_reaches (stands : h.Stands r n) (reached : h.Reaches r x) :
    ∃ k, h.Stands x k ∧ (x = r ∨ sizeOf k < sizeOf n) := by
  induction reached with
  | root => exact ⟨n, stands, .inl rfl⟩
  | @step a c o _ found listed ih =>
      obtain ⟨k, standing, small⟩ := ih
      obtain ⟨o', here, rfl, below⟩ := standing.object
      cases found.symm.trans here
      have inside := Object.mem_refs.2 listed
      have smaller := Object.sizeOf_lt_toNode h.tree inside
      refine ⟨_, below c inside, .inr ?_⟩
      rcases small with rfl | small
      · rwa [← stands.unique standing]
      · exact smaller.trans small

theorem not_reaches (stands : h.Stands r n) (reached : h.Reaches r x) (other : x ≠ r) : ¬ h.Reaches x r := by
  intro back
  obtain ⟨k, standing, small⟩ := stands.of_reaches reached
  obtain ⟨k', again, small'⟩ := standing.of_reaches back
  -- Each of the two trees would be smaller than the other.
  have lt := small.resolve_left other
  have lt' := small'.resolve_left (Ne.symm other)
  rw [stands.unique again] at lt'
  exact Nat.lt_asymm lt lt'

theorem frame_of_reaches (stands : h.Stands r n) (same : ∀ x, h.Reaches r x → h'[x]? = h[x]?) :
    h'.Stands r n := by
  induction stands with
  | @intro r o tree found below ih =>
      refine .intro ((same r .root).trans found) fun c listed => ih c listed fun x reached => ?_
      exact same x (reached.head found listed)

theorem frame_set {p : Object} (stands : h.Stands r n) (apart : ¬ h.Reaches r parent) :
    Stands (h.set parent p) r n :=
  stands.frame_of_reaches fun x reached => List.getElem?_set_ne fun (same : parent = x) => apart (same ▸ reached)

end Stands

end Heap

/-! ## The text around a child -/

namespace Mark

variable {t : Ref → Node} {front back marks : List Mark}

theorem print_around (front back : List Mark) (r : Ref) : print t (front ++ .node r :: back) =
    (· ++ ·) <$> print t front <*> ((· ++ ·) <$> (t r).print <*> print t back) := by
  have own : print t [.node r] = (t r).print := by
    simp only [print, List.map_cons, List.map_nil, part, List.mapM_cons, List.mapM_nil, Part.print]
    cases (t r).print with
    | error fault => rfl
    | ok text => exact congrArg Except.ok (by simp)
  rw [print_append, ← List.singleton_append, print_append, own]

theorem print_around_eq_ok {text : String} (printed : print t (front ++ .node r :: back) = .ok text) :
    ∃ before inner after, print t front = .ok before ∧ (t r).print = .ok inner ∧ print t back = .ok after ∧
      text = before ++ inner ++ after := by
  rw [print_around] at printed
  cases head : print t front with
  | error fault => rw [head] at printed; cases printed
  | ok before =>
      cases own : (t r).print with
      | error fault => rw [head, own] at printed; cases printed
      | ok inner =>
          cases tail : print t back with
          | error fault => rw [head, own, tail] at printed; cases printed
          | ok after =>
              rw [head, own, tail] at printed
              cases printed
              exact ⟨before, inner, after, rfl, rfl, rfl, String.append_assoc.symm⟩

theorem print_around_of {before after : String} (head : print t front = .ok before)
    (tail : print t back = .ok after) : print t (front ++ .node r :: back) =
      (before ++ · ++ after) <$> (t r).print := by
  rw [print_around, head, tail]
  cases (t r).print with
  | error fault => rfl
  | ok inner => exact congrArg Except.ok String.append_assoc.symm

theorem exists_split (shown : .node old ∈ marks) (once : (refs marks).Nodup) :
    ∃ front back, marks = front ++ .node old :: back ∧ .node old ∉ front ++ back := by
  obtain ⟨front, back, rfl⟩ := List.append_of_mem shown
  refine ⟨front, back, rfl, fun again => ?_⟩
  rw [refs, List.filterMap_append] at once
  have other := (List.nodup_middle.1 once).notMem
  rw [← List.filterMap_append] at other
  exact other (mem_refs.2 again)

theorem map_of_notMem (new : Ref) (absent : .node old ∉ marks) :
    marks.map (Mark.map fun r => if r = old then new else r) = marks := by
  refine (List.map_congr_left fun mark member => ?_).trans (List.map_id marks)
  cases mark with
  | text value => rfl
  | node r => exact congrArg Mark.node (if_neg fun (gone : r = old) => absent (gone ▸ member))

theorem map_split (new : Ref) (once : .node old ∉ front ++ back) :
    (front ++ .node old :: back).map (Mark.map fun r => if r = old then new else r) =
      front ++ .node new :: back := by
  rw [List.mem_append, not_or] at once
  rw [List.map_append, List.map_cons, map_of_notMem new once.1, map_of_notMem new once.2]
  simp [Mark.map]

end Mark

/-! ## Objects of a module that was read -/

namespace Object

variable {t : Ref → Node} {c : Ref}

theorem mem_refs_map {f : Ref → Ref} : x ∈ (o.map f).refs ↔ ∃ c ∈ o.refs, f c = x := by
  have listed : (o.map f).form.children = o.form.children.map f := Form.children_map f o.form
  rw [mem_refs, listed, marked_map, List.mem_map, List.mem_map]
  simp only [mem_refs, or_and_right, exists_or]

theorem child_of_complete (complete : (o.toNode t).Complete) (listed : c ∈ o.refs) : c ∈ o.form.children := by
  rcases mem_refs.1 listed with child | marked
  · exact child
  · by_contra other
    obtain ⟨marks, layout⟩ : ∃ marks, o.layout = some marks := by
      cases own : o.layout with
      | some marks => exact ⟨marks, rfl⟩
      | none => simp [Object.marked, own, Mark.refs] at marked
    have written : (o.toNode t).layout = some (marks.map (Mark.toPiece o.form.children t)) := by
      rw [toNode, Node.layout_mk, layout, Option.map_some]
    refine complete.closed written (t c) (List.mem_map.2 ⟨.node c, (mem_marked layout).1 marked, ?_⟩)
    rw [Mark.toPiece, if_neg other]

theorem shown_of_complete (complete : (o.toNode t).Complete) (child : c ∈ o.form.children) :
    ∃ marks, o.layout = some marks ∧ (.node c ∈ marks ∨ o.form.omits (t c).form = true) := by
  obtain ⟨i, bound, rfl⟩ := List.getElem_of_mem child
  have found : (o.toNode t).children[i]? = some (t o.form.children[i]) := by
    rw [children_toNode, List.getElem?_map, List.getElem?_eq_getElem bound, Option.map_some]
  obtain ⟨pieces, written, shown⟩ := complete.shown found
  obtain ⟨marks, layout, rfl⟩ := Option.map_eq_some_iff.1 written
  refine ⟨marks, layout, shown.imp (fun listed => ?_) fun omits => ?_⟩
  · obtain ⟨mark, member, same⟩ := List.mem_map.1 listed
    cases mark with
    | text value => cases same
    | node r =>
        rw [Mark.toPiece] at same
        split at same
        · rename_i own
          cases same
          rwa [List.getElem_idxOf]
        · cases same
  · rwa [toNode, Node.form_mk, Form.omits_map] at omits

end Object

theorem Heap.Stands.complete (stands : h.Stands r n) (complete : n.Complete) (reached : h.Reaches r x) :
    ∃ k, h.Stands x k ∧ k.Complete := by
  induction reached with
  | root => exact ⟨n, stands, complete⟩
  | @step a c o _ found listed ih =>
      obtain ⟨k, standing, whole⟩ := ih
      obtain ⟨o', here, rfl, below⟩ := standing.object
      cases found.symm.trans here
      have inside := Object.mem_refs.2 listed
      refine ⟨_, below c inside, whole.child ?_⟩
      rw [Object.children_toNode]
      exact List.mem_map_of_mem (Object.child_of_complete whole inside)

/-! ## The exchange -/

theorem map_update_eq_set {α : Type} {cs : List Ref} {i : Nat} (once : cs.Nodup) (found : cs[i]? = some old)
    (f : Ref → α) (a : α) : cs.map (Function.update f old a) = (cs.map f).set i a := by
  obtain ⟨bound, rfl⟩ := List.getElem?_eq_some_iff.1 found
  rw [once.map_update, if_pos (List.getElem_mem bound), once.idxOf_getElem]

namespace Heap

/-- `new` has come in the place of child number `i` of the parent. No other object has changed, and what was
below the parent is as it was. -/
structure Exchanged (h h' : Heap) (parent : Ref) (i : Nat) (new : Ref) : Prop where
  others : ∀ x, x ≠ parent → h'[x]? = h[x]?
  form : h'.form? parent = (h.form? parent).map (·.withChildren ((h.children parent).set i new))
  children : h'.children parent = (h.children parent).set i new
  descendants : ∀ x, h.Reaches parent x → x ≠ parent → h'.tree x = h.tree x

/-- What the exchange makes of the text of the parent, if the new child has the tree `n`. -/
inductive Reworded (h h' : Heap) (parent old new : Ref) (n : Node) : Prop
  /-- The layout shows the child once, and the text of `n` takes the place of its text. -/
  | shown {front back : List Mark} {before inner after : String}
      (layout : h.layout? parent = some (front ++ .node old :: back)) (once : .node old ∉ front ++ back)
      (layout' : h'.layout? parent = some (front ++ .node new :: back))
      (head : Mark.print h.tree front = .ok before) (span : (h.tree old).print = .ok inner)
      (tail : Mark.print h.tree back = .ok after) (text : (h.tree parent).print = .ok (before ++ inner ++ after))
      (text' : (h'.tree parent).print = (before ++ · ++ after) <$> n.print)
  | omitted {marks : List Mark} {whole : String} (layout : h.layout? parent = some marks)
      (unseen : .node old ∉ marks) (omits : (h.tree parent).form.omits (h.tree old).form = true)
      (layout' : h'.layout? parent = some marks)
      (text : (h.tree parent).print = .ok whole) (text' : (h'.tree parent).print = .ok whole)

section

variable {i : Nat}

theorem layout?_eq (found : h[r]? = some o) : h.layout? r = o.layout := by
  rw [layout?, found, Option.bind_some]

theorem children_eq (found : h[r]? = some o) : h.children r = o.form.children := by
  rw [children, form?_eq found, Option.elim_some]

theorem Stands.child_apart {c : Ref} (stands : h.Stands r n) (found : h[r]? = some o) (listed : c ∈ o.refs) :
    h.Stands c (h.tree c) ∧ ¬ h.Reaches c r := by
  obtain ⟨_, here, rfl, below⟩ := stands.object
  cases found.symm.trans here
  refine ⟨below c listed, stands.not_reaches (.step .root found (Object.mem_refs.1 listed)) ?_⟩
  rintro rfl
  have smaller := Object.sizeOf_lt_toNode h.tree listed
  rw [stands.unique (below c listed)] at smaller
  exact Nat.lt_irrefl _ smaller

theorem Exchanged.of_set (stands : h.Stands parent n) (found : h[parent]? = some o)
    (once : o.form.children.Nodup) (child : o.form.children[i]? = some old) :
    h.Exchanged (h.set parent (o.map fun r => if r = old then new else r)) parent i new := by
  have bound : (parent : Nat) < h.length := (List.getElem?_eq_some_iff.1 found).1
  have here : Heap.form? (h.set parent (o.map fun r => if r = old then new else r)) parent =
      some (o.form.map fun r => if r = old then new else r) := form?_eq (List.getElem?_set_self bound)
  have places : (o.form.children.map fun r => if r = old then new else r) = o.form.children.set i new := by
    have same : (fun r => if r = old then new else r) = Function.update id old new := by
      funext r
      rw [Function.update_apply, id]
    rw [same, map_update_eq_set once child, List.map_id]
  refine ⟨fun x other => List.getElem?_set_ne (Ne.symm other), ?_, ?_, fun x reached other => ?_⟩
  · rw [here, form?_eq found, children_eq found, Option.map_some, ← places,
      Form.map_eq_withChildren id, Form.map_id]
  · rw [Heap.children, here, Option.elim_some, Form.children_map, places, children_eq found]
  · obtain ⟨k, standing, _⟩ := stands.of_reaches reached
    rw [(standing.frame_set (stands.not_reaches reached other)).tree_eq, standing.tree_eq]

theorem Stands.exchange (stands : h.Stands parent n) (found : h[parent]? = some o) (made : h.Stands new k)
    (apart : ¬ h.Reaches new parent) {h' : Heap}
    (changed : h' = h.set parent (o.map fun r => if r = old then new else r)) :
    h'.tree parent = (o.map fun r => if r = old then new else r).toNode h'.tree ∧ h'.tree new = k ∧
      ∀ c ∈ o.refs, h'.tree c = h.tree c := by
  subst changed
  have bound : (parent : Nat) < h.length := (List.getElem?_eq_some_iff.1 found).1
  have placed := made.frame_set (p := o.map fun r => if r = old then new else r) apart
  have kept : ∀ c ∈ o.refs, Stands (h.set parent (o.map fun r => if r = old then new else r)) c (h.tree c) :=
    fun c listed => (stands.child_apart found listed).1.frame_set (stands.child_apart found listed).2
  refine ⟨tree_eq (.intro (List.getElem?_set_self bound) fun c listed => ?_), placed.tree_eq,
    fun c listed => (kept c listed).tree_eq⟩
  obtain ⟨d, member, rfl⟩ := Object.mem_refs_map.1 listed
  split
  · rw [placed.tree_eq]
    exact placed
  · rw [(kept d member).tree_eq]
    exact kept d member

theorem Layer.reworded {area : Ref → Finset Ref} (layer : h.Layer parent o area) (stands : h.Stands parent n)
    (complete : n.Complete) (child : old ∈ o.form.children) (made : h.Stands new k)
    (apart : ¬ h.Reaches new parent) (changed : h' = h.set parent (o.map fun r => if r = old then new else r)) :
    h.Reworded h' parent old new k := by
  obtain ⟨swapped, placed, kept⟩ := stands.exchange layer.found made apart changed
  obtain ⟨_, here, rfl, _⟩ := stands.object
  cases layer.found.symm.trans here
  have bound : (parent : Nat) < h.length := (List.getElem?_eq_some_iff.1 here).1
  obtain ⟨marks, layout, shows⟩ := Object.shown_of_complete complete child
  obtain ⟨text, printed⟩ := complete.prints
  obtain ⟨form, own⟩ := o
  obtain rfl : own = some marks := layout
  have tree := stands.tree_eq
  have other : h'[parent]? = some (Object.map (fun r => if r = old then new else r) ⟨form, some marks⟩) := by
    rw [changed, List.getElem?_set_self bound]
  have written : h'.layout? parent = some (marks.map (Mark.map fun r => if r = old then new else r)) :=
    layout?_eq other
  have prints' : (h'.tree parent).print =
      Mark.print h'.tree (marks.map (Mark.map fun r => if r = old then new else r)) := by
    rw [swapped]
    exact Object.print_toNode _ _ _
  rw [Object.print_toNode] at printed
  have prints : (h.tree parent).print = Mark.print h.tree marks := by rw [tree, Object.print_toNode]
  have same : ∀ c, .node c ∈ marks → h'.tree c = h.tree c :=
    fun c shown => kept c (Object.mem_refs.2 (.inr ((Object.mem_marked rfl).2 shown)))
  -- Marks mention no child twice, so they split around a child that they show.
  by_cases shown : .node old ∈ marks
  · obtain ⟨front, back, rfl, once⟩ := Mark.exists_split shown layer.shown
    obtain ⟨before, inner, after, head, span, tail, rfl⟩ := Mark.print_around_eq_ok printed
    rw [Mark.map_split new once] at written prints'
    have head' : Mark.print h'.tree front = .ok before :=
      (Mark.print_congr fun c shown => same c (List.mem_append_left _ shown)).trans head
    have tail' : Mark.print h'.tree back = .ok after :=
      (Mark.print_congr fun c shown => same c (List.mem_append_right _ (.tail _ shown))).trans tail
    rw [Mark.print_around_of head' tail', placed] at prints'
    exact .shown (layout?_eq layer.found) once written head span tail (prints.trans printed) prints'
  · rw [Mark.map_of_notMem new shown] at written prints'
    refine .omitted (layout?_eq layer.found) shown ?_ written (prints.trans printed) ?_
    · rw [tree, Object.toNode, Node.form_mk, Form.omits_map]
      exact shows.resolve_left shown
    · rw [prints', Mark.print_congr same, printed]

theorem Stands.exchange_tree (stands : h.Stands parent n) (complete : n.Complete) (found : h[parent]? = some o)
    (once : o.form.children.Nodup) (child : o.form.children[i]? = some old) (made : h.Stands new k)
    (apart : ¬ h.Reaches new parent) (fresh : new ∉ o.form.children)
    (changed : h' = h.set parent (o.map fun r => if r = old then new else r)) :
    h'.tree parent = (h.tree parent).setChild i k := by
  obtain ⟨swapped, placed, kept⟩ := stands.exchange found made apart changed
  have tree := stands.tree_eq
  obtain ⟨_, here, rfl, _⟩ := stands.object
  cases found.symm.trans here
  have own : ∀ c ∈ o.refs, c ∈ o.form.children := fun c listed => Object.child_of_complete complete listed
  have unseen : new ∉ o.refs := fun listed => fresh (own new listed)
  rw [swapped, tree, Node.setChild, Object.children_toNode, ← map_update_eq_set once child]
  refine Object.toNode_map (Object.eq_of_exchanged unseen) (fun c listed => ?_) fun c loose => ?_
  · by_cases gone : c = old
    · rw [if_pos gone, placed, gone, Function.update_self]
    · rw [if_neg gone, kept c listed, Function.update_of_ne gone]
  · obtain ⟨marked, other⟩ := Object.mem_loose.1 loose
    exact absurd (own c (Object.mem_refs.2 (.inr marked))) other

end

end Heap

/-- In a module that was read, another object in the place of a child takes the place of its text, unless the
text of the parent leaves the child out. The other children and what is below them stay as they are. What is
no child is refused, and nothing changes. -/
theorem replaceChild_shows {source : String} {root : Concrete} {m : Node} {S : Finset Ref}
    (read : root.toProgram source = .ok m) (holds : h.Holds r m S) (reached : h.Reaches r parent) (old new : Ref) :
    let result := (Change.replaceChild parent old new).runOn h
    (old ∉ h.children parent →
      result = (.error (.notAChild (h.tree old).typeName (h.tree parent).typeName), h)) ∧
    ∀ i, (h.children parent)[i]? = some old →
      result.1 = .ok () ∧ h.Exchanged result.2 parent i new ∧
      ∀ n, h.Stands new n → ¬ h.Reaches new parent →
        result.2.tree new = n ∧ h.Reworded result.2 parent old new n ∧
        (new ∉ h.children parent → result.2.tree parent = (h.tree parent).setChild i n) := by
  intro result
  have ends : result = _ := Change.runOn_replaceChild h parent old new
  obtain ⟨n, A, part, _⟩ := holds.part (holds.reaches reached)
  obtain ⟨k, stands, complete⟩ := holds.stands.complete (Concrete.toProgram_complete read) reached
  obtain rfl := stands.unique part.stands
  obtain ⟨o, area, layer, _⟩ := part.layer
  have once : o.form.children.Nodup := (List.nodup_append.1 layer.once).1
  rw [Heap.children_eq layer.found]
  unfold Heap.replaceChild at ends
  rw [layer.found] at ends
  refine ⟨fun stranger => ?_, fun i child => ?_⟩
  · have none : (some o).filter (fun o => decide (old ∈ o.form.children)) = none := by simp [stranger]
    rwa [none] at ends
  · have listed : old ∈ o.form.children := List.mem_of_getElem? child
    have some : (some o).filter (fun o => decide (old ∈ o.form.children)) = some o := by simp [listed]
    rw [some] at ends
    rw [ends]
    refine ⟨rfl, .of_set stands layer.found once child, fun n made apart => ?_⟩
    refine ⟨(stands.exchange layer.found made apart rfl).2.1, ?_, fun fresh => ?_⟩
    · exact layer.reworded stands complete listed made apart rfl
    · exact stands.exchange_tree complete layer.found once child made apart fresh rfl

/-! ## A statement and an import -/

namespace Sample

def oneStatement (new child statement : Object) : Heap :=
  [new, child, statement, ⟨.program [2], some [.node 2]⟩]

theorem holds_oneStatement {new child statement : Object} (childless : child.refs = [])
    (unmarked : child.marked = []) (lone : statement.refs = [1]) (shown : statement.marked.Nodup) :
    ∃ S, (oneStatement new child statement).Holds 3 ((oneStatement new child statement).tree 3) S := by
  have first := (Heap.Rows.nil 1 : Heap.Rows [new] 1 [] 1).concat (o := child) (by simp [childless])
    (by simp [unmarked]) (by simp [childless])
  have second := (Heap.Rows.cons first.1 (.nil 2)).concat (o := statement) (by simp [lone]) shown (by simp [lone])
  obtain ⟨⟨S, holds, _⟩, _⟩ := (Heap.Rows.cons second.1 (.nil 3)).concat (o := ⟨.program [2], some [.node 2]⟩)
    (by decide) (by decide) (by simp [Object.mem_refs, Object.marked, Mark.refs, Mark.ref?, Form.children])
  exact ⟨S, holds⟩

/-- The module `a;`, and the name `b`. -/
def plain : Heap :=
  oneStatement ⟨.identifier "b", none⟩ ⟨.identifier "a", some [.text "a"]⟩
    ⟨.generic "expression_statement" [1], some [.node 1, .text ";"]⟩

def plainName : Concrete :=
  .mk { kind := "identifier", start := 0, stop := 1 } []

def plainStatement : Concrete :=
  .mk { kind := "expression_statement", start := 0, stop := 2 } [plainName]

def plainTree : Concrete :=
  .mk { kind := "program", start := 0, stop := 2 } [plainStatement]

theorem toProgram_plainTree : plainTree.toProgram "a;" = .ok (plain.tree 3) := by
  have name : Concrete.toNode "a;".toUTF8 .plain plainName = .ok (.mk (.identifier "a") (some [.text "a"])) :=
    Concrete.toNode_of (p := .leaf (.identifier "a")) rfl rfl rfl
  have statement : Concrete.toNode "a;".toUTF8 .plain plainStatement = .ok (plain.tree 2) :=
    Concrete.toNode_of (p := .generic plainStatement) rfl (Concrete.mapM_cons_ok name rfl)
      ((Concrete.layout_of_sorted (by decide)).trans rfl)
  exact Concrete.toProgram_of rfl (Concrete.mapM_cons_ok statement rfl)
    ((Concrete.layout_of_sorted (by decide)).trans rfl)

def naming : Heap :=
  oneStatement ⟨.importSpecifier "b" "b", some [.text "b"]⟩ ⟨.importSpecifier "a" "a", some [.text "a"]⟩
    ⟨.importDecl "m" [1] none none, some [.text (Import.statement "a" "m")]⟩

end Sample

theorem replaceChild_shows_plain :
    let result := (Change.replaceChild 2 1 0).runOn Sample.plain
    Sample.plainTree.toProgram "a;" = .ok (Sample.plain.tree 3) ∧
      (∃ S, Sample.plain.Holds 3 (Sample.plain.tree 3) S) ∧ Sample.plain.Reaches 3 2 ∧ result.1 = .ok () ∧
      Sample.plain.Exchanged result.2 2 0 0 ∧
      Sample.plain.Reworded result.2 2 1 0 (.fresh (.identifier "b")) ∧ (result.2.tree 2).print = .ok "b;" := by
  intro result
  have held : ∃ S, Sample.plain.Holds 3 (Sample.plain.tree 3) S :=
    Sample.holds_oneStatement (by decide) (by decide) (by decide) (by decide)
  have reached : Sample.plain.Reaches 3 2 := .step .root rfl (.inl (by decide))
  have ordered : ∀ r (bound : r < Sample.plain.length), ∀ c ∈ Sample.plain[r].refs, c < r := by decide
  have stands : Sample.plain.Stands 0 (.fresh (.identifier "b")) := Heap.stands_of_ordered ordered 0 (by decide)
  have apart : ¬ Sample.plain.Reaches 0 2 := fun reached => absurd (reached.le_of_ordered ordered) (by decide)
  obtain ⟨S, holds⟩ := held
  have shows := replaceChild_shows Sample.toProgram_plainTree holds reached 1 0
  obtain ⟨done, exchanged, each⟩ := shows.2 0 rfl
  obtain ⟨_, reworded, tree⟩ := each _ stands apart
  refine ⟨Sample.toProgram_plainTree, ⟨S, holds⟩, reached, done, exchanged, reworded, ?_⟩
  have same : result.2.tree 2 = (Sample.plain.tree 2).setChild 0 (.fresh (.identifier "b")) := tree (by decide)
  rw [same]
  cbv

/-- A name that is imported can be exchanged, and the text of the import stays. -/
theorem importSpecifier_exchanged_unseen :
    let result := (Change.replaceChild 2 1 0).runOn Sample.naming
    (Tsx.Parser.importModule "a" "m").toProgram (Import.statement "a" "m") = .ok (Sample.naming.tree 3) ∧
      (∃ S, Sample.naming.Holds 3 (Sample.naming.tree 3) S) ∧ Sample.naming.children 2 = [1] ∧
      (Sample.naming.tree 0).print = .ok "b" ∧ (Sample.naming.tree 2).print = .ok (Import.statement "a" "m") ∧
      result.1 = .ok () ∧ result.2.children 2 = [0] ∧
      (result.2.tree 2).print = .ok (Import.statement "a" "m") ∧
      Import.statement "a" "m" ≠ Import.statement "b" "m" := by
  intro result
  have read : (Tsx.Parser.importModule "a" "m").toProgram (Import.statement "a" "m") =
      .ok (Sample.naming.tree 3) := Concrete.toProgram_importModule "a" "m"
  refine ⟨read, Sample.holds_oneStatement (by decide) (by decide) (by decide) (by decide), rfl, ?_, ?_, rfl, rfl,
    ?_, ?_⟩
  · cbv
  · cbv
  · cbv
  · decide

end InPlace

end JsxBoundary
