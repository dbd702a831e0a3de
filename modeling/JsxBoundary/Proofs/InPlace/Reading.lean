import JsxBoundary.Proofs.InPlace.Upkeep

namespace JsxBoundary

namespace InPlace

variable {h h' : Heap} {r : Ref} {o : Object} {start stop : Nat} {cs : List Ref}

theorem Heap.Rows.areas (rows : h.Rows start cs stop) : ∃ area : Ref → Finset Ref,
    (∀ c ∈ cs, h.Holds c (h.tree c) (area c)) ∧
      (∀ c ∈ cs, ∀ d ∈ cs, c ≠ d → Disjoint (area c) (area d)) ∧
      ∀ c ∈ cs, ∀ x : Nat, x ∈ area c → start ≤ x ∧ x < stop := by
  obtain ⟨parts, rfl, below, apart, bounds⟩ := rows.parts
  obtain ⟨area, area_mem, disjoint⟩ := exists_area apart
  exact ⟨area, fun c member => below _ (area_mem c member), disjoint,
    fun c member => bounds _ (area_mem c member)⟩

theorem Heap.Rows.concat (rows : h.Rows start cs h.length) (once : o.refs.Nodup) (shown : o.marked.Nodup)
    (listed : ∀ c ∈ o.refs, c ∈ cs) :
    Heap.Spans (h ++ [o]) h.length start (h.length + 1) ∧
      Heap.tree (h ++ [o]) h.length = o.toNode h.tree := by
  have longer : h <+: h ++ [o] := List.prefix_append h [o]
  obtain ⟨area, below, apart, bounds⟩ := (rows.extend longer).areas
  have layer : Heap.Layer (h ++ [o]) h.length o area := by
    refine ⟨h.getElem?_concat o, once, shown, fun c member => below c (listed c member),
      fun c hc d hd ne => apart c (listed c hc) d (listed d hd) ne, fun c member own => ?_⟩
    exact Nat.lt_irrefl _ (bounds c (listed c member) _ own).2
  obtain ⟨old, before, _, _⟩ := rows.areas
  have same : o.toNode (h ++ [o] : Heap).tree = o.toNode h.tree := by
    apply Object.toNode_congr
    exact fun c member => ((before c (listed c member)).extend longer).tree_eq
  have holds := layer.holds
  have tree := holds.tree_eq
  refine ⟨⟨_, tree ▸ holds, fun x member => ?_⟩, tree.trans same⟩
  have le := rows.le
  rw [Heap.mem_area] at member
  rcases member with rfl | ⟨c, part, inside⟩
  · omega
  · have := bounds c (listed c part) x inside
    omega

theorem withChildren_of_images {f : Ref → Node} {form : Form Node} (images : form.children = cs.map f) :
    ∃ pre : Form Ref, (form.map fun _ => 0).withChildren cs = pre ∧ pre.children = cs ∧ pre.map f = form := by
  obtain ⟨pre, rfl, rfl⟩ := Form.exists_map_eq images
  refine ⟨pre, ?_, rfl, rfl⟩
  have back := Form.map_eq_withChildren (fun _ => 0) id pre
  rw [Form.map_id, List.map_id] at back
  rw [Form.map_map]
  exact back.symm

theorem mapM_resolve_standIn (cs : List Ref) (h : Heap) : (cs.map standIn).mapM Build.resolve h = (cs, h) := by
  induction cs with
  | nil => rfl
  | cons c cs ih =>
      rw [List.map_cons, List.mapM_cons, Build.bind_apply]
      have first : Build.resolve (standIn c) h = (c, h) := rfl
      rw [first, Build.bind_apply, ih]
      rfl

def expand (h : Heap) (n : Node) : Node :=
  match standsFor? n with
  | some r => h.tree r
  | none => n

theorem expand_supplied (h : Heap) {m : Node} (supplied : Concrete.Plan.Supplied m) : expand h m = m := by
  cases supplied <;> rfl

theorem filterMap_standsFor? (cs : List Ref) : (cs.map standIn).filterMap standsFor? = cs := by
  rw [List.filterMap_map]
  exact List.filterMap_some

theorem exists_standIn_of_perm {ns : List Node} {refs : List Ref} (filled : ns.Perm (refs.map standIn)) :
    ∃ cs : List Ref, cs.Perm refs ∧ ns = cs.map standIn := by
  obtain ⟨cs, rfl⟩ : ns ∈ Set.range (List.map standIn) := by
    rw [Set.range_list_map]
    intro n member
    obtain ⟨r, _, same⟩ := List.mem_map.1 (filled.mem_iff.1 member)
    exact ⟨r, same⟩
  have listed := filled.filterMap standsFor?
  rw [filterMap_standsFor?, filterMap_standsFor?] at listed
  exact ⟨cs, listed, rfl⟩

theorem Heap.Tidy.nil : Heap.Tidy (List.length ([] : Heap)) [] :=
  ⟨nofun, nofun, nofun, Nat.le_refl 0⟩

/-- What has been stored is the node that was read, in a tidy heap, or both come to the same fault. -/
inductive Stores (h : Heap) : Except Fault (Ref × Heap) → Except Fault Node → Prop
  | ok {r : Ref} {h' : Heap} (longer : h <+: h') (spans : h'.Spans r h.length h'.length)
      (tidy : h'.Tidy h'.length) : Stores h (.ok (r, h')) (.ok (h'.tree r))
  | error (fault : Fault) : Stores h (.error fault) (.error fault)

inductive StoresAll (h : Heap) : Except Fault (List Ref × Heap) → Except Fault (List Node) → Prop
  | ok {cs : List Ref} {h' : Heap} (longer : h <+: h') (rows : h'.Rows h.length cs h'.length)
      (tidy : h'.Tidy h'.length) : StoresAll h (.ok (cs, h')) (.ok (cs.map h'.tree))
  | error (fault : Fault) : StoresAll h (.error fault) (.error fault)

theorem Load.bind_apply {α β : Type} (x : Load α) (f : α → Load β) (h : Heap) :
    (x >>= f) h = match x h with
      | .ok (a, h') => f a h'
      | .error fault => .error fault := by
  change (x h >>= fun result => f result.1 result.2) = _
  cases x h <;> rfl

theorem mapM_stores {α : Type} {f : α → Load Ref} {g : α → Except Fault Node} {as : List α}
    (each : ∀ a ∈ as, ∀ h : Heap, h.Tidy h.length → Stores h (f a h) (g a)) (tidy : h.Tidy h.length) :
    StoresAll h (as.mapM f h) (as.mapM g) := by
  induction as generalizing h with
  | nil => exact .ok (List.prefix_refl h) (.nil _) tidy
  | cons a as ih =>
      have first := each a (.head _) h tidy
      rw [List.mapM_cons, List.mapM_cons, Load.bind_apply]
      generalize f a h = stored at first
      generalize g a = node at first
      cases first with
      | error fault => exact .error fault
      | @ok r h₁ longer spans tidy₁ =>
          have rest := ih (fun a member => each a (.tail _ member)) tidy₁
          dsimp only
          rw [Load.bind_apply]
          generalize as.mapM f h₁ = stored at rest
          generalize as.mapM g = nodes at rest
          cases rest with
          | error fault => exact .error fault
          | @ok cs h₂ longer' rows tidy₂ =>
              have first := spans.extend longer'
              obtain ⟨T, holds, _⟩ := spans
              have images : h₁.tree r :: cs.map h₂.tree = (r :: cs).map h₂.tree := by
                rw [List.map_cons, (holds.extend longer').tree_eq]
              show StoresAll h (.ok (r :: cs, h₂)) (.ok (h₁.tree r :: cs.map h₂.tree))
              rw [images]
              exact .ok (longer.trans longer') (.cons first rows) tidy₂

theorem alloc_stores {h₁ : Heap} {m : Node} (longer : h <+: h₁) (rows : h₁.Rows h.length cs h₁.length)
    (tidy : h₁.Tidy h₁.length) (own : o.Tidy h₁) (closed : o.loose = []) (listed : ∀ c ∈ o.form.children, c ∈ cs)
    (node : o.toNode h₁.tree = m) : Stores h (.ok (h₁.length, h₁ ++ [o])) (.ok m) := by
  have refs : ∀ c ∈ o.refs, c ∈ cs := by
    rw [Object.refs, closed, List.append_nil]
    exact listed
  obtain ⟨spans, tree⟩ := rows.concat own.refs_nodup own.shown refs
  rw [← node, ← tree]
  refine .ok (longer.trans (List.prefix_append _ _)) ?_ (tidy.concat_read own closed)
  rwa [List.length_append]

theorem resolve_supplied {m : Node} (supplied : Concrete.Plan.Supplied m) (tidy : h.Tidy h.length) :
    Stores h (.ok (Build.resolve m h)) (.ok m) := by
  have childless : ∀ form : Form Ref, form.children = [] → ∀ layout, Mark.refs (layout.getD []) = [] →
      Object.Tidy h ⟨form, layout⟩ ∧ Object.loose ⟨form, layout⟩ = [] := by
    intro form none layout unmarked
    have marked : Object.marked ⟨form, layout⟩ = [] := unmarked
    have closed : Object.loose ⟨form, layout⟩ = [] := by rw [Object.loose, marked]; rfl
    refine ⟨⟨fun c member => ?_, ?_, ?_, fun marks _ c child => ?_,
      fun opening content closing marks own => ?_⟩, closed⟩
    · rw [Object.refs, closed, none] at member
      cases member
    · rw [none]
      exact .nil
    · rw [marked]
      exact .nil
    · rw [none] at child
      cases child
    · dsimp only at own
      rw [own] at none
      cases none
  cases supplied with
  | nothing =>
      obtain ⟨own, closed⟩ := childless .emptyExpression rfl (some []) rfl
      exact alloc_stores (List.prefix_refl h) (.nil _) tidy own closed (fun c child => by cases child) rfl
  | nameless =>
      obtain ⟨own, closed⟩ := childless (.identifier "") rfl none rfl
      exact alloc_stores (List.prefix_refl h) (.nil _) tidy own closed (fun c child => by cases child) rfl
  | specifier imported binding whole =>
      obtain ⟨own, closed⟩ := childless (.importSpecifier imported binding) rfl (some [.text whole]) rfl
      exact alloc_stores (List.prefix_refl h) (.nil _) tidy own closed (fun c child => by cases child) rfl

theorem mapM_resolve_supplied {ms : List Node} (supplied : ∀ m ∈ ms, Concrete.Plan.Supplied m)
    (tidy : h.Tidy h.length) : StoresAll h (.ok (ms.mapM Build.resolve h)) (.ok ms) := by
  have each : ∀ m ∈ ms, ∀ h : Heap, h.Tidy h.length → Stores h (Load.build (Build.resolve m) h) (.ok m) :=
    fun m member h tidy => resolve_supplied (supplied m member) tidy
  have all := mapM_stores each tidy
  have stored : ∀ h : Heap,
      (ms.mapM fun m => Load.build (Build.resolve m)) h = .ok (ms.mapM Build.resolve h) := by
    clear all each supplied
    induction ms with
    | nil => exact fun h => rfl
    | cons m ms ih =>
        intro h
        rw [List.mapM_cons, List.mapM_cons, Load.bind_apply]
        show ((ms.mapM fun m => Load.build (Build.resolve m)) >>= _) (Build.resolve m h).2 = _
        rw [Load.bind_apply, ih]
        rfl
  have read : ms.mapM (m := Except Fault) Except.ok = .ok ms := by
    clear all each supplied stored
    induction ms with
    | nil => rfl
    | cons m ms ih => rw [List.mapM_cons, ih]; rfl
  rwa [stored, read] at all

end InPlace

namespace Concrete

open InPlace

def Plan.Encloses (p : Plan) : Prop :=
  ∀ nodes opening content closing, nodes.length = p.slots.length →
    p.form nodes = .element opening content (some closing) →
    ∃ first last inner, p.slots = elementSlots first inner (some last) ∧
      ∀ c ∈ inner, first.start < c.start ∧ c.start < last.start

theorem Plan.Made.encloses {bytes : ByteArray} {n : Concrete} {p : Plan} (made : p.Made bytes n)
    (enclosed : Enclosed n) : p.Encloses := by
  intro nodes opening content closing length form
  obtain ⟨kind, first, last, tags, _, slots⟩ := made.element_eq length form
  refine ⟨first, last, _, slots, fun c member => ?_⟩
  obtain ⟨part, other⟩ := List.mem_filter.1 member
  simp only [Bool.and_eq_true, Bool.not_eq_true'] at other
  exact enclosed kind first last tags c part other.1 other.2

section

variable {bytes : ByteArray} {p : Plan} {start stop : Nat} {ps : List (Piece Node)} {cs refs : List Ref}

theorem Plan.Encloses.marks {pre : Form Ref} {opening closing : Ref} {content : List Ref} (encloses : p.Encloses)
    (cut : layout bytes start stop p.slots = .ok ps) (length : refs.length = p.slots.length)
    (images : pre.map standIn = p.form (refs.map standIn)) (count : pre.children.length = p.slots.length)
    (own : pre = .element (some opening) content (some closing)) :
    ∀ c ∈ content, [.node opening, .node c, .node closing].Sublist (ps.map (Mark.ofPiece pre.children)) := by
  subst own
  obtain ⟨first, last, inner, slots, between⟩ := encloses _ _ _ _ (by simpa using length) images.symm
  intro c member
  obtain ⟨i, bound, rfl⟩ := List.getElem_of_mem member
  have size : content.length = inner.length := by
    simp [slots, elementSlots, Form.children, slotsFrom] at count
    omega
  have inside : i < inner.length := size ▸ bound
  obtain ⟨after, before⟩ := between _ (List.getElem_mem inside)
  have opens : (⟨.opening false, first, 0⟩ : Slot) ∈ p.slots := by simp [slots, elementSlots]
  have shows : (⟨.content, inner[i], 1 + i⟩ : Slot) ∈ p.slots := by
    rw [slots, elementSlots]
    refine .tail _ (List.mem_append_left _ ?_)
    exact List.mem_mapIdx.2 ⟨i, inside, rfl⟩
  have closes : (⟨.closing, last, inner.length + 1⟩ : Slot) ∈ p.slots := by
    rw [slots, elementSlots]
    refine .tail _ (List.mem_append_right _ ?_)
    simp [slotsFrom]
  have listed := (layout_sublist cut opens shows closes after before).map
    (Mark.ofPiece (Form.children (.element (some opening) content (some closing))))
  have middle : (content ++ [closing])[i]? = some content[i] := by
    rw [List.getElem?_append_left bound, List.getElem?_eq_getElem bound]
  have final : (content ++ [closing])[inner.length]? = some closing := by
    rw [← size, List.getElem?_append_right (Nat.le_refl _), Nat.sub_self]
    rfl
  simpa [Mark.ofPiece, Form.children, Nat.add_comm 1, middle, final] using listed

theorem Plan.Numbered.child_mem (numbered : p.Numbered) (length : refs.length = p.slots.length)
    (images : (p.form (refs.map standIn)).children = cs.map standIn) (count : cs.length = p.slots.length)
    (cut : layout bytes start stop p.slots = .ok ps) : ∀ i < cs.length, .child i ∈ ps := by
  have range : (p.slots.map Slot.index).Perm (List.range p.slots.length) :=
    numbered.range (refs.map standIn) (by simpa using length) (by simp [images, count])
  intro i bound
  obtain ⟨slot, listed, rfl⟩ := List.mem_map.1 (range.mem_iff.2 (List.mem_range.2 (count ▸ bound)))
  exact child_mem_pieces cut (List.mem_mergeSort.2 listed)

theorem object_stores {h h₁ : Heap} (fills : p.Fills) (numbered : p.Numbered) (encloses : p.Encloses)
    (perm : ∀ nodes, nodes.length = p.slots.length → (p.form nodes).children.Perm nodes)
    (longer : h <+: h₁) (rows : h₁.Rows h.length refs h₁.length) (tidy : h₁.Tidy h₁.length)
    (length : refs.length = p.slots.length) (cut : layout bytes start stop p.slots = .ok ps) :
    Stores h (.ok (Build.object (p.form (refs.map standIn)) ps h₁))
      (.ok (.mk (p.form (refs.map h₁.tree)) (some ps))) := by
  obtain ⟨cs, listed, images⟩ := exists_standIn_of_perm (perm (refs.map standIn) (by simpa using length))
  obtain ⟨pre, made, children, same⟩ := withChildren_of_images images
  have count : cs.length = p.slots.length := listed.length_eq.trans length
  have unique : cs.Nodup := listed.nodup_iff.2 rows.nodup
  have shows : ShowsOnce cs.length ps := by
    refine layout_showsOnce cut numbered.once fun slot member => ?_
    have inside := numbered.inside (refs.map standIn) (by simpa using length) slot member
    rwa [images, List.length_map] at inside
  obtain ⟨once, only⟩ := shows.refs_ofPiece unique
  have run : Build.object (p.form (refs.map standIn)) ps h₁ =
      (h₁.length, h₁ ++ [⟨pre, some (ps.map (Mark.ofPiece cs))⟩]) := by
    rw [Build.object, images, Build.bind_apply, mapM_resolve_standIn, Build.alloc_apply, ← made]
  have closed : Object.loose ⟨pre, some (ps.map (Mark.ofPiece cs))⟩ = [] := by
    apply List.eq_nil_iff_forall_not_mem.2
    intro c member
    obtain ⟨shown, other⟩ := Object.mem_loose.1 member
    rw [children] at other
    exact other (only c shown)
  have all := numbered.child_mem length images count cut
  rw [run]
  apply alloc_stores longer rows tidy _ closed
  · rw [children]
    exact fun c member => listed.mem_iff.1 member
  · have expanded := fills.natural (expand h₁) (refs.map standIn) fun m supplied => expand_supplied h₁ supplied
    have trees : (refs.map standIn).map (expand h₁) = refs.map h₁.tree := by
      rw [List.map_map]
      rfl
    rw [trees, ← same, Form.map_map] at expanded
    have form : pre.map h₁.tree = p.form (refs.map h₁.tree) := expanded.symm
    have pieces := shows.toPiece_ofPiece unique h₁.tree
    show Node.mk (pre.map h₁.tree)
      (some ((ps.map (Mark.ofPiece cs)).map (Mark.toPiece pre.children h₁.tree))) = _
    rw [form, children, pieces]
  · refine ⟨fun c member => ?_, ?_, once, fun marks written c child => .inl ?_,
      fun opening content closing marks own written => ?_⟩
    · rw [Object.refs, closed, List.append_nil, children] at member
      exact (rows.bounds c (listed.mem_iff.1 member)).2
    · rwa [children]
    · cases written
      rw [children] at child
      obtain ⟨i, bound, rfl⟩ := List.getElem_of_mem child
      refine List.mem_map.2 ⟨_, all i bound, ?_⟩
      simp [Mark.ofPiece, bound]
    · cases written
      rw [← children]
      exact encloses.marks cut length same (by rw [children, count]) own

theorem whole_stores {h : Heap} {form : Form Node} (value : String) (tidy : h.Tidy h.length)
    (supplied : ∀ c ∈ form.children, Plan.Supplied c ∧ form.omits c.form = true) :
    Stores h (.ok (Build.object form [.text value] h)) (.ok (.mk form (some [.text value]))) := by
  have stored := mapM_resolve_supplied (fun c member => (supplied c member).1) tidy
  rw [Build.object, Build.bind_apply]
  generalize form.children.mapM Build.resolve h = result at stored
  generalize listed : form.children = ns at stored
  cases stored with
  | @ok cs h₁ longer rows tidy₁ =>
      obtain ⟨pre, made, children, same⟩ := withChildren_of_images listed
      dsimp only
      rw [made, Build.alloc_apply]
      have closed : Object.loose ⟨pre, some [.text value]⟩ = [] := rfl
      apply alloc_stores longer rows tidy₁ _ closed
      · rw [children]
        exact fun c => id
      · show Node.mk (pre.map h₁.tree) (some [.text value]) = _
        rw [same]
      · refine ⟨fun c member => ?_, ?_, .nil, fun marks written c child => .inr ?_,
          fun opening content closing marks own => ?_⟩
        · rw [Object.refs, closed, List.append_nil, children] at member
          exact (rows.bounds c member).2
        · rw [children]
          exact rows.nodup
        · rw [children] at child
          have found := List.getElem?_eq_getElem (rows.bounds c child).2
          obtain ⟨t, node⟩ := Build.form_tree found
          obtain ⟨_, omits⟩ := supplied (h₁.tree c) (by rw [listed]; exact List.mem_map_of_mem child)
          rw [node, ← same] at omits
          exact ⟨_, Heap.form?_eq found, by simpa using omits⟩
        · -- No element leaves out a child, and each has one with a closing tag.
          dsimp only at own
          subst own
          obtain ⟨_, omits⟩ := supplied (h₁.tree opening) (by rw [← same]; exact .head _)
          rw [← same] at omits
          cases omits

end

theorem store_error {bytes : ByteArray} {role : Role} {n : Concrete} {fault : Fault}
    (planned : plan bytes role n = .error fault) :
    store bytes role n = Load.ofExcept (.error fault) ∧ toNode bytes role n = .error fault := by
  constructor
  · rw [store]
    split <;> simp_all
  · rw [toNode]
    split <;> simp_all

theorem store_unfold {bytes : ByteArray} {role : Role} {n : Concrete} {p : Plan}
    (planned : plan bytes role n = .ok p) : store bytes role n = (do
      let refs ← p.slots.mapM fun slot => store bytes slot.role slot.node
      let pieces ← Load.ofExcept (if p.whole then (n.text bytes).map ([.text ·])
        else layout bytes n.start n.stop p.slots)
      Load.build (Build.object (p.form (refs.map standIn)) pieces)) := by
  rw [store]
  split
  · simp_all
  · rename_i same
    cases planned.symm.trans same
    rw [List.mapM_subtype fun _ _ => rfl, List.unattach_attach]

theorem toNode_unfold {bytes : ByteArray} {role : Role} {n : Concrete} {p : Plan}
    (planned : plan bytes role n = .ok p) : toNode bytes role n = (do
      let nodes ← p.slots.mapM fun slot => toNode bytes slot.role slot.node
      let pieces ← if p.whole then (n.text bytes).map ([.text ·]) else layout bytes n.start n.stop p.slots
      return .mk (p.form nodes) (some pieces)) := by
  rw [toNode]
  split
  · simp_all
  · rename_i same
    cases planned.symm.trans same
    rw [List.mapM_subtype fun _ _ => rfl, List.unattach_attach]

theorem stores_of_slots {bytes : ByteArray} {role : Role} {n : Concrete} {h : Heap} (enclosed : Enclosed n)
    (slots : ∀ p, plan bytes role n = .ok p → ∀ slot ∈ p.slots, ∀ h : Heap, h.Tidy h.length →
      Stores h (store bytes slot.role slot.node h) (toNode bytes slot.role slot.node))
    (tidy : h.Tidy h.length) : Stores h (store bytes role n h) (toNode bytes role n) := by
  cases planned : plan bytes role n with
  | error fault =>
      obtain ⟨stored, read⟩ := store_error planned
      rw [stored, read]
      exact .error fault
  | ok p =>
      rw [store_unfold planned, toNode_unfold planned]
      have made := plan_made planned
      have stored := mapM_stores (slots p planned) tidy
      rw [Load.bind_apply]
      generalize p.slots.mapM (fun slot => store bytes slot.role slot.node) h = result at stored
      generalize read : p.slots.mapM (fun slot => toNode bytes slot.role slot.node) = nodes at stored
      cases stored with
      | error fault => exact .error fault
      | @ok refs h₁ longer rows tidy₁ =>
          have length : refs.length = p.slots.length := by
            have same := (mapM_eq_ok read).length
            rwa [List.length_map] at same
          dsimp only
          rw [Load.bind_apply]
          rcases made.fills.uses with ⟨part, perm⟩ | ⟨whole, none, supplied⟩
          · rw [part]
            cases cut : layout bytes n.start n.stop p.slots with
            | error fault => exact .error fault
            | ok ps =>
                exact object_stores made.fills made.numbered (made.encloses enclosed) perm longer rows tidy₁
                  length cut
          · have empty : refs = [] := List.eq_nil_of_length_eq_zero (by rw [length, none]; rfl)
            subst empty
            have same : h.length = h₁.length := by
              generalize h₁.length = stop at rows
              generalize h.length = start at rows
              cases rows
              rfl
            cases longer.eq_of_length same
            rw [whole]
            cases text : n.text bytes with
            | error fault => exact .error fault
            | ok value => exact whole_stores value tidy supplied

theorem store_stores {bytes : ByteArray} {role : Role} {n : Concrete} {h : Heap} (enclose : TagsEnclose n)
    (tidy : h.Tidy h.length) : Stores h (store bytes role n h) (toNode bytes role n) :=
  stores_of_slots (enclose n .root) (fun _ _planned _ _member _ tidy =>
    store_stores (fun c below => enclose c (((plan_made _planned).occurs _member).trans below)) tidy) tidy
-- A slot may hold the node itself, in a role of lower rank.
termination_by (sizeOf n, role.rank)
decreasing_by
  rcases below_of_mem_slots _planned _member with lt | ⟨same, lt⟩
  · exact .left _ _ lt
  · rw [same]
    exact .right _ lt

theorem storeProgram_stores {source : String} {root : Concrete} (enclose : TagsEnclose root) :
    Stores [] (storeProgram source root []) (toProgram source root) := by
  unfold storeProgram toProgram
  split
  · exact .error _
  · have each : ∀ c ∈ root.named, ∀ h : Heap, h.Tidy h.length →
        Stores h (store source.toUTF8 .plain c h) (toNode source.toUTF8 .plain c) := by
      intro c named h tidy
      apply store_stores _ tidy
      exact fun m below => enclose m (Occurs.trans (.of_child (mem_children_of_mem_named named)) below)
    have stored := mapM_stores each Heap.Tidy.nil
    dsimp only
    rw [Load.bind_apply]
    generalize root.named.mapM (store source.toUTF8 .plain) ([] : Heap) = result at stored
    generalize read : root.named.mapM (toNode source.toUTF8 .plain) = nodes at stored
    cases stored with
    | error fault => exact .error fault
    | @ok refs h₁ longer rows tidy₁ =>
        have same := (mapM_eq_ok read).length
        rw [List.length_map] at same
        dsimp only
        rw [Load.bind_apply]
        cases cut : layout source.toUTF8 0 source.toUTF8.size (slotsFrom .plain 0 root.named) with
        | error fault => exact .error fault
        | ok ps =>
            refine object_stores (p := ⟨slotsFrom .plain 0 root.named, .program, false⟩) ?_ ?_ ?_ ?_ longer rows
              tidy₁ ?_ cut
            · exact .aligned (fun _ _ => rfl) rfl fun _ _ => rfl
            · exact .aligned index_slotsFrom fun _ _ => rfl
            · exact nofun
            · exact fun _ _ => .refl _
            · exact same.trans (length_slotsFrom _ _ _).symm

end Concrete

end JsxBoundary
