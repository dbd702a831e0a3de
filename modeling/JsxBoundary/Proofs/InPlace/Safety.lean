import JsxBoundary.Proofs.InPlace.Refinement
import JsxBoundary.Proofs.Preservation

namespace JsxBoundary

open InPlace

namespace Concrete

/-- The slots announce different children that there are, and each result becomes the child that its slot
announces. -/
structure Plan.Numbered (p : Plan) : Prop where
  once : (p.slots.map Slot.index).Nodup
  inside : ∀ nodes, nodes.length = p.slots.length → ∀ slot ∈ p.slots,
    slot.index < (p.form nodes).children.length
  places : ∀ nodes, nodes.length = p.slots.length → ∀ (i : Nat) (slot : Slot) (node : Node),
    p.slots[i]? = some slot → nodes[i]? = some node → (p.form nodes).children[slot.index]? = some node

namespace Plan.Numbered

variable {p : Plan} {n inner : Concrete} {role : Role}

theorem of_empty (empty : p.slots = []) : p.Numbered := by
  refine ⟨by simp [empty], fun nodes _ slot member => ?_, fun nodes _ i slot node found => ?_⟩
  · rw [empty] at member
    cases member
  · rw [empty] at found
    cases found

theorem aligned (indices : ∀ (i : Nat) (slot : Slot), p.slots[i]? = some slot → slot.index = i)
    (children : ∀ nodes, nodes.length = p.slots.length → (p.form nodes).children = nodes) :
    p.Numbered := by
  have numbers : p.slots.map Slot.index = List.range p.slots.length := by
    refine List.ext_getElem (by simp) fun i bound _ => ?_
    rw [List.length_map] at bound
    rw [List.getElem_map, List.getElem_range]
    exact indices i _ (List.getElem?_eq_getElem bound)
  refine ⟨numbers ▸ List.nodup_range, fun nodes length slot member => ?_,
    fun nodes length i slot node found result => ?_⟩
  · obtain ⟨i, bound, rfl⟩ := List.getElem_of_mem member
    rw [children nodes length, length, indices i _ (List.getElem?_eq_getElem bound)]
    exact bound
  · rw [children nodes length, indices i slot found]
    exact result

theorem single {form : Node → Form Node} (children : ∀ node, (form node).children = [node]) :
    (Plan.single n role inner form).Numbered := by
  refine .aligned (fun i slot found => ?_) fun nodes length => ?_
  · obtain ⟨bound, rfl⟩ := List.getElem?_eq_some_iff.1 found
    have first : i = 0 := by simpa [Plan.single] using bound
    subst first
    rfl
  · obtain ⟨node, rfl⟩ := List.length_eq_one_iff.1 length
    exact children node

theorem generic (n : Concrete) : (Plan.generic n).Numbered :=
  .aligned index_slotsFrom fun _ _ => rfl

theorem member (n : Concrete) (field : String) (computed : Bool) : (Plan.member n field computed).Numbered := by
  unfold Plan.member
  split
  · refine .aligned index_slotsFrom fun nodes length => ?_
    obtain ⟨_, _, rfl⟩ := List.length_eq_two.1 length
    rfl
  · exact generic n

theorem call (n : Concrete) : (Plan.call n).Numbered := by
  unfold Plan.call
  split
  · split
    · refine .aligned index_slotsFrom fun nodes length => ?_
      obtain ⟨_, _, rfl⟩ := List.exists_cons_of_length_eq_add_one (length.trans (length_slotsFrom _ _ _))
      rfl
    · exact generic n
  · exact generic n

theorem arrow (n : Concrete) : (Plan.arrow n).Numbered := by
  unfold Plan.arrow
  split
  · refine ⟨by simp, fun nodes length slot member => ?_, fun nodes length i slot node found result => ?_⟩
    · obtain ⟨_, _, rfl⟩ := List.length_eq_two.1 length
      simp only [List.mem_cons, List.not_mem_nil, or_false] at member
      rcases member with rfl | rfl <;> simp [Form.children]
    · obtain ⟨_, _, rfl⟩ := List.length_eq_two.1 length
      rcases i with _ | _ | i
      · cases found
        exact result
      · cases found
        exact result
      · cases found
  · exact single fun _ => rfl
  · exact generic n

theorem element (n : Concrete) : (Plan.element n).Numbered := by
  unfold Plan.element
  split
  · exact generic n
  · dsimp only
    split
    · exact .aligned index_slotsFrom fun _ _ => rfl
    · refine .aligned (p := ⟨elementSlots _ _ _, _, false⟩) index_elementSlots fun nodes length => ?_
      obtain ⟨_, _, rfl, children⟩ := children_of_elementSlots length
      exact children

theorem opening {selfClosing : Bool} (planned : Plan.opening n selfClosing = .ok p) : p.Numbered := by
  unfold Plan.opening at planned
  split at planned <;> cases planned
  refine .aligned index_tagSlots fun nodes length => ?_
  obtain ⟨_, _, rfl⟩ := List.exists_cons_of_length_eq_add_one length
  rfl

theorem attr {bytes : ByteArray} (planned : Plan.attr bytes n = .ok p) : p.Numbered := by
  obtain ⟨name, _, planned⟩ := bind_eq_ok planned
  split at planned <;> cases planned
  · exact single fun _ => rfl
  · exact of_empty rfl

theorem spreadAttr (n : Concrete) : (Plan.spreadAttr n).Numbered := by
  unfold Plan.spreadAttr
  split
  · split
    · exact single fun _ => rfl
    · exact generic n
  · exact generic n

theorem range (numbered : p.Numbered) (nodes : List Node) (length : nodes.length = p.slots.length)
    (count : (p.form nodes).children.length = p.slots.length) :
    (p.slots.map Slot.index).Perm (List.range p.slots.length) := by
  refine (List.subperm_of_subset numbered.once fun i member => ?_).perm_of_length_le (by simp)
  obtain ⟨slot, listed, rfl⟩ := List.mem_map.1 member
  exact List.mem_range.2 (count ▸ numbered.inside nodes length slot listed)

end Plan.Numbered

theorem Plan.Made.numbered {bytes : ByteArray} {n : Concrete} {p : Plan} (made : p.Made bytes n) :
    p.Numbered := by
  cases made with
  | identifier | text => exact .of_empty rfl
  | importing planned => exact .of_empty (slots_of_importPlan planned)
  | generic => exact .generic n
  | function | fragment => exact .aligned index_slotsFrom fun _ _ => rfl
  | member => exact .member n _ _
  | call => exact .call n
  | arrow => exact .arrow n
  | element => exact .element n
  | selfClosing => exact .single fun _ => rfl
  | opening planned => exact .opening planned
  | attr planned => exact .attr planned
  | spreadAttr => exact .spreadAttr n
  | parens =>
      unfold Plan.parens
      split
      · exact .single fun _ => rfl
      · exact .generic n
  | container =>
      unfold Plan.container
      split
      · exact .of_empty rfl
      · exact .single fun _ => rfl
  | closing =>
      unfold Plan.closing
      split
      · exact .of_empty rfl
      · exact .single fun _ => rfl

section

variable {bytes : ByteArray} {cursor stop : Nat} {slots : List Slot} {ps : List (Piece Node)}

theorem index?_of_gap (h : gap bytes cursor stop = .ok ps) : ps.filterMap Piece.index? = [] := by
  obtain ⟨t, _, rfl | ⟨rfl, _⟩⟩ := gap_eq_ok h <;> rfl

theorem index?_of_pieces (h : pieces bytes cursor stop slots = .ok ps) :
    ps.filterMap Piece.index? = slots.map Slot.index := by
  induction slots generalizing cursor ps with
  | nil => exact index?_of_gap h
  | cons slot slots ih =>
      obtain ⟨before, after, first, rest, rfl⟩ := pieces_cons_eq_ok h
      rw [List.filterMap_append, index?_of_gap first, List.nil_append, List.filterMap_cons, ih rest]
      rfl

theorem layout_showsOnce {count : Nat} (h : layout bytes cursor stop slots = .ok ps)
    (once : (slots.map Slot.index).Nodup) (inside : ∀ slot ∈ slots, slot.index < count) :
    ShowsOnce count ps := by
  have shown := index?_of_pieces h
  have perm : (ps.filterMap Piece.index?).Perm (slots.map Slot.index) :=
    shown ▸ (List.mergeSort_perm slots _).map Slot.index
  refine ⟨perm.nodup_iff.2 once, fun i member => ?_, not_loose_of_pieces h⟩
  have listed : i ∈ ps.filterMap Piece.index? := List.mem_filterMap.2 ⟨_, member, rfl⟩
  obtain ⟨slot, own, rfl⟩ := List.mem_map.1 (perm.mem_iff.1 listed)
  exact inside slot own

end

theorem showsOnce_text (count : Nat) (value : String) : ShowsOnce count [.text value] :=
  ⟨.nil, fun i member => by simp at member, fun m member => by simp at member⟩

theorem Plan.Supplied.unshared {m : Node} (h : Supplied m) : Unshared m := by
  cases h with
  | nothing => exact .node (fun pieces layout => by cases layout; exact ⟨.nil, nofun, nofun⟩) nofun
  | nameless => exact .node nofun nofun
  | specifier _ _ whole =>
      exact .node (fun pieces layout => by cases layout; exact showsOnce_text _ whole) nofun

theorem unshared_of_slots {bytes : ByteArray} {role : Role} {n : Concrete} {node : Node}
    (slots : ∀ p, plan bytes role n = .ok p → ∀ slot ∈ p.slots, ∀ m,
      toNode bytes slot.role slot.node = .ok m → Unshared m)
    (h : toNode bytes role n = .ok node) : Unshared node := by
  obtain ⟨p, nodes, pieces, planned, results, cut, rfl⟩ := toNode_eq_ok h
  have made := plan_made planned
  refine .node (fun _ layout => ?_) fun c member => ?_
  · cases layout
    split at cut
    · obtain ⟨value, _, rfl⟩ := map_eq_ok cut
      exact showsOnce_text _ value
    · exact layout_showsOnce cut made.numbered.once (made.numbered.inside nodes results.length)
  · rcases (made.builds nodes).children c member with result | supplied
    · obtain ⟨slot, listed, found⟩ := results.exists_left result
      exact slots p planned slot listed c found
    · exact supplied.unshared

theorem toNode_unshared {bytes : ByteArray} {role : Role} {n : Concrete} {node : Node}
    (h : toNode bytes role n = .ok node) : Unshared node :=
  unshared_of_slots (fun _ _planned _ _member _ found => toNode_unshared found) h
termination_by (sizeOf n, role.rank)
decreasing_by
  -- A slot lies below the node, or it is the node itself in a role of lower rank.
  rcases below_of_mem_slots _planned _member with lt | ⟨same, lt⟩
  · exact .left _ _ lt
  · rw [same]
    exact .right _ lt

theorem toProgram_unshared {source : String} {root : Concrete} {m : Node}
    (h : toProgram source root = .ok m) : Unshared m := by
  obtain ⟨body, pieces, rfl, read, cut⟩ := toProgram_eq_ok h
  refine .node (fun _ layout => ?_) fun c member => ?_
  · cases layout
    have numbered : (⟨slotsFrom .plain 0 root.named, .program, false⟩ : Plan).Numbered :=
      .aligned index_slotsFrom fun _ _ => rfl
    exact layout_showsOnce cut numbered.once (numbered.inside body (by rw [read.length]; simp [slotsFrom]))
  · obtain ⟨_, _, found⟩ := read.exists_left member
    exact toNode_unshared found

end Concrete

/-- A module that was read is transformed. It stands in a heap without shared nodes, and wherever it does,
the loop over it ends without a fault on the way. -/
theorem parsed_faultless (o : Options) {source : String} {root : Concrete} {m : Node}
    (read : root.toProgram source = .ok m) :
    (Outcome.ofParsed o source (root.toProgram source)).success = true ∧
      (∃ h r S, Heap.Holds h r m S) ∧
      ∀ h r S p, Heap.Holds h r m S →
        (∀ k, ((Machine.visit (.ofOptions o))^[k] (.start h r ⟨p, none⟩)).walk.fault = none) ∧
          ∃ k, ((Machine.visit (.ofOptions o))^[k] (.start h r ⟨p, none⟩)).stack = [] := by
  have parsed := Concrete.toProgram_parsed read
  obtain ⟨body, _, form, _⟩ := parsed.body
  refine ⟨?_, ?_, fun h r S p holds => ?_⟩
  · have sound := (Outcome.steps_parsed o parsed).1
    rw [read]
    unfold Outcome.ofParsed
    generalize Outcome.steps o (.ok m) ⟨{}, none⟩ = result at sound ⊢
    obtain ⟨code, p, fault⟩ := result
    cases sound
    rfl
  · obtain ⟨h, r, _, ⟨S, holds, _⟩, same⟩ := exists_holds (Concrete.toProgram_unshared read) []
    exact ⟨h, r, S, same ▸ holds⟩
  · have never := faultless (s := .ofOptions o) (p := p) holds
      (Node.rewriteRoot_finishes parsed.printable form rfl)
    obtain ⟨k, _, halted, _⟩ := start_halts (.ofOptions o) holds p
    refine ⟨never, k, halted.resolve_right fun stopped => ?_⟩
    rw [never k] at stopped
    cases stopped

theorem parsed_memo_faultless : ∃ m, Sample.tree.toProgram Sample.source = .ok m ∧
    (Outcome.ofParsed {} Sample.source (Sample.tree.toProgram Sample.source)).success = true ∧
    ∃ h r S, Heap.Holds h r m S ∧
      ∃ k, ((Machine.visit (.ofOptions {}))^[k] (.start h r ⟨{}, none⟩)).stack = [] ∧
        ((Machine.visit (.ofOptions {}))^[k] (.start h r ⟨{}, none⟩)).walk.fault = none := by
  obtain ⟨m, read⟩ := Concrete.toProgram_ok Sample.wellFormed_tree Sample.tagsNamed_tree rfl
  obtain ⟨success, ⟨h, r, S, holds⟩, each⟩ := parsed_faultless {} read
  obtain ⟨never, k, empty⟩ := each h r S {} holds
  exact ⟨m, read, success, h, r, S, holds, k, empty, never k⟩

end JsxBoundary
