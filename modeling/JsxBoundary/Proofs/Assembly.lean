import JsxBoundary.Proofs.InPlace.Safety

namespace JsxBoundary

/-- The text of the construct leaves out this child: the empty slot of a container, the specifiers of
imported names, the name of a nameless closing tag. -/
def Form.omits {α β : Type} : Form α → Form β → Bool
  | .container _, .emptyExpression => true
  | .importDecl _ _ _ _, .importSpecifier _ _ => true
  | .closingTag _, .identifier name => name == ""
  | _, _ => false

namespace Concrete

structure Plan.Fills (p : Plan) : Prop where
  natural : ∀ (g : Node → Node) (nodes : List Node), (∀ m, Supplied m → g m = m) →
    p.form (nodes.map g) = (p.form nodes).map g
  uses : p.whole = false ∧ (∀ nodes, nodes.length = p.slots.length → (p.form nodes).children.Perm nodes) ∨
    p.whole = true ∧ p.slots = [] ∧
      ∀ c ∈ (p.form []).children, Supplied c ∧ (p.form []).omits c.form = true

namespace Plan.Fills

variable {p : Plan} {n inner : Concrete} {role : Role}

theorem leaf {form : Form Node} (supplied : ∀ c ∈ form.children, Supplied c ∧ form.omits c.form = true) :
    (Plan.leaf form).Fills := by
  refine ⟨fun g nodes fixes => ?_, .inr ⟨rfl, rfl, supplied⟩⟩
  have same : form.map g = form.map id := Form.map_congr fun c member => fixes c (supplied c member).1
  rw [Form.map_id] at same
  exact same.symm

theorem aligned (natural : ∀ (g : Node → Node) nodes, p.form (nodes.map g) = (p.form nodes).map g)
    (part : p.whole = false)
    (children : ∀ nodes, nodes.length = p.slots.length → (p.form nodes).children = nodes) : p.Fills := by
  refine ⟨fun g nodes _ => natural g nodes, .inl ⟨part, fun nodes length => ?_⟩⟩
  rw [children nodes length]

theorem generic (n : Concrete) : (Plan.generic n).Fills :=
  aligned (fun _ _ => rfl) rfl fun _ _ => rfl

theorem single {form : Node → Form Node} (natural : ∀ (g : Node → Node) node, form (g node) = (form node).map g)
    (children : ∀ node, (form node).children = [node]) : (Plan.single n role inner form).Fills := by
  apply aligned _ rfl
  · intro nodes length
    obtain ⟨node, rfl⟩ := List.length_eq_one_iff.1 length
    exact children node
  · intro g nodes
    cases nodes with
    | nil => rfl
    | cons node rest => exact natural g node

theorem member (n : Concrete) (field : String) (computed : Bool) : (Plan.member n field computed).Fills := by
  unfold Plan.member
  split
  · apply aligned _ rfl
    · intro nodes length
      obtain ⟨_, _, rfl⟩ := List.length_eq_two.1 length
      rfl
    · intro g nodes
      match nodes with
      | [] | [_] | [_, _] | _ :: _ :: _ :: _ => rfl
  · exact generic n

theorem call (n : Concrete) : (Plan.call n).Fills := by
  unfold Plan.call
  split
  · split
    · apply aligned _ rfl
      · intro nodes length
        obtain ⟨_, _, rfl⟩ := List.exists_cons_of_length_eq_add_one (length.trans (length_slotsFrom _ _ _))
        rfl
      · intro g nodes
        cases nodes <;> rfl
    · exact generic n
  · exact generic n

theorem arrow (n : Concrete) : (Plan.arrow n).Fills := by
  unfold Plan.arrow
  split
  · refine ⟨fun g nodes _ => ?_, .inl ⟨rfl, fun nodes length => ?_⟩⟩
    · match nodes with
      | [] | [_] | [_, _] | _ :: _ :: _ :: _ => rfl
    · obtain ⟨params, body, rfl⟩ := List.length_eq_two.1 length
      exact .swap params body []
  · exact single (fun _ _ => rfl) fun _ => rfl
  · exact generic n

theorem element (n : Concrete) : (Plan.element n).Fills := by
  unfold Plan.element
  split
  · exact generic n
  · dsimp only
    split
    · exact aligned (fun _ _ => rfl) rfl fun _ _ => rfl
    · refine aligned (p := ⟨elementSlots _ _ _, _, false⟩) (fun g nodes => ?_) rfl fun nodes length => ?_
      · cases nodes with
        | nil => rfl
        | cons opening nodes => simp [Form.map]
      · obtain ⟨_, _, rfl, children⟩ := children_of_elementSlots length
        exact children

theorem opening {selfClosing : Bool} (planned : Plan.opening n selfClosing = .ok p) : p.Fills := by
  unfold Plan.opening at planned
  split at planned <;> cases planned
  apply aligned _ rfl
  · intro nodes length
    obtain ⟨_, _, rfl⟩ := List.exists_cons_of_length_eq_add_one length
    rfl
  · intro g nodes
    cases nodes <;> rfl

theorem attr {bytes : ByteArray} (planned : Plan.attr bytes n = .ok p) : p.Fills := by
  obtain ⟨name, _, planned⟩ := bind_eq_ok planned
  split at planned <;> cases planned
  · exact single (fun _ _ => rfl) fun _ => rfl
  · exact leaf nofun

theorem spreadAttr (n : Concrete) : (Plan.spreadAttr n).Fills := by
  unfold Plan.spreadAttr
  split
  · split
    · exact single (fun _ _ => rfl) fun _ => rfl
    · exact generic n
  · exact generic n

theorem importing {bytes : ByteArray} {path : Concrete} (planned : importPlan bytes n path = .ok p) :
    p.Fills := by
  have builds := importPlan_builds planned []
  unfold importPlan at planned
  obtain ⟨path, _, planned⟩ := bind_eq_ok planned
  obtain ⟨b, found, planned⟩ := bind_eq_ok planned
  cases planned
  apply leaf
  intro c listed
  have specifier : c.isSpecifier = true := builds.tagged c listed
  have supplied := (builds.children c listed).resolve_left nofun
  cases supplied with
  | specifier => exact ⟨.specifier _ _ _, rfl⟩
  | nothing | nameless => cases specifier

end Plan.Fills

theorem Plan.Made.fills {bytes : ByteArray} {n : Concrete} {p : Plan} (made : p.Made bytes n) : p.Fills := by
  cases made with
  | identifier | text => exact .leaf nofun
  | importing planned => exact .importing planned
  | generic => exact .generic n
  | function | fragment => exact .aligned (fun _ _ => rfl) rfl fun _ _ => rfl
  | member => exact .member n _ _
  | call => exact .call n
  | arrow => exact .arrow n
  | element => exact .element n
  | selfClosing => exact .single (fun _ _ => rfl) fun _ => rfl
  | opening planned => exact .opening planned
  | attr planned => exact .attr planned
  | spreadAttr => exact .spreadAttr n
  | parens =>
      unfold Plan.parens
      split
      · exact .single (fun _ _ => rfl) fun _ => rfl
      · exact .generic n
  | container =>
      unfold Plan.container
      split
      · apply Plan.Fills.leaf
        intro c member
        cases List.mem_singleton.1 member
        exact ⟨.nothing, rfl⟩
      · exact .single (fun _ _ => rfl) fun _ => rfl
  | closing =>
      unfold Plan.closing
      split
      · apply Plan.Fills.leaf
        intro c member
        cases List.mem_singleton.1 member
        exact ⟨.nameless, rfl⟩
      · exact .single (fun _ _ => rfl) fun _ => rfl

/-! ## What was read shows its children -/

end Concrete

/-- Every layout shows each child, apart from those that its text leaves out, and nothing else. Only the name
of a nameless closing tag has no layout. -/
inductive Node.Complete : Node → Prop
  | nameless : Complete (.fresh (.identifier ""))
  | node {n : Node} {pieces : List (Piece Node)} (layout : n.layout = some pieces) (closed : ∀ m, .loose m ∉ pieces)
      (shown : ∀ (i : Nat) (c : Node), n.children[i]? = some c → .child i ∈ pieces ∨ n.form.omits c.form = true)
      (below : ∀ c ∈ n.children, Complete c) : Complete n

namespace Node.Complete

variable {n c : Node}

theorem child (h : Complete n) (member : c ∈ n.children) : Complete c := by
  cases h with
  | nameless => cases member
  | node _ _ _ below => exact below c member

theorem closed (h : Complete n) {pieces : List (Piece Node)} (layout : n.layout = some pieces) (m : Node) :
    .loose m ∉ pieces := by
  cases h with
  | nameless => cases layout
  | node own closed =>
      cases own.symm.trans layout
      exact closed m

theorem shown (h : Complete n) {i : Nat} (found : n.children[i]? = some c) :
    ∃ pieces, n.layout = some pieces ∧ (.child i ∈ pieces ∨ n.form.omits c.form = true) := by
  cases h with
  | nameless => cases found
  | node layout _ shown => exact ⟨_, layout, shown i c found⟩

theorem prints (h : Complete n) : ∃ t, n.print = .ok t := by
  induction h with
  | nameless => exact ⟨_, print_ok_iff.2 ⟨_, rfl, .text "" .nil⟩⟩
  | node layout closed _ _ ih =>
      refine exists_print_iff.2 ⟨_, by rw [parts, layout], fun m member => ?_⟩
      rcases Part.node_mem_ofPieces.1 member with loose | ⟨i, _, found⟩
      · exact absurd loose (closed m)
      · exact ih m (List.mem_of_getElem? found)

end Node.Complete

namespace Concrete

theorem Plan.Supplied.complete {m : Node} (h : Supplied m) : m.Complete := by
  cases h with
  | nothing | specifier => exact .node rfl (by simp) nofun nofun
  | nameless => exact .nameless

theorem complete_of_slots {bytes : ByteArray} {role : Role} {n : Concrete} {node : Node}
    (slots : ∀ p, plan bytes role n = .ok p → ∀ slot ∈ p.slots, ∀ m,
      toNode bytes slot.role slot.node = .ok m → m.Complete)
    (h : toNode bytes role n = .ok node) : node.Complete := by
  obtain ⟨p, nodes, pieces, planned, results, cut, rfl⟩ := toNode_eq_ok h
  have made := plan_made planned
  have closed : ∀ m, .loose m ∉ pieces := by
    intro m
    split at cut
    · obtain ⟨value, _, rfl⟩ := map_eq_ok cut
      simp
    · exact not_loose_of_pieces cut m
  rcases made.fills.uses with ⟨part, perm⟩ | ⟨_, none, supplied⟩
  · have listed := perm nodes results.length
    rw [part] at cut
    refine .node rfl closed (fun i c found => .inl ?_) fun c member => ?_
    · have inside : i < p.slots.length := by
        rw [← results.length, ← listed.length_eq]
        exact (List.getElem?_eq_some_iff.1 found).1
      have range := made.numbered.range nodes results.length (listed.length_eq.trans results.length)
      obtain ⟨slot, own, rfl⟩ := List.mem_map.1 (range.mem_iff.2 (List.mem_range.2 inside))
      exact child_mem_pieces cut (List.mem_mergeSort.2 own)
    · obtain ⟨slot, own, read⟩ := results.exists_left (listed.mem_iff.1 member)
      exact slots p planned slot own c read
  · rw [none] at results
    cases results.of_nil
    exact .node rfl closed (fun i c found => .inr (supplied c (List.mem_of_getElem? found)).2)
      fun c member => (supplied c member).1.complete

theorem toNode_complete {bytes : ByteArray} {role : Role} {n : Concrete} {node : Node}
    (h : toNode bytes role n = .ok node) : node.Complete :=
  complete_of_slots (fun _ _planned _ _member _ found => toNode_complete found) h
termination_by (sizeOf n, role.rank)
decreasing_by
  rcases below_of_mem_slots _planned _member with lt | ⟨same, lt⟩
  · exact .left _ _ lt
  · rw [same]
    exact .right _ lt

theorem toProgram_complete {source : String} {root : Concrete} {m : Node}
    (h : toProgram source root = .ok m) : m.Complete := by
  obtain ⟨_, pieces, form, layout, shown⟩ := (toProgram_parsed h).body
  obtain ⟨body, pieces', rfl, read, cut⟩ := toProgram_eq_ok h
  cases form
  cases layout
  refine .node rfl (not_loose_of_pieces cut) (fun i c found => .inl (shown i ?_)) fun c member => ?_
  · exact (List.getElem?_eq_some_iff.1 found).1
  · obtain ⟨_, _, own⟩ := read.exists_left member
    exact toNode_complete own

/-! ## Where slots are found -/

theorem node_mem_of_slotsFrom {role : Role} {index : Nat} {nodes : List Concrete} {slot : Slot}
    (member : slot ∈ slotsFrom role index nodes) : slot.node ∈ nodes := by
  rw [← map_node_slotsFrom role index nodes]
  exact List.mem_map_of_mem member

section

variable {n : Concrete} {slot : Slot}

theorem occurs_slotsFrom {role : Role} {index : Nat} {nodes : List Concrete}
    (below : ∀ c ∈ nodes, Occurs n c) (member : slot ∈ slotsFrom role index nodes) : Occurs n slot.node :=
  below slot.node (node_mem_of_slotsFrom member)

theorem occurs_generic (member : slot ∈ (Plan.generic n).slots) : Occurs n slot.node :=
  occurs_slotsFrom (fun _ named => .of_child (mem_children_of_mem_named named)) member

theorem occurs_single {role : Role} {inner : Concrete} {form : Node → Form Node} (below : Occurs n inner)
    (member : slot ∈ (Plan.single n role inner form).slots) : Occurs n slot.node := by
  cases List.mem_singleton.1 member
  exact below

theorem occurs_element (member : slot ∈ (Plan.element n).slots) : Occurs n slot.node := by
  unfold Plan.element at member
  split at member
  · exact occurs_generic member
  · rename_i opening closing tags
    have content : ∀ c ∈ n.parts.filter (fun c => !c.sameAs opening && !closing.any c.sameAs), Occurs n c :=
      fun c part => .of_child (mem_children_of_mem_parts (List.mem_filter.1 part).1)
    dsimp only at member
    split at member
    · exact occurs_slotsFrom content member
    · simp only [List.cons_append, List.mem_cons, List.mem_append] at member
      rcases member with rfl | member | member
      · exact .of_child (mem_children_of_elementTags (.inl (by rw [tags])))
      · exact occurs_slotsFrom content member
      · refine occurs_slotsFrom (fun c last => ?_) member
        exact .of_child (mem_children_of_elementTags (.inr (by rw [tags]; simpa using last)))

theorem Plan.Made.occurs {bytes : ByteArray} {p : Plan} (made : p.Made bytes n) (member : slot ∈ p.slots) :
    Occurs n slot.node := by
  have field : ∀ {c : Concrete} {name : String}, n.field? name = some c → Occurs n c :=
    fun found => .of_child (mem_children_of_field? found)
  have part : ∀ {m c : Concrete} {more : List Concrete}, m.parts = c :: more → Occurs m c :=
    fun split => .of_child (mem_children_of_mem_parts (split ▸ .head _))
  cases made with
  | identifier | text => cases member
  | importing planned =>
      rw [slots_of_importPlan planned] at member
      cases member
  | generic | function => exact occurs_generic member
  | fragment => exact occurs_slotsFrom (fun _ part => .of_child (mem_children_of_mem_parts part)) member
  | element => exact occurs_element member
  | selfClosing => exact occurs_single .root member
  | member =>
      unfold Plan.member at member
      split at member
      · rename_i object property first second
        refine occurs_slotsFrom (fun c operand => ?_) member
        simp only [List.mem_cons, List.not_mem_nil, or_false] at operand
        rcases operand with rfl | rfl
        · exact field first
        · exact field second
      · exact occurs_generic member
  | call =>
      unfold Plan.call at member
      split at member
      · rename_i callee arguments first second
        split at member
        · refine occurs_slotsFrom (fun c operand => ?_) member
          rcases List.mem_cons.1 operand with rfl | operand
          · exact field first
          · exact (field second).trans (.of_child (mem_children_of_mem_parts operand))
        · exact occurs_generic member
      · exact occurs_generic member
  | arrow =>
      unfold Plan.arrow at member
      split at member
      · rename_i body params first second
        simp only [List.mem_cons, List.not_mem_nil, or_false] at member
        rcases member with rfl | rfl
        · simp only [Option.orElse_eq_orElse, Option.orElse_eq_or, Option.or_eq_some_iff] at second
          rcases second with second | ⟨_, second⟩
          · exact field second
          · exact field second
        · exact field first
      · rename_i first _
        exact occurs_single (field first) member
      · exact occurs_generic member
  | parens =>
      unfold Plan.parens at member
      split at member
      · exact occurs_single (part ‹_›) member
      · exact occurs_generic member
  | container =>
      unfold Plan.container at member
      split at member
      · cases member
      · exact occurs_single (part ‹_›) member
  | opening planned =>
      unfold Plan.opening at planned
      split at planned <;> cases planned
      rename_i first
      rcases List.mem_cons.1 member with rfl | member
      · exact field first
      · refine occurs_slotsFrom (fun c attr => ?_) member
        exact .of_child (mem_children_of_mem_named (List.mem_filter.1 attr).1)
  | closing =>
      unfold Plan.closing at member
      split at member
      · cases member
      · exact occurs_single (field ‹_›) member
  | attr planned =>
      obtain ⟨name, _, planned⟩ := bind_eq_ok planned
      split at planned <;> cases planned
      · rename_i first
        exact occurs_single (.of_child (mem_children_of_mem_parts (first ▸ by simp))) member
      · cases member
  | spreadAttr =>
      unfold Plan.spreadAttr at member
      split at member
      · rename_i spread _ first
        split at member
        · rename_i argument _ _ second
          exact occurs_single ((part first).trans (part second)) member
        · exact occurs_generic member
      · exact occurs_generic member

end

/-! ## Elements between their tags -/

def Enclosed (n : Concrete) : Prop :=
  n.kind = "jsx_element" → ∀ opening closing, Plan.elementTags n = (some opening, some closing) →
    ∀ c ∈ n.parts, c.sameAs opening = false → c.sameAs closing = false →
      opening.start < c.start ∧ c.start < closing.start

/-- Every element of the tree has its content between its tags. -/
def TagsEnclose (root : Concrete) : Prop :=
  ∀ n, Occurs root n → Enclosed n

theorem WellFormed.tagsEnclose {source : String} {root : Concrete} (wf : WellFormed source root) :
    TagsEnclose root := by
  intro n occurs kind opening closing tags c part other other'
  have proper := wf n occurs
  obtain ⟨opening', closing', tagged⟩ := proper.tagged kind
  cases tagged.tags.symm.trans tags
  have first := proper.nonempty opening (mem_children_of_elementTags (.inl (by rw [tags])))
  have own := proper.nonempty c (mem_children_of_mem_parts part)
  rcases tagged.content c part with rfl | rfl | between
  · rw [sameAs_self] at other
    cases other
  · rw [sameAs_self] at other'
    cases other'
  · omega

theorem Plan.Made.element_eq {bytes : ByteArray} {n : Concrete} {p : Plan} (made : p.Made bytes n)
    {nodes content : List Node} {opening : Option Node} {closing : Node}
    (length : nodes.length = p.slots.length) (form : p.form nodes = .element opening content (some closing)) :
    n.kind = "jsx_element" ∧ ∃ first last, elementTags n = (some first, some last) ∧ p.whole = false ∧
      p.slots = elementSlots first (n.parts.filter fun c => !c.sameAs first && !c.sameAs last) (some last) := by
  cases made with
  | identifier | text | generic | function | fragment => cases form
  | importing planned =>
      unfold importPlan at planned
      obtain ⟨path, _, planned⟩ := bind_eq_ok planned
      obtain ⟨b, _, planned⟩ := bind_eq_ok planned
      cases planned
      cases form
  | member =>
      unfold Plan.member at form
      split at form
      · dsimp only at form
        split at form <;> cases form
      · cases form
  | call =>
      unfold Plan.call at form
      split at form
      · split at form
        · dsimp only at form
          split at form <;> cases form
        · cases form
      · cases form
  | arrow =>
      unfold Plan.arrow at form
      split at form
      · dsimp only at form
        split at form <;> cases form
      · cases nodes <;> cases form
      · cases form
  | parens =>
      unfold Plan.parens at form
      split at form <;> cases nodes <;> cases form
  | selfClosing => cases nodes <;> cases form
  | container =>
      unfold Plan.container at form
      split at form <;> cases nodes <;> cases form
  | opening planned =>
      unfold Plan.opening at planned
      split at planned <;> cases planned
      cases nodes <;> cases form
  | closing =>
      unfold Plan.closing at form
      split at form <;> cases nodes <;> cases form
  | attr planned =>
      obtain ⟨name, _, planned⟩ := bind_eq_ok planned
      split at planned <;> cases planned <;> cases nodes <;> cases form
  | spreadAttr =>
      unfold Plan.spreadAttr at form
      split at form
      · split at form <;> cases nodes <;> cases form
      · cases form
  | element kind =>
      refine ⟨kind, ?_⟩
      unfold Plan.element at length form ⊢
      split at form
      · cases form
      · rename_i first last tags
        simp only [tags] at length ⊢
        split at form
        · cases form
        · rename_i named
          simp only [named, Bool.false_eq_true, if_false] at length ⊢
          cases nodes with
          | nil => cases form
          | cons node rest =>
              cases last with
              | none =>
                  have short : rest.length = (n.parts.filter fun c => !c.sameAs first).length := by
                    simpa [slotsFrom] using length
                  simp [short] at form
              | some last => exact ⟨first, last, rfl, trivial, by simp [elementSlots]⟩

theorem sublist_of_sorted {α : Type} {f : α → Nat} {as : List α}
    (sorted : as.Pairwise fun a b => f a ≤ f b) {a b c : α} (ha : a ∈ as) (hb : b ∈ as) (hc : c ∈ as)
    (first : f a < f b) (second : f b < f c) : [a, b, c].Sublist as := by
  obtain ⟨before, after, rfl⟩ := List.append_of_mem hb
  obtain ⟨_, rest, low⟩ := List.pairwise_append.1 sorted
  have front : a ∈ before := by
    rcases List.mem_append.1 ha with member | member
    · exact member
    · rcases List.mem_cons.1 member with rfl | member
      · exact absurd first (Nat.lt_irrefl _)
      · exact absurd ((List.pairwise_cons.1 rest).1 a member) (Nat.not_le.2 first)
  have back : c ∈ after := by
    rcases List.mem_append.1 hc with member | member
    · exact absurd (low c member b (.head _)) (Nat.not_le.2 second)
    · rcases List.mem_cons.1 member with rfl | member
      · exact absurd second (Nat.lt_irrefl _)
      · exact member
  exact (List.singleton_sublist.2 front).append ((List.singleton_sublist.2 back).cons_cons b)

theorem children_sublist_pieces {bytes : ByteArray} {cursor stop : Nat} {slots : List Slot}
    {ps : List (Piece Node)} (cut : pieces bytes cursor stop slots = .ok ps) :
    (slots.map fun slot => Piece.child slot.index).Sublist ps := by
  induction slots generalizing cursor ps with
  | nil => exact List.nil_sublist ps
  | cons slot slots ih =>
      obtain ⟨before, after, _, rest, rfl⟩ := pieces_cons_eq_ok cut
      exact ((ih rest).cons_cons _).trans (List.sublist_append_right before _)

theorem layout_sublist {bytes : ByteArray} {start stop : Nat} {slots : List Slot} {ps : List (Piece Node)}
    (cut : layout bytes start stop slots = .ok ps) {a b c : Slot} (ha : a ∈ slots) (hb : b ∈ slots)
    (hc : c ∈ slots) (first : a.node.start < b.node.start) (second : b.node.start < c.node.start) :
    [.child a.index, .child b.index, .child c.index].Sublist ps := by
  have sorted : (slots.mergeSort fun a b => a.node.start ≤ b.node.start).Pairwise
      fun a b => a.node.start ≤ b.node.start := by
    refine (List.pairwise_mergeSort (fun a b c ab bc => ?_) (fun a b => ?_) slots).imp of_decide_eq_true
    · have := of_decide_eq_true ab
      have := of_decide_eq_true bc
      exact decide_eq_true (by omega)
    · simp only [Bool.or_eq_true, decide_eq_true_eq]
      omega
  have three := sublist_of_sorted (f := fun slot : Slot => slot.node.start) sorted (List.mem_mergeSort.2 ha)
    (List.mem_mergeSort.2 hb) (List.mem_mergeSort.2 hc) first second
  exact (three.map fun slot => Piece.child slot.index).trans (children_sublist_pieces cut)

end Concrete

end JsxBoundary
