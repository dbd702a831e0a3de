import JsxBoundary.Proofs.Plans

namespace JsxBoundary.Concrete

theorem lined_of_sorted {start stop : Nat} {slots : List Slot} (le : start ≤ stop)
    (sorted : slots.Pairwise fun a b => a.node.start ≤ b.node.start)
    (apart : slots.Pairwise fun a b => Apart a.node b.node)
    (inside : ∀ slot ∈ slots, start ≤ slot.node.start ∧ slot.node.start < slot.node.stop ∧
      slot.node.stop ≤ stop) : Lined stop start slots := by
  induction slots generalizing start with
  | nil => exact .nil le
  | cons slot slots ih =>
      obtain ⟨first, sorted⟩ := List.pairwise_cons.1 sorted
      obtain ⟨clear, apart⟩ := List.pairwise_cons.1 apart
      have own := inside slot (.head _)
      refine .cons own.1 own.2.1 (ih own.2.2 sorted apart fun other member => ?_)
      have bounds := inside other (.tail _ member)
      have later := first other member
      rcases clear other member with before | after
      · exact ⟨before, bounds.2⟩
      · omega

theorem lined_mergeSort {start stop : Nat} {slots : List Slot} (le : start ≤ stop)
    (apart : (slots.map Slot.node).Pairwise Apart)
    (inside : ∀ c ∈ slots.map Slot.node, start ≤ c.start ∧ c.start < c.stop ∧ c.stop ≤ stop) :
    Lined stop start (slots.mergeSort fun a b => a.node.start ≤ b.node.start) := by
  refine lined_of_sorted le ?_ ?_ fun slot member => ?_
  · have sorted : (slots.mergeSort fun a b => a.node.start ≤ b.node.start).Pairwise
        fun a b => decide (a.node.start ≤ b.node.start) = true := by
      refine List.pairwise_mergeSort (fun a b c => ?_) (fun a b => ?_) slots
      · simp only [decide_eq_true_eq]
        omega
      · simp only [Bool.or_eq_true, decide_eq_true_eq]
        omega
    exact sorted.imp of_decide_eq_true
  · have symm : ∀ {a b : Slot}, Apart a.node b.node → Apart b.node a.node := Apart.symm
    exact ((List.mergeSort_perm slots _).pairwise_iff symm).2 (List.pairwise_map.1 apart)
  · exact inside _ (List.mem_map_of_mem (List.mem_mergeSort.1 member))

theorem layout_of_sorted {bytes : ByteArray} {start stop : Nat} {slots : List Slot}
    (sorted : slots.Pairwise fun a b => a.node.start ≤ b.node.start) :
    layout bytes start stop slots = pieces bytes start stop slots := by
  have ordered : slots.Pairwise fun a b => decide (a.node.start ≤ b.node.start) = true :=
    sorted.imp decide_eq_true
  rw [layout, List.mergeSort_of_pairwise ordered]

theorem toNode_eq_ok {bytes : ByteArray} {role : Role} {n : Concrete} {node : Node}
    (h : toNode bytes role n = .ok node) :
    ∃ p nodes pieces, plan bytes role n = .ok p ∧
      Pointwise (fun slot m => toNode bytes slot.role slot.node = .ok m) p.slots nodes ∧
      (if p.whole then (n.text bytes).map ([.text ·]) else layout bytes n.start n.stop p.slots)
        = .ok pieces ∧
      node = .mk (p.form nodes) (some pieces) := by
  rw [toNode] at h
  split at h
  · cases h
  · rename_i p planned
    rw [List.mapM_subtype fun _ _ => rfl, List.unattach_attach] at h
    obtain ⟨nodes, read, h⟩ := bind_eq_ok h
    dsimp only at h
    split at h
    all_goals
      rename_i whole
      obtain ⟨pieces, cut, h⟩ := bind_eq_ok h
      cases h
      exact ⟨p, nodes, pieces, planned, mapM_eq_ok read, by simpa [whole] using cut, rfl⟩

theorem toNode_of {bytes : ByteArray} {role : Role} {n : Concrete} {p : Plan} {nodes : List Node}
    {pieces : List (Piece Node)} (planned : plan bytes role n = .ok p)
    (read : (p.slots.mapM fun slot => toNode bytes slot.role slot.node) = .ok nodes)
    (cut : (if p.whole then (n.text bytes).map ([.text ·]) else layout bytes n.start n.stop p.slots)
      = .ok pieces) : toNode bytes role n = .ok (.mk (p.form nodes) (some pieces)) := by
  rw [toNode]
  split
  · rename_i fault failed
    rw [planned] at failed
    cases failed
  · rename_i q found
    rw [planned] at found
    cases found
    rw [List.mapM_subtype fun _ _ => rfl, List.unattach_attach, read]
    dsimp only
    split at cut
    all_goals
      rename_i whole
      simp only [whole, cut]
      rfl

theorem toNode_opening {bytes : ByteArray} {n name : Concrete} {selfClosing : Bool} {node : Node}
    {pieces : List (Piece Node)} (found : n.field? "name" = some name)
    (plain : (n.named.filter fun c => c.kind == "jsx_attribute" || c.kind == "jsx_expression") = [])
    (read : toNode bytes .tagName name = .ok node)
    (cut : layout bytes n.start n.stop [⟨.tagName, name, 0⟩] = .ok pieces) :
    toNode bytes (.opening selfClosing) n = .ok (.mk (.openingTag node [] selfClosing) (some pieces)) := by
  obtain ⟨p, planned, slots, whole, form⟩ : ∃ p, plan bytes (.opening selfClosing) n = .ok p ∧
      p.slots = [⟨.tagName, name, 0⟩] ∧ p.whole = false ∧ p.form [node] = .openingTag node [] selfClosing := by
    simp only [plan, Plan.opening, found]
    refine ⟨_, rfl, ?_, rfl, rfl⟩
    rw [← List.filter_filter, plain]
    rfl
  have results : (p.slots.mapM fun slot => toNode bytes slot.role slot.node) = .ok [node] := by
    rw [slots, List.mapM_cons, read]
    rfl
  have made := toNode_of planned results (by rw [whole, slots]; exact cut)
  rwa [form] at made

theorem Plan.Supplied.readable {m : Node} (h : Supplied m) : m.Readable := by
  cases h with
  | nothing | specifier =>
      exact .node rfl (.of_other (by simp) (by simp) (by simp) (by simp)) fun c member => by cases member
  | nameless => exact .name ""

theorem Plan.Supplied.printable {m : Node} (h : Supplied m) : m.Printable := by
  cases h with
  | nothing | specifier =>
      refine .of_pieces (fun m member => ?_) rfl nofun fun c member => by cases member
      simp at member
  | nameless => exact .identifier ""

theorem tag_of_opening {bytes : ByteArray} {n : Concrete} {selfClosing : Bool} {node : Node}
    (h : toNode bytes (.opening selfClosing) n = .ok node) :
    ∃ name attributes, node.form = .openingTag name attributes selfClosing := by
  obtain ⟨p, nodes, pieces, planned, results, _, rfl⟩ := toNode_eq_ok h
  simp only [plan, Plan.opening] at planned
  split at planned <;> cases planned
  obtain ⟨name, attributes, rfl⟩ := List.exists_cons_of_length_eq_add_one results.length
  exact ⟨name, attributes, rfl⟩

theorem printable_of_slots {bytes : ByteArray} {role : Role} {n : Concrete} {node : Node}
    (slots : ∀ p, plan bytes role n = .ok p → ∀ slot ∈ p.slots, ∀ m,
      toNode bytes slot.role slot.node = .ok m → m.Printable)
    (h : toNode bytes role n = .ok node) : node.Printable := by
  obtain ⟨p, nodes, pieces, planned, results, cut, rfl⟩ := toNode_eq_ok h
  have builds := (plan_made planned).builds nodes
  have below : ∀ c ∈ (p.form nodes).children, c.Printable := by
    intro c member
    rcases builds.children c member with result | supplied
    · obtain ⟨slot, listed, found⟩ := results.exists_left result
      exact slots p planned slot listed c found
    · exact supplied.printable
  have bare : ∀ m, .loose m ∉ pieces := by
    intro m
    split at cut
    · obtain ⟨value, _, rfl⟩ := map_eq_ok cut
      simp
    · exact not_loose_of_pieces cut m
  have tagged := builds.tagged
  refine .node (Node.exists_print_iff.2 ⟨_, rfl, fun m member => ?_⟩) (fun element => ?_) (fun own => ?_)
    fun _ => below
  · rcases Part.node_mem_ofPieces.1 member with out | ⟨i, _, found⟩
    · exact absurd out (bare m)
    · exact (below m (List.mem_of_getElem? found)).prints
  · obtain ⟨opening, content, closing, _, same⟩ := Node.eq_mk_of_isElement element
    have form : p.form nodes = .element opening content closing := congrArg Node.form same
    rw [form] at tagged
    obtain ⟨rfl, selfClosing, first, rest, listed⟩ := tagged
    rw [listed] at results
    obtain ⟨o, more, rfl, read, _⟩ := results.of_cons
    obtain ⟨name, attributes, tag⟩ := tag_of_opening read
    simp [Node.openingTag?, form, tag]
  · intro c member
    unfold Node.isImport at own
    split at own
    · rename_i form
      have form : p.form nodes = .importDecl _ _ _ _ := form
      rw [form] at tagged
      refine tagged c ?_
      simpa [Node.children, form, Form.children] using member
    · cases own

theorem toNode_printable {bytes : ByteArray} {role : Role} {n : Concrete} {node : Node}
    (h : toNode bytes role n = .ok node) : node.Printable :=
  printable_of_slots (fun _ _planned _ _member _ found => toNode_printable found) h
termination_by (sizeOf n, role.rank)
decreasing_by
  rcases below_of_mem_slots _planned _member with lt | ⟨same, lt⟩
  · exact .left _ _ lt
  · rw [same]
    exact .right _ lt

def Restores (source : String) (n : Concrete) (node : Node) : Prop :=
  ∃ t, node.print = .ok t ∧ Spells source.toUTF8 n.start n.stop t

/-- The node is a readable one with the text of the concrete node that it was read from. -/
structure Reads (source : String) (role : Role) (n : Concrete) (node : Node) : Prop where
  readable : node.Readable
  spells : Restores source n node
  tag : ∀ selfClosing, role = .opening selfClosing →
    ∃ name attributes, node.form = .openingTag name attributes selfClosing

section

variable {source : String} {n : Concrete} {p : Plan} {nodes : List Node} {pieces : List (Piece Node)}

theorem shown_of_results {source : String} {slots : List Slot} {nodes all : List Node}
    (restored : Pointwise (fun slot m => Restores source slot.node m) slots nodes)
    (places : ∀ (i : Nat) (slot : Slot) (node : Node), slots[i]? = some slot → nodes[i]? = some node →
      all[slot.index]? = some node) :
    ∀ slot ∈ slots, ∃ c u, all[slot.index]? = some c ∧ c.print = .ok u ∧
      Spells source.toUTF8 slot.node.start slot.node.stop u := by
  intro slot member
  obtain ⟨i, bound, rfl⟩ := List.getElem_of_mem member
  have found := List.getElem?_eq_getElem bound
  have result := List.getElem?_eq_getElem (restored.length ▸ bound : i < nodes.length)
  obtain ⟨u, printed, own⟩ := restored.each i _ _ found result
  exact ⟨_, u, places i _ _ found result, printed, own⟩

theorem layout_prints {start stop : Nat} {slots : List Slot} {all : List Node}
    (lined : Lined stop start (slots.mergeSort fun a b => a.node.start ≤ b.node.start))
    (read : Pointwise (fun slot m => Restores source slot.node m) slots nodes)
    (places : ∀ (i : Nat) (slot : Slot) (node : Node), slots[i]? = some slot → nodes[i]? = some node →
      all[slot.index]? = some node)
    (cut : layout source.toUTF8 start stop slots = .ok pieces) :
    ∃ t, Spells source.toUTF8 start stop t ∧ Prints (pieces.flatMap (Part.ofPiece all)) t := by
  exact pieces_prints all cut lined fun slot member =>
    shown_of_results read places slot (List.mem_mergeSort.1 member)

theorem restores_of_slots {role : Role} {node : Node} (nested : Nested source n)
    (nonempty : n.start < n.stop)
    (slots : ∀ p, plan source.toUTF8 role n = .ok p → ∀ slot ∈ p.slots, ∀ m,
      Nested source slot.node → slot.node.start < slot.node.stop →
      toNode source.toUTF8 slot.role slot.node = .ok m → Restores source slot.node m)
    (h : toNode source.toUTF8 role n = .ok node) : Restores source n node := by
  obtain ⟨p, nodes, pieces, planned, results, cut, rfl⟩ := toNode_eq_ok h
  have exact := plan_exact nested nonempty planned
  have read := results.mono fun slot m member _ found => by
    have listed := List.mem_map_of_mem (f := Slot.node) member
    exact slots p planned slot member m (nested.of_occurs (exact.within.occurs _ listed))
      (exact.within.inside _ listed).2.1 found
  split at cut
  · obtain ⟨value, text, rfl⟩ := map_eq_ok cut
    exact ⟨value, Node.print_ok_iff.2 ⟨_, rfl, .single rfl⟩, slice_eq_ok_iff.1 text⟩
  · have lined := lined_mergeSort (Nat.le_of_lt nonempty) exact.within.apart exact.within.inside
    obtain ⟨t, spelled, prints⟩ := layout_prints lined read (exact.places nodes read.length) cut
    exact ⟨t, Node.print_ok_iff.2 ⟨_, rfl, prints⟩, spelled⟩

theorem toNode_restores {role : Role} {n : Concrete} {node : Node} (nested : Nested source n)
    (nonempty : n.start < n.stop) (h : toNode source.toUTF8 role n = .ok node) :
    Restores source n node :=
  restores_of_slots nested nonempty (fun _ _planned _ _member _ own nonempty' found =>
    toNode_restores own nonempty' found) h
termination_by (sizeOf n, role.rank)
decreasing_by
  rcases below_of_mem_slots _planned _member with lt | ⟨same, lt⟩
  · exact .left _ _ lt
  · rw [same]
    exact .right _ lt

theorem text_spells {value : String} {t : String} (text : n.text source.toUTF8 = .ok value)
    (spelled : Spells source.toUTF8 n.start n.stop t) : t = value :=
  spelled.inj (slice_eq_ok_iff.1 text)

theorem layout_shows (faithful : p.Faithful source n) (nonempty : n.start < n.stop)
    (tiled : Tiled source n p.slots) (length : nodes.length = p.slots.length)
    (cut : layout source.toUTF8 n.start n.stop p.slots = .ok pieces) : Node.Shows 0 nodes pieces := by
  have lined := lined_mergeSort (Nat.le_of_lt nonempty) faithful.within.apart faithful.within.inside
  have sorted : p.slots.Pairwise fun a b => a.node.start ≤ b.node.start := by
    refine tiled.ordered.imp_of_mem fun {a b} member _ before => ?_
    have own := faithful.within.inside a.node (List.mem_map_of_mem member)
    omega
  rw [layout_of_sorted sorted] at cut
  rw [List.mergeSort_of_pairwise (sorted.imp decide_eq_true)] at lined
  refine pieces_shows cut lined length (fun j slot found => ?_) tiled.blank
  rw [tiled.indices j slot found, Nat.zero_add]

theorem shape_of_faithful (faithful : p.Faithful source n) (nonempty : n.start < n.stop)
    (read : Pointwise (fun slot m => Reads source slot.role slot.node m) p.slots nodes)
    (cut : (if p.whole then (n.text source.toUTF8).map ([.text ·])
      else layout source.toUTF8 n.start n.stop p.slots) = .ok pieces)
    (spells : Restores source n (.mk (p.form nodes) (some pieces))) :
    (Node.mk (p.form nodes) (some pieces)).Shape pieces := by
  have shaped := faithful.shaped nodes read.length
  unfold Plan.Shaped at shaped
  refine ⟨fun m => ?_, fun value form => ?_, fun e form full => ?_,
    fun opening content closing form => ?_⟩
  · split at cut
    · obtain ⟨value, _, rfl⟩ := map_eq_ok cut
      simp
    · exact not_loose_of_pieces cut m
  · rw [Node.form_mk] at form
    rw [form] at shaped
    obtain ⟨t, printed, spelled⟩ := spells
    rw [printed, text_spells shaped.2 spelled]
  · rw [Node.form_mk] at form
    rw [form] at shaped
    rcases shaped with empty | ⟨parts, slot, member, first⟩
    · rw [empty] at full
      cases full
    · rw [parts] at cut
      have shown := child_mem_pieces cut (List.mem_mergeSort.2 member)
      rw [first] at shown
      exact List.any_eq_true.2 ⟨_, shown, rfl⟩
  · rw [Node.form_mk] at form
    rw [form] at shaped
    obtain ⟨o, selfClosing, first, rest, rfl, head, slots, framed⟩ := shaped
    -- The first slot of an element is read as its opening tag.
    obtain ⟨_, more, rfl⟩ : ∃ a more, nodes = a :: more := by
      cases nodes with
      | nil => cases head
      | cons a more => exact ⟨a, more, rfl⟩
    cases head
    have length := read.length
    rw [slots] at read
    obtain ⟨name, attributes, tag⟩ := read.head.tag selfClosing rfl
    refine ⟨o, name, attributes, selfClosing, rfl, tag, fun pair => ?_⟩
    obtain ⟨c, rfl, listed, parts, tiled⟩ := framed pair
    refine ⟨c, rfl, form, rfl, ?_⟩
    rw [parts] at cut
    rw [← listed]
    exact layout_shows faithful nonempty tiled length cut

theorem reads_of_slots {role : Role} {node : Node} (wf : WellFormed source n) (nonempty : n.start < n.stop)
    (slots : ∀ p, plan source.toUTF8 role n = .ok p → ∀ slot ∈ p.slots, ∀ m,
      WellFormed source slot.node → slot.node.start < slot.node.stop →
      toNode source.toUTF8 slot.role slot.node = .ok m → Reads source slot.role slot.node m)
    (h : toNode source.toUTF8 role n = .ok node) : Reads source role n node := by
  have spells := toNode_restores wf.nested nonempty h
  obtain ⟨p, nodes, pieces, planned, results, cut, same⟩ := toNode_eq_ok h
  subst same
  have faithful := plan_faithful wf nonempty planned
  have read := results.mono fun slot m member _ found => by
    have listed := List.mem_map_of_mem (f := Slot.node) member
    exact slots p planned slot member m (wf.of_occurs (faithful.within.occurs _ listed))
      (faithful.within.inside _ listed).2.1 found
  refine ⟨.node rfl (shape_of_faithful faithful nonempty read cut spells) fun c member => ?_, spells, ?_⟩
  · rcases ((plan_made planned).builds nodes).children c member with result | supplied
    · obtain ⟨slot, _, reads⟩ := read.exists_left result
      exact reads.readable
    · exact supplied.readable
  · intro selfClosing same
    subst same
    exact tag_of_opening h

theorem toNode_reads {role : Role} {n : Concrete} {node : Node} (wf : WellFormed source n)
    (nonempty : n.start < n.stop) (h : toNode source.toUTF8 role n = .ok node) :
    Reads source role n node :=
  reads_of_slots wf nonempty (fun _ _planned _ _member _ own nonempty' found =>
    toNode_reads own nonempty' found) h
termination_by (sizeOf n, role.rank)
decreasing_by
  rcases below_of_mem_slots _planned _member with lt | ⟨same, lt⟩
  · exact .left _ _ lt
  · rw [same]
    exact .right _ lt

structure Parsed (root : Node) : Prop where
  printable : root.Printable
  body : ∃ body pieces, root.form = .program body ∧ root.layout = some pieces ∧
    ∀ i < body.length, .child i ∈ pieces

structure ReadsModule (source : String) (root : Node) : Prop extends Parsed root where
  readable : root.Readable
  spells : root.print = .ok source

theorem spells_whole {t : String} (h : Spells source.toUTF8 0 source.toUTF8.size t) : t = source := by
  unfold Spells at h
  rw [ByteArray.extract_zero_size] at h
  exact String.toByteArray_inj.1 h

theorem module_prints {root : Concrete} {body : List Node} (nests : Nests source root)
    (results : Pointwise (Restores source) root.named body)
    (cut : layout source.toUTF8 0 source.toUTF8.size (slotsFrom .plain 0 root.named) = .ok pieces) :
    (Node.mk (.program body) (some pieces)).print = .ok source := by
  have within : Within root root.named := .of_sublist nests root.named_sublist
  have size : root.stop ≤ source.toUTF8.size := nests.stop.le_utf8ByteSize
  have lined : Lined source.toUTF8.size 0 ((slotsFrom .plain 0 root.named).mergeSort
      fun a b => a.node.start ≤ b.node.start) := by
    refine lined_mergeSort (Nat.zero_le _) ?_ fun c member => ?_
    · rw [map_node_slotsFrom]
      exact within.apart
    · rw [map_node_slotsFrom] at member
      have inside := within.inside c member
      exact ⟨Nat.zero_le c.start, inside.2.1, Nat.le_trans inside.2.2 size⟩
  have listed : Pointwise (fun slot m => Restores source slot.node m)
      (slotsFrom .plain 0 root.named) body := by
    refine ⟨by rw [length_slotsFrom, results.length], fun i slot m found result => ?_⟩
    obtain ⟨c, here, rfl⟩ := getElem?_slotsFrom found
    exact results.each i c m here result
  obtain ⟨t, spelled, prints⟩ := layout_prints lined listed
    (fun i slot m found result => index_slotsFrom i slot found ▸ result) cut
  rw [← spells_whole spelled]
  exact Node.print_ok_iff.2 ⟨_, rfl, prints⟩

theorem toProgram_eq_ok {root : Concrete} {m : Node} (h : toProgram source root = .ok m) :
    ∃ body pieces, m = .mk (.program body) (some pieces) ∧
      Pointwise (fun c m => toNode source.toUTF8 .plain c = .ok m) root.named body ∧
      layout source.toUTF8 0 source.toUTF8.size (slotsFrom .plain 0 root.named) = .ok pieces := by
  unfold toProgram at h
  split at h
  · cases h
  · obtain ⟨body, read, h⟩ := bind_eq_ok h
    obtain ⟨pieces, cut, h⟩ := bind_eq_ok h
    cases h
    exact ⟨body, pieces, rfl, mapM_eq_ok read, cut⟩

theorem toProgram_of {root : Concrete} {body : List Node} (sound : root.info.faulty = false)
    (read : root.named.mapM (toNode source.toUTF8 .plain) = .ok body)
    (cut : layout source.toUTF8 0 source.toUTF8.size (slotsFrom .plain 0 root.named) = .ok pieces) :
    toProgram source root = .ok (.mk (.program body) (some pieces)) := by
  unfold toProgram
  simp only [sound, read, cut]
  rfl

theorem toProgram_parsed {root : Concrete} {m : Node} (h : toProgram source root = .ok m) :
    Parsed m := by
  obtain ⟨body, pieces, rfl, read, cut⟩ := toProgram_eq_ok h
  refine ⟨.of_pieces (fun m member => absurd member (not_loose_of_pieces cut m)) rfl nofun
    fun c member => ?_, body, pieces, rfl, rfl, fun i bound => ?_⟩
  · obtain ⟨_, _, found⟩ := read.exists_left member
    exact toNode_printable found
  · have inside : i < (slotsFrom .plain 0 root.named).length := by
      rw [length_slotsFrom, ← read.length]
      exact bound
    have found := List.getElem?_eq_getElem inside
    have shown := child_mem_pieces cut (List.mem_mergeSort.2 (List.getElem_mem inside))
    rwa [index_slotsFrom i _ found] at shown

theorem toProgram_reads {root : Concrete} {m : Node} (wf : WellFormed source root)
    (h : toProgram source root = .ok m) : ReadsModule source m := by
  have parsed := toProgram_parsed h
  obtain ⟨body, pieces, rfl, read, cut⟩ := toProgram_eq_ok h
  have nests := wf.nested root .root
  have within : Within root root.named := .of_sublist nests root.named_sublist
  have results : Pointwise (Reads source .plain) root.named body :=
    read.mono fun c m member _ found =>
      toNode_reads (wf.of_occurs (within.occurs c member)) (within.inside c member).2.1 found
  have shape : Node.Shape (.mk (.program body) (some pieces)) pieces :=
    .of_other (not_loose_of_pieces cut) (by simp) (by simp) (by simp)
  refine ⟨parsed, .node rfl shape fun c member => ?_,
    module_prints nests (results.mono fun _ _ _ _ reads => reads.spells) cut⟩
  obtain ⟨_, _, reads⟩ := results.exists_left member
  exact reads.readable

end

end JsxBoundary.Concrete
