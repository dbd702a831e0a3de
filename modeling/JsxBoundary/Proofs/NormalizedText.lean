import JsxBoundary.Proofs.Assembly
import JsxBoundary.Proofs.ThunkText

namespace JsxBoundary

namespace Node

variable {n opening closing : Node} {content : List Node} {pieces : List (Piece Node)}

theorem getElem?_keptContent {i : Nat} {c : Node} (found : content[i]? = some c) (kept : c.isBlankText = false) :
    (keptContent content)[(keptContent (content.take i)).length]? = some c := by
  obtain ⟨bound, rfl⟩ := List.getElem?_eq_some_iff.1 found
  have split : content = content.take i ++ content[i] :: content.drop (i + 1) := by simp
  conv_lhs => rw [split, keptContent_append, keptContent_cons, kept]
  simp

theorem ofPiece_keptPiece (opening : Node) (content closing : List Node) (piece : Piece Node) :
    (keptPiece (opening :: (content ++ closing)) content piece).flatMap (Part.ofPiece (keptContent content)) =
      Part.ofPiece (opening :: (content ++ closing)) piece := by
  match piece with
  | .text _ | .loose _ | .child 0 => rfl
  | .child (i + 1) =>
      cases found : content[i]? with
      | none =>
          simp only [keptPiece, found, Part.ofPiece]
          cases (opening :: (content ++ closing))[i + 1]? <;> rfl
      | some c =>
          have here : (opening :: (content ++ closing))[i + 1]? = some c := by
            rw [List.getElem?_cons_succ, List.getElem?_append_left (List.getElem?_eq_some_iff.1 found).1, found]
          rw [keptPiece_child found, Part.ofPiece, here]
          cases kept : c.isBlankText with
          | true => rfl
          | false => simp [Part.ofPiece, getElem?_keptContent found kept]

theorem print_keptFragment {inner : List (Piece Node)} {t : String}
    (form : n.form = .element (some opening) content (some closing)) (within : n.innerPieces = some inner)
    (prints : Prints (inner.flatMap (Part.ofPiece n.children)) t) :
    (n.keptFragment content).print = .ok ("<>" ++ t ++ "</>") := by
  have children : n.children = opening :: (content ++ [closing]) := by
    simp [Node.children, form, Form.children]
  have same : (inner.flatMap (keptPiece n.children content)).flatMap (Part.ofPiece (keptContent content)) =
      inner.flatMap (Part.ofPiece n.children) := by
    rw [List.flatMap_assoc, children]
    congr 1
    funext piece
    exact ofPiece_keptPiece opening content [closing] piece
  rw [keptFragment, within, print_ok_iff]
  refine ⟨_, rfl, ?_⟩
  simp only [List.cons_append, List.flatMap_cons, List.flatMap_append]
  exact (Prints.text "<>" ((same ▸ prints).append (.text "</>" .nil))).of_toList (by simp)

end Node

namespace Concrete

variable {bytes : ByteArray} {cursor stop : Nat}

theorem pieces_split {front back : List Slot} {slot : Slot} {ps : List (Piece Node)}
    (h : pieces bytes cursor stop (front ++ slot :: back) = .ok ps) :
    ∃ before after, pieces bytes cursor slot.node.start front = .ok before ∧
      pieces bytes slot.node.stop stop back = .ok after ∧ ps = before ++ .child slot.index :: after := by
  induction front generalizing cursor ps with
  | nil => exact pieces_cons_eq_ok h
  | cons own front ih =>
      obtain ⟨gap, rest, first, cut, rfl⟩ := pieces_cons_eq_ok h
      obtain ⟨before, after, left, right, rfl⟩ := ih cut
      refine ⟨gap ++ .child own.index :: before, after, ?_, right, by simp⟩
      rw [pieces, first, left]
      rfl

theorem pieces_append {front back : List Slot} {slot : Slot} {before after : List (Piece Node)}
    (left : pieces bytes cursor slot.node.start front = .ok before)
    (right : pieces bytes slot.node.stop stop back = .ok after) :
    pieces bytes cursor stop (front ++ slot :: back) = .ok (before ++ .child slot.index :: after) := by
  induction front generalizing cursor before with
  | nil =>
      rw [pieces] at left
      rw [List.nil_append, pieces, left, right]
      rfl
  | cons own front ih =>
      obtain ⟨gap, rest, first, cut, rfl⟩ := pieces_cons_eq_ok left
      rw [List.cons_append, pieces, first, ih cut, List.append_assoc]
      rfl

theorem Lined.split {front back : List Slot} {slot : Slot} (h : Lined stop cursor (front ++ slot :: back)) :
    Lined slot.node.start cursor front ∧ slot.node.start < slot.node.stop ∧ Lined stop slot.node.stop back := by
  induction front generalizing cursor with
  | nil =>
      cases h with
      | cons before nonempty tail => exact ⟨.nil before, nonempty, tail⟩
  | cons own front ih =>
      cases h with
      | cons before nonempty tail =>
          obtain ⟨left, middle, right⟩ := ih tail
          exact ⟨.cons before nonempty left, middle, right⟩

theorem exists_slot_of_child_mem {slots : List Slot} {ps : List (Piece Node)} {i : Nat}
    (h : pieces bytes cursor stop slots = .ok ps) (member : .child i ∈ ps) : ∃ slot ∈ slots, slot.index = i := by
  have bare {a b : Nat} {more : List (Piece Node)} (found : gap bytes a b = .ok more) : .child i ∉ more := by
    obtain ⟨t, _, rfl | ⟨rfl, _⟩⟩ := gap_eq_ok found <;> simp
  induction slots generalizing cursor ps with
  | nil => exact absurd member (bare h)
  | cons slot slots ih =>
      obtain ⟨before, after, first, rest, rfl⟩ := pieces_cons_eq_ok h
      rcases List.mem_append.1 member with member | member
      · exact absurd member (bare first)
      · cases member with
        | head => exact ⟨slot, .head _, rfl⟩
        | tail _ member =>
            obtain ⟨other, listed, index⟩ := ih rest member
            exact ⟨other, .tail _ listed, index⟩

theorem findIdx?_of_pieces {front back : List Slot} {slot : Slot} {before ps : List (Piece Node)}
    (cut : pieces bytes cursor stop (front ++ slot :: back) = .ok ps)
    (unique : ((front ++ slot :: back).map Slot.index).Nodup)
    (left : pieces bytes cursor slot.node.start front = .ok before) :
    ps.findIdx? (Node.isNumbered slot.index) = some before.length := by
  obtain ⟨same, after, left', _, rfl⟩ := pieces_split cut
  cases left'.symm.trans left
  rw [List.map_append, List.map_cons] at unique
  have apart := (List.nodup_append.1 unique).2.2
  apply Node.findIdx?_split
  · intro piece member
    cases piece with
    | text | loose => rfl
    | child i =>
        obtain ⟨own, listed, rfl⟩ := exists_slot_of_child_mem left member
        simpa [Node.isNumbered] using apart _ (List.mem_map_of_mem listed) _ (.head _)
  · simp [Node.isNumbered]

/-- The pieces of an element between its tags print as the source text between them. A closing tag that
comes before the opening one has nothing after it. -/
theorem innerPieces_prints {e opening closing : Node} {content : List Node} {slots : List Slot}
    {ps : List (Piece Node)} {first last : Slot}
    (form : e.form = .element (some opening) content (some closing)) (layout : e.layout = some ps)
    (cut : pieces bytes cursor stop slots = .ok ps) (lined : Lined stop cursor slots)
    (unique : (slots.map Slot.index).Nodup) (opens : first ∈ slots) (starts : first.index = 0)
    (closes : last ∈ slots) (ends : last.index = content.length + 1)
    (shown : ∀ slot ∈ slots, ∃ c u, e.children[slot.index]? = some c ∧ c.print = .ok u ∧
      Spells bytes slot.node.start slot.node.stop u) :
    ∃ inner t, e.innerPieces = some inner ∧ Spells bytes first.node.stop last.node.start t ∧
      Prints (inner.flatMap (Part.ofPiece e.children)) t := by
  obtain ⟨before, after, rfl⟩ := List.append_of_mem opens
  obtain ⟨outer, _, lined'⟩ := lined.split
  obtain ⟨ps₁, ps₂, cut₁, cut₂, split⟩ := pieces_split cut
  have start := findIdx?_of_pieces cut unique cut₁
  rw [starts] at start
  -- The slots of an element are sorted, so its closing tag may come before its opening tag.
  rcases List.mem_append.1 closes with member | member
  · obtain ⟨front, back, rfl⟩ := List.append_of_mem member
    obtain ⟨ps₃, ps₄, cut₃, _, rfl⟩ := pieces_split cut₁
    rw [List.append_assoc, List.cons_append] at cut unique
    have stop := findIdx?_of_pieces cut unique cut₃
    rw [ends] at stop
    have none : (ps.take ps₃.length).drop ((ps₃ ++ .child last.index :: ps₄).length + 1) = [] := by
      apply List.drop_of_length_le
      simp
      omega
    refine ⟨[], "", ?_, .empty ?_, .nil⟩
    · rw [Node.innerPieces_of_findIdx? form layout start stop, none]
    · obtain ⟨_, nonempty, behind⟩ := outer.split
      have := behind.le
      omega
  · have behind : last ∈ after := by
      rcases List.mem_cons.1 member with rfl | member
      · omega
      · exact member
    obtain ⟨front, back, rfl⟩ := List.append_of_mem behind
    obtain ⟨inner, ps₄, cut₃, _, rfl⟩ := pieces_split cut₂
    have whole : before ++ first :: (front ++ last :: back) = (before ++ first :: front) ++ last :: back := by simp
    have head : pieces bytes cursor last.node.start (before ++ first :: front) =
        .ok (ps₁ ++ .child first.index :: inner) := pieces_append cut₁ cut₃
    rw [whole] at cut unique
    have stop := findIdx?_of_pieces cut unique head
    rw [ends] at stop
    have between : (ps.take (ps₁ ++ .child first.index :: inner).length).drop (ps₁.length + 1) = inner := by
      have shape : ps = (ps₁ ++ .child first.index :: inner) ++ .child last.index :: ps₄ := by simp [split]
      rw [shape, List.take_left]
      simp
    obtain ⟨t, spelled, prints⟩ := pieces_prints e.children cut₃ lined'.split.1 fun slot listed =>
      shown slot (List.mem_append_right _ (.tail _ (List.mem_append_left _ listed)))
    refine ⟨inner, t, ?_, spelled, prints⟩
    rw [Node.innerPieces_of_findIdx? form layout start stop, between]

structure ReadElement (source : String) (n first last : Concrete) (e opening : Node) (content : List Node)
    (closing : Node) : Prop where
  tags : Plan.elementTags n = (some first, some last)
  opens : toNode source.toUTF8 (.opening false) first = .ok opening
  closes : toNode source.toUTF8 .closing last = .ok closing
  content : ∀ c ∈ content, ∃ d role, Occurs n d ∧ d.start < d.stop ∧ toNode source.toUTF8 role d = .ok c
  between : ∃ inner t, e.innerPieces = some inner ∧ Spells source.toUTF8 first.stop last.start t ∧
    Prints (inner.flatMap (Part.ofPiece e.children)) t

theorem Plan.Exact.children_eq {n : Concrete} {p : Plan} {nodes : List Node} (exact : p.Exact n)
    (index : ∀ (i : Nat) (slot : Slot), p.slots[i]? = some slot → slot.index = i)
    (fits : nodes.length = p.slots.length) (size : (p.form nodes).children.length = nodes.length) :
    (p.form nodes).children = nodes := by
  apply List.ext_getElem?
  intro i
  by_cases bound : i < nodes.length
  · have found := List.getElem?_eq_getElem (fits ▸ bound)
    have place := exact.places nodes fits i _ _ found (List.getElem?_eq_getElem bound)
    rw [index i _ found] at place
    rw [place, List.getElem?_eq_getElem bound]
  · rw [List.getElem?_eq_none (by omega), List.getElem?_eq_none (by omega)]

theorem nodup_index_mergeSort {slots : List Slot}
    (index : ∀ (i : Nat) (slot : Slot), slots[i]? = some slot → slot.index = i) (le : Slot → Slot → Bool) :
    ((slots.mergeSort le).map Slot.index).Nodup := by
  have numbered : slots.map Slot.index = List.range slots.length := by
    apply List.ext_getElem (by simp)
    intro i bound _
    rw [List.getElem_map, List.getElem_range]
    exact index i _ (List.getElem?_eq_getElem (by simpa using bound))
  rw [((List.mergeSort_perm slots le).map Slot.index).nodup_iff, numbered]
  exact List.nodup_range

theorem toNode_element {source : String} {role : Role} {n : Concrete} {e opening closing : Node}
    {content : List Node} (nested : Nested source n) (nonempty : n.start < n.stop)
    (h : toNode source.toUTF8 role n = .ok e) (form : e.form = .element (some opening) content (some closing)) :
    ∃ first last, ReadElement source n first last e opening content closing := by
  obtain ⟨p, nodes, ps, planned, results, cut, rfl⟩ := toNode_eq_ok h
  rw [Node.form_mk] at form
  have made := plan_made planned
  obtain ⟨_, first, last, tags, parts, slots⟩ := made.element_eq results.length form
  have exact := plan_exact nested nonempty planned
  generalize (n.parts.filter fun c => !c.sameAs first && !c.sameAs last) = inner at slots
  have index : ∀ (i : Nat) (slot : Slot), p.slots[i]? = some slot → slot.index = i := by
    rw [slots]
    exact index_elementSlots
  obtain rfl : nodes = opening :: (content ++ [closing]) := by
    have size : (p.form nodes).children.length = nodes.length := by
      rcases made.fills.uses with ⟨_, fills⟩ | ⟨whole, _⟩
      · exact (fills nodes results.length).length_eq
      · rw [whole] at parts
        cases parts
    rw [← exact.children_eq index results.length size, form]
    simp [Form.children]
  have size : content.length = inner.length := by
    have length := results.length
    rw [slots] at length
    simpa [elementSlots, length_slotsFrom] using length
  have opens : (⟨.opening false, first, 0⟩ : Slot) ∈ p.slots := by
    rw [slots]
    exact .head _
  have ends : p.slots[content.length + 1]? = some ⟨.closing, last, content.length + 1⟩ := by
    rw [slots, elementSlots, List.getElem?_cons_succ, List.getElem?_append_right (by simp [length_slotsFrom, size])]
    simp [slotsFrom, size]
  have below : ∀ slot ∈ p.slots, Occurs n slot.node ∧ slot.node.start < slot.node.stop := fun slot member =>
    ⟨exact.within.occurs _ (List.mem_map_of_mem member), (exact.within.inside _ (List.mem_map_of_mem member)).2.1⟩
  refine ⟨first, last, tags, ?_, ?_, fun c member => ?_, ?_⟩
  · exact results.each 0 _ _ (by rw [slots]; rfl) rfl
  · exact results.each _ _ _ ends (by simp)
  · obtain ⟨slot, listed, read⟩ := results.exists_left
      (List.mem_cons_of_mem opening (List.mem_append_left [closing] member))
    exact ⟨slot.node, slot.role, (below slot listed).1, (below slot listed).2, read⟩
  · rw [parts, if_neg Bool.false_ne_true] at cut
    have restored := results.mono fun slot m member _ read =>
      toNode_restores (nested.of_occurs (below slot member).1) (below slot member).2 read
    have unique := nodup_index_mergeSort index fun a b => a.node.start ≤ b.node.start
    have starts : (⟨.opening false, first, 0⟩ : Slot) ∈ p.slots.mergeSort fun a b => a.node.start ≤ b.node.start :=
      List.mem_mergeSort.2 opens
    have stops : (⟨.closing, last, content.length + 1⟩ : Slot) ∈
        p.slots.mergeSort fun a b => a.node.start ≤ b.node.start :=
      List.mem_mergeSort.2 (List.mem_of_getElem? ends)
    have lined := lined_mergeSort (Nat.le_of_lt nonempty) exact.within.apart exact.within.inside
    have whole : (Node.mk (p.form (opening :: (content ++ [closing]))) (some ps)).form =
        .element (some opening) content (some closing) := by simpa using form
    have between := innerPieces_prints whole rfl cut lined unique starts rfl stops rfl fun slot member =>
      shown_of_results restored (exact.places _ results.length) slot (List.mem_mergeSort.1 member)
    exact between

/-- The ways to defer the children of an element: what the function returns, and what the container of the
function is written as. -/
inductive Deferral (source : String) (n first last : Concrete) (content : List Node) : Node → String → Prop
  | several {body : Node} {t : String} (several : 1 < (Node.keptContent content).length)
      (form : body.form = .fragment (Node.keptContent content))
      (between : Spells source.toUTF8 first.stop last.start t) :
      Deferral source n first last content body ("\x7b() => <>" ++ t ++ "</>\x7d")
  | container {c body : Node} {d inner : Concrete} {role : Role} {before t after : String}
      (lone : Node.keptContent content = [c]) (held : c.form = .container body)
      (occurs : Occurs n d) (read : toNode source.toUTF8 role d = .ok c)
      (within : inner ∈ d.children) (expression : toNode source.toUTF8 .plain inner = .ok body)
      (head : Spells source.toUTF8 d.start inner.start before)
      (own : Spells source.toUTF8 inner.start inner.stop t)
      (tail : Spells source.toUTF8 inner.stop d.stop after) :
      Deferral source n first last content body (before ++ "() => " ++ bodyText inner t ++ after)
  | element {c : Node} {d : Concrete} {role : Role} {t : String} (lone : Node.keptContent content = [c])
      (element : c.isElement = true) (occurs : Occurs n d) (read : toNode source.toUTF8 role d = .ok c)
      (own : Spells source.toUTF8 d.start d.stop t) :
      Deferral source n first last content c ("\x7b() => " ++ t ++ "\x7d")

section

variable {source : String} {n first last : Concrete} {e opening closing body : Node} {content : List Node}

theorem ReadElement.deferral (read : ReadElement source n first last e opening content closing)
    (nested : Nested source n) (form : e.form = .element (some opening) content (some closing))
    (opens : Node.opensWithValue (Node.keptContent content) = true)
    (returns : Node.deferredBody? (Node.keptContent content) (e.keptFragment content) = some body) :
    ∃ t, Deferral source n first last content body t ∧
      (body.thunk (Node.loneContainer? (Node.keptContent content))).print = .ok t := by
  generalize kept : Node.keptContent content = lone at opens returns ⊢
  -- The body is a lone child, or what the lone container holds, or a fragment of several.
  rcases lone with _ | ⟨c, _ | ⟨c', more⟩⟩
  · cases opens
  · have member : c ∈ content := (List.mem_filter.1 (kept ▸ List.mem_singleton_self c)).1
    obtain ⟨d, role, occurs, nonempty, own⟩ := read.content c member
    simp only [Node.deferredBody?] at returns
    split at returns
    · rename_i opening' content' closing' element
      obtain rfl := Option.some.inj returns
      obtain ⟨t, printed, spelled⟩ := toNode_restores (nested.of_occurs occurs) nonempty own
      refine ⟨_, .element kept (by simp [Node.isElement, element]) occurs own spelled, ?_⟩
      have plain : c.needsBodyParens = false := by simp [Node.needsBodyParens, element]
      rw [Node.print_thunk_of_bare (by simp [Node.loneContainer?, Node.contained?, element]) printed, plain]
      exact congrArg Except.ok (String.toList_inj.1 (by simp))
    · rename_i expression held
      split at returns <;> cases returns
      rename_i full
      obtain ⟨inner, front, back, within, expression, head, tail, layout⟩ :=
        toNode_container_layout own held (by simpa using full)
      obtain ⟨before, spells, _⟩ := gap_prints head []
      obtain ⟨after, spells', _⟩ := gap_prints tail []
      have below := (nested.of_occurs occurs).of_occurs (.of_child within)
      obtain ⟨t, printed, spelled⟩ :=
        toNode_restores below ((nested d occurs).nonempty inner within) expression
      refine ⟨_, .container kept held occurs own within expression spells spelled spells', ?_⟩
      have lone : Node.loneContainer? [c] = some c := by simp [Node.loneContainer?, Node.contained?, held]
      have first (all : List Node) : Prints (front.flatMap (Part.ofPiece all)) before := by
        obtain ⟨_, same, prints⟩ := gap_prints head all
        exact spells.inj same ▸ prints
      have last (all : List Node) : Prints (back.flatMap (Part.ofPiece all)) after := by
        obtain ⟨_, same, prints⟩ := gap_prints tail all
        exact spells'.inj same ▸ prints
      rw [lone, Node.print_thunk_of_layout layout printed first last, toNode_needsBodyParens expression]
      simp [bodyText, String.append_assoc]
    · cases returns
  · cases returns
    obtain ⟨inner, t, within, spelled, prints⟩ := read.between
    refine ⟨_, .several (by simp [kept]) ?_ spelled, ?_⟩
    · rw [Node.keptFragment, Node.form_mk, kept]
    · rw [Node.print_thunk_of_bare rfl (Node.print_keptFragment form within prints)]
      exact congrArg Except.ok (String.toList_inj.1 (by simp [Node.needsBodyParens, Node.keptFragment]))

theorem print_fresh_element {opening container closing name : Node} {attributes : List Node} {head t tail : String}
    (tag : opening.form = .openingTag name attributes false) (first : opening.print = .ok head)
    (middle : container.print = .ok t) (last : closing.print = .ok tail) :
    (Node.fresh (.element (some opening) [container] (some closing))).print = .ok (head ++ t ++ tail) := by
  rw [Node.print_ok_iff]
  refine ⟨[.node opening, .node container, .node closing], ?_,
    (Prints.node first (.node middle (.node last .nil))).of_toList (by simp)⟩
  simp [Node.parts, Form.parts, tag]

theorem toProgram_get? {root : Concrete} {m c : Node} {i : Nat} {path : List Nat} (nested : Nested source root)
    (read : toProgram source root = .ok m) (found : m.get? (i :: path) = some c) :
    (∃ d role, Occurs root d ∧ d.start < d.stop ∧ toNode source.toUTF8 role d = .ok c) ∨ Plan.Supplied c := by
  obtain ⟨body, pieces, rfl, results, _⟩ := toProgram_eq_ok read
  rw [Node.get?_cons] at found
  obtain ⟨statement, child, found⟩ := Option.bind_eq_some_iff.1 found
  obtain ⟨n, listed, own⟩ := results.exists_left (List.mem_of_getElem? child)
  have member := mem_children_of_mem_named listed
  rcases toNode_get? (nested.of_occurs (.of_child member)) ((nested root .root).nonempty n member) own found with
    ⟨d, role, occurs, nonempty, own⟩ | supplied
  · exact .inl ⟨d, role, (Occurs.of_child member).trans occurs, nonempty, own⟩
  · exact .inr supplied

/-- Deferring the children of an element that was read keeps its tags and writes one container between
them, with the text of the children, and leaves nothing to defer. -/
theorem deferChildren?_text {root : Concrete} {m e r opening closing : Node} {content : List Node}
    {path : List Nat} (nested : Nested source root) (read : toProgram source root = .ok m)
    (found : m.get? path = some e) (form : e.form = .element (some opening) content (some closing))
    (deferred : e.deferChildren? = some r) :
    ∃ n first last role container arrow body head t tail, Occurs root n ∧ toNode source.toUTF8 role n = .ok e ∧
      Plan.elementTags n = (some first, some last) ∧
      toNode source.toUTF8 (.opening false) first = .ok opening ∧
      toNode source.toUTF8 .closing last = .ok closing ∧
      Spells source.toUTF8 first.start first.stop head ∧ Spells source.toUTF8 last.start last.stop tail ∧
      r.form = .element (some opening) [container] (some closing) ∧
      container.form = .container arrow ∧ arrow.form = .arrow body none ∧
      Deferral source n first last content body t ∧ container.print = .ok t ∧
      r.print = .ok (head ++ t ++ tail) ∧ r.deferChildren? = none := by
  obtain ⟨opening', content', closing', body, form', ⟨name, attributes, tag, _⟩, _, opens, returns, rfl⟩ :=
    Node.deferChildren?_some deferred
  cases form.symm.trans form'
  cases path with
  | nil =>
      obtain ⟨_, _, rfl, _⟩ := toProgram_eq_ok read
      cases found
      cases form
  | cons i path =>
      rcases toProgram_get? nested read found with ⟨n, role, occurs, nonempty, own⟩ | supplied
      · obtain ⟨first, last, element⟩ := toNode_element (nested.of_occurs occurs) nonempty own form
        obtain ⟨t, deferral, printed⟩ := element.deferral (nested.of_occurs occurs) form opens returns
        obtain ⟨arrow, layout, held, rfl, _⟩ := arrow_of_thunk body (Node.loneContainer? (Node.keptContent content))
        have child {c : Concrete} (member : c ∈ n.children) : Nested source c ∧ c.start < c.stop :=
          ⟨nested.of_occurs (occurs.child member), (nested n occurs).nonempty c member⟩
        have firstOf := child (mem_children_of_elementTags (.inl (by rw [element.tags])))
        have lastOf := child (mem_children_of_elementTags (.inr (by rw [element.tags])))
        obtain ⟨head, writes, spells⟩ := toNode_restores firstOf.1 firstOf.2 element.opens
        obtain ⟨tail, writes', spells'⟩ := toNode_restores lastOf.1 lastOf.2 element.closes
        refine ⟨n, first, last, role, _, _, body, head, t, tail, occurs, own, element.tags, element.opens,
          element.closes, spells, spells', rfl, held, rfl, deferral, printed,
          print_fresh_element tag writes printed writes', ?_⟩
        simp [Node.deferChildren?, tag, Node.keptContent_thunk, Node.isDeferredContent_thunk]
      · cases supplied <;> cases form

end

namespace Memo

open Sample (source tree markup opening content closing part)

def nameNode : Node :=
  .mk (.identifier "Memo") (some [.text "Memo"])

def contentNode : Node :=
  .mk (.container (.mk (.generic "number" []) (some [.text "1"]))) (some [.text "\x7b", .child 0, .text "\x7d"])

def markupNode : Node :=
  .mk (.element
    (some (.mk (.openingTag nameNode [] false) (some [.text "<", .child 0, .text ">"])))
    [contentNode] (some (.mk (.closingTag nameNode) (some [.text "</", .child 0, .text ">"]))))
    (some [.child 0, .child 1, .child 2])

def module : Node :=
  .mk (.program [.mk (.generic "expression_statement" [markupNode]) (some [.child 0])]) (some [.child 0])

def deferredNode : Node :=
  .fresh (.element
    (some (.mk (.openingTag nameNode [] false) (some [.text "<", .child 0, .text ">"])))
    [.mk (.container (.mk (.arrow (.mk (.generic "number" []) (some [.text "1"])) none)
      (some [.text "() => ", .child 0]))) (some [.text "\x7b", .child 0, .text "\x7d"])]
    (some (.mk (.closingTag nameNode) (some [.text "</", .child 0, .text ">"]))))

theorem toProgram_tree : tree.toProgram source = .ok module := by
  have first : toNode source.toUTF8 .tagName (part "identifier" 1 5 (some "name") []) = .ok nameNode :=
    toNode_of (p := .leaf (.identifier "Memo")) rfl rfl rfl
  have last : toNode source.toUTF8 .tagName (part "identifier" 11 15 (some "name") []) = .ok nameNode :=
    toNode_of (p := .leaf (.identifier "Memo")) rfl rfl rfl
  have number : toNode source.toUTF8 .plain (part "number" 7 8 none []) =
      .ok (.mk (.generic "number" []) (some [.text "1"])) :=
    toNode_of (p := .generic (part "number" 7 8 none [])) rfl rfl ((layout_of_sorted (by decide)).trans rfl)
  have inner : toNode source.toUTF8 .content content = .ok contentNode :=
    toNode_of (p := .container content) rfl (mapM_cons_ok number rfl) ((layout_of_sorted (by decide)).trans rfl)
  have tag : toNode source.toUTF8 (.opening false) opening = _ :=
    toNode_of rfl (mapM_cons_ok first rfl) ((layout_of_sorted (by decide)).trans rfl)
  have tag' : toNode source.toUTF8 .closing closing = _ :=
    toNode_of rfl (mapM_cons_ok last rfl) ((layout_of_sorted (by decide)).trans rfl)
  have element : toNode source.toUTF8 .plain markup = .ok markupNode :=
    toNode_of (p := .element markup) rfl (mapM_cons_ok tag (mapM_cons_ok inner (mapM_cons_ok tag' rfl)))
      ((layout_of_sorted (by decide)).trans rfl)
  have only : toNode source.toUTF8 .plain (part "expression_statement" 0 16 none [markup]) = _ :=
    toNode_of rfl (mapM_cons_ok element rfl) ((layout_of_sorted (by decide)).trans rfl)
  exact toProgram_of rfl (mapM_cons_ok only rfl) ((layout_of_sorted (by decide)).trans rfl)

end Memo

theorem deferChildren?_text_memo :
    Nested Sample.source Sample.tree ∧ toProgram Sample.source Sample.tree = .ok Memo.module ∧
      Memo.module.get? [0, 0] = some Memo.markupNode ∧
      Memo.markupNode.deferChildren? = some Memo.deferredNode ∧
      Memo.deferredNode.print = .ok "<Memo>\x7b() => 1\x7d</Memo>" ∧
      (∃ head t tail, Memo.deferredNode.print = .ok (head ++ t ++ tail)) ∧
      Memo.deferredNode.deferChildren? = none := by
  have nested := Sample.wellFormed_tree.nested
  have found : Memo.module.get? [0, 0] = some Memo.markupNode := rfl
  have deferred : Memo.markupNode.deferChildren? = some Memo.deferredNode := rfl
  obtain ⟨_, _, _, _, _, _, _, head, t, tail, _, _, _, _, _, _, _, _, _, _, _, _, printed, done⟩ :=
    deferChildren?_text nested Memo.toProgram_tree found rfl deferred
  exact ⟨nested, Memo.toProgram_tree, found, deferred, by cbv, ⟨head, t, tail, printed⟩, done⟩

end Concrete

end JsxBoundary
