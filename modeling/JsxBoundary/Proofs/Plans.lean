import Mathlib.Data.List.Basic
import JsxBoundary.Proofs.Printable
import JsxBoundary.Proofs.Slices
import JsxBoundary.Proofs.WellFormed

namespace JsxBoundary.Concrete

structure Tiled (source : String) (n : Concrete) (slots : List Slot) : Prop where
  indices : ∀ (i : Nat) (slot : Slot), slots[i]? = some slot → slot.index = i
  ordered : slots.Pairwise fun a b => a.node.stop ≤ b.node.start
  blank : ∀ a b t, n.start ≤ a → b ≤ n.stop →
    (∀ slot ∈ slots, slot.node.stop ≤ a ∨ b ≤ slot.node.start) →
    Spells source.toUTF8 a b t → Text.isBlank t = true

def Role.isOpening : Role → Bool
  | .opening _ => true
  | _ => false

def Opens (n : Concrete) (slots : List Slot) : Prop :=
  ∀ slot ∈ slots, ∀ selfClosing, slot.role = .opening selfClosing →
    slot.node = n ∧ n.kind = "jsx_self_closing_element" ∨ (slot.node.field? "name").isSome = true

namespace Opens

variable {n : Concrete} {role : Role}

theorem nil : Opens n [] := by
  intro slot member
  cases member

theorem cons {slot : Slot} {slots : List Slot} (plain : slot.role.isOpening = false)
    (h : Opens n slots) : Opens n (slot :: slots) := by
  intro other member selfClosing opens
  rcases List.mem_cons.1 member with rfl | member
  · rw [opens] at plain
    cases plain
  · exact h other member selfClosing opens

theorem append {slots slots' : List Slot} (left : Opens n slots) (right : Opens n slots') :
    Opens n (slots ++ slots') := by
  intro slot member
  rcases List.mem_append.1 member with member | member
  · exact left slot member
  · exact right slot member

theorem slotsFrom (plain : role.isOpening = false) (index : Nat) (cs : List Concrete) :
    Opens n (slotsFrom role index cs) := by
  intro slot member selfClosing opens
  obtain ⟨i, _, rfl⟩ := List.mem_mapIdx.1 member
  cases opens
  cases plain

end Opens

namespace Plan

def Shaped (source : String) (n : Concrete) (p : Plan) (nodes : List Node) : Prop :=
  match p.form nodes with
  | .text value => p.whole = true ∧ n.text source.toUTF8 = .ok value
  | .container e => e.isEmptyExpression = true ∨ p.whole = false ∧ ∃ slot ∈ p.slots, slot.index = 0
  | .element opening content closing =>
    ∃ o selfClosing first rest, opening = some o ∧ nodes.head? = some o ∧
      p.slots = ⟨.opening selfClosing, first, 0⟩ :: rest ∧
      (selfClosing = false → ∃ c, closing = some c ∧ nodes = o :: (content ++ [c]) ∧
        p.whole = false ∧ Tiled source n p.slots)
  | _ => True

/-- The slots lie apart from each other, and each result becomes the child that its slot announces. -/
structure Exact (n : Concrete) (p : Plan) : Prop where
  within : Within n (p.slots.map Slot.node)
  places : ∀ nodes, nodes.length = p.slots.length → ∀ (i : Nat) (slot : Slot) (node : Node),
    p.slots[i]? = some slot → nodes[i]? = some node → (p.form nodes).children[slot.index]? = some node

structure Faithful (source : String) (n : Concrete) (p : Plan) : Prop extends Exact n p where
  shaped : ∀ nodes, nodes.length = p.slots.length → p.Shaped source n nodes
  opens : Opens n p.slots

theorem Exact.aligned {n : Concrete} {p : Plan} (within : Within n (p.slots.map Slot.node))
    (indices : ∀ (i : Nat) (slot : Slot), p.slots[i]? = some slot → slot.index = i)
    (children : ∀ nodes, nodes.length = p.slots.length → (p.form nodes).children = nodes) :
    Exact n p := by
  refine ⟨within, fun nodes length i slot node found result => ?_⟩
  rw [children nodes length, indices i slot found]
  exact result

namespace Faithful

variable {source : String} {n : Concrete} {p : Plan}

theorem aligned (within : Within n (p.slots.map Slot.node))
    (indices : ∀ (i : Nat) (slot : Slot), p.slots[i]? = some slot → slot.index = i)
    (opens : Opens n p.slots) (form : ∀ nodes, nodes.length = p.slots.length →
      (p.form nodes).children = nodes ∧ p.Shaped source n nodes) : Faithful source n p :=
  ⟨.aligned within indices fun nodes length => (form nodes length).1,
    fun nodes length => (form nodes length).2, opens⟩

theorem leaf {form : Form Node} (shaped : (Plan.leaf form).Shaped source n []) :
    Faithful source n (.leaf form) := by
  refine ⟨⟨.nil, fun nodes length i slot node found => ?_⟩, fun nodes length => ?_, .nil⟩
  · cases found
  · cases List.eq_nil_of_length_eq_zero length
    exact shaped

theorem single {role : Role} {inner : Concrete} {form : Node → Form Node} (within : Within n [inner])
    (opens : Opens n [⟨role, inner, 0⟩]) (children : ∀ node, (form node).children = [node])
    (shaped : ∀ node, (Plan.single n role inner form).Shaped source n [node]) :
    Faithful source n (.single n role inner form) := by
  refine .aligned within (fun i slot found => ?_) opens fun nodes length => ?_
  · obtain ⟨bound, rfl⟩ := List.getElem?_eq_some_iff.1 found
    have first : i = 0 := by simpa [Plan.single] using bound
    subst first
    rfl
  · obtain ⟨node, rfl⟩ := List.length_eq_one_iff.1 length
    exact ⟨children node, shaped node⟩

end Faithful

end Plan

theorem map_node_slotsFrom (role : Role) (index : Nat) (cs : List Concrete) :
    (slotsFrom role index cs).map Slot.node = cs := by
  refine List.ext_getElem? fun i => ?_
  rw [List.getElem?_map, slotsFrom, List.getElem?_mapIdx, Option.map_map]
  exact Option.map_id'

theorem getElem?_slotsFrom {role : Role} {index i : Nat} {cs : List Concrete} {slot : Slot}
    (found : (slotsFrom role index cs)[i]? = some slot) :
    ∃ c, cs[i]? = some c ∧ slot = ⟨role, c, index + i⟩ := by
  unfold slotsFrom at found
  rw [List.getElem?_mapIdx] at found
  obtain ⟨c, here, rfl⟩ := Option.map_eq_some_iff.1 found
  exact ⟨c, here, rfl⟩

theorem length_slotsFrom (role : Role) (index : Nat) (cs : List Concrete) :
    (slotsFrom role index cs).length = cs.length := by
  simp [slotsFrom]

theorem index_slotsFrom {role : Role} {cs : List Concrete} (i : Nat) (slot : Slot)
    (found : (slotsFrom role 0 cs)[i]? = some slot) : slot.index = i := by
  obtain ⟨c, _, rfl⟩ := getElem?_slotsFrom found
  exact Nat.zero_add i

theorem named_sublist (n : Concrete) : n.named.Sublist n.children :=
  List.filter_sublist

theorem parts_sublist (n : Concrete) : n.parts.Sublist n.children :=
  List.filter_sublist.trans n.named_sublist

theorem sameAs_self (n : Concrete) : n.sameAs n = true := by
  simp [sameAs]

/-! ## One lemma for each plan -/

section

variable {source : String} {n : Concrete}

theorem generic_faithful (nests : Nests source n) : (Plan.generic n).Faithful source n := by
  refine .aligned ?_ index_slotsFrom (.slotsFrom rfl _ _) fun nodes _ => ⟨rfl, trivial⟩
  rw [Plan.generic, map_node_slotsFrom]
  exact .of_sublist nests n.named_sublist

theorem function_faithful (nests : Nests source n) : (Plan.function n).Faithful source n := by
  refine .aligned ?_ index_slotsFrom (.slotsFrom rfl _ _) fun nodes _ => ⟨rfl, trivial⟩
  rw [Plan.function, map_node_slotsFrom]
  exact .of_sublist nests n.named_sublist

theorem ne_of_field? {c d : Concrete} {name name' : String} (hc : n.field? name = some c)
    (hd : n.field? name' = some d) (ne : name ≠ name') : c ≠ d := by
  intro same
  have field : c.info.field = some name := by simpa using List.find?_some hc
  have field' : d.info.field = some name' := by simpa using List.find?_some hd
  rw [same, field'] at field
  exact ne (Option.some.inj field).symm

theorem within_fields (nests : Nests source n) {c d : Concrete} {name name' : String}
    (hc : n.field? name = some c) (hd : n.field? name' = some d) (ne : name ≠ name') :
    Within n [c, d] := by
  have member := mem_children_of_field? hc
  have member' := mem_children_of_field? hd
  refine .cons nests member (.single nests member') fun e inner => ?_
  cases List.mem_singleton.1 inner
  exact nests.apart member member' (ne_of_field? hc hd ne)

theorem member_faithful (nests : Nests source n) {field : String} (ne : "object" ≠ field)
    (computed : Bool) : (Plan.member n field computed).Faithful source n := by
  unfold Plan.member
  split
  · rename_i object property ho hp
    refine .aligned ?_ index_slotsFrom (.slotsFrom rfl _ _) fun nodes length => ?_
    · rw [map_node_slotsFrom]
      exact within_fields nests ho hp ne
    · obtain ⟨_, _, rfl⟩ := List.length_eq_two.1 length
      exact ⟨rfl, trivial⟩
  · exact generic_faithful nests

theorem call_faithful (nested : Nested source n) : (Plan.call n).Faithful source n := by
  have nests := nested n .root
  unfold Plan.call
  split
  · rename_i callee arguments hc ha
    split
    · refine .aligned ?_ index_slotsFrom (.slotsFrom rfl _ _) fun nodes length => ?_
      · rw [map_node_slotsFrom]
        have member := mem_children_of_field? hc
        have member' := mem_children_of_field? ha
        have given : Within arguments arguments.parts :=
          .of_sublist (nested arguments (.of_child member')) arguments.parts_sublist
        refine .cons nests member (given.of_child nests member') fun c inner => ?_
        have inside := given.inside c inner
        rcases nests.apart member member' (ne_of_field? hc ha (by decide)) with before | after
        · exact .inl (by omega)
        · exact .inr (by omega)
      · obtain ⟨a, rest, rfl⟩ := List.exists_cons_of_length_eq_add_one
          (length.trans (length_slotsFrom _ _ _))
        exact ⟨rfl, trivial⟩
    · exact generic_faithful nests
  · exact generic_faithful nests

theorem single_faithful (nests : Nests source n) {role : Role} {inner : Concrete}
    (member : inner ∈ n.children) (plain : role.isOpening = false) {form : Node → Form Node}
    (children : ∀ node, (form node).children = [node])
    (shaped : ∀ node, (Plan.single n role inner form).Shaped source n [node]) :
    (Plan.single n role inner form).Faithful source n :=
  .single (.single nests member) (.cons plain .nil) children shaped

theorem arrow_faithful (nests : Nests source n) : (Plan.arrow n).Faithful source n := by
  unfold Plan.arrow
  split
  · rename_i body params hb hp
    have within : Within n [params, body] := by
      simp only [Option.orElse_eq_orElse, Option.orElse_eq_or, Option.or_eq_some_iff] at hp
      rcases hp with hp | ⟨_, hp⟩
      · exact within_fields nests hp hb (by decide)
      · exact within_fields nests hp hb (by decide)
    refine ⟨⟨within, fun nodes length i slot node found result => ?_⟩, fun nodes length => ?_,
      .cons rfl (.cons rfl .nil)⟩
    · obtain ⟨p, b, rfl⟩ := List.length_eq_two.1 length
      rcases i with _ | _ | i
      · cases found
        exact result
      · cases found
        exact result
      · cases found
    · obtain ⟨p, b, rfl⟩ := List.length_eq_two.1 length
      exact trivial
  · rename_i body hb _
    exact single_faithful nests (mem_children_of_field? hb) rfl (fun _ => rfl) fun _ => trivial
  · exact generic_faithful nests

theorem parens_faithful (nests : Nests source n) : (Plan.parens n).Faithful source n := by
  unfold Plan.parens
  split
  · rename_i inner parts
    have member := mem_children_of_mem_parts (n := n) (c := inner) (by simp [parts])
    exact single_faithful nests member rfl (fun _ => rfl) fun _ => trivial
  · exact generic_faithful nests

theorem fragment_faithful (nests : Nests source n) {content : List Concrete}
    (h : content.Sublist n.children) : (Plan.fragment content).Faithful source n := by
  refine .aligned ?_ index_slotsFrom (.slotsFrom rfl _ _) fun nodes _ => ⟨rfl, trivial⟩
  rw [Plan.fragment, map_node_slotsFrom]
  exact .of_sublist nests h

theorem selfClosing_faithful (nonempty : n.start < n.stop) (kind : n.kind = "jsx_self_closing_element") :
    (Plan.selfClosing n).Faithful source n := by
  refine .single (.self nonempty) (fun slot member selfClosing opens => ?_) (fun _ => rfl) fun node =>
    ⟨node, true, n, [], rfl, rfl, rfl, fun pair => by cases pair⟩
  cases List.mem_singleton.1 member
  exact .inl ⟨rfl, kind⟩

theorem container_faithful (nests : Nests source n) : (Plan.container n).Faithful source n := by
  unfold Plan.container
  split
  · exact .leaf (.inl rfl)
  · rename_i inner rest parts
    have member := mem_children_of_mem_parts (n := n) (c := inner) (by simp [parts])
    exact single_faithful nests member rfl (fun _ => rfl) fun _ => .inr ⟨rfl, _, .head _, rfl⟩

theorem index_tagSlots {role role' : Role} {name : Concrete} {attributes : List Concrete} (i : Nat)
    (slot : Slot) (found : (⟨role, name, 0⟩ :: slotsFrom role' 1 attributes)[i]? = some slot) :
    slot.index = i := by
  cases i with
  | zero =>
      cases found
      rfl
  | succ i =>
      obtain ⟨c, _, rfl⟩ := getElem?_slotsFrom (show (slotsFrom role' 1 attributes)[i]? = some slot from found)
      exact Nat.add_comm 1 i

theorem opening_faithful (nests : Nests source n) {selfClosing : Bool} {p : Plan}
    (planned : Plan.opening n selfClosing = .ok p) : p.Faithful source n := by
  unfold Plan.opening at planned
  split at planned <;> cases planned
  rename_i name hn
  have member := mem_children_of_field? hn
  have attributes := (List.filter_sublist (l := n.named) (p := fun c =>
    !c.sameAs name && (c.kind == "jsx_attribute" || c.kind == "jsx_expression"))).trans n.named_sublist
  refine .aligned ?_ (fun i slot found => ?_) (.cons rfl (.slotsFrom rfl _ _)) fun nodes length => ?_
  · rw [List.map_cons, map_node_slotsFrom]
    refine .cons nests member (.of_sublist nests attributes) fun c inner => ?_
    refine nests.apart member (attributes.subset inner) fun same => ?_
    have other := (List.mem_filter.1 inner).2
    rw [← same, sameAs_self] at other
    simp at other
  · exact index_tagSlots i slot found
  · obtain ⟨a, rest, rfl⟩ := List.exists_cons_of_length_eq_add_one length
    exact ⟨rfl, trivial⟩

theorem closing_faithful (nests : Nests source n) : (Plan.closing n).Faithful source n := by
  unfold Plan.closing
  split
  · exact .leaf trivial
  · rename_i name hn
    exact single_faithful nests (mem_children_of_field? hn) rfl (fun _ => rfl) fun _ => trivial

theorem attr_faithful (nests : Nests source n) {p : Plan}
    (planned : Plan.attr source.toUTF8 n = .ok p) : p.Faithful source n := by
  simp only [Plan.attr, bind, Except.bind] at planned
  split at planned
  · cases planned
  · split at planned <;> cases planned
    · rename_i first value rest parts
      have member := mem_children_of_mem_parts (n := n) (c := value) (by simp [parts])
      exact single_faithful nests member rfl (fun _ => rfl) fun _ => trivial
    · exact .leaf trivial

theorem spreadAttr_faithful (nested : Nested source n) : (Plan.spreadAttr n).Faithful source n := by
  have nests := nested n .root
  unfold Plan.spreadAttr
  split
  · rename_i spread rest parts
    split
    · rename_i argument _ _ inner
      have outer := mem_children_of_mem_parts (n := n) (c := spread) (by simp [parts])
      have member := mem_children_of_mem_parts (n := spread) (c := argument) (by simp [inner])
      have within : Within n [argument] :=
        (Within.single (nested spread (.of_child outer)) member).of_child nests outer
      exact .single within (.cons rfl .nil) (fun _ => rfl) fun _ => trivial
    · exact generic_faithful nests
  · exact generic_faithful nests

/-! ## Elements -/

structure Content (n opening : Concrete) (closing : Option Concrete) (content : List Concrete) :
    Prop where
  sub : content.Sublist n.parts
  others : ∀ c ∈ content, c ≠ opening ∧ c ∉ closing
  rest : ∀ c ∈ n.parts, c ∈ content ∨ c = opening ∨ c ∈ closing

theorem Tagged.ordered {opening closing : Concrete} (h : Tagged source n opening closing)
    (nests : Nests source n) {content : List Concrete}
    (inner : Content n opening (some closing) content) :
    (opening :: (content ++ [closing])).Pairwise fun a b => a.stop ≤ b.start := by
  have between : ∀ c ∈ content, opening.stop ≤ c.start ∧ c.stop ≤ closing.start := by
    intro c member
    rcases h.content c (inner.sub.subset member) with same | same | between
    · exact absurd same (inner.others c member).1
    · exact absurd (congrArg some same).symm (inner.others c member).2
    · exact between
  have within : content.Pairwise fun a b => a.stop ≤ b.start :=
    nests.ordered.sublist (inner.sub.trans n.parts_sublist)
  refine List.pairwise_cons.2 ⟨fun c member => ?_, List.pairwise_append.2 ⟨within, ?_, ?_⟩⟩
  · rcases List.mem_append.1 member with member | member
    · exact (between c member).1
    · cases List.mem_singleton.1 member
      exact h.distinct
  · exact List.pairwise_singleton _ _
  · intro c member d last
    cases List.mem_singleton.1 last
    exact (between c member).2

theorem eq_of_sameAs (nests : Nests source n) {c d : Concrete} (hc : c ∈ n.children)
    (hd : d ∈ n.children) (same : c.sameAs d = true) : c = d := by
  by_cases equal : c = d
  · exact equal
  · exfalso
    simp only [sameAs, Bool.and_eq_true, beq_iff_eq] at same
    have nonempty := nests.nonempty c hc
    have nonempty' := nests.nonempty d hd
    rcases nests.apart hc hd equal with before | after <;> omega

theorem content_filter (nests : Nests source n) {opening : Concrete} {closing : Option Concrete}
    (hasOpening : opening ∈ n.children) (hasClosing : ∀ c ∈ closing, c ∈ n.children) :
    Content n opening closing
      (n.parts.filter fun c => !c.sameAs opening && !closing.any c.sameAs) := by
  refine ⟨List.filter_sublist, fun c member => ?_, fun c member => ?_⟩
  · have distinct := (List.mem_filter.1 member).2
    constructor
    · intro same
      rw [same, sameAs_self] at distinct
      simp at distinct
    · intro same
      cases Option.mem_def.1 same
      simp [sameAs_self] at distinct
  · have child := mem_children_of_mem_parts member
    by_cases first : c.sameAs opening = true
    · exact .inr (.inl (eq_of_sameAs nests child hasOpening first))
    · cases last : closing.any c.sameAs with
      | false => exact .inl (List.mem_filter.2 ⟨member, by simp [first, last]⟩)
      | true =>
          obtain ⟨d, here, same⟩ := (Option.any_eq_true _ _).1 last
          right; right
          rw [eq_of_sameAs nests child (hasClosing d here) same]
          exact here

def elementSlots (opening : Concrete) (content : List Concrete) (closing : Option Concrete) : List Slot :=
  ⟨.opening false, opening, 0⟩ ::
    (slotsFrom .content 1 content ++ slotsFrom .closing (content.length + 1) closing.toList)

section

variable {opening : Concrete} {content : List Concrete} {closing : Option Concrete}

theorem map_node_elementSlots (opening : Concrete) (content : List Concrete)
    (closing : Option Concrete) :
    (elementSlots opening content closing).map Slot.node = opening :: (content ++ closing.toList) := by
  simp [elementSlots, map_node_slotsFrom]

theorem index_elementSlots (i : Nat) (slot : Slot)
    (found : (elementSlots opening content closing)[i]? = some slot) : slot.index = i := by
  cases i with
  | zero =>
      cases found
      rfl
  | succ i =>
      rw [elementSlots, List.getElem?_cons_succ, List.getElem?_append, length_slotsFrom] at found
      split at found
      · obtain ⟨_, _, rfl⟩ := getElem?_slotsFrom found
        exact Nat.add_comm 1 i
      · rename_i past
        obtain ⟨_, last, rfl⟩ := getElem?_slotsFrom found
        have bound := (List.getElem?_eq_some_iff.1 last).1
        have one := closing.length_toList_le
        simp only
        omega

theorem opens_elementSlots (named : (opening.field? "name").isSome = true) :
    Opens n (elementSlots opening content closing) := by
  intro slot member selfClosing opens
  rcases List.mem_cons.1 member with rfl | member
  · exact .inr named
  · have rest : Opens n (slotsFrom .content 1 content ++
        slotsFrom .closing (content.length + 1) closing.toList) :=
      .append (.slotsFrom rfl _ _) (.slotsFrom rfl _ _)
    exact rest slot member selfClosing opens

theorem children_of_elementSlots {nodes : List Node}
    (length : nodes.length = (elementSlots opening content closing).length) :
    ∃ o more, nodes = o :: more ∧
      (Form.element (some o) (more.take content.length) more[content.length]?).children = nodes := by
  obtain ⟨o, more, rfl⟩ := List.exists_cons_of_length_eq_add_one length
  refine ⟨o, more, rfl, ?_⟩
  have size : more.length ≤ content.length + 1 := by
    have one := closing.length_toList_le
    simp [elementSlots, length_slotsFrom] at length
    omega
  simp only [Form.children, Option.toList_some, List.singleton_append, ← List.take_add_one]
  rw [List.take_of_length_le size]

end

theorem Tagged.tiled {opening closing : Concrete} (h : Tagged source n opening closing)
    (nests : Nests source n) {content : List Concrete}
    (inner : Content n opening (some closing) content) :
    Tiled source n (elementSlots opening content (some closing)) := by
  have ordered := h.ordered nests inner
  have nodes := map_node_elementSlots opening content (some closing)
  rw [Option.toList_some] at nodes
  rw [← nodes, List.pairwise_map] at ordered
  refine ⟨index_elementSlots, ordered, fun a b t first last apart spelled => ?_⟩
  have clear : ∀ c ∈ opening :: (content ++ [closing]), c.stop ≤ a ∨ b ≤ c.start := by
    intro c member
    rw [← nodes] at member
    obtain ⟨slot, inner, rfl⟩ := List.mem_map.1 member
    exact apart slot inner
  refine h.blank a b t first last (fun c member => ?_) (slice_eq_ok_iff.2 spelled)
  refine clear c ?_
  simp only [List.mem_cons, List.mem_append, List.not_mem_nil, or_false] at member ⊢
  rcases member with rfl | rfl | member
  · exact .inl rfl
  · exact .inr (.inr rfl)
  · rcases inner.rest c member with between | rfl | same
    · exact .inr (.inl between)
    · exact .inl rfl
    · exact .inr (.inr (Option.some.inj same).symm)

theorem element_within (nested : Nested source n) (kind : n.kind = "jsx_element") {opening : Concrete}
    {closing : Option Concrete} {content : List Concrete}
    (tags : Plan.elementTags n = (some opening, closing)) (inner : Content n opening closing content) :
    Within n (opening :: (content ++ closing.toList)) := by
  have nests := nested n .root
  have hasOpening : opening ∈ n.children := mem_children_of_elementTags (.inl (by rw [tags]))
  have between : Within n content := .of_sublist nests (inner.sub.trans n.parts_sublist)
  cases closing with
  | none =>
      rw [Option.toList_none, List.append_nil]
      refine .cons nests hasOpening between fun c member => ?_
      exact nests.apart hasOpening (n.parts_sublist.subset (inner.sub.subset member))
        (inner.others c member).1.symm
  | some closing =>
      have hasClosing : closing ∈ n.children := mem_children_of_elementTags (.inr (by rw [tags]))
      have clear : ∀ c ∈ content, Apart c closing := fun c member =>
        nests.apart (n.parts_sublist.subset (inner.sub.subset member)) hasClosing
          fun same => (inner.others c member).2 (congrArg some same).symm
      have rest : Within n (content ++ [closing]) := by
        have single : Within n [closing] := .single nests hasClosing
        refine ⟨fun c member => ?_, fun c member => ?_, List.pairwise_append.2
          ⟨between.apart, single.apart, fun c member d last => List.mem_singleton.1 last ▸ clear c member⟩⟩
        · rcases List.mem_append.1 member with member | member
          · exact between.occurs c member
          · exact single.occurs c member
        · rcases List.mem_append.1 member with member | member
          · exact between.inside c member
          · exact single.inside c member
      refine .cons nests hasOpening rest fun c member => ?_
      rcases List.mem_append.1 member with member | member
      · exact nests.apart hasOpening (n.parts_sublist.subset (inner.sub.subset member))
          (inner.others c member).1.symm
      · cases List.mem_singleton.1 member
        exact nests.apart hasOpening hasClosing (nests.tags kind opening closing tags)

theorem element_exact (nested : Nested source n) (kind : n.kind = "jsx_element") :
    (Plan.element n).Exact n := by
  have nests := nested n .root
  unfold Plan.element
  split
  · exact (generic_faithful nests).toExact
  · rename_i opening closing tags
    have inner := content_filter nests (mem_children_of_elementTags (.inl (by rw [tags])))
      fun c here => mem_children_of_elementTags (c := c) (.inr (by rw [tags]; exact here))
    dsimp only
    generalize n.parts.filter _ = content at inner ⊢
    split
    -- An opening tag without a name makes a fragment; its tags are text.
    · exact (fragment_faithful nests (inner.sub.trans n.parts_sublist)).toExact
    · refine .aligned (p := ⟨elementSlots opening content closing, _, false⟩) ?_ index_elementSlots
        fun nodes length => ?_
      · rw [map_node_elementSlots]
        exact element_within nested kind tags inner
      · obtain ⟨o, more, rfl, children⟩ := children_of_elementSlots length
        exact children

theorem exists_concat_of_length {α : Type} {xs : List α} {k : Nat} (length : xs.length = k + 1) :
    ∃ ys y, xs = ys ++ [y] ∧ ys.length = k := by
  obtain rfl | ⟨ys, y, rfl⟩ := List.eq_nil_or_concat xs
  · cases length
  · rw [List.concat_eq_append] at length ⊢
    exact ⟨ys, y, rfl, by simpa using length⟩

theorem element_faithful (proper : Proper source n) (nested : Nested source n)
    (kind : n.kind = "jsx_element") : (Plan.element n).Faithful source n := by
  have nests := nested n .root
  obtain ⟨opening, closing, tagged⟩ := proper.tagged kind
  have tags := tagged.tags
  have inner := content_filter nests (mem_children_of_elementTags (.inl (by rw [tags])))
    fun c here => mem_children_of_elementTags (c := c) (.inr (by rw [tags]; exact here))
  unfold Plan.element
  rw [tags]
  dsimp only
  generalize n.parts.filter _ = content at inner ⊢
  split
  · exact fragment_faithful nests (inner.sub.trans n.parts_sublist)
  · rename_i named
    refine .aligned (p := ⟨elementSlots opening content (some closing), _, false⟩) ?_ index_elementSlots
      (opens_elementSlots (by simpa [Option.isSome_iff_ne_none] using named)) fun nodes length => ?_
    · rw [map_node_elementSlots]
      exact element_within nested kind tags inner
    · obtain ⟨o, more, rfl, children⟩ := children_of_elementSlots length
      refine ⟨children, ?_⟩
      have count : more.length = content.length + 1 := by
        simpa [elementSlots, length_slotsFrom] using length
      obtain ⟨middle, c, rfl, size⟩ := exists_concat_of_length count
      have taken : (middle ++ [c]).take content.length = middle := by simp [← size]
      have last : (middle ++ [c])[content.length]? = some c := by simp [← size]
      unfold Plan.Shaped
      simp only [taken, last]
      exact ⟨o, false, opening, _, rfl, rfl, rfl, fun _ =>
        ⟨c, rfl, rfl, trivial, tagged.tiled nests inner⟩⟩

theorem importPlan_faithful {path : Concrete} {p : Plan}
    (planned : importPlan source.toUTF8 n path = .ok p) : p.Faithful source n := by
  unfold importPlan at planned
  obtain ⟨path, _, planned⟩ := bind_eq_ok planned
  obtain ⟨b, _, planned⟩ := bind_eq_ok planned
  cases planned
  exact .leaf trivial

/-! ## All constructs -/

/-- The plans that there are for a node, with what the node must be for some of them. -/
inductive Plan.Made (bytes : ByteArray) (n : Concrete) : Plan → Prop
  | identifier (name : String) : Made bytes n (.leaf (.identifier name))
  | text {value : String} (text : n.text bytes = .ok value) : Made bytes n (.leaf (.text value))
  | generic : Made bytes n (.generic n)
  | function : Made bytes n (.function n)
  | importing {path : Concrete} {p : Plan} (planned : importPlan bytes n path = .ok p) : Made bytes n p
  | member {field : String} (other : "object" ≠ field) (computed : Bool) :
      Made bytes n (.member n field computed)
  | call : Made bytes n (.call n)
  | arrow : Made bytes n (.arrow n)
  | parens : Made bytes n (.parens n)
  | element (kind : n.kind = "jsx_element") : Made bytes n (.element n)
  | fragment : Made bytes n (.fragment n.parts)
  | selfClosing (kind : n.kind = "jsx_self_closing_element") : Made bytes n (.selfClosing n)
  | container : Made bytes n (.container n)
  | opening {selfClosing : Bool} {p : Plan} (planned : Plan.opening n selfClosing = .ok p) :
      Made bytes n p
  | closing : Made bytes n (.closing n)
  | attr {p : Plan} (planned : Plan.attr bytes n = .ok p) : Made bytes n p
  | spreadAttr : Made bytes n (.spreadAttr n)

theorem plainPlan_made {bytes : ByteArray} {p : Plan} (planned : plainPlan bytes n = .ok p) :
    p.Made bytes n := by
  unfold plainPlan at planned
  split at planned
  · obtain ⟨name, _, planned⟩ := bind_eq_ok planned
    cases planned
    exact .identifier name
  split at planned
  · cases planned
    exact .function
  split at planned
  · split at planned
    · exact .importing planned
    · cases planned
      exact .generic
  all_goals cases planned
  · exact .member (by decide) _
  · exact .member (by decide) _
  · exact .call
  · exact .arrow
  · exact .parens
  · exact .element ‹_›
  · exact .fragment
  · exact .selfClosing ‹_›
  · exact .generic

theorem plan_made {bytes : ByteArray} {role : Role} {p : Plan} (planned : plan bytes role n = .ok p) :
    p.Made bytes n := by
  cases role with
  | plain => exact plainPlan_made planned
  | opening selfClosing => exact .opening planned
  | closing =>
      cases planned
      exact .closing
  | content =>
      simp only [plan] at planned
      split at planned
      · obtain ⟨value, text, planned⟩ := bind_eq_ok planned
        cases planned
        exact .text text
      split at planned
      · split at planned <;> cases planned
        · exact .generic
        · exact .container
      · exact plainPlan_made planned
  | tagName =>
      simp only [plan] at planned
      split at planned
      · exact plainPlan_made planned
      · cases planned
        exact .generic
  | attr =>
      simp only [plan] at planned
      split at planned
      · exact .attr planned
      · cases planned
        exact .spreadAttr
  | value =>
      simp only [plan] at planned
      split at planned
      · cases planned
        exact .container
      · exact plainPlan_made planned

/-! ## The forms that plans make -/

inductive Plan.Supplied : Node → Prop
  | nothing : Supplied (.mk .emptyExpression (some []))
  | nameless : Supplied (.fresh (.identifier ""))
  | specifier (imported binding whole : String) :
      Supplied (.mk (.importSpecifier imported binding) (some [.text whole]))

/-- The results make up the form: each child is one of them or supplied, the opening tag of an element
is the first one, and an import statement has only specifiers. -/
structure Plan.Builds (p : Plan) (nodes : List Node) : Prop where
  children : ∀ c ∈ (p.form nodes).children, c ∈ nodes ∨ Supplied c
  tagged : match p.form nodes with
    | .element opening _ _ => opening = nodes.head? ∧
        ∃ selfClosing first rest, p.slots = ⟨.opening selfClosing, first, 0⟩ :: rest
    | .importDecl _ specifiers _ _ => ∀ c ∈ specifiers, c.isSpecifier = true
    | _ => True

def Plan.Simple : Form Node → Prop
  | .element _ _ _ | .importDecl _ _ _ _ => False
  | _ => True

theorem Plan.Builds.of_subset {p : Plan} {nodes : List Node}
    (children : ∀ c ∈ (p.form nodes).children, c ∈ nodes) (simple : Simple (p.form nodes)) :
    p.Builds nodes := by
  refine ⟨fun c member => .inl (children c member), ?_⟩
  split
  · rename_i form
    rw [form] at simple
    exact simple.elim
  · rename_i form
    rw [form] at simple
    exact simple.elim
  · trivial

theorem specifier?_supplied {bytes : ByteArray} {c : Concrete} {m : Node}
    (h : specifier? bytes c = .ok (some m)) :
    ∃ imported binding whole, m = .mk (.importSpecifier imported binding) (some [.text whole]) := by
  unfold specifier? at h
  split at h
  · dsimp only at h
    split at h
    all_goals
      obtain ⟨imported, _, h⟩ := bind_eq_ok h
      obtain ⟨binding, _, h⟩ := bind_eq_ok h
      obtain ⟨whole, _, h⟩ := bind_eq_ok h
      cases h
      exact ⟨imported, binding, whole, rfl⟩
  · cases h

theorem Bindings.add_supplied {bytes : ByteArray} {b b' : Bindings} {part : Concrete}
    (h : b.add bytes part = .ok b')
    (supplied : ∀ c ∈ b.specifiers, ∃ imported binding whole,
      c = .mk (.importSpecifier imported binding) (some [.text whole])) :
    ∀ c ∈ b'.specifiers, ∃ imported binding whole,
      c = .mk (.importSpecifier imported binding) (some [.text whole]) := by
  unfold Bindings.add at h
  split at h
  · obtain ⟨name, _, h⟩ := bind_eq_ok h
    cases h
    exact supplied
  · split at h
    · obtain ⟨name, _, h⟩ := bind_eq_ok h
      cases h
      exact supplied
    · cases h
      exact supplied
  · obtain ⟨specifiers, found, h⟩ := bind_eq_ok h
    cases h
    intro c member
    rcases List.mem_append.1 member with member | member
    · exact supplied c member
    · obtain ⟨specifier, listed, own⟩ := List.mem_flatMap.1 member
      obtain ⟨_, _, read⟩ := (mapM_eq_ok found).exists_left listed
      rw [Option.mem_toList.1 own] at read
      exact specifier?_supplied read
  · cases h
    exact supplied

theorem importPlan_builds {bytes : ByteArray} {path : Concrete} {p : Plan}
    (planned : importPlan bytes n path = .ok p) (nodes : List Node) : p.Builds nodes := by
  unfold importPlan at planned
  obtain ⟨path, _, planned⟩ := bind_eq_ok planned
  obtain ⟨b, found, planned⟩ := bind_eq_ok planned
  cases planned
  have supplied : ∀ c ∈ b.specifiers, ∃ imported binding whole,
      c = .mk (.importSpecifier imported binding) (some [.text whole]) := by
    apply foldlM_keeps (P := fun b : Bindings => ∀ c ∈ b.specifiers, ∃ imported binding whole,
      c = .mk (.importSpecifier imported binding) (some [.text whole])) ?_ found
    · intro c member
      cases member
    · intro part b b' added supplied
      exact Bindings.add_supplied added supplied
  refine ⟨fun c member => .inr ?_, fun c member => ?_⟩
  · obtain ⟨imported, binding, whole, rfl⟩ := supplied c member
    exact .specifier imported binding whole
  · obtain ⟨imported, binding, whole, rfl⟩ := supplied c member
    rfl

theorem generic_builds (nodes : List Node) : (Plan.generic n).Builds nodes :=
  .of_subset (fun _ member => member) trivial

theorem single_builds {role : Role} {inner : Concrete} {form : Node → Form Node}
    (children : ∀ node, (form node).children = [node]) (simple : ∀ node, Plan.Simple (form node))
    (nodes : List Node) : (Plan.single n role inner form).Builds nodes := by
  cases nodes with
  | nil => exact .of_subset (fun _ member => member) trivial
  | cons node rest =>
      refine .of_subset (fun c member => ?_) (simple node)
      have listed : c ∈ (form node).children := member
      rw [children, List.mem_singleton] at listed
      exact listed ▸ .head _

theorem member_builds (field : String) (computed : Bool) (nodes : List Node) :
    (Plan.member n field computed).Builds nodes := by
  unfold Plan.member
  split
  · match nodes with
    | [] | [_] | [_, _] | _ :: _ :: _ :: _ => exact .of_subset (fun _ member => member) trivial
  · exact generic_builds nodes

theorem call_builds (nodes : List Node) : (Plan.call n).Builds nodes := by
  unfold Plan.call
  split
  · split
    · cases nodes <;> exact .of_subset (fun _ member => member) trivial
    · exact generic_builds nodes
  · exact generic_builds nodes

theorem arrow_builds (nodes : List Node) : (Plan.arrow n).Builds nodes := by
  unfold Plan.arrow
  split
  · match nodes with
    | [] | [_] | _ :: _ :: _ :: _ => exact .of_subset (fun _ member => member) trivial
    | [params, body] =>
        refine .of_subset (fun c member => ?_) trivial
        have listed : c = body ∨ c = params := by simpa [Form.children] using member
        rcases listed with rfl | rfl <;> simp
  · exact single_builds (fun _ => rfl) (fun _ => by trivial) nodes
  · exact generic_builds nodes

theorem element_builds (nodes : List Node) : (Plan.element n).Builds nodes := by
  unfold Plan.element
  split
  · exact generic_builds nodes
  · dsimp only
    split
    · exact .of_subset (fun _ member => member) trivial
    · cases nodes with
      | nil => exact .of_subset (fun _ member => member) trivial
      | cons opening nodes =>
          refine ⟨fun c member => .inl ?_, rfl, _, _, _, rfl⟩
          simp only [Form.children, Option.toList_some, List.singleton_append, List.mem_cons,
            List.mem_append, Option.mem_toList] at member
          rcases member with rfl | member | found
          · exact .head _
          · exact .tail _ (List.mem_of_mem_take member)
          · exact .tail _ (List.mem_of_getElem? found)

theorem Plan.Made.builds {bytes : ByteArray} {p : Plan} (made : p.Made bytes n) (nodes : List Node) :
    p.Builds nodes := by
  cases made with
  | identifier | text => exact .of_subset nofun trivial
  | generic => exact generic_builds nodes
  | function | fragment => exact .of_subset (fun _ member => member) trivial
  | importing planned => exact importPlan_builds planned nodes
  | member => exact member_builds _ _ nodes
  | call => exact call_builds nodes
  | arrow => exact arrow_builds nodes
  | parens =>
      unfold Plan.parens
      split
      · exact single_builds (fun _ => rfl) (fun _ => by trivial) nodes
      · exact generic_builds nodes
  | element => exact element_builds nodes
  | selfClosing =>
      cases nodes with
      | nil => exact .of_subset (fun _ member => member) trivial
      | cons opening rest =>
          refine ⟨fun c member => .inl ?_, rfl, _, _, _, rfl⟩
          cases List.mem_singleton.1 member
          exact .head _
  | container =>
      unfold Plan.container
      split
      · refine ⟨fun c member => ?_, trivial⟩
        cases List.mem_singleton.1 member
        exact .inr .nothing
      · exact single_builds (fun _ => rfl) (fun _ => by trivial) nodes
  | opening planned =>
      unfold Plan.opening at planned
      split at planned <;> cases planned
      cases nodes <;> exact .of_subset (fun _ member => member) trivial
  | closing =>
      unfold Plan.closing
      split
      · refine ⟨fun c member => ?_, trivial⟩
        cases List.mem_singleton.1 member
        exact .inr .nameless
      · exact single_builds (fun _ => rfl) (fun _ => by trivial) nodes
  | attr planned =>
      obtain ⟨name, _, planned⟩ := bind_eq_ok planned
      split at planned <;> cases planned
      · exact single_builds (fun _ => rfl) (fun _ => by trivial) nodes
      · exact .of_subset nofun trivial
  | spreadAttr =>
      unfold Plan.spreadAttr
      split
      · split
        · exact single_builds (fun _ => rfl) (fun _ => by trivial) nodes
        · exact generic_builds nodes
      · exact generic_builds nodes

/-! ## All nodes -/

theorem Plan.Made.faithful (nested : Nested source n) (nonempty : n.start < n.stop) {p : Plan}
    (made : p.Made source.toUTF8 n) :
    p.Faithful source n ∨ n.kind = "jsx_element" ∧ p = Plan.element n := by
  have nests := nested n .root
  cases made with
  | element kind => exact .inr ⟨kind, rfl⟩
  | identifier name => exact .inl (.leaf trivial)
  | text text => exact .inl (.leaf ⟨rfl, text⟩)
  | generic => exact .inl (generic_faithful nests)
  | function => exact .inl (function_faithful nests)
  | importing planned => exact .inl (importPlan_faithful planned)
  | member other computed => exact .inl (member_faithful nests other computed)
  | call => exact .inl (call_faithful nested)
  | arrow => exact .inl (arrow_faithful nests)
  | parens => exact .inl (parens_faithful nests)
  | fragment => exact .inl (fragment_faithful nests n.parts_sublist)
  | selfClosing kind => exact .inl (selfClosing_faithful nonempty kind)
  | container => exact .inl (container_faithful nests)
  | opening planned => exact .inl (opening_faithful nests planned)
  | closing => exact .inl (closing_faithful nests)
  | attr planned => exact .inl (attr_faithful nests planned)
  | spreadAttr => exact .inl (spreadAttr_faithful nested)

theorem plan_faithful (wf : WellFormed source n) (nonempty : n.start < n.stop) {role : Role} {p : Plan}
    (planned : plan source.toUTF8 role n = .ok p) : p.Faithful source n := by
  rcases (plan_made planned).faithful wf.nested nonempty with faithful | ⟨kind, rfl⟩
  · exact faithful
  · exact element_faithful (wf n .root) wf.nested kind

theorem plan_exact (nested : Nested source n) (nonempty : n.start < n.stop) {role : Role} {p : Plan}
    (planned : plan source.toUTF8 role n = .ok p) : p.Exact n := by
  rcases (plan_made planned).faithful nested nonempty with faithful | ⟨kind, rfl⟩
  · exact faithful.toExact
  · exact element_exact nested kind

end

end JsxBoundary.Concrete
