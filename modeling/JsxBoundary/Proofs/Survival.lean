import JsxBoundary.Proofs.Sparing
import JsxBoundary.Proofs.Enlargement

namespace JsxBoundary.Concrete

theorem Plan.Keeps.pairing {bytes : ByteArray} {n : Concrete} {m : Node} {p : Plan} {k : Option Construct}
    {nodes : List Node} {own : Bool} (keeps : p.Keeps n k) (numbered : p.Numbered) (fills : p.Fills)
    (length : nodes.length = p.slots.length) (form : m.form = p.form nodes)
    (read : own = true → k = n.construct? ∧ ∃ role, toNode bytes role n = .ok m) (silent : own = false → k = none)
    (each : ∀ (i : Nat) (slot : Slot) (node : Node), p.slots[i]? = some slot → nodes[i]? = some node →
      ∃ pair, Pairing bytes slot.node node (!slot.role.isOpening) pair) :
    ∃ pair, Pairing bytes n m own pair := by
  obtain ⟨limb, limbs, slots⟩ := exists_limbs numbered fills length form keeps.spots keeps.tags
  have construct : m.construct? = k := by rw [Node.construct?, form, keeps.construct nodes length]
  refine limbs.pairing (fun counted => ?_) (fun counted => (read counted).2) (fun uncounted => ?_) fun l mine => ?_
  · rw [construct, (read counted).1]
  · rw [construct, silent uncounted]
  · obtain ⟨i, slot, here, result, concrete, counted⟩ := slots l mine
    rw [concrete, counted]
    exact each i slot l.node here result

theorem pairing_of_slots {bytes : ByteArray} {role : Role} {n : Concrete} {m : Node}
    (sparing : ∀ c, Occurs n c → Sparing c) (tidy : Tidy n) (fits : role.Fits n)
    (slots : ∀ p, plan bytes role n = .ok p → ∀ slot ∈ p.slots, slot.role.Fits slot.node → ∀ node,
      toNode bytes slot.role slot.node = .ok node →
        ∃ pair, Pairing bytes slot.node node (!slot.role.isOpening) pair)
    (h : toNode bytes role n = .ok m) : ∃ pair, Pairing bytes n m (!role.isOpening) pair := by
  obtain ⟨p, nodes, pieces, planned, results, _, form⟩ := toNode_eq_ok h
  have made := plan_made planned
  rcases plan_keeps sparing tidy fits planned with keeps | ⟨plain, kind, rfl⟩
  · refine keeps.pairing made.numbered made.fills results.length (by rw [form]; rfl) (fun counted => ⟨?_, role, h⟩)
      (fun uncounted => ?_) fun i slot node here result => ?_
    · rw [if_neg (by simpa using counted)]
    · rw [if_pos (by simpa using uncounted)]
    · have member := List.mem_of_getElem? here
      exact slots p planned slot member (keeps.fits slot member) node (results.each i slot node here result)
  · obtain ⟨opening, rfl⟩ := List.length_eq_one_iff.1 results.length
    have own := sparing n .root
    obtain ⟨pair, pairing⟩ := slots _ planned _ (.head _) ⟨own.selfClosing kind, tidy.selfClosing kind⟩ opening
      (results.each 0 _ opening rfl rfl)
    have construct : n.construct? = some .element := by unfold construct?; rw [kind]; rfl
    rw [plain]
    exact pairing.selfClosing (by rw [form]; rfl) construct h

theorem toNode_pairing {bytes : ByteArray} {role : Role} {n : Concrete} {m : Node}
    (sparing : ∀ c, Occurs n c → Sparing c) (tidy : ∀ c, Occurs n c → Tidy c) (fits : role.Fits n)
    (h : toNode bytes role n = .ok m) : ∃ pair, Pairing bytes n m (!role.isOpening) pair :=
  pairing_of_slots sparing (tidy n .root) fits (fun _ _planned _ _member own _ found =>
    have below := (plan_made _planned).occurs _member
    toNode_pairing (fun c occurs => sparing c (below.trans occurs)) (fun c occurs => tidy c (below.trans occurs))
      own found) h
termination_by (sizeOf n, role.rank)
decreasing_by
  rcases below_of_mem_slots _planned _member with lt | ⟨same, lt⟩
  · exact .left _ _ lt
  · rw [same]
    exact .right _ lt

section

variable {source : String} {root : Concrete} {m : Node}

theorem toProgram_pairing (sparing : ∀ c, Occurs root c → Sparing c) (tidy : ∀ c, Occurs root c → Tidy c)
    (read : toProgram source root = .ok m) : ∃ pair, Pairing source.toUTF8 root m false pair := by
  obtain ⟨body, pieces, rfl, results, _⟩ := toProgram_eq_ok read
  have length : body.length = (slotsFrom .plain 0 root.named).length := by
    rw [results.length, length_slotsFrom]
  have keeps : (Plan.mk (slotsFrom .plain 0 root.named) .program false).Keeps root none :=
    slotsFrom_keeps (sparing root .root).named (fun _ _ => trivial) rfl fun _ _ => rfl
  refine keeps.pairing (.aligned index_slotsFrom fun _ _ => rfl) (.aligned (fun _ _ => rfl) rfl fun _ _ => rfl)
    length rfl nofun (fun _ => rfl) fun i slot node here result => ?_
  obtain ⟨c, found, rfl⟩ := getElem?_slotsFrom here
  have below : Occurs root c := .of_child (mem_children_of_mem_named (List.mem_of_getElem? found))
  have fits : Role.plain.Fits c := trivial
  exact toNode_pairing (fun d occurs => sparing d (below.trans occurs))
    (fun d occurs => tidy d (below.trans occurs)) fits (results.each i c node found result)

/-- Of the concrete tree of a module that is sparing and tidy, each element, fragment and call is read as
exactly one node, which is of the same construct; there are no others; and they stand above each other as
before. -/
theorem toProgram_keeps_constructs (sparing : ∀ c, Occurs root c → Sparing c)
    (tidy : ∀ c, Occurs root c → Tidy c) (read : toProgram source root = .ok m) :
    ∃ pair : List Nat → List Nat → Prop,
      (∀ path c, root.get? path = some c → c.construct? ≠ none → path ≠ [] → ∃! place, pair path place) ∧
      (∀ place node, m.get? place = some node → node.construct? ≠ none → ∃! path, pair path place) ∧
      (∀ path place, pair path place → path ≠ [] ∧ ∃ c node k role, root.get? path = some c ∧
        m.get? place = some node ∧ c.construct? = some k ∧ node.construct? = some k ∧
        toNode source.toUTF8 role c = .ok node) ∧
      ∀ path place path' place', pair path place → pair path' place' →
        (path <+: path' ↔ place <+: place') := by
  obtain ⟨pair, pairing⟩ := toProgram_pairing sparing tidy read
  have antisymm : ∀ {first second : List Nat}, first <+: second → second <+: first → first = second :=
    fun before after => before.eq_of_length_le after.length_le
  refine ⟨pair, fun path c found some below => ?_, fun place node found some => ?_,
    fun path place paired => ⟨pairing.below rfl path place paired, pairing.read path place paired⟩, pairing.order⟩
  · obtain ⟨place, paired⟩ := pairing.total path c found some (.inr below)
    refine ⟨place, paired, fun place' paired' => antisymm ?_ ?_⟩
    · exact (pairing.order _ _ _ _ paired' paired).1 (List.prefix_refl path)
    · exact (pairing.order _ _ _ _ paired paired').1 (List.prefix_refl path)
  · obtain ⟨path, paired⟩ := pairing.onto place node found some
    refine ⟨path, paired, fun path' paired' => antisymm ?_ ?_⟩
    · exact (pairing.order _ _ _ _ paired' paired).2 (List.prefix_refl place)
    · exact (pairing.order _ _ _ _ paired paired').2 (List.prefix_refl place)

end

theorem Bare.of_childless {n : Concrete} (childless : n.children.isEmpty = true) (own : n.construct? = none) :
    Bare n :=
  .of_children own fun c member => by
    rw [List.isEmpty_iff.1 childless] at member
    cases member

section

variable {n : Concrete}

theorem Sparing.of_named (named : ∀ c ∈ n.children, c.info.named = true ∧ c.kind ≠ "comment")
    (whole : n.isWhole = true → n.children.isEmpty = true)
    (operands : ∀ c ∈ n.besides n.operands, n.operands ≠ [] → c.children.isEmpty = true ∧ c.construct? = none)
    (braces : n.kind = "jsx_expression" ∨ n.kind = "spread_element" → n.parts.length ≤ 1)
    (attr : n.kind = "jsx_attribute" → n.parts.length ≤ 2 ∧ ∀ name ∈ n.parts.head?, name.Bare)
    (selfClosing : n.kind = "jsx_self_closing_element" → n.SparingTag)
    (element : n.kind = "jsx_element" → ∃ opening, (Plan.elementTags n).1 = some opening ∧ opening.SparingTag ∧
      ∀ closing ∈ (Plan.elementTags n).2, (∀ c ∈ closing.besides ["name"], c.Bare) ∧
        (opening.field? "name" = none → ∀ c ∈ closing.children, c.Bare))
    (taken : n.kind = "jsx_element" → ∀ opening closing others, Plan.elementTags n = (some opening, closing) →
      n.children.Perm (opening :: (closing.toList ++ others)) →
        ∀ c ∈ others, (c.sameAs opening || closing.any c.sameAs) = true → c.Bare) : Sparing n := by
  refine ⟨fun c member unnamed => ?_, fun c member comment => absurd comment (named c member).2,
    fun own c member => ?_, fun some c member => ?_, braces, attr, selfClosing, element, taken⟩
  · rw [(named c member).1] at unnamed
    cases unnamed
  · rw [List.isEmpty_iff.1 (whole own)] at member
    cases member
  · obtain ⟨childless, own⟩ := operands c member some
    exact .of_childless childless own

def markupKinds : List String :=
  ["jsx_expression", "spread_element", "jsx_attribute", "jsx_self_closing_element", "jsx_element"]

theorem Sparing.of_other (other : n.kind ∉ markupKinds)
    (named : ∀ c ∈ n.children, c.info.named = true ∧ c.kind ≠ "comment")
    (whole : n.isWhole = true → n.children.isEmpty = true)
    (operands : ∀ c ∈ n.besides n.operands, n.operands ≠ [] → c.children.isEmpty = true ∧ c.construct? = none) :
    Sparing n := by
  simp only [markupKinds, List.mem_cons, List.not_mem_nil, or_false, not_or] at other
  obtain ⟨braces, spread, attr, selfClosing, element⟩ := other
  exact .of_named named whole operands (fun kind => (kind.elim braces spread).elim)
    (fun kind => absurd kind attr) (fun kind => absurd kind selfClosing) (fun kind => absurd kind element)
    fun kind => absurd kind element

theorem Tidy.of_other (selfClosing : n.kind ≠ "jsx_self_closing_element") (element : n.kind ≠ "jsx_element") :
    Tidy n :=
  ⟨fun kind => absurd kind selfClosing, fun kind => absurd kind element, fun kind => absurd kind element⟩

theorem SparingTag.of_named (named : (n.field? "name").isSome = true)
    (besides : ∀ c ∈ n.besides ["name"], c.children.isEmpty = true ∧ c.construct? = none) : SparingTag n := by
  have bare : ∀ c ∈ n.besides ["name"], c.Bare := fun c member =>
    .of_childless (besides c member).1 (besides c member).2
  refine ⟨fun c member _ => bare c member, fun _ _ c member _ => bare c member, fun nameless => ?_⟩
  rw [nameless] at named
  cases named

theorem Sparing.of_element (kind : n.kind = "jsx_element")
    (named : ∀ c ∈ n.children, c.info.named = true ∧ c.kind ≠ "comment") {opening : Concrete}
    {closing : Option Concrete} (tags : Plan.elementTags n = (some opening, closing))
    (name : (opening.field? "name").isSome = true)
    (besides : ∀ tag ∈ opening :: closing.toList, ∀ c ∈ tag.besides ["name"],
      c.children.isEmpty = true ∧ c.construct? = none)
    (taken : ∀ others, n.children.Perm (opening :: (closing.toList ++ others)) → ∀ c ∈ others, c.Bare) :
    Sparing n := by
  have other : ∀ {kind' : String}, kind' ≠ "jsx_element" → n.kind ≠ kind' := fun differ same =>
    differ (same.symm.trans kind)
  have none : n.operands = [] := by
    unfold Concrete.operands
    rw [kind]
    rfl
  refine .of_named named (fun whole => ?_) (fun _ _ some => absurd none some) (fun braces => ?_)
    (fun attr => absurd attr (other (by decide))) (fun tag => absurd tag (other (by decide))) (fun _ => ?_)
    fun _ opening' closing' others tags' split c member _ => ?_
  · rw [isWhole, kind] at whole
    cases whole
  · exact absurd braces (not_or.2 ⟨other (by decide), other (by decide)⟩)
  · refine ⟨opening, by rw [tags], .of_named name (besides opening (.head _)), fun last own => ⟨fun c member => ?_,
      fun nameless => ?_⟩⟩
    · rw [tags] at own
      obtain ⟨childless, construct⟩ := besides last (.tail _ (Option.mem_toList.2 own)) c member
      exact .of_childless childless construct
    · rw [nameless] at name
      cases name
  · cases tags.symm.trans tags'
    exact taken others split c member

end

end JsxBoundary.Concrete

namespace JsxBoundary.Sample

open Concrete

theorem mem_places {T : Type} {children : T → List T} {get? : T → List Nat → Option T}
    (nil : ∀ n, get? n [] = some n) (cons : ∀ n i path, get? n (i :: path) = (children n)[i]?.bind (get? · path))
    {places : List (List Nat × T)}
    (closed : ∀ spot ∈ places, ∀ below ∈ (children spot.2).zipIdx, (spot.1 ++ [below.2], below.1) ∈ places)
    {front path : List Nat} {m n : T} (member : (front, m) ∈ places) (found : get? m path = some n) :
    (front ++ path, n) ∈ places := by
  induction path generalizing front m with
  | nil =>
      rw [nil, Option.some.injEq] at found
      rwa [List.append_nil, ← found]
  | cons i path ih =>
      rw [cons, Option.bind_eq_some_iff] at found
      obtain ⟨c, here, found⟩ := found
      have next := closed _ member (c, i) (List.mk_mem_zipIdx_iff_getElem?.2 here)
      simpa using ih next found

def callee (start stop : Nat) : Concrete :=
  part "identifier" start stop (some "function") []

def noArguments (start stop : Nat) : Concrete :=
  part "arguments" start stop (some "arguments") []

def calledName : Concrete :=
  part "call_expression" 1 4 (some "name") [callee 1 2, noArguments 2 4]

def calledTag : Concrete :=
  part "jsx_self_closing_element" 0 6 none [calledName]

def calledStatement : Concrete :=
  part "expression_statement" 0 7 none [calledTag]

def calledTree : Concrete :=
  part "program" 0 7 none [calledStatement]

def calledNameNode : Node :=
  .mk (.generic "call_expression" [.mk (.identifier "f") (some [.text "f"]),
    .mk (.generic "arguments" []) (some [.text "()"])]) (some [.child 0, .child 1])

def calledTagNode : Node :=
  .mk (.openingTag calledNameNode [] true) (some [.text "<", .child 0, .text "/>"])

def calledModule : Node :=
  .mk (.program [.mk (.generic "expression_statement" [.mk (.element (some calledTagNode) [] none)
    (some [.child 0])]) (some [.child 0, .text ";"])]) (some [.child 0])

theorem toProgram_calledTree : calledTree.toProgram "<f()/>;" = .ok calledModule := by
  have function : toNode "<f()/>;".toUTF8 .plain (callee 1 2) = .ok (.mk (.identifier "f") (some [.text "f"])) :=
    toNode_of (p := .leaf (.identifier "f")) rfl rfl rfl
  have arguments : toNode "<f()/>;".toUTF8 .plain (noArguments 2 4) =
      .ok (.mk (.generic "arguments" []) (some [.text "()"])) :=
    toNode_of (p := .generic (noArguments 2 4)) rfl rfl ((layout_of_sorted (by decide)).trans rfl)
  have name : toNode "<f()/>;".toUTF8 .tagName calledName = .ok calledNameNode :=
    toNode_of (p := .generic calledName) rfl (mapM_cons_ok function (mapM_cons_ok arguments rfl))
      ((layout_of_sorted (by decide)).trans rfl)
  have opening : toNode "<f()/>;".toUTF8 (.opening true) calledTag = .ok calledTagNode :=
    toNode_opening rfl rfl name ((layout_of_sorted (by decide)).trans rfl)
  have element : toNode "<f()/>;".toUTF8 .plain calledTag =
      .ok (.mk (.element (some calledTagNode) [] none) (some [.child 0])) :=
    toNode_of (p := .selfClosing calledTag) rfl (mapM_cons_ok opening rfl)
      ((layout_of_sorted (by decide)).trans rfl)
  have statement : toNode "<f()/>;".toUTF8 .plain calledStatement = .ok (.mk (.generic "expression_statement"
      [.mk (.element (some calledTagNode) [] none) (some [.child 0])]) (some [.child 0, .text ";"])) :=
    toNode_of (p := .generic calledStatement) rfl (mapM_cons_ok element rfl)
      ((layout_of_sorted (by decide)).trans rfl)
  exact toProgram_of rfl (mapM_cons_ok statement rfl) ((layout_of_sorted (by decide)).trans rfl)

theorem calledModule_uncalled {place : List Nat} {node : Node} (found : calledModule.get? place = some node) :
    node.construct? ≠ some .call := by
  let f : Node := .mk (.identifier "f") (some [.text "f"])
  let arguments : Node := .mk (.generic "arguments" []) (some [.text "()"])
  let element : Node := .mk (.element (some calledTagNode) [] none) (some [.child 0])
  let statement : Node := .mk (.generic "expression_statement" [element]) (some [.child 0, .text ";"])
  let places : List (List Nat × Node) := [([], calledModule), ([0], statement), ([0, 0], element),
    ([0, 0, 0], calledTagNode), ([0, 0, 0, 0], calledNameNode), ([0, 0, 0, 0, 0], f), ([0, 0, 0, 0, 1], arguments)]
  have closed : ∀ spot ∈ places, ∀ below ∈ spot.2.children.zipIdx, (spot.1 ++ [below.2], below.1) ∈ places := by
    simp [places, calledModule, statement, element, calledTagNode, calledNameNode, f, arguments, Node.children,
      Form.children, or_imp, forall_and]
  have none : ∀ spot ∈ places, spot.2.construct? ≠ some .call := by
    simp [places, calledModule, statement, element, calledTagNode, calledNameNode, f, arguments, Node.construct?,
      Form.construct?]
  exact none _ (mem_places Node.get?_nil Node.get?_cons closed (.head _) found)

theorem sparing_calledTree {n : Concrete} (h : Occurs calledTree n) : Sparing n := by
  have member := h.mem [calledTree, calledStatement, calledTag, calledName, callee 1 2, noArguments 2 4]
    (by simp [calledTree, calledStatement, calledTag, calledName, callee, noArguments, part, children]) (by simp)
  simp only [List.mem_cons, List.not_mem_nil, or_false] at member
  rcases member with rfl | rfl | rfl | rfl | rfl | rfl
  case inr.inr.inl =>
    exact .of_named (by decide) (by decide) (by decide) (by decide) (fun kind => absurd kind (by decide))
      (fun _ => .of_named rfl (by decide)) (fun kind => absurd kind (by decide)) fun kind => absurd kind (by decide)
  all_goals exact .of_other (by decide) (by decide) (by decide) (by decide)

def tagOnly (tag : Concrete) : Concrete :=
  part "program" 0 0 none [part "jsx_element" 0 0 none [tag]]

def callTag : Concrete :=
  part "call_expression" 0 0 (some "open_tag")
    [callee 0 0, noArguments 0 0, part "identifier" 0 0 (some "name") []]

def invokedObject : Concrete :=
  part "call_expression" 0 0 (some "object") [callee 0 0, noArguments 0 0]

def invokedName : Concrete :=
  part "member_expression" 0 0 (some "name") [invokedObject, part "property_identifier" 0 0 (some "property") []]

def doubleTag : Concrete :=
  part "jsx_closing_element" 0 0 (some "open_tag") [invokedName]

theorem mem_single {tag opening c : Concrete} {closing : Option Concrete} {others : List Concrete}
    (split : [tag].Perm (opening :: (closing.toList ++ others))) : c ∉ others := by
  have short := split.length_eq
  simp only [List.length_cons, List.length_nil, List.length_append] at short
  rw [List.eq_nil_of_length_eq_zero (l := others) (by omega)]
  exact List.not_mem_nil

theorem sparing_callTag {n : Concrete} (h : Occurs (tagOnly callTag) n) : Sparing n := by
  have member := h.mem [part "jsx_element" 0 0 none [callTag], tagOnly callTag, callTag, callee 0 0,
    noArguments 0 0, part "identifier" 0 0 (some "name") []]
    (by simp [tagOnly, callTag, callee, noArguments, part, children]) (by simp)
  simp only [List.mem_cons, List.not_mem_nil, or_false] at member
  rcases member with rfl | rfl | rfl | rfl | rfl | rfl
  case inl =>
    exact .of_element rfl (by decide) rfl rfl (by decide) fun _ split c member => absurd member (mem_single split)
  all_goals exact .of_other (by decide) (by decide) (by decide) (by decide)

theorem sparing_doubleTag {n : Concrete} (h : Occurs (tagOnly doubleTag) n) : Sparing n := by
  have member := h.mem [part "jsx_element" 0 0 none [doubleTag], tagOnly doubleTag, doubleTag, invokedName,
    invokedObject, callee 0 0, noArguments 0 0, part "property_identifier" 0 0 (some "property") []]
    (by simp [tagOnly, doubleTag, invokedName, invokedObject, callee, noArguments, part, children]) (by simp)
  simp only [List.mem_cons, List.not_mem_nil, or_false] at member
  rcases member with rfl | rfl | rfl | rfl | rfl | rfl | rfl | rfl
  case inl =>
    exact .of_element rfl (by decide) rfl rfl (by decide) fun _ split c member => absurd member (mem_single split)
  all_goals exact .of_other (by decide) (by decide) (by decide) (by decide)

def unnamed : Node :=
  .mk (.identifier "") (some [.text ""])

def callTagModule : Node :=
  .mk (.program [.mk (.element (some (.mk (.openingTag unnamed [] false) (some [.child 0]))) [] none)
    (some [.child 0])]) (some [.child 0])

theorem toProgram_callTag : (tagOnly callTag).toProgram "" = .ok callTagModule := by
  have name : toNode "".toUTF8 .tagName (part "identifier" 0 0 (some "name") []) = .ok unnamed :=
    toNode_of (p := .leaf (.identifier "")) rfl rfl rfl
  have opening : toNode "".toUTF8 (.opening false) callTag =
      .ok (.mk (.openingTag unnamed [] false) (some [.child 0])) :=
    toNode_opening rfl rfl name ((layout_of_sorted (by decide)).trans rfl)
  have element : toNode "".toUTF8 .plain (part "jsx_element" 0 0 none [callTag]) =
      .ok (.mk (.element (some (.mk (.openingTag unnamed [] false) (some [.child 0]))) [] none)
        (some [.child 0])) :=
    toNode_of (p := .element (part "jsx_element" 0 0 none [callTag])) rfl (mapM_cons_ok opening rfl)
      ((layout_of_sorted (by decide)).trans rfl)
  exact toProgram_of rfl (mapM_cons_ok element rfl) ((layout_of_sorted (by decide)).trans rfl)

def invokedNode : Node :=
  .mk (.call unnamed [] false) (some [.child 0])

def doubleTagNode (form : Node → Form Node) : Node :=
  .mk (form (.mk (.member invokedNode unnamed false false) (some [.child 0, .child 1]))) (some [.child 0])

def doubleTagModule : Node :=
  .mk (.program [.mk (.element (some (doubleTagNode (.openingTag · [] false))) []
    (some (doubleTagNode .closingTag))) (some [.child 0, .child 1])]) (some [.child 0])

theorem callTagModule_uncalled {place : List Nat} {node : Node} (found : callTagModule.get? place = some node) :
    node.construct? ≠ some .call := by
  let tag : Node := .mk (.openingTag unnamed [] false) (some [.child 0])
  let element : Node := .mk (.element (some tag) [] none) (some [.child 0])
  let places : List (List Nat × Node) :=
    [([], callTagModule), ([0], element), ([0, 0], tag), ([0, 0, 0], unnamed)]
  have closed : ∀ spot ∈ places, ∀ below ∈ spot.2.children.zipIdx, (spot.1 ++ [below.2], below.1) ∈ places := by
    simp [places, callTagModule, element, tag, unnamed, Node.children, Form.children]
  have none : ∀ spot ∈ places, spot.2.construct? ≠ some .call := by
    simp [places, callTagModule, element, tag, unnamed, Node.construct?, Form.construct?]
  exact none _ (mem_places Node.get?_nil Node.get?_cons closed (.head _) found)

theorem doubleTag_called {path : List Nat} {c : Concrete} (found : (tagOnly doubleTag).get? path = some c)
    (call : c.construct? = some .call) : path = [0, 0, 0, 0] := by
  let places : List (List Nat × Concrete) := [([], tagOnly doubleTag),
    ([0], part "jsx_element" 0 0 none [doubleTag]), ([0, 0], doubleTag), ([0, 0, 0], invokedName),
    ([0, 0, 0, 0], invokedObject), ([0, 0, 0, 0, 0], callee 0 0), ([0, 0, 0, 0, 1], noArguments 0 0),
    ([0, 0, 0, 1], part "property_identifier" 0 0 (some "property") [])]
  have closed : ∀ spot ∈ places, ∀ below ∈ spot.2.children.zipIdx, (spot.1 ++ [below.2], below.1) ∈ places := by
    simp [places, tagOnly, doubleTag, invokedName, invokedObject, callee, noArguments, part, children, or_imp,
      forall_and]
  have single : ∀ spot ∈ places, spot.2.construct? = some .call → spot.1 = [0, 0, 0, 0] := by decide
  exact single _ (mem_places (fun _ => rfl) Concrete.get?_cons closed (.head _) found) call

theorem toProgram_doubleTag : (tagOnly doubleTag).toProgram "" = .ok doubleTagModule := by
  have function : toNode "".toUTF8 .plain (callee 0 0) = .ok unnamed :=
    toNode_of (p := .leaf (.identifier "")) rfl rfl rfl
  have property : toNode "".toUTF8 .plain (part "property_identifier" 0 0 (some "property") []) = .ok unnamed :=
    toNode_of (p := .leaf (.identifier "")) rfl rfl rfl
  have object : toNode "".toUTF8 .plain invokedObject = .ok invokedNode :=
    toNode_of (p := .call invokedObject) rfl (mapM_cons_ok function rfl)
      ((layout_of_sorted (by decide)).trans rfl)
  have name : toNode "".toUTF8 .tagName invokedName =
      .ok (.mk (.member invokedNode unnamed false false) (some [.child 0, .child 1])) :=
    toNode_of (p := .member invokedName "property" false) rfl (mapM_cons_ok object (mapM_cons_ok property rfl))
      ((layout_of_sorted (by decide)).trans rfl)
  have opening : toNode "".toUTF8 (.opening false) doubleTag = .ok (doubleTagNode (.openingTag · [] false)) :=
    toNode_opening rfl rfl name ((layout_of_sorted (by decide)).trans rfl)
  have closing : toNode "".toUTF8 .closing doubleTag = .ok (doubleTagNode .closingTag) :=
    toNode_of (p := .closing doubleTag) rfl (mapM_cons_ok name rfl) ((layout_of_sorted (by decide)).trans rfl)
  have element : toNode "".toUTF8 .plain (part "jsx_element" 0 0 none [doubleTag]) =
      .ok (.mk (.element (some (doubleTagNode (.openingTag · [] false))) [] (some (doubleTagNode .closingTag)))
        (some [.child 0, .child 1])) :=
    toNode_of (p := .element (part "jsx_element" 0 0 none [doubleTag])) rfl
      (mapM_cons_ok opening (mapM_cons_ok closing rfl)) ((layout_of_sorted (by decide)).trans rfl)
  exact toProgram_of rfl (mapM_cons_ok element rfl) ((layout_of_sorted (by decide)).trans rfl)

theorem sparing_tree {n : Concrete} (h : Occurs tree n) : Sparing n := by
  have leaves : ∀ c ∈ markup.children, c.construct? = none ∧
      ∀ d ∈ c.children, d.children.isEmpty = true ∧ d.construct? = none := by decide
  have bare : ∀ c ∈ markup.children, c.Bare := fun c member =>
    .of_children (leaves c member).1 fun d inner =>
      .of_childless ((leaves c member).2 d inner).1 ((leaves c member).2 d inner).2
  have member := mem_nodes h
  simp only [nodes, List.mem_cons, List.not_mem_nil, or_false] at member
  rcases member with rfl | rfl | rfl | rfl | rfl | rfl | rfl | rfl | rfl
  case inr.inr.inl =>
    exact .of_element rfl (by decide) rfl rfl (by decide) fun _ split c member =>
      bare c (split.mem_iff.2 (by simp [member]))
  case inr.inr.inr.inr.inl =>
    exact .of_named (by decide) (by decide) (by decide) (by decide) (fun kind => absurd kind (by decide))
      (fun kind => absurd kind (by decide)) (fun kind => absurd kind (by decide)) fun kind => absurd kind (by decide)
  all_goals exact .of_other (by decide) (by decide) (by decide) (by decide)

theorem tidy_tree {n : Concrete} (h : Occurs tree n) : Tidy n := by
  have member := mem_nodes h
  simp only [nodes, List.mem_cons, List.not_mem_nil, or_false] at member
  rcases member with rfl | rfl | rfl | rfl | rfl | rfl | rfl | rfl | rfl
  case inr.inr.inl =>
    refine ⟨fun kind => absurd kind (by decide), fun _ tag own => ?_, fun _ first last tags => ?_⟩
    · rcases own with own | own
      · cases own
        exact ⟨fun name own => by cases own; rfl, rfl⟩
      · cases own
        exact ⟨fun name own => by cases own; rfl, rfl⟩
    · cases tags
      exact ⟨[content], (List.Perm.swap closing content []).cons opening⟩
  all_goals exact .of_other (by decide) (by decide)

end JsxBoundary.Sample

namespace JsxBoundary.Concrete

open Sample

/-- What a tag is, or what it is named by, is not looked at: a call in the place of either is lost, and one
below a tag that is taken for both is read twice. -/
theorem tags_misread :
    (∀ input ∈ [("<f()/>;", calledTree, [0, 0, 0]), ("", tagOnly callTag, [0, 0])],
      (∀ n, Occurs input.2.1 n → Sparing n) ∧
        (∃ c, input.2.1.get? input.2.2 = some c ∧ c.construct? = some .call) ∧
        ∃ m, toProgram input.1 input.2.1 = .ok m ∧
          ∀ place node, m.get? place = some node → node.construct? ≠ some .call) ∧
    (∀ n, Occurs (tagOnly doubleTag) n → Sparing n) ∧
      (∀ path c, (tagOnly doubleTag).get? path = some c → c.construct? = some .call → path = [0, 0, 0, 0]) ∧
      ∃ m, toProgram "" (tagOnly doubleTag) = .ok m ∧
        (∃ node, m.get? [0, 0, 0, 0] = some node ∧ node.construct? = some .call) ∧
        ∃ node, m.get? [0, 1, 0, 0] = some node ∧ node.construct? = some .call := by
  refine ⟨fun input member => ?_, fun _ => sparing_doubleTag, fun path c found some => ?_,
    _, toProgram_doubleTag, ⟨_, rfl, rfl⟩, _, rfl, rfl⟩
  · simp only [List.mem_cons, List.not_mem_nil, or_false] at member
    rcases member with rfl | rfl
    · exact ⟨fun _ => sparing_calledTree, ⟨_, rfl, rfl⟩, _, toProgram_calledTree, fun _ _ => calledModule_uncalled⟩
    · exact ⟨fun _ => sparing_callTag, ⟨_, rfl, rfl⟩, _, toProgram_callTag, fun _ _ => callTagModule_uncalled⟩
  · exact doubleTag_called found some

theorem toProgram_keeps_memo :
    (∀ n, Occurs tree n → Sparing n) ∧ (∀ n, Occurs tree n → Tidy n) ∧ tree.toProgram source = .ok module ∧
      ∃ pair : List Nat → List Nat → Prop, (∃! place, pair [0, 0] place) ∧
        (∃! path, pair path [0, 0]) ∧ ∀ path place, pair path place → path ≠ [] ∧
          ∃ c node k role, tree.get? path = some c ∧ module.get? place = some node ∧ c.construct? = some k ∧
            node.construct? = some k ∧ toNode source.toUTF8 role c = .ok node := by
  obtain ⟨pair, total, onto, read, _⟩ :=
    toProgram_keeps_constructs (fun _ => sparing_tree) (fun _ => tidy_tree) toProgram_tree
  exact ⟨fun _ => sparing_tree, fun _ => tidy_tree, toProgram_tree, pair,
    total [0, 0] markup rfl nofun nofun, onto [0, 0] markupNode rfl nofun, read⟩

end JsxBoundary.Concrete
