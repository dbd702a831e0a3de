import JsxBoundary.Proofs.RewriteText

namespace JsxBoundary

theorem exists_prints_iff {ps : List Part} :
    (∃ t, Prints ps t) ↔ ∀ m, .node m ∈ ps → ∃ t, m.print = .ok t := by
  constructor
  · rintro ⟨t, prints⟩ m member
    obtain ⟨_, u, _, printed, _⟩ := prints.of_mem member
    exact ⟨u, printed⟩
  · intro each
    induction ps with
    | nil => exact ⟨"", .nil⟩
    | cons p ps ih =>
        obtain ⟨t, prints⟩ := ih fun m member => each m (.tail _ member)
        cases p with
        | text value => exact ⟨_, .text value prints⟩
        | node m =>
            obtain ⟨u, printed⟩ := each m (.head _)
            exact ⟨_, .node printed prints⟩

theorem Part.node_mem_ofPieces {children : List Node} {pieces : List (Piece Node)} {m : Node} :
    .node m ∈ pieces.flatMap (ofPiece children) ↔
      .loose m ∈ pieces ∨ ∃ i : Nat, .child i ∈ pieces ∧ children[i]? = some m := by
  rw [List.mem_flatMap]
  constructor
  · rintro ⟨piece, member, shown⟩
    cases piece with
    | text value => simp [ofPiece] at shown
    | loose n =>
        cases List.mem_singleton.1 shown
        exact .inl member
    | child i =>
        refine .inr ⟨i, member, ?_⟩
        simpa [ofPiece] using shown
  · rintro (member | ⟨i, member, found⟩)
    · exact ⟨_, member, .head _⟩
    · exact ⟨_, member, by simp [ofPiece, found]⟩

namespace Node

theorem exists_print_iff {n : Node} : (∃ t, n.print = .ok t) ↔
    ∃ ps, n.parts = .ok ps ∧ ∀ m, .node m ∈ ps → ∃ t, m.print = .ok t := by
  constructor
  · rintro ⟨t, printed⟩
    obtain ⟨ps, parts, prints⟩ := print_ok_iff.1 printed
    exact ⟨ps, parts, exists_prints_iff.1 ⟨t, prints⟩⟩
  · rintro ⟨ps, parts, each⟩
    obtain ⟨t, prints⟩ := exists_prints_iff.2 each
    exact ⟨t, print_ok_iff.2 ⟨ps, parts, prints⟩⟩

theorem loose_prints {n : Node} {pieces : List (Piece Node)} (h : ∃ t, n.print = .ok t)
    (layout : n.layout = some pieces) (m : Node) (member : .loose m ∈ pieces) :
    ∃ t, m.print = .ok t := by
  obtain ⟨ps, parts, each⟩ := exists_print_iff.1 h
  simp only [Node.parts, layout] at parts
  cases parts
  exact each m (Part.node_mem_ofPieces.2 (.inl member))

/-- An import statement. -/
def isImport (n : Node) : Bool :=
  match n.form with
  | .importDecl _ _ _ _ => true
  | _ => false

def isSpecifier (n : Node) : Bool :=
  match n.form with
  | .importSpecifier _ _ => true
  | _ => false

theorem isImport_of_isElement {n : Node} (h : n.isElement = true) : n.isImport = false := by
  obtain ⟨_, _, _, _, rfl⟩ := eq_mk_of_isElement h
  rfl

/-- The tree prints, and so does every part of it. -/
inductive Printable : Node → Prop
  | node {n : Node} (prints : ∃ t, n.print = .ok t)
      (tagged : n.isElement = true → n.openingTag?.isSome = true)
      (specifiers : n.isImport = true → ∀ c ∈ n.children, c.isSpecifier = true)
      (below : n.isImport = false → ∀ c ∈ n.children, Printable c) : Printable n

theorem untagged {n : Node} (other : n.isElement = false) :
    n.isElement = true → n.openingTag?.isSome = true :=
  fun own => absurd (other.symm.trans own) Bool.false_ne_true

namespace Printable

variable {n : Node}

theorem prints (h : Printable n) : ∃ t, n.print = .ok t := by
  cases h with
  | node prints => exact prints

theorem openingTag? (h : Printable n) (element : n.isElement = true) :
    n.openingTag?.isSome = true := by
  cases h with
  | node _ tagged => exact tagged element

theorem specifier (h : Printable n) (own : n.isImport = true) {c : Node} (member : c ∈ n.children) :
    c.isSpecifier = true := by
  cases h with
  | node _ _ specifiers => exact specifiers own c member

theorem child (h : Printable n) (plain : n.isImport = false) {c : Node} (member : c ∈ n.children) :
    Printable c := by
  cases h with
  | node _ _ _ below => exact below plain c member

theorem of_below (prints : ∃ t, n.print = .ok t) (plain : n.isImport = false)
    (tagged : n.isElement = true → n.openingTag?.isSome = true)
    (below : ∀ c ∈ n.children, Printable c) : Printable n := by
  refine .node prints tagged (fun own => ?_) fun _ => below
  rw [plain] at own
  cases own

theorem of_pieces {form : Form Node} {pieces : List (Piece Node)}
    (loose : ∀ m, .loose m ∈ pieces → ∃ t, m.print = .ok t)
    (plain : (mk form (some pieces)).isImport = false)
    (tagged : (mk form (some pieces)).isElement = true →
      (mk form (some pieces)).openingTag?.isSome = true)
    (below : ∀ c ∈ form.children, Printable c) : Printable (mk form (some pieces)) := by
  refine .of_below (exists_print_iff.2 ⟨_, rfl, fun m member => ?_⟩) plain tagged below
  rcases Part.node_mem_ofPieces.1 member with out | ⟨i, _, found⟩
  · exact loose m out
  · exact (below m (List.mem_of_getElem? found)).prints

theorem of_parts {form : Form Node} {ps : List Part} (parts : form.parts = .ok ps)
    (plain : (fresh form).isImport = false)
    (tagged : (fresh form).isElement = true → (fresh form).openingTag?.isSome = true)
    (below : ∀ c ∈ form.children, Printable c) : Printable (fresh form) := by
  refine .of_below (exists_print_iff.2 ⟨ps, parts, fun m member => ?_⟩) plain tagged below
  rcases Form.mem_children_of_mem_parts parts member with child | ⟨o, opening, attributes, _, tag⟩
  · exact (below m child).prints
  · have listed : m ∈ o.children := by simp [children, tag, Form.children]
    exact ((below o opening).child (by simp [isImport, tag]) listed).prints

theorem identifier (name : String) : Printable (fresh (.identifier name)) :=
  .of_parts rfl rfl (untagged rfl) fun c member => by cases member

end Printable

namespace Printable

theorem thunk {body : Node} (h : Printable body) {source : Option Node}
    (outer : ∀ c ∈ source, Printable c) : Printable (body.thunk source) := by
  have arrow : ∀ {layout}, ArrowLayout body layout → Printable (mk (.arrow body none) layout) := by
    intro layout written
    obtain ⟨t, printed⟩ := h.prints
    refine .of_below ⟨_, print_arrow printed written⟩ rfl (untagged rfl) fun c member => ?_
    cases List.mem_singleton.1 member
    exact h
  unfold Node.thunk
  split
  · rename_i pieces found
    obtain ⟨c, here, layout⟩ := Option.bind_eq_some_iff.1 (Option.filter_eq_some_iff.1 found).1
    refine .of_pieces (loose_prints (outer c here).prints layout) rfl (untagged rfl) fun a member => ?_
    cases List.mem_singleton.1 member
    exact arrow (.inr rfl)
  · refine .of_parts rfl rfl (untagged rfl) fun a member => ?_
    cases List.mem_singleton.1 member
    exact arrow (.inl rfl)

theorem boundary {e : Node} (h : Printable e) (component : String) {source : Option Node}
    (outer : ∀ c ∈ source, Printable c) : Printable (e.boundary component source) := by
  have name : ∀ c ∈ [fresh (.identifier component)], Printable c := by
    intro c member
    cases List.mem_singleton.1 member
    exact .identifier component
  refine .of_parts rfl rfl (fun _ => rfl) fun c member => ?_
  have listed : c ∈ (e.boundary component source).children := member
  rw [children_boundary] at listed
  simp only [List.mem_cons, List.not_mem_nil, or_false] at listed
  rcases listed with rfl | rfl | rfl
  · exact .of_parts rfl rfl (untagged rfl) name
  · exact h.thunk outer
  · exact .of_parts rfl rfl (untagged rfl) name

theorem keptFragment {n opening : Node} {content : List Node} {closing : Option Node} (h : Printable n)
    (form : n.form = .element (some opening) content closing) :
    Printable (n.keptFragment content) := by
  have plain : n.isImport = false := by simp [isImport, form]
  have below : ∀ c ∈ keptContent content, Printable c := by
    intro c member
    refine h.child plain ?_
    simp [children, form, Form.children, (List.mem_filter.1 member).1]
  cases inner : n.innerPieces with
  | none =>
      unfold Node.keptFragment
      rw [inner]
      exact .of_parts rfl rfl (untagged rfl) below
  | some pieces =>
      unfold Node.keptFragment
      rw [inner]
      refine .of_pieces (fun m member => ?_) rfl (untagged rfl) below
      -- What the fragment shows without having it as a child is a child of the element or loose there.
      obtain ⟨piece, listed, shown⟩ : ∃ piece ∈ pieces, .loose m ∈ keptPiece n.children content piece := by
        simpa using member
      have origin : m ∈ n.children ∨ piece = .loose m := by
        unfold keptPiece at shown
        split at shown
        · split at shown
          · rename_i c found
            split at shown
            · have same : m = c := by simpa using shown
              rw [same]
              left
              simp [children, form, Form.children, List.mem_of_getElem? found]
            · simp at shown
          · rename_i i found
            left
            exact List.mem_of_getElem? (by simpa using shown)
        · left
          exact List.mem_of_getElem? (by simpa using shown)
        · exact .inr (List.mem_singleton.1 shown).symm
      rcases origin with child | rfl
      · exact (h.child plain child).prints
      · unfold Node.innerPieces at inner
        split at inner
        · rename_i all _ layout
          obtain ⟨start, _, inner⟩ := Option.bind_eq_some_iff.1 inner
          obtain ⟨stop, _, inner⟩ := Option.bind_eq_some_iff.1 inner
          cases inner
          exact loose_prints h.prints layout m (List.mem_of_mem_take (List.mem_of_mem_drop listed))
        · cases inner

theorem deferral {n m : Node} (h : Printable n) (made : n.deferChildren? = some m) : Printable m := by
  obtain ⟨opening, content, closing, body, form, ⟨name, attributes, tag, _⟩, _, _, chosen, rfl⟩ :=
    deferChildren?_some made
  have plain : n.isImport = false := by simp [isImport, form]
  have listed : n.children = opening :: (content ++ closing.toList) := by
    simp [children, form, Form.children]
  have kept : ∀ c ∈ keptContent content, Printable c := by
    intro c member
    refine h.child plain ?_
    simp [listed, (List.mem_filter.1 member).1]
  have inner : Printable body := by
    rcases deferredBody?_some chosen with ⟨c, lone, _, rfl⟩ | ⟨c, lone, held, _⟩ | ⟨_, rfl⟩
    · exact kept body (by simp [lone])
    · have outer : Printable c := kept c (by simp [lone])
      exact outer.child (by simp [isImport, held]) (by simp [children, held, Form.children])
    · exact h.keptFragment form
  have source : ∀ c ∈ loneContainer? (keptContent content), Printable c := by
    intro c here
    unfold loneContainer? at here
    split at here
    · rename_i d lone
      have same : d = c := by
        obtain ⟨_, _, same⟩ := Option.map_eq_some_iff.1 (Option.mem_def.1 here)
        exact same
      exact kept c (by simp [lone, same])
    · cases here
  obtain ⟨ps, parts⟩ : ∃ ps, (Form.element (some opening)
      [body.thunk (loneContainer? (keptContent content))] closing).parts = .ok ps := by
    cases closing <;> exact ⟨_, by simp [Form.parts, tag]; rfl⟩
  refine .of_parts parts rfl (fun _ => by simp [Node.openingTag?, tag]) fun c member => ?_
  have places : c = opening ∨ c = body.thunk (loneContainer? (keptContent content)) ∨
      c ∈ closing.toList := by simpa [Form.children] using member
  rcases places with rfl | rfl | last
  · exact h.child plain (by simp [listed])
  · exact inner.thunk source
  · exact h.child plain (by simp [listed, Option.mem_toList.1 last])

end Printable

variable {s : Settings} {ancestors : Ancestors} {n : Node}

theorem Deferring.printable {m : Node} {actions : List Action} (h : Deferring s n m actions)
    (printable : Printable n) : Printable m := by
  cases h with
  | stays => exact printable
  | deferred made => exact printable.deferral (deferral?_some made)

theorem Chosen.printable {c : Choice} (h : Chosen s ancestors n c) (printable : Printable n) :
    Printable c.node := by
  cases h with
  | other | container => exact printable
  | @boundary e _ _ held =>
      have inner : Printable e :=
        printable.child (by simp [isImport, held]) (by simp [children, held, Form.children])
      refine inner.boundary s.componentName fun c same => ?_
      cases Option.mem_some_iff.1 same
      exact printable
  | element _ deferring => exact deferring.printable printable
  | whole _ deferring =>
      exact (deferring.printable printable).boundary s.componentName fun c same => by cases same

theorem Exchange.eq_of_isSpecifier {policy : ReadPolicy} {m : Node} (h : Exchange policy n m)
    (own : n.isSpecifier = true) : m = n := by
  obtain ⟨form, layout⟩ := n
  have childless : (mk form layout).children = [] := by
    cases form <;> first | rfl | cases own
  cases h with
  | children length =>
      rw [childless] at length
      cases List.eq_nil_of_length_eq_zero length
      rw [← childless, withChildren_children]
  | markup gone =>
      cases form with
      | importSpecifier => simp [isMarkup] at gone
      | _ => cases own

theorem parts_withChildren {policy : ReadPolicy} {form : Form Node} {cs : List Node} {ps : List Part}
    (h : form.parts = .ok ps) (plain : (fresh form).isImport = false)
    (exchange : Pointwise (Exchange policy) form.children cs) :
    ∃ ps', (form.withChildren cs).parts = .ok ps' := by
  have paired := Form.paired_withChildren exchange
  generalize form.withChildren cs = form' at paired
  cases paired with
  | function | generic | importSpecifier => cases h
  | importDecl => cases plain
  | @element o o' c c' _ _ opening _ closing =>
      obtain ⟨rfl, rfl⟩ | ⟨o, o', rfl, rfl, tagged⟩ := opening.of_option
      · cases h
      · simp only [Form.parts] at h
        split at h
        · rename_i name attributes tag
          obtain ⟨name', attributes', tag'⟩ := tagged.openingTag tag
          exact ⟨_, by simp [Form.parts, tag']; rfl⟩
        · rename_i name attributes _ tag
          obtain ⟨name', attributes', tag'⟩ := tagged.openingTag tag
          obtain ⟨ended, _⟩ | ⟨_, c', _, rfl, _⟩ := closing.of_option
          · cases ended
          · exact ⟨_, by simp [Form.parts, tag']; rfl⟩
        · rename_i name attributes tag
          obtain ⟨name', attributes', tag'⟩ := tagged.openingTag tag
          cases c' <;> exact ⟨_, by simp [Form.parts, tag']; rfl⟩
        · cases h
  | _ => exact ⟨_, rfl⟩

theorem Printable.withChildren {policy : ReadPolicy} {cs : List Node} (h : Printable n)
    (exchange : Pointwise (Exchange policy) n.children cs)
    (below : n.isImport = false → ∀ c ∈ cs, Printable c) : Printable (n.withChildren cs) := by
  cases plain : n.isImport with
  | true =>
      have same : Pointwise (fun a b => b = a) n.children cs :=
        exchange.mono fun a b member _ exchange => exchange.eq_of_isSpecifier (h.specifier plain member)
      rw [same.eq, withChildren_children]
      exact h
  | false =>
      have under := below plain
      obtain ⟨form, layout⟩ := n
      have listed : (form.withChildren cs).children = cs := form.children_withChildren exchange.length
      have plain' : (mk (form.withChildren cs) layout).isImport = false := by
        have paired : Form.Paired (Exchange policy) form (form.withChildren cs) :=
          Form.paired_withChildren exchange
        generalize form.withChildren cs = form' at paired
        cases paired <;> first | rfl | exact plain
      have tagged : (mk (form.withChildren cs) layout).isElement = true →
          (mk (form.withChildren cs) layout).openingTag?.isSome = true := by
        intro element
        have own : (mk form layout).isElement = true := by rwa [← isElement_withChildren _ cs]
        obtain ⟨tag, found⟩ := Option.isSome_iff_exists.1 (h.openingTag? own)
        obtain ⟨tag', found', _⟩ := openingTag?_withChildren exchange own found
        rw [← withChildren_mk, found']
        rfl
      rw [← listed] at under
      rw [withChildren_mk]
      cases layout with
      | some pieces => exact .of_pieces (loose_prints h.prints rfl) plain' tagged under
      | none =>
          obtain ⟨ps, parts, _⟩ := exists_print_iff.1 h.prints
          obtain ⟨ps', parts'⟩ := parts_withChildren parts plain exchange
          exact .of_parts parts' plain' tagged under

theorem Rewrites.printable {m : Node} {log : List Action} (h : Rewrites s ancestors n m log)
    (printable : Printable n) : Printable m := by
  induction h with
  | stop chosen => exact chosen.printable printable
  | @onward ancestors n c results chosen _ length each ih =>
      have outer := chosen.printable printable
      have derived : Pointwise (fun a r => Rewrites s (c.node :: ancestors) a r.1 r.2)
          c.node.children results := ⟨length, each⟩
      have exchange := derived.map_right (T := Exchange s.policy) fun _ _ rewrites => rewrites.exchange
      refine outer.withChildren exchange fun plain m member => ?_
      have below : Pointwise (fun a r => Printable r.1) c.node.children results :=
        ⟨length, fun i a r found result =>
          ih i a r found result (outer.child plain (List.mem_of_getElem? found))⟩
      obtain ⟨r, listed, rfl⟩ := List.mem_map.1 member
      obtain ⟨_, _, own⟩ := below.exists_left listed
      exact own

end Node

end JsxBoundary
