import JsxBoundary.Proofs.Preservation

namespace JsxBoundary.Concrete

/-! ## What containers hold -/

section

variable {bytes : ByteArray} {role role' : Role} {n inner : Concrete} {p : Plan}

def Plan.Kept (n : Concrete) : Form Node → Prop
  | .container _ => False
  | .generic kind _ => kind = n.kind
  | _ => True

theorem single_kept {form : Node → Form Node} (h : ∀ m, Plan.Kept n (form m)) (nodes : List Node) :
    Plan.Kept n ((Plan.single n role inner form).form nodes) := by
  cases nodes with
  | nil => exact rfl
  | cons m rest => exact h m

theorem member_kept (field : String) (computed : Bool) (nodes : List Node) :
    Plan.Kept n ((Plan.member n field computed).form nodes) := by
  unfold Plan.member
  split
  · match nodes with
    | [] | [_] | _ :: _ :: _ :: _ => exact rfl
    | [_, _] => trivial
  · exact rfl

theorem call_kept (nodes : List Node) : Plan.Kept n ((Plan.call n).form nodes) := by
  unfold Plan.call
  split
  · split
    · cases nodes with
      | nil => exact rfl
      | cons => trivial
    · exact rfl
  · exact rfl

theorem arrow_kept (nodes : List Node) : Plan.Kept n ((Plan.arrow n).form nodes) := by
  unfold Plan.arrow
  split
  · match nodes with
    | [] | [_] | _ :: _ :: _ :: _ => exact rfl
    | [_, _] => trivial
  · exact single_kept (fun _ => by trivial) nodes
  · exact rfl

theorem element_kept (nodes : List Node) : Plan.Kept n ((Plan.element n).form nodes) := by
  unfold Plan.element
  split
  · exact rfl
  · dsimp only
    split
    · trivial
    · cases nodes with
      | nil => exact rfl
      | cons => trivial

theorem Plan.Made.kept (made : p.Made bytes n) :
    p = Plan.container n ∨ ∀ nodes, Plan.Kept n (p.form nodes) := by
  cases made with
  | container => exact .inl rfl
  | generic => exact .inr fun _ => rfl
  | identifier | text | function | fragment => exact .inr fun _ => trivial
  | importing planned =>
      obtain ⟨path, _, planned⟩ := bind_eq_ok planned
      obtain ⟨b, _, planned⟩ := bind_eq_ok planned
      cases planned
      exact .inr fun _ => trivial
  | member => exact .inr (member_kept _ _)
  | call => exact .inr call_kept
  | arrow => exact .inr arrow_kept
  | element => exact .inr element_kept
  | selfClosing => exact .inr (single_kept fun _ => by trivial)
  | parens =>
      right
      unfold Plan.parens
      split
      · exact single_kept fun _ => by trivial
      · exact fun _ => rfl
  | opening planned =>
      unfold Plan.opening at planned
      split at planned <;> cases planned
      refine .inr fun nodes => ?_
      cases nodes with
      | nil => exact rfl
      | cons => trivial
  | closing =>
      right
      unfold Plan.closing
      split
      · exact fun _ => trivial
      · exact single_kept fun _ => by trivial
  | attr planned =>
      obtain ⟨name, _, planned⟩ := bind_eq_ok planned
      split at planned <;> cases planned
      · exact .inr (single_kept fun _ => by trivial)
      · exact .inr fun _ => trivial
  | spreadAttr =>
      right
      unfold Plan.spreadAttr
      split
      · split
        · exact single_kept fun _ => by trivial
        · exact fun _ => rfl
      · exact fun _ => rfl

theorem toNode_container_layout {d : Concrete} {c e : Node} (h : toNode bytes role d = .ok c)
    (held : c.form = .container e) (full : e.isEmptyExpression = false) :
    ∃ inner front back, inner ∈ d.children ∧ toNode bytes .plain inner = .ok e ∧
      gap bytes d.start inner.start = .ok front ∧ gap bytes inner.stop d.stop = .ok back ∧
      c.layout = some (front ++ .child 0 :: back) := by
  obtain ⟨p, nodes, pieces, planned, results, cut, rfl⟩ := toNode_eq_ok h
  rw [Node.form_mk] at held
  rcases (plan_made planned).kept with rfl | kept
  · unfold Plan.container at results held cut
    split at results
    · rename_i none
      simp only [none, Plan.leaf] at held
      cases held
      cases full
    · rename_i inner rest parts
      simp only [parts, Plan.single] at held cut
      obtain ⟨m, more, rfl, read, _⟩ := results.of_cons
      cases held
      rw [if_neg Bool.false_ne_true, layout_of_sorted (List.pairwise_singleton _ _)] at cut
      obtain ⟨front, back, first, last, rfl⟩ := pieces_cons_eq_ok cut
      exact ⟨inner, front, back, mem_children_of_mem_parts (by simp [parts]), read, first, last, rfl⟩
  · have none := kept nodes
    rw [held] at none
    exact none.elim

theorem toNode_container {node e : Node} (h : toNode bytes role n = .ok node)
    (held : node.form = .container e) :
    e.isEmptyExpression = true ∨ ∃ c ∈ n.children, toNode bytes .plain c = .ok e := by
  cases full : e.isEmptyExpression with
  | true => exact .inl rfl
  | false =>
      obtain ⟨inner, _, _, within, read, _⟩ := toNode_container_layout h held full
      exact .inr ⟨inner, within, read⟩

theorem Plan.Kept.needsBodyParens {form : Form Node} {layout : Option (List (Piece Node))}
    (kept : Plan.Kept n form) (needs : (Node.mk form layout).needsBodyParens = true) :
    Node.parenthesizedKinds.contains n.kind = true := by
  cases form with
  | generic kind parts =>
      have same : kind = n.kind := kept
      exact same ▸ needs
  | _ => cases needs

theorem container_needsBodyParens {nodes : List Node} {layout : Option (List (Piece Node))}
    (needs : (Node.mk ((Plan.container n).form nodes) layout).needsBodyParens = true) :
    Node.parenthesizedKinds.contains n.kind = true := by
  unfold Plan.container at needs
  split at needs
  · cases needs
  · cases nodes with
    | nil => exact needs
    | cons => cases needs

theorem plan_parenthesized (kind : Node.parenthesizedKinds.contains n.kind = true) :
    plan bytes .plain n = .ok (.generic n) := by
  have listed : n.kind = "object" ∨ n.kind = "sequence_expression" := by
    simpa [Node.parenthesizedKinds] using kind
  unfold plan plainPlan
  rcases listed with kind | kind <;>
    simp [kind, identifierKinds, functionKinds, pure, Except.pure]

theorem toNode_needsBodyParens {e : Node} (h : toNode bytes .plain n = .ok e) :
    e.needsBodyParens = Node.parenthesizedKinds.contains n.kind := by
  obtain ⟨p, nodes, pieces, planned, _, _, rfl⟩ := toNode_eq_ok h
  cases kind : Node.parenthesizedKinds.contains n.kind with
  | true =>
      cases (plan_parenthesized kind).symm.trans planned
      exact kind
  | false =>
      refine Bool.eq_false_iff.2 fun needs => ?_
      have listed : Node.parenthesizedKinds.contains n.kind = true := by
        rcases (plan_made planned).kept with rfl | kept
        · exact container_needsBodyParens needs
        · exact (kept nodes).needsBodyParens needs
      rw [kind] at listed
      cases listed

end

/-! ## Where nodes come from -/

section

variable {source : String} {role : Role} {n : Concrete}

theorem toNode_get? {node m : Node} {path : List Nat} (nested : Nested source n)
    (nonempty : n.start < n.stop) (h : toNode source.toUTF8 role n = .ok node)
    (found : node.get? path = some m) :
    (∃ c role, Occurs n c ∧ c.start < c.stop ∧ toNode source.toUTF8 role c = .ok m) ∨
      Plan.Supplied m := by
  induction path generalizing n role node with
  | nil =>
      cases found
      exact .inl ⟨n, role, .root, nonempty, h⟩
  | cons i path ih =>
      obtain ⟨p, nodes, pieces, planned, results, _, rfl⟩ := toNode_eq_ok h
      rw [Node.get?_cons] at found
      obtain ⟨c, child, found⟩ := Option.bind_eq_some_iff.1 found
      rcases ((plan_made planned).builds nodes).children c (List.mem_of_getElem? child) with
        result | supplied
      · obtain ⟨slot, listed, read⟩ := results.exists_left result
        have within := (plan_exact nested nonempty planned).within
        have inner := within.occurs _ (List.mem_map_of_mem listed)
        have range := (within.inside _ (List.mem_map_of_mem listed)).2.1
        rcases ih (nested.of_occurs inner) range read found with ⟨d, role, occurs, own⟩ | supplied
        · exact .inl ⟨d, role, inner.trans occurs, own⟩
        · exact .inr supplied
      · -- What a plan puts in has no children.
        cases path with
        | nil =>
            cases found
            exact .inr supplied
        | cons j path => cases supplied <;> cases found

theorem toProgram_container {root : Concrete} {m c e : Node} {path : List Nat} (nested : Nested source root)
    (read : toProgram source root = .ok m) (found : m.get? path = some c)
    (held : c.form = .container e) (full : e.isEmptyExpression = false) :
    ∃ d, Occurs root d ∧ d.start < d.stop ∧ toNode source.toUTF8 .plain d = .ok e := by
  obtain ⟨body, pieces, rfl, results, _⟩ := toProgram_eq_ok read
  cases path with
  | nil =>
      cases found
      cases held
  | cons i path =>
      rw [Node.get?_cons] at found
      obtain ⟨statement, child, found⟩ := Option.bind_eq_some_iff.1 found
      obtain ⟨n, listed, own⟩ := results.exists_left (List.mem_of_getElem? child)
      have member := mem_children_of_mem_named listed
      have range := (nested root .root).nonempty n member
      rcases toNode_get? (nested.of_occurs (.of_child member)) range own found with
        ⟨d, role, occurs, _, read⟩ | supplied
      · rcases toNode_container read held with empty | ⟨inner, below, read⟩
        · rw [full] at empty
          cases empty
        · have outer := (Occurs.of_child member).trans occurs
          exact ⟨inner, .child outer below, (nested d outer).nonempty inner below, read⟩
      · cases supplied <;> cases held

end

/-! ## What functions are written as -/

/-- The text of an expression as the body of a function. -/
def bodyText (c : Concrete) (t : String) : String :=
  if Node.parenthesizedKinds.contains c.kind then "(" ++ t ++ ")" else t

section

variable {source : String}

theorem arrow_of_thunk (body : Node) (given : Option Node) :
    ∃ arrow layout, (body.thunk given).form = .container arrow ∧ arrow = .mk (.arrow body none) layout ∧
      Node.ArrowLayout body layout := by
  unfold Node.thunk
  split
  · exact ⟨_, _, rfl, rfl, .inr rfl⟩
  · exact ⟨_, _, rfl, rfl, .inl rfl⟩

theorem Occurs.stop_le {c d : Concrete} (nested : Nested source c) (occurs : Occurs c d) :
    d.stop ≤ c.stop := by
  induction occurs with
  | root => exact Nat.le_refl _
  | @child n d parent member ih => exact Nat.le_trans ((nested n parent).inside d member).2 ih

theorem prefix_of_spells {c d : Concrete} {t u : String} (nested : Nested source c) (occurs : Occurs c d)
    (start : d.start = c.start) (nonempty : d.start ≤ d.stop)
    (whole : Spells source.toUTF8 c.start c.stop t) (own : Spells source.toUTF8 d.start d.stop u) :
    u.toList <+: t.toList := by
  have within := occurs.stop_le nested
  obtain ⟨v, rest⟩ := spells_of_isValid (nested d occurs).stop (nested c .root).stop within
  rw [start] at own nonempty
  have same := whole.inj (own.append rest nonempty within)
  exact ⟨v.toList, by rw [same, String.toList_append]⟩

theorem ne_nil_of_spells {d : Concrete} {u : String} (stop : (⟨d.stop⟩ : String.Pos.Raw).IsValid source)
    (nonempty : d.start < d.stop) (own : Spells source.toUTF8 d.start d.stop u) : u.toList ≠ [] := by
  intro none
  rw [String.toList_eq_nil_iff] at none
  subst none
  have size := congrArg ByteArray.size own
  have bound : d.stop ≤ source.toUTF8.size := stop.le_utf8ByteSize
  rw [ByteArray.size_extract] at size
  have zero : "".toUTF8.size = 0 := rfl
  omega

/-- A function that defers an expression of a module, for a boundary as for a lone container, is written
with the text of the expression, in parentheses exactly for an object literal and a sequence. So where
an expression that is none of these begins with a brace, as it does with an object literal for its
leftmost part, the brace stands right after the arrow. -/
theorem deferred_expression_prints {root : Concrete} {m c e : Node} {path : List Nat}
    (nested : Nested source root) (read : toProgram source root = .ok m)
    (found : m.get? path = some c) (held : c.form = .container e) (full : e.isEmptyExpression = false) :
    ∃ d t, Occurs root d ∧ toNode source.toUTF8 .plain d = .ok e ∧
      Spells source.toUTF8 d.start d.stop t ∧
      (∀ given, ∃ arrow, (e.thunk given).form = .container arrow ∧
        arrow.print = .ok ("() => " ++ bodyText d t)) ∧
      ((bodyText d t).toList.head? = some '\x7b' ↔
        t.toList.head? = some '\x7b' ∧ d.kind ∉ Node.parenthesizedKinds) ∧
      ∀ first u, Occurs d first → first.start = d.start → first.start < first.stop →
        Spells source.toUTF8 first.start first.stop u → t.toList.head? = u.toList.head? := by
  obtain ⟨d, occurs, nonempty, own⟩ := toProgram_container nested read found held full
  obtain ⟨t, printed, spelled⟩ := toNode_restores (nested.of_occurs occurs) nonempty own
  refine ⟨d, t, occurs, own, spelled, fun given => ?_, ?_, fun first u below start range begins => ?_⟩
  · obtain ⟨arrow, layout, form, rfl, written⟩ := arrow_of_thunk e given
    refine ⟨_, form, ?_⟩
    rw [Node.print_arrow printed written, toNode_needsBodyParens own, bodyText]
  · unfold bodyText
    split
    · rename_i listed
      simp [List.contains_iff_mem.1 listed]
    · rename_i bare
      simp only [List.contains_iff_mem] at bare
      simp [bare]
  · obtain ⟨rest, joined⟩ :=
      prefix_of_spells (nested.of_occurs occurs) below start (Nat.le_of_lt range) spelled begins
    have valid := (nested.of_occurs occurs first below).stop
    rw [← joined, List.head?_append_of_ne_nil _ (ne_nil_of_spells valid range begins)]

end

/-! ## A module -/

namespace Spine

open Sample (part)

def source : String := "<b>\x7b\x7ba: x$.get()\x7d.a\x7d</b>"

def access : Concrete :=
  part "member_expression" 8 14 (some "function")
    [part "identifier" 8 10 (some "object") [], part "property_identifier" 11 14 (some "property") []]

def call : Concrete :=
  part "call_expression" 8 16 (some "value") [access, part "arguments" 14 16 (some "arguments") []]

def pair : Concrete :=
  part "pair" 5 16 none [part "property_identifier" 5 6 (some "key") [], call]

def literal : Concrete :=
  part "object" 4 17 (some "object") [pair]

def whole : Concrete :=
  part "member_expression" 4 19 none [literal, part "property_identifier" 18 19 (some "property") []]

def content : Concrete :=
  part "jsx_expression" 3 20 none [whole]

def opening : Concrete :=
  part "jsx_opening_element" 0 3 (some "open_tag") [part "identifier" 1 2 (some "name") []]

def closing : Concrete :=
  part "jsx_closing_element" 20 24 (some "close_tag") [part "identifier" 22 23 (some "name") []]

def statement : Concrete :=
  part "expression_statement" 0 24 none [part "jsx_element" 0 24 none [opening, content, closing]]

/-- What the grammar makes of the text. -/
def tree : Concrete :=
  part "program" 0 24 none [statement]

def nameNode (name : String) : Node :=
  .mk (.identifier name) (some [.text name])

def accessNode : Node :=
  .mk (.member (nameNode "x$") (nameNode "get") false false) (some [.child 0, .text ".", .child 1])

def callNode : Node :=
  .mk (.call accessNode [] false) (some [.child 0, .text "()"])

def pairNode : Node :=
  .mk (.generic "pair" [nameNode "a", callNode]) (some [.child 0, .text ": ", .child 1])

def literalNode : Node :=
  .mk (.generic "object" [pairNode]) (some [.text "\x7b", .child 0, .text "\x7d"])

def wholeNode : Node :=
  .mk (.member literalNode (nameNode "a") false false) (some [.child 0, .text ".", .child 1])

def contentNode : Node :=
  .mk (.container wholeNode) (some [.text "\x7b", .child 0, .text "\x7d"])

def markupNode : Node :=
  .mk (.element
    (some (.mk (.openingTag (nameNode "b") [] false) (some [.text "<", .child 0, .text ">"])))
    [contentNode] (some (.mk (.closingTag (nameNode "b")) (some [.text "</", .child 0, .text ">"]))))
    (some [.child 0, .child 1, .child 2])

def module : Node :=
  .mk (.program [.mk (.generic "expression_statement" [markupNode]) (some [.child 0])])
    (some [.child 0])

theorem toNode_literal : toNode source.toUTF8 .plain literal = .ok literalNode := by
  have object : toNode source.toUTF8 .plain (part "identifier" 8 10 (some "object") []) =
      .ok (nameNode "x$") := toNode_of (p := .leaf (.identifier "x$")) rfl rfl rfl
  have property : toNode source.toUTF8 .plain (part "property_identifier" 11 14 (some "property") []) =
      .ok (nameNode "get") := toNode_of (p := .leaf (.identifier "get")) rfl rfl rfl
  have key : toNode source.toUTF8 .plain (part "property_identifier" 5 6 (some "key") []) =
      .ok (nameNode "a") := toNode_of (p := .leaf (.identifier "a")) rfl rfl rfl
  have callee : toNode source.toUTF8 .plain access = .ok accessNode :=
    toNode_of (p := .member access "property" false) rfl
    (mapM_cons_ok object (mapM_cons_ok property rfl)) ((layout_of_sorted (by decide)).trans rfl)
  have value : toNode source.toUTF8 .plain call = .ok callNode :=
    toNode_of (p := .call call) rfl (mapM_cons_ok callee rfl)
      ((layout_of_sorted (by decide)).trans rfl)
  have entry : toNode source.toUTF8 .plain pair = .ok pairNode := toNode_of (p := .generic pair) rfl
    (mapM_cons_ok key (mapM_cons_ok value rfl)) ((layout_of_sorted (by decide)).trans rfl)
  exact toNode_of (p := .generic literal) rfl (mapM_cons_ok entry rfl)
    ((layout_of_sorted (by decide)).trans rfl)

theorem toNode_content : toNode source.toUTF8 .content content = .ok contentNode := by
  have property : toNode source.toUTF8 .plain (part "property_identifier" 18 19 (some "property") []) =
      .ok (nameNode "a") := toNode_of (p := .leaf (.identifier "a")) rfl rfl rfl
  have inner : toNode source.toUTF8 .plain whole = .ok wholeNode :=
    toNode_of (p := .member whole "property" false) rfl
      (mapM_cons_ok toNode_literal (mapM_cons_ok property rfl))
      ((layout_of_sorted (by decide)).trans rfl)
  exact toNode_of (p := .container content) rfl (mapM_cons_ok inner rfl)
    ((layout_of_sorted (by decide)).trans rfl)

theorem toProgram_tree : tree.toProgram source = .ok module := by
  have first : toNode source.toUTF8 .tagName (part "identifier" 1 2 (some "name") []) =
      .ok (nameNode "b") := toNode_of (p := .leaf (.identifier "b")) rfl rfl rfl
  have last : toNode source.toUTF8 .tagName (part "identifier" 22 23 (some "name") []) =
      .ok (nameNode "b") := toNode_of (p := .leaf (.identifier "b")) rfl rfl rfl
  have tag : toNode source.toUTF8 (.opening false) opening = _ :=
    toNode_of rfl (mapM_cons_ok first rfl) ((layout_of_sorted (by decide)).trans rfl)
  have tag' : toNode source.toUTF8 .closing closing = _ :=
    toNode_of rfl (mapM_cons_ok last rfl) ((layout_of_sorted (by decide)).trans rfl)
  have element : toNode source.toUTF8 .plain (part "jsx_element" 0 24 none [opening, content, closing]) =
      .ok markupNode :=
    toNode_of (p := .element (part "jsx_element" 0 24 none [opening, content, closing])) rfl
      (mapM_cons_ok tag (mapM_cons_ok toNode_content (mapM_cons_ok tag' rfl)))
      ((layout_of_sorted (by decide)).trans rfl)
  have only : toNode source.toUTF8 .plain statement = _ :=
    toNode_of rfl (mapM_cons_ok element rfl) ((layout_of_sorted (by decide)).trans rfl)
  exact toProgram_of rfl (mapM_cons_ok only rfl) ((layout_of_sorted (by decide)).trans rfl)

def nodes : List Concrete :=
  [tree, statement, part "jsx_element" 0 24 none [opening, content, closing], opening, content, closing,
    part "identifier" 1 2 (some "name") [], part "identifier" 22 23 (some "name") [], whole, literal,
    part "property_identifier" 18 19 (some "property") [], pair,
    part "property_identifier" 5 6 (some "key") [], call, access,
    part "arguments" 14 16 (some "arguments") [], part "identifier" 8 10 (some "object") [],
    part "property_identifier" 11 14 (some "property") []]

theorem mem_nodes {n : Concrete} (h : Occurs tree n) : n ∈ nodes := by
  have closed : ∀ n ∈ nodes, ∀ c ∈ n.children, c ∈ nodes := by
    simp [nodes, tree, statement, opening, content, closing, whole, literal, pair, call, access, part, children]
  exact h.mem nodes closed (.head _)

theorem nested_tree : Nested source tree := by
  have placed : ∀ n ∈ nodes, ((⟨n.start⟩ : String.Pos.Raw).IsValid source ∧
      (⟨n.stop⟩ : String.Pos.Raw).IsValid source) ∧
      (∀ c ∈ n.children, c.start < c.stop) ∧
      (∀ c ∈ n.children, n.start ≤ c.start ∧ c.stop ≤ n.stop) ∧
      n.children.Pairwise fun a b => a.stop ≤ b.start := by decide
  intro n occurs
  obtain ⟨⟨start, stop⟩, nonempty, inside, ordered⟩ := placed n (mem_nodes occurs)
  refine ⟨start, stop, nonempty, inside, ordered, fun kind first last tags same => ?_⟩
  have element : n = part "jsx_element" 0 24 none [opening, content, closing] := by
    have only : ∀ n ∈ nodes, n.kind = "jsx_element" →
        n = part "jsx_element" 0 24 none [opening, content, closing] := by
      simp [nodes, tree, statement, opening, content, closing, whole, literal, pair, call, access, part,
        Concrete.kind, info]
    exact only n (mem_nodes occurs) kind
  subst element
  have tags' : Plan.elementTags (part "jsx_element" 0 24 none [opening, content, closing]) =
      (some opening, some closing) := rfl
  rw [tags'] at tags
  cases tags
  exact absurd (congrArg Concrete.start same) (by decide)

end Spine

theorem deferred_member_prints :
    Nested Spine.source Spine.tree ∧ toProgram Spine.source Spine.tree = .ok Spine.module ∧
      Spine.module.get? [0, 0, 1] = some Spine.contentNode ∧
      Spine.wholeNode.isEmptyExpression = false ∧
      ∃ d t, Occurs Spine.tree d ∧ Spells Spine.source.toUTF8 d.start d.stop t ∧
        ∃ arrow, (Spine.wholeNode.thunk (some Spine.contentNode)).form = .container arrow ∧
          arrow.print = .ok ("() => " ++ bodyText d t) := by
  have found : Spine.module.get? [0, 0, 1] = some Spine.contentNode := rfl
  obtain ⟨d, t, occurs, _, spelled, printed, _⟩ :=
    deferred_expression_prints Spine.nested_tree Spine.toProgram_tree found rfl rfl
  exact ⟨Spine.nested_tree, Spine.toProgram_tree, rfl, rfl, d, t, occurs, spelled, printed _⟩

/-- An expression of a module that begins with the brace of an object literal is deferred, and its
function is written without parentheses. -/
theorem leading_brace_bare :
    toProgram Spine.source Spine.tree = .ok Spine.module ∧
      Spine.wholeNode.print = .ok "\x7ba: x$.get()\x7d.a" ∧
      .boundary "JSXExpressionContainer" "\x7b\x7ba: x$.get()\x7d.a\x7d"
          "<Memo>\x7b() => \x7ba: x$.get()\x7d.a\x7d</Memo>" ∈
        ((Pass.wrapReads (.ofOptions {})).run Spine.module ⟨{}, none⟩).2.progress.trace.actions := by
  have actions : ((Pass.wrapReads (.ofOptions {})).run Spine.module ⟨{}, none⟩).2.progress.trace.actions =
      [.boundary "JSXExpressionContainer" "\x7b\x7ba: x$.get()\x7d.a\x7d"
        "<Memo>\x7b() => \x7ba: x$.get()\x7d.a\x7d</Memo>"] := by cbv
  exact ⟨Spine.toProgram_tree, by cbv, actions ▸ .head _⟩

end JsxBoundary.Concrete
