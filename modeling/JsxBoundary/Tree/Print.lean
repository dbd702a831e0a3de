import JsxBoundary.Fault
import JsxBoundary.Tree.Node

/-!
# Printing

`Node.print` turns a tree back into source text. A node with a layout is printed piece by piece, so
text that no rewrite touched comes back unchanged; a node without one is printed by its form.

`Node.parts` says what a node is written as, one step deep; `print` is its closure
(`Node.print_eq`). It fails exactly where `parts` fails: at a node without a layout whose construct
has no printed form of its own.
-/

namespace JsxBoundary

inductive Part where
  | text (value : String)
  | node (n : Node)

namespace Node

def parenthesizedKinds : List String :=
  ["object", "sequence_expression"]

def needsBodyParens (n : Node) : Bool :=
  match n.form with
  | .generic kind _ => parenthesizedKinds.contains kind
  | _ => false

end Node

namespace Part

def joined (separator : String) : List Node → List Part
  | [] => []
  | [n] => [.node n]
  | n :: m :: ns => .node n :: .text separator :: joined separator (m :: ns)

def ofPiece (children : List Node) : Piece Node → List Part
  | .text value => [.text value]
  | .child index => (children[index]?.map Part.node).toList
  | .loose n => [.node n]

end Part

namespace Form

def specifierText (specifier : Node) : Except Fault String :=
  match specifier.form with
  | .importSpecifier imported binding =>
    .ok (if imported == binding then imported else s!"{imported} as {binding}")
  | _ => .error .missingPart

/-- The import statement, its clauses in the order default, namespace, named; a clause with an empty
name is left out. -/
def importText (source : String) (specifiers : List Node) (default? namespace? : Option String) :
    Except Fault String := do
  let names ← specifiers.mapM specifierText
  let named := if names.isEmpty then [] else ["\x7b " ++ ", ".intercalate names ++ " \x7d"]
  let clauses := (default?.filter (· != "")).toList
    ++ ((namespace?.filter (· != "")).map ("* as " ++ ·)).toList ++ named
  let clauseText := if clauses.isEmpty then "" else ", ".intercalate clauses ++ " from "
  return "import " ++ clauseText ++ "\"" ++ source ++ "\";"

def parts (form : Form Node) : Except Fault (List Part) :=
  match form with
  | .identifier name => .ok [.text name]
  | .member object property computed optional =>
    .ok <| if computed then
      [.node object, .text (if optional then "?.[" else "["), .node property, .text "]"]
    else [.node object, .text (if optional then "?." else "."), .node property]
  | .call callee arguments optional =>
    .ok (.node callee :: .text (if optional then "?.(" else "(")
      :: Part.joined ", " arguments ++ [.text ")"])
  | .arrow body params =>
    .ok <| (params.elim (Part.text "()") Part.node) ::
      if body.needsBodyParens then [.text " => (", .node body, .text ")"]
      else [.text " => ", .node body]
  | .parens expression => .ok [.text "(", .node expression, .text ")"]
  | .text value => .ok [.text value]
  | .emptyExpression => .ok []
  | .container expression => .ok [.text "\x7b", .node expression, .text "\x7d"]
  | .spreadAttr argument => .ok [.text "\x7b...", .node argument, .text "\x7d"]
  | .attr name none => .ok [.text name]
  | .attr name (some value) => .ok [.text name, .text "=", .node value]
  | .openingTag name attributes selfClosing =>
    .ok (.text "<" :: .node name :: attributes.flatMap (fun a => [.text " ", .node a])
      ++ [.text (if selfClosing then " />" else ">")])
  | .closingTag name => .ok [.text "</", .node name, .text ">"]
  | .element none _ _ => .error .headless
  | .element (some opening) content closing =>
    match opening.form, closing with
    | .openingTag _ _ true, _ => .ok [.node opening]
    | .openingTag _ _ false, some closing =>
      .ok (.node opening :: content.map .node ++ [.node closing])
    | .openingTag name _ false, none =>
      .ok (.node opening :: content.map .node ++ [.text "</", .node name, .text ">"])
    | _, _ => .error .missingPart
  | .fragment content => .ok (.text "<>" :: content.map .node ++ [.text "</>"])
  | .importDecl source specifiers default? namespace? =>
    (importText source specifiers default? namespace?).map ([.text ·])
  | .program body => .ok (Part.joined "\n" body)
  | .function _ _ | .generic _ _ | .importSpecifier _ _ => .error (.unprintable form.typeName)

theorem mem_of_node_mem_joined (separator : String) {m : Node} (ns : List Node)
    (h : .node m ∈ Part.joined separator ns) : m ∈ ns := by
  induction ns with
  | nil => simp [Part.joined] at h
  | cons n ns ih =>
    cases ns with
    | nil => simpa [Part.joined] using h
    | cons k ks =>
      simp only [Part.joined, List.mem_cons, Part.node.injEq, reduceCtorEq, false_or] at h
      exact List.mem_cons.2 (h.imp_right ih)

theorem mem_children_of_mem_parts {form : Form Node} {m : Node} {ps : List Part}
    (h : form.parts = .ok ps) (hm : .node m ∈ ps) :
    m ∈ form.children ∨ ∃ opening ∈ form.children, ∃ attributes selfClosing,
      opening.form = .openingTag m attributes selfClosing := by
  have joined := fun separator => @mem_of_node_mem_joined separator m
  cases form with
  | arrow body params =>
    cases h
    cases params <;> cases hb : body.needsBodyParens <;> simp_all [children] <;> grind
  | attr name value => cases value <;> cases h <;> simp_all [children]
  | element opening content closing =>
    cases opening with
    | none => cases h
    | some opening =>
      simp only [parts] at h
      split at h <;> cases h
      case h_3 _ _ name _ ho =>
        simp [children] at hm ⊢
        grind
      all_goals simp [children] at hm ⊢; grind
  | importDecl source specifiers default? namespace? =>
    simp only [parts, Except.map] at h
    split at h <;> cases h
    simp at hm
  | function | generic | importSpecifier => cases h
  | _ => cases h; simp [children] at hm ⊢ <;> grind

theorem sizeOf_lt_of_mem_parts {form : Form Node} {m : Node} {ps : List Part}
    (h : form.parts = .ok ps) (hm : .node m ∈ ps) : sizeOf m < sizeOf form := by
  rcases mem_children_of_mem_parts h hm with hc | ⟨opening, ho, attributes, selfClosing, tag⟩
  · exact sizeOf_lt_of_mem_children hc
  · have hc : m ∈ opening.children := by simp [Node.children, tag, children]
    exact Nat.lt_trans (Node.sizeOf_lt_of_mem_children hc) (sizeOf_lt_of_mem_children ho)

end Form

namespace Node

def parts (n : Node) : Except Fault (List Part) :=
  match n.layout with
  | some pieces => .ok (pieces.flatMap (Part.ofPiece n.children))
  | none => n.form.parts

theorem sizeOf_lt_of_mem_parts {n m : Node} {ps : List Part} (h : n.parts = .ok ps)
    (hm : .node m ∈ ps) : sizeOf m < sizeOf n := by
  unfold parts at h
  split at h
  · rename_i pieces hl
    cases h
    obtain ⟨piece, hp, hm⟩ := List.mem_flatMap.1 hm
    cases piece with
    | text value => simp [Part.ofPiece] at hm
    | child index =>
      simp only [Part.ofPiece, Option.mem_toList, Option.map_eq_some_iff, Part.node.injEq] at hm
      obtain ⟨c, hc, rfl⟩ := hm
      exact sizeOf_lt_of_mem_children (List.mem_of_getElem? hc)
    | loose k =>
      simp only [Part.ofPiece, List.mem_singleton, Part.node.injEq] at hm
      exact hm ▸ sizeOf_lt_of_loose_mem hl hp
  · exact Nat.lt_trans (Form.sizeOf_lt_of_mem_parts h hm) n.sizeOf_form_lt

def print (n : Node) : Except Fault String := do
  let texts ← match _h : n.parts with
    | .error fault => .error fault
    | .ok ps => ps.attach.mapM fun ⟨part, mem⟩ =>
      match part, mem with
      | .text value, _ => .ok value
      | .node m, _ => m.print
  return String.join texts
termination_by n
decreasing_by exact sizeOf_lt_of_mem_parts _h ‹_›

end Node

def Part.print : Part → Except Fault String
  | .text value => .ok value
  | .node m => m.print

namespace Node

theorem print_eq (n : Node) : n.print = do
    let texts ← (← n.parts).mapM Part.print
    return String.join texts := by
  rw [print]
  cases n.parts with
  | error fault => rfl
  | ok ps =>
    have : (fun x : { part // part ∈ ps } => match x.1, x.2 with
        | .text value, _ => Except.ok value
        | .node m, _ => m.print) = fun x => x.1.print := by
      funext ⟨part, _⟩
      cases part <;> rfl
    have attached : (ps.attach.mapM fun x : { part // part ∈ ps } => x.1.print)
        = ps.mapM Part.print := by
      rw [List.mapM_subtype fun _ _ => rfl, List.unattach_attach]
    simp only [this, attached]
    rfl

end Node

end JsxBoundary
