import JsxBoundary.Proofs.Printing

namespace JsxBoundary

namespace Node

variable {n m : Node}

def selfCloses? (n : Node) : Option Bool :=
  match n.form with
  | .openingTag _ _ selfClosing => some selfClosing
  | _ => none

def tagText (n : Node) : Except Fault String :=
  match n.form with
  | .openingTag name _ _ => name.print
  | _ => .ok ""

def RepeatsName (n : Node) : Prop :=
  n.layout = none ∧ ∃ opening content, n.form = .element (some opening) content none ∧
    opening.selfCloses? = some false

/-- The path ends at a child that is written nowhere: the layout of its parent does not show it, and no element repeats
it as the name of its tag. -/
inductive Hides : Node → List Nat → Prop
  | here {n : Node} {pieces : List (Piece Node)} {i : Nat} (layout : n.layout = some pieces)
      (unseen : .child i ∉ pieces) : Hides n [i]
  | deeper {n c : Node} {i : Nat} {path : List Nat} (child : n.children[i]? = some c) (hides : Hides c path)
      (unrepeated : n.RepeatsName → i :: path ≠ [0, 0]) : Hides n (i :: path)

/-- A parent that does not repeat the name in a tag writes the second node as it writes the first one. -/
structure LooksLike (n m : Node) : Prop where
  print : m.print = n.print
  parens : m.needsBodyParens = n.needsBodyParens
  specifier : Form.specifierText m = Form.specifierText n
  closes : m.selfCloses? = n.selfCloses?

theorem LooksLike.refl (n : Node) : LooksLike n n :=
  ⟨rfl, rfl, rfl, rfl⟩

theorem LooksLike.map_print {as bs : List Node} (each : Pointwise LooksLike as bs) :
    bs.map Node.print = as.map Node.print :=
  (each.mono fun _ _ _ _ like => like.print).map_eq

def printedParts (parts : Except Fault (List Part)) : Except Fault (List (Except Fault String)) :=
  parts.map (·.map Part.print)

theorem print_congr (h : printedParts m.parts = printedParts n.parts) : m.print = n.print := by
  have joined (k : Node) : k.print = do
      let texts ← (← printedParts k.parts).mapM id
      return String.join texts := by
    rw [print_eq]
    cases k.parts with
    | error fault => rfl
    | ok ps => simp [printedParts, Except.map, bind, Except.bind, List.mapM_map]
  rw [joined, joined, h]

theorem print_comp_node : Part.print ∘ Part.node = print := rfl

theorem map_print_joined (separator : String) (ns : List Node) :
    (Part.joined separator ns).map Part.print = (ns.map print).intersperse (.ok separator) := by
  fun_induction Part.joined separator ns with
  | case1 | case2 => rfl
  | case3 n m ns ih => simpa [Part.print] using ih

theorem map_print_attributes (attributes : List Node) :
    (attributes.flatMap fun a => [Part.text " ", .node a]).map Part.print =
      (attributes.map print).flatMap fun t => [.ok " ", t] := by
  simp [List.map_flatMap, List.flatMap_map, Part.print]

theorem map_print_ofPiece {cs ds : List Node} (h : ds.map print = cs.map print) (piece : Piece Node) :
    (Part.ofPiece ds piece).map Part.print = (Part.ofPiece cs piece).map Part.print := by
  cases piece with
  | text value => rfl
  | loose n => rfl
  | child i =>
      have same : ds[i]?.map print = cs[i]?.map print := by
        rw [← List.getElem?_map, h, List.getElem?_map]
      have shown (ns : List Node) : (Part.ofPiece ns (.child i)).map Part.print = (ns[i]?.map print).toList := by
        cases found : ns[i]? <;> simp [Part.ofPiece, found, Part.print]
      rw [shown, shown, same]

/-- What an element without a layout is written as: its opening tag only if that closes itself, or else what is
between its tags too, and for a missing closing tag one with the same name. -/
theorem printedParts_element (opening : Node) (content : List Node) (closing : Option Node) :
    printedParts (Form.element (some opening) content closing).parts =
      match opening.selfCloses? with
      | none => .error .missingPart
      | some true => .ok [opening.print]
      | some false => .ok (opening.print :: content.map print ++
          (closing.map print).elim [.ok "</", opening.tagText, .ok ">"] ([·])) := by
  obtain ⟨form, layout⟩ := opening
  cases form with
  | openingTag name attributes selfClosing =>
      cases selfClosing <;> cases closing <;>
        simp [printedParts, Form.parts, selfCloses?, tagText, Except.map, Part.print, print_comp_node]
  | _ => rfl

theorem printedParts_form {form form' : Form Node} (paired : form.Paired LooksLike form')
    (names : ∀ opening opening' content content', form = .element (some opening) content none →
      form' = .element (some opening') content' none → opening.selfCloses? = some false →
      opening'.tagText = opening.tagText) :
    printedParts form'.parts = printedParts form.parts := by
  cases paired with
  | identifier | text | emptyExpression | attrName | function | generic | importSpecifier => rfl
  | member computed optional object property =>
      cases computed <;> simp [printedParts, Form.parts, Except.map, Part.print, object.print, property.print]
  | call optional callee arguments =>
      simp [printedParts, Form.parts, Except.map, Part.print, callee.print, map_print_joined,
        LooksLike.map_print arguments]
  | arrow body =>
      simp only [printedParts, Form.parts, Except.map, body.parens]
      split <;> simp [Part.print, body.print]
  | arrowParams body params =>
      simp only [printedParts, Form.parts, Except.map, body.parens]
      split <;> simp [Part.print, body.print, params.print]
  | parens e | container e | spreadAttr e | attr _ e | closingTag e =>
      simp [printedParts, Form.parts, Except.map, Part.print, e.print]
  | openingTag selfClosing name attributes =>
      simp [printedParts, Form.parts, Except.map, Part.print, name.print, map_print_attributes,
        LooksLike.map_print attributes]
  | importDecl source default? namespace? specifiers =>
      have named := (specifiers.mono fun a b _ _ like => like.specifier).map_eq
      have mapped (ns : List Node) : ns.mapM Form.specifierText = (ns.map Form.specifierText).mapM id := by
        simp [List.mapM_map]
      simp only [printedParts, Form.parts, Form.importText, mapped, named]
  | program body =>
      simp [printedParts, Form.parts, Except.map, map_print_joined, LooksLike.map_print body]
  | fragment content =>
      simp [printedParts, Form.parts, Except.map, Part.print, print_comp_node, LooksLike.map_print content]
  | @element o o' c c' cs cs' opening content closing =>
      obtain ⟨rfl, rfl⟩ | ⟨o, o', rfl, rfl, like⟩ := opening.of_option
      · rfl
      · rw [printedParts_element, printedParts_element, like.closes, like.print, LooksLike.map_print content]
        cases closes : o.selfCloses? with
        | none => rfl
        | some selfClosing =>
            cases selfClosing with
            | true => rfl
            | false =>
                obtain ⟨rfl, rfl⟩ | ⟨c, c', rfl, rfl, like⟩ := closing.of_option
                · rw [names o o' cs cs' rfl rfl closes]
                · simp only [Option.map_some, like.print, Option.elim_some]

theorem LooksLike.of_print {cs : List Node} (length : cs.length = n.children.length)
    (same : (n.withChildren cs).print = n.print) : LooksLike n (n.withChildren cs) := by
  obtain ⟨form, layout⟩ := n
  have paired : Form.Paired (fun _ _ => True) form (form.withChildren cs) :=
    Form.paired_withChildren ⟨length, fun _ _ _ _ _ => trivial⟩
  unfold withChildren at same ⊢
  rw [form_mk] at same ⊢
  generalize form.withChildren cs = form' at paired same
  exact ⟨same, by cases paired <;> rfl, by cases paired <;> rfl, by cases paired <;> rfl⟩

theorem LooksLike.withChildren {cs : List Node} (each : Pointwise LooksLike n.children cs)
    (name : n.RepeatsName → cs.head?.map tagText = n.children.head?.map tagText) :
    LooksLike n (n.withChildren cs) := by
  refine .of_print each.length (print_congr ?_)
  obtain ⟨form, layout⟩ := n
  cases layout with
  | some pieces =>
      have shown : ((Node.mk form (some pieces)).withChildren cs).parts = .ok (pieces.flatMap (Part.ofPiece cs)) := by
        rw [parts, children_withChildren _ each.length]
        rfl
      rw [shown]
      simp [printedParts, Except.map, Node.parts, List.map_flatMap, map_print_ofPiece (map_print each)]
  | none =>
      refine printedParts_form (Form.paired_withChildren each) ?_
      intro opening opening' content content' before after closes
      have first := name ⟨rfl, opening, content, before, closes⟩
      have same : (Node.mk form none).children = opening :: content := by simp [children, before, Form.children]
      have same' : cs = opening' :: content' := by
        rw [← children_withChildren (Node.mk form none) each.length, children, after]
        simp [Form.children]
      simpa [same, same'] using first

theorem tagText_withChildren {cs : List Node} (length : cs.length = n.children.length)
    (first : (cs.map print).head? = (n.children.map print).head?) : (n.withChildren cs).tagText = n.tagText := by
  obtain ⟨form, layout⟩ := n
  have paired : Form.Paired (fun _ _ => True) form (form.withChildren cs) :=
    Form.paired_withChildren ⟨length, fun _ _ _ _ _ => trivial⟩
  have kept : (form.withChildren cs).children = cs := form.children_withChildren length
  unfold withChildren
  rw [form_mk]
  generalize form.withChildren cs = form' at paired kept
  cases paired with
  | openingTag selfClosing name attributes =>
      subst kept
      simpa [tagText, children, Form.children] using first
  | _ => rfl

theorem print_modify_unseen {pieces : List (Piece Node)} {i : Nat} (layout : n.layout = some pieces)
    (unseen : .child i ∉ pieces) (f : Node → Node) :
    (n.withChildren (n.children.modify i f)).print = n.print := by
  have length : (n.children.modify i f).length = n.children.length := List.length_modify ..
  have each : ∀ piece ∈ pieces, Part.ofPiece (n.children.modify i f) piece = Part.ofPiece n.children piece := by
    intro piece member
    cases piece with
    | text | loose => rfl
    | child j =>
        have other : i ≠ j := fun same => unseen (same ▸ member)
        simp [Part.ofPiece, other]
  have same : (n.withChildren (n.children.modify i f)).parts = n.parts := by
    simp only [parts, layout_withChildren, layout, children_withChildren n length, List.flatMap,
      List.map_congr_left each]
  rw [print_eq, print_eq, same]

/-- A node looks as before when a hidden child is changed. Only if it is itself the tag whose name is hidden, that
name may be another one. -/
theorem Hides.looksLike {path : List Nat} (h : n.Hides path) (f : Node → Node) :
    LooksLike n (n.modifyAt f path) ∧ (path ≠ [0] → (n.modifyAt f path).tagText = n.tagText) := by
  induction h with
  | @here n pieces i layout unseen =>
      refine ⟨.of_print (List.length_modify ..) (print_modify_unseen layout unseen _), fun other => ?_⟩
      have later : i ≠ 0 := fun same => other (by rw [same])
      refine tagText_withChildren (List.length_modify ..) ?_
      simp [List.head?_eq_getElem?, later]
  | @deeper n c i path child hides unrepeated ih =>
      obtain ⟨like, sameName⟩ := ih
      have each : Pointwise LooksLike n.children (n.children.modify i (modifyAt f · path)) := by
        refine .modify .refl fun a found => ?_
        cases child.symm.trans found
        exact like
      have texts := LooksLike.map_print each
      refine ⟨.withChildren each fun repeats => ?_, fun _ => tagText_withChildren each.length (by rw [texts])⟩
      rw [List.head?_eq_getElem?, List.head?_eq_getElem?, List.getElem?_modify]
      by_cases first : i = 0
      · subst first
        have inner : path ≠ [0] := fun same => unrepeated repeats (by rw [same])
        simp [child, sameName inner]
      · simp [first]

theorem Hides.print_modifyAt {path : List Nat} (h : n.Hides path) (f : Node → Node) :
    (n.modifyAt f path).print = n.print :=
  (h.looksLike f).1.print

end Node

end JsxBoundary
