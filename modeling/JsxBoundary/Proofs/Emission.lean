import JsxBoundary.Proofs.Hiding
import JsxBoundary.Proofs.Printable
import JsxBoundary.Proofs.Slices
import JsxBoundary.Tree.Emission

namespace JsxBoundary

namespace Emission

/-- What the emission comes to: what is written, and behind it the texts of the parts still to be written. -/
def outcome (e : Emission) : Except Fault String :=
  (e.stack.pending.mapM Part.print).map fun texts => String.join (e.written.toList ++ texts)

theorem outcome_of_advance {e next : Emission} (h : e.Advance next) : e.outcome = next.outcome := by
  cases h with
  | @text value rest top =>
      simp only [outcome, top, List.mapM_cons, Part.print]
      cases rest.pending.mapM Part.print with
      | error fault => rfl
      | ok texts =>
          change Except.ok (String.join (e.written.toList ++ value :: texts)) =
            Except.ok (String.join ((e.written.push value).toList ++ texts))
          simp
  | @node n ps rest top parts =>
      simp only [outcome, top, Stack.pending_putInOrder, List.mapM_cons, List.mapM_append, Part.print,
        Node.print_of_parts parts]
      cases ps.mapM Part.print with
      | error fault => rfl
      | ok texts =>
          cases rest.pending.mapM Part.print with
          | error fault => rfl
          | ok others =>
              change Except.ok (String.join (e.written.toList ++ String.join texts :: others)) =
                Except.ok (String.join (e.written.toList ++ (texts ++ others)))
              simp only [String.join_append, String.join_cons]

theorem outcome_of_stuck {e : Emission} {fault : Fault} (h : e.round = some (.error fault)) :
    e.outcome = .error fault := by
  obtain ⟨n, rest, top, parts⟩ := stuck_of_round h
  simp only [outcome, top, List.mapM_cons, Part.print, Node.print_eq n, parts]
  rfl

theorem outcome_of_done {e : Emission} (h : e.round = none) : e.outcome = .ok (String.join e.written.toList) := by
  rw [outcome, pending_of_round_none h, List.mapM_nil]
  change Except.ok (String.join (e.written.toList ++ [])) = _
  rw [List.append_nil]

theorem finish_eq_outcome (e : Emission) : e.finish = e.outcome := by
  fun_induction finish e with
  | case1 e done => exact (outcome_of_done done).symm
  | case2 e fault stuck => exact (outcome_of_stuck stuck).symm
  | case3 e next round ih => exact ih.trans (outcome_of_advance (advance_of_round round)).symm

end Emission

namespace Node

theorem emit_eq_print (n : Node) : n.emit = n.print := by
  rw [emit, Emission.finish_eq_outcome, Emission.outcome, Stack.pending_singleton, List.mapM_cons, List.mapM_nil,
    Part.print]
  cases n.print with
  | error fault => rfl
  | ok text =>
      change Except.ok (String.join [text]) = _
      rw [String.join_cons, String.join_nil, String.append_empty]

end Node

/-- The source text of a part. -/
def Part.emit : Part → Except Fault String
  | .text value => .ok value
  | .node m => m.emit

theorem Part.emit_eq_print : Part.emit = Part.print := by
  funext part
  cases part with
  | text value => rfl
  | node m => exact m.emit_eq_print

namespace Node

variable {n m k : Node}

/-- Writing the first node comes to the second one, part by part. -/
inductive Reaches (n : Node) : Node → Prop
  | root : Reaches n n
  | part {m k : Node} {ps : List Part} (above : Reaches n m) (parts : m.parts = .ok ps) (member : .node k ∈ ps) :
      Reaches n k

/-- The node has neither a layout nor a printed form. -/
inductive Malformed (n : Node) : Prop
  | generic {kind : String} {parts : List Node} (bare : n.layout = none) (form : n.form = .generic kind parts)
  | function {kind : String} {parts : List Node} (bare : n.layout = none) (form : n.form = .function kind parts)
  | importSpecifier {imported binding : String} (bare : n.layout = none)
      (form : n.form = .importSpecifier imported binding)
  | headless {content : List Node} {closing : Option Node} (bare : n.layout = none)
      (form : n.form = .element none content closing)

/-- The children that a construct has to have of one kind are of that kind: the tags of an element, of which the
opening one may be missing, and the specifiers of an import statement. -/
def Declared (n : Node) : Prop :=
  match n.form with
  | .element opening _ closing =>
    (∀ tag ∈ opening, ∃ name attributes selfClosing, tag.form = .openingTag name attributes selfClosing) ∧
      ∀ tag ∈ closing, ∃ name, tag.form = .closingTag name
  | .importDecl _ specifiers _ _ => ∀ c ∈ specifiers, c.isSpecifier = true
  | _ => True

theorem Reaches.trans (outer : Reaches n m) (inner : Reaches m k) : Reaches n k := by
  induction inner with
  | root => exact outer
  | part _ parts member ih => exact .part ih parts member

theorem inductionOnParts {motive : Node → Prop}
    (step : ∀ n : Node, (∀ ps m, n.parts = .ok ps → .node m ∈ ps → motive m) → motive n) (n : Node) : motive n :=
  step n fun _ m parts member =>
    have : sizeOf m < sizeOf n := sizeOf_lt_of_mem_parts parts member
    inductionOnParts step m
termination_by n

theorem exists_importText {specifiers : List Node} (h : ∀ c ∈ specifiers, c.isSpecifier = true) (source : String)
    (default? namespace? : Option String) :
    ∃ t, Form.importText source specifiers default? namespace? = .ok t := by
  have own : ∀ c ∈ specifiers, ∃ t, Form.specifierText c = .ok t := by
    intro c member
    have specifier := h c member
    unfold isSpecifier at specifier
    split at specifier
    · rename_i form
      exact ⟨_, by simp only [Form.specifierText, form]; rfl⟩
    · cases specifier
  obtain ⟨ts, names⟩ := Concrete.mapM_ok own
  exact ⟨_, by rw [Form.importText, names]; rfl⟩

theorem malformed_of_parts (declared : n.Declared) {fault : Fault} (h : n.parts = .error fault) :
    n.Malformed ∧ fault.kind = "MalformedTreeError" := by
  obtain ⟨form, layout⟩ := n
  cases layout with
  | some pieces => cases h
  | none =>
      change form.parts = .error fault at h
      cases form with
      | generic =>
          cases h
          exact ⟨.generic rfl rfl, rfl⟩
      | function =>
          cases h
          exact ⟨.function rfl rfl, rfl⟩
      | importSpecifier =>
          cases h
          exact ⟨.importSpecifier rfl rfl, rfl⟩
      | importDecl source specifiers default? namespace? =>
          obtain ⟨t, printed⟩ := exists_importText declared source default? namespace?
          simp [Form.parts, printed, Except.map] at h
      | element opening content closing =>
          cases opening with
          | none =>
              cases h
              exact ⟨.headless rfl rfl, rfl⟩
          | some opening =>
              obtain ⟨name, attributes, selfClosing, tag⟩ := declared.1 opening rfl
              cases selfClosing <;> cases closing <;> simp [Form.parts, tag] at h
      | attr name value => cases value <;> cases h
      | _ => cases h

theorem Malformed.parts (h : n.Malformed) : ∃ fault, n.parts = .error fault := by
  obtain ⟨form, layout⟩ := n
  cases h with
  | generic bare same | function bare same | importSpecifier bare same | headless bare same =>
      cases bare
      cases same
      exact ⟨_, rfl⟩

theorem reaches_of_print {fault : Fault} (h : n.print = .error fault) :
    ∃ m, n.Reaches m ∧ m.parts = .error fault := by
  induction n using inductionOnParts with
  | step n ih =>
      cases parts : n.parts with
      | error other =>
          rw [print_eq, parts] at h
          cases h
          exact ⟨n, .root, parts⟩
      | ok ps =>
          rw [print_of_parts parts] at h
          cases printed : ps.mapM Part.print with
          | ok texts =>
              rw [printed] at h
              cases h
          | error other =>
              rw [printed] at h
              cases h
              obtain ⟨part, member, failed⟩ := Concrete.mapM_eq_error printed
              cases part with
              | text value => cases failed
              | node k =>
                  obtain ⟨m, reached, stuck⟩ := ih ps k parts member failed
                  exact ⟨m, (Reaches.root.part parts member).trans reached, stuck⟩

theorem Reaches.prints (h : n.Reaches m) (prints : ∃ t, n.print = .ok t) : ∃ t, m.print = .ok t := by
  induction h with
  | root => exact prints
  | part _ parts member ih =>
      obtain ⟨ps, parts', each⟩ := exists_print_iff.1 ih
      cases parts.symm.trans parts'
      exact each _ member

theorem print_fails_iff (declared : ∀ m, n.Reaches m → m.Declared) :
    (∃ fault, n.print = .error fault) ↔ ∃ m, n.Reaches m ∧ m.Malformed := by
  constructor
  · rintro ⟨fault, failed⟩
    obtain ⟨m, reached, stuck⟩ := reaches_of_print failed
    exact ⟨m, reached, (malformed_of_parts (declared m reached) stuck).1⟩
  · rintro ⟨m, reached, malformed⟩
    cases printed : n.print with
    | error fault => exact ⟨fault, rfl⟩
    | ok t =>
        obtain ⟨ps, parts, _⟩ := exists_print_iff.1 (reached.prints ⟨t, printed⟩)
        obtain ⟨fault, stuck⟩ := malformed.parts
        cases parts.symm.trans stuck

/-- Writing with a stack is the recursion over the parts: the texts of the parts of the node one after the other. It
fails exactly if that recursion comes to a malformed node, and then with the fault of such a node. With any other node
in the place of a hidden child the outcome is the same. -/
theorem emit_exact (n : Node) (declared : ∀ m, n.Reaches m → m.Declared) :
    n.emit = n.print ∧
    (n.emit = do
      let texts ← (← n.parts).mapM Part.emit
      return String.join texts) ∧
    ((∃ fault, n.emit = .error fault) ↔ ∃ m, n.Reaches m ∧ m.Malformed) ∧
    (∀ fault, n.emit = .error fault →
      fault.kind = "MalformedTreeError" ∧ ∃ m, n.Reaches m ∧ m.parts = .error fault) ∧
    ∀ path, n.Hides path → ∀ f, (n.modifyAt f path).emit = n.emit := by
  refine ⟨n.emit_eq_print, ?_, ?_, fun fault failed => ?_, fun path hides f => ?_⟩
  · rw [emit_eq_print, Part.emit_eq_print, print_eq]
  · rw [emit_eq_print]
    exact print_fails_iff declared
  · rw [emit_eq_print] at failed
    obtain ⟨m, reached, stuck⟩ := reaches_of_print failed
    exact ⟨(malformed_of_parts (declared m reached) stuck).2, m, reached, stuck⟩
  · rw [emit_eq_print, emit_eq_print, hides.print_modifyAt]

/-- `<A.B>{f}` without a closing tag. The function in the container is hidden and may be anything. The name is not, for
the element without a closing tag writes it itself, and so the element cannot be written. -/
theorem emit_exact_repeated_name :
    let name := fresh (.generic "nested_identifier" [])
    let opening := mk (.openingTag name [] false) (some [.text "<A.B>"])
    let container := mk (.container (fresh (.function "function_expression" []))) (some [.text "\x7bf\x7d"])
    let element := fresh (.element (some opening) [container] none)
    (∀ m, element.Reaches m → m.Declared) ∧ (∃ fault, element.emit = .error fault) ∧
      ∀ f, (element.modifyAt f [1, 0]).emit = element.emit := by
  intro name opening container element
  have parts : element.parts = .ok [.node opening, .node container, .text "</", .node name, .text ">"] := rfl
  have declared : ∀ m, element.Reaches m → m.Declared := by
    intro m reached
    have listed : m ∈ [element, opening, container, name] := by
      induction reached with
      | root => exact .head _
      | @part m k ps _ shown member ih =>
          simp only [List.mem_cons, List.not_mem_nil, or_false] at ih
          rcases ih with rfl | rfl | rfl | rfl
          · cases parts.symm.trans shown
            exact List.mem_cons_of_mem _ (by simpa using member)
          · obtain rfl : [Part.text "<A.B>"] = ps := Except.ok.inj shown
            simp at member
          · obtain rfl : [Part.text "\x7bf\x7d"] = ps := Except.ok.inj shown
            simp at member
          · cases shown
    simp only [List.mem_cons, List.not_mem_nil, or_false] at listed
    rcases listed with rfl | rfl | rfl | rfl
    · exact ⟨fun tag same => ⟨name, [], false, by cases same; rfl⟩, fun tag none => by cases none⟩
    all_goals trivial
  obtain ⟨_, _, fails, _, hidden⟩ := emit_exact element declared
  refine ⟨declared, fails.2 ⟨name, .part .root parts (by simp), .generic rfl rfl⟩, hidden [1, 0] ?_⟩
  exact .deeper rfl (.here rfl (by simp)) fun _ same => by cases same

end Node

end JsxBoundary
