import JsxBoundary.Proofs.Reading

namespace JsxBoundary.Concrete

/-- Every element of one tag has a name. -/
def TagsNamed (root : Concrete) : Prop :=
  ∀ n, Occurs root n → n.kind = "jsx_self_closing_element" → (n.field? "name").isSome = true

section

variable {source : String} {n c : Concrete}

theorem WellFormed.child (wf : WellFormed source n) (member : c ∈ n.children) :
    WellFormed source c ∧ c.start < c.stop :=
  ⟨wf.of_occurs (.of_child member), (wf n .root).nonempty c member⟩

theorem text_ok (h : WellFormed source n ∧ n.start < n.stop) : ∃ t, n.text source.toUTF8 = .ok t := by
  have proper := h.1 n .root
  obtain ⟨t, spelled⟩ := spells_of_isValid proper.start proper.stop (Nat.le_of_lt h.2)
  exact ⟨t, slice_eq_ok_iff.2 spelled⟩

theorem unquoted_ok (h : WellFormed source n ∧ n.start < n.stop) :
    ∃ t, n.unquoted source.toUTF8 = .ok t := by
  obtain ⟨t, text⟩ := text_ok h
  exact ⟨_, by rw [unquoted, text]; rfl⟩

theorem text_getD_ok (wf : WellFormed source n) {o : Option Concrete} (member : ∀ c ∈ o, c ∈ n.children)
    (default : String) : ∃ t, ((o.map (text source.toUTF8)).getD (.ok default)) = .ok t := by
  cases o with
  | none => exact ⟨default, rfl⟩
  | some c => exact text_ok (wf.child (member c rfl))

theorem specifier?_ok (h : WellFormed source n ∧ n.start < n.stop) :
    ∃ m, specifier? source.toUTF8 n = .ok m := by
  unfold specifier?
  split
  · rename_i name _ found
    have own := h.1.child (mem_children_of_field? found)
    obtain ⟨whole, text⟩ := text_ok h
    have binds : ∀ imported, ∃ m, ((do
        let binding ← ((n.field? "alias").map (Concrete.text source.toUTF8)).getD (.ok imported)
        let whole ← n.text source.toUTF8
        return some (.mk (.importSpecifier imported binding) (some [.text whole]))) :
          Except Fault (Option Node)) = .ok m := by
      intro imported
      obtain ⟨binding, read⟩ := text_getD_ok h.1 (o := n.field? "alias")
        (fun c found => mem_children_of_field? found) imported
      exact ⟨_, by rw [read, text]; rfl⟩
    dsimp only
    split
    · obtain ⟨imported, read⟩ := unquoted_ok own
      rw [read]
      exact binds imported
    · obtain ⟨imported, read⟩ := text_ok own
      rw [read]
      exact binds imported
  · exact ⟨_, rfl⟩

theorem Bindings.add_ok (h : WellFormed source n ∧ n.start < n.stop) (b : Bindings) :
    ∃ b', b.add source.toUTF8 n = .ok b' := by
  unfold Bindings.add
  split
  · obtain ⟨t, text⟩ := text_ok h
    exact ⟨_, by rw [text]; rfl⟩
  · split
    · rename_i name found
      obtain ⟨t, text⟩ := text_ok (h.1.child (mem_children_of_mem_named (List.mem_of_find?_eq_some found)))
      exact ⟨_, by rw [text]; rfl⟩
    · exact ⟨_, rfl⟩
  · obtain ⟨specifiers, read⟩ := mapM_ok fun c member =>
      specifier?_ok (h.1.child (mem_children_of_mem_named (n := n) (c := c) member))
    exact ⟨_, by rw [read]; rfl⟩
  · exact ⟨_, rfl⟩

theorem importPlan_ok (wf : WellFormed source n) {path : Concrete} (member : path ∈ n.children) :
    ∃ p, importPlan source.toUTF8 n path = .ok p := by
  obtain ⟨t, unquoted⟩ := unquoted_ok (wf.child member)
  have bound : ∀ c ∈ (n.named.find? (·.kind == "import_clause")).elim [] named,
      WellFormed source c ∧ c.start < c.stop := by
    cases found : n.named.find? (·.kind == "import_clause") with
    | none =>
        intro c inner
        cases inner
    | some clause =>
        intro c inner
        have outer := mem_children_of_mem_named (List.mem_of_find?_eq_some found)
        exact (wf.child outer).1.child (mem_children_of_mem_named inner)
  obtain ⟨b, read⟩ := foldlM_ok (f := Bindings.add source.toUTF8)
    (fun c member b => Bindings.add_ok (bound c member) b) {}
  exact ⟨_, by rw [importPlan, unquoted]; simp only [bind, Except.bind, read]; rfl⟩

theorem plainPlan_ok (h : WellFormed source n ∧ n.start < n.stop) :
    ∃ p, plainPlan source.toUTF8 n = .ok p := by
  unfold plainPlan
  split
  · obtain ⟨t, text⟩ := text_ok h
    exact ⟨_, by rw [text]; rfl⟩
  split
  · exact ⟨_, rfl⟩
  split
  · split
    · rename_i path found
      exact importPlan_ok h.1 (mem_children_of_field? found)
    · exact ⟨_, rfl⟩
  all_goals exact ⟨_, rfl⟩

theorem attr_ok (wf : WellFormed source n) : ∃ p, Plan.attr source.toUTF8 n = .ok p := by
  have member : ∀ c ∈ n.parts.head?, c ∈ n.children := fun c first =>
    mem_children_of_mem_parts (List.mem_of_mem_head? first)
  obtain ⟨name, read⟩ := text_getD_ok wf member ""
  unfold Plan.attr
  rw [read]
  simp only [bind, Except.bind]
  split <;> exact ⟨_, rfl⟩

theorem plan_ok (h : WellFormed source n ∧ n.start < n.stop) {role : Role}
    (named : ∀ selfClosing, role = .opening selfClosing → (n.field? "name").isSome = true) :
    ∃ p, plan source.toUTF8 role n = .ok p := by
  cases role with
  | plain => exact plainPlan_ok h
  | closing => exact ⟨_, rfl⟩
  | opening selfClosing =>
      obtain ⟨name, found⟩ := Option.isSome_iff_exists.1 (named selfClosing rfl)
      exact ⟨_, by rw [plan, Plan.opening, found]⟩
  | content =>
      unfold plan
      dsimp only
      split
      · obtain ⟨t, text⟩ := text_ok h
        exact ⟨_, by rw [text]; rfl⟩
      split
      · split <;> exact ⟨_, rfl⟩
      · exact plainPlan_ok h
  | tagName =>
      unfold plan
      dsimp only
      split
      · exact plainPlan_ok h
      · exact ⟨_, rfl⟩
  | attr =>
      unfold plan
      dsimp only
      split
      · exact attr_ok h.1
      · exact ⟨_, rfl⟩
  | value =>
      unfold plan
      dsimp only
      split
      · exact ⟨_, rfl⟩
      · exact plainPlan_ok h

theorem layout_ok {start stop : Nat} {slots : List Slot} (wf : WellFormed source n)
    (within : Within n (slots.map Slot.node)) (first : (⟨start⟩ : String.Pos.Raw).IsValid source)
    (last : (⟨stop⟩ : String.Pos.Raw).IsValid source) (le : start ≤ n.start) (le' : n.stop ≤ stop) :
    ∃ ps, layout source.toUTF8 start stop slots = .ok ps := by
  have order := (wf n .root).range
  have lined : Lined stop start (slots.mergeSort fun a b => a.node.start ≤ b.node.start) := by
    refine lined_mergeSort (by omega) within.apart fun c member => ?_
    have inside := within.inside c member
    omega
  refine pieces_ok lined first last fun slot member => ?_
  have proper := wf slot.node (within.occurs _ (List.mem_map_of_mem (List.mem_mergeSort.1 member)))
  exact ⟨proper.start, proper.stop⟩

theorem toNode_ok_of_slots (h : WellFormed source n ∧ n.start < n.stop) (tags : TagsNamed n) {role : Role}
    (named : ∀ selfClosing, role = .opening selfClosing → (n.field? "name").isSome = true)
    (slots : ∀ p, plan source.toUTF8 role n = .ok p → ∀ slot ∈ p.slots,
      WellFormed source slot.node ∧ slot.node.start < slot.node.stop → TagsNamed slot.node →
      (∀ selfClosing, slot.role = .opening selfClosing → (slot.node.field? "name").isSome = true) →
      ∃ m, toNode source.toUTF8 slot.role slot.node = .ok m) :
    ∃ m, toNode source.toUTF8 role n = .ok m := by
  obtain ⟨p, planned⟩ := plan_ok h named
  have faithful := plan_faithful h.1 h.2 planned
  have proper := h.1 n .root
  have results : ∀ slot ∈ p.slots, ∃ m, toNode source.toUTF8 slot.role slot.node = .ok m := by
    intro slot member
    have listed := List.mem_map_of_mem (f := Slot.node) member
    have occurs := faithful.within.occurs _ listed
    refine slots p planned slot member
      ⟨h.1.of_occurs occurs, (faithful.within.inside _ listed).2.1⟩
      (fun m inner => tags m (occurs.trans inner)) fun selfClosing opens => ?_
    rcases faithful.opens slot member selfClosing opens with ⟨same, kind⟩ | named
    · rw [same]
      exact tags n .root kind
    · exact named
  obtain ⟨nodes, read⟩ := mapM_ok results
  obtain ⟨t, text⟩ := text_ok h
  obtain ⟨ps, cut⟩ := layout_ok h.1 faithful.within proper.start proper.stop (Nat.le_refl _)
    (Nat.le_refl _)
  have whole : ∃ pieces, (if p.whole then (n.text source.toUTF8).map ([.text ·])
      else layout source.toUTF8 n.start n.stop p.slots) = .ok pieces := by
    rw [text, cut]
    split <;> exact ⟨_, rfl⟩
  obtain ⟨pieces, whole⟩ := whole
  exact ⟨_, toNode_of planned read whole⟩

theorem toNode_ok {role : Role} {n : Concrete} (h : WellFormed source n ∧ n.start < n.stop)
    (tags : TagsNamed n)
    (named : ∀ selfClosing, role = .opening selfClosing → (n.field? "name").isSome = true) :
    ∃ m, toNode source.toUTF8 role n = .ok m :=
  toNode_ok_of_slots h tags named fun _ _planned _ _member own tags' named' =>
    toNode_ok own tags' named'
termination_by (sizeOf n, role.rank)
decreasing_by
  rcases below_of_mem_slots _planned _member with lt | ⟨same, lt⟩
  · exact .left _ _ lt
  · rw [same]
    exact .right _ lt

theorem toProgram_ok {root : Concrete} (wf : WellFormed source root) (tags : TagsNamed root)
    (sound : root.info.faulty = false) : ∃ m, toProgram source root = .ok m := by
  have proper := wf root .root
  have within : Within root root.named := .of_sublist proper.nests root.named_sublist
  have results : ∀ c ∈ root.named, ∃ m, toNode source.toUTF8 .plain c = .ok m := by
    intro c member
    have occurs := within.occurs c member
    exact toNode_ok ⟨wf.of_occurs occurs, (within.inside c member).2.1⟩
      (fun m inner => tags m (occurs.trans inner)) fun selfClosing opens => by cases opens
  obtain ⟨body, read⟩ := mapM_ok results
  have slots : Within root ((slotsFrom .plain 0 root.named).map Slot.node) := by
    rw [map_node_slotsFrom]
    exact within
  obtain ⟨ps, cut⟩ : ∃ ps, layout source.toUTF8 0 source.toUTF8.size
      (slotsFrom .plain 0 root.named) = .ok ps :=
    layout_ok wf slots String.Pos.Raw.isValid_zero String.Pos.Raw.isValid_rawEndPos (Nat.zero_le _)
      proper.stop.le_utf8ByteSize
  exact ⟨_, toProgram_of sound read cut⟩

/-- A module that was read of nested ranges prints as its source text. -/
theorem toProgram_lossless {root : Concrete} {m : Node} (nested : Nested source root)
    (read : toProgram source root = .ok m) : m.print = .ok source := by
  obtain ⟨body, pieces, rfl, results, cut⟩ := toProgram_eq_ok read
  have nests := nested root .root
  have within : Within root root.named := .of_sublist nests root.named_sublist
  refine module_prints nests (results.mono fun c m member _ found => ?_) cut
  exact toNode_restores (nested.of_occurs (within.occurs c member)) (within.inside c member).2.1 found

end

namespace CallSample

def source : String := "é(<A/>, b)"

def part (kind : String) (start stop : Nat) (field : Option String) (children : List Concrete) :
    Concrete :=
  .mk ⟨kind, start, stop, true, field, false, 0, start, false⟩ children

def markup : Concrete :=
  part "jsx_self_closing_element" 3 7 none [part "identifier" 4 5 (some "name") []]

def arguments : Concrete :=
  part "arguments" 2 11 (some "arguments") [markup, part "identifier" 9 10 none []]

def call : Concrete :=
  part "call_expression" 0 11 none [part "identifier" 0 2 (some "function") [], arguments]

def tree : Concrete :=
  part "program" 0 11 none [part "expression_statement" 0 11 none [call]]

def nodes : List Concrete :=
  [tree, part "expression_statement" 0 11 none [call], call, part "identifier" 0 2 (some "function") [],
    arguments, markup, part "identifier" 4 5 (some "name") [], part "identifier" 9 10 none []]

theorem mem_nodes {n : Concrete} (h : Occurs tree n) : n ∈ nodes := by
  have closed : ∀ n ∈ nodes, ∀ c ∈ n.children, c ∈ nodes := by
    simp [nodes, tree, call, arguments, markup, part, children]
  exact h.mem nodes closed (.head _)

theorem wellFormed_tree : tree.WellFormed source := by
  have placed : ∀ n ∈ nodes, ((⟨n.start⟩ : String.Pos.Raw).IsValid source ∧
      (⟨n.stop⟩ : String.Pos.Raw).IsValid source ∧ n.start ≤ n.stop) ∧
      (∀ c ∈ n.children, c.start < c.stop) ∧
      (∀ c ∈ n.children, n.start ≤ c.start ∧ c.stop ≤ n.stop) ∧
      (n.children.Pairwise fun a b => a.stop ≤ b.start) ∧ n.kind ≠ "jsx_element" := by decide
  intro n occurs
  obtain ⟨⟨start, stop, range⟩, nonempty, inside, ordered, other⟩ := placed n (mem_nodes occurs)
  exact ⟨start, stop, range, nonempty, inside, ordered, fun kind => absurd kind other⟩

theorem tagsNamed_tree : tree.TagsNamed := by
  have named : ∀ n ∈ nodes, n.kind = "jsx_self_closing_element" → (n.field? "name").isSome = true := by
    decide
  exact fun n occurs => named n (mem_nodes occurs)

end CallSample

theorem toProgram_lossless_call : CallSample.tree.Nested CallSample.source ∧
    ∃ m, toProgram CallSample.source CallSample.tree = .ok m ∧ m.print = .ok CallSample.source := by
  have nested := CallSample.wellFormed_tree.nested
  obtain ⟨m, read⟩ := toProgram_ok CallSample.wellFormed_tree CallSample.tagsNamed_tree rfl
  exact ⟨nested, m, read, toProgram_lossless nested read⟩

end JsxBoundary.Concrete
