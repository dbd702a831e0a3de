import JsxBoundary.InPlace.Injection
import JsxBoundary.Proofs.ImportText
import JsxBoundary.Proofs.InPlace.Import
import JsxBoundary.Proofs.InPlace.Standing

namespace JsxBoundary.InPlace

variable {h h' : Heap} {root new : Ref} {body : List Ref} {index : Nat} {marks : List Mark}
  {layout : Option (List Mark)} {m : Node} {name source : String}

namespace Change

variable {α β : Type}

theorem runOn_bind (change : Change α) (next : α → Change β) (h : Heap) :
    (change >>= next).runOn h = match change.runOn h with
      | (.ok a, h') => (next a).runOn h'
      | (.error fault, h') => (.error fault, h') := by
  simp only [runOn, ExceptT.run_bind, StateT.run_bind]
  change (match change.run.run h with | (r, h') => _) = _
  rcases change.run.run h with ⟨r, h'⟩
  cases r <;> rfl

theorem runOn_get_bind (next : Heap → Change β) (h : Heap) :
    ((get : Change Heap) >>= next).runOn h = (next h).runOn h := rfl

theorem runOn_build (make : Build α) (h : Heap) :
    (build make).runOn h = (.ok (make h).1, (make h).2) := rfl

theorem runOn_statements {form : Form Ref} (found : h[root]? = some ⟨form, layout⟩)
    (module : form = .program body) : (statements root).runOn h = (.ok body, h) := by
  rw [statements, runOn_get_bind]
  simp only [Heap.form?, found, module, Option.map_some]
  rfl

theorem runOn_placeOf (marks : List Mark) (statement : Option Ref) (h : Heap) :
    (placeOf marks statement).runOn h =
      ((statement.bind fun r => marks.findIdx? (· == .node r)).elim (.error .lostStatement) .ok, h) := by
  unfold placeOf
  split <;> rename_i found <;> rw [found] <;> rfl

theorem runOn_writeMarks {form : Form Ref} (found : h[root]? = some ⟨form, some marks⟩) (place : Nat)
    (line : List Mark) : (writeMarks root place line).runOn h =
      (.ok (), h.set root ⟨form, some (marks.take place ++ line ++ marks.drop place)⟩) := by
  show (Except.ok (), h.modify root _) = _
  rw [List.modify_eq_set_getElem?, found]
  rfl

theorem runOn_writeStatements {form : Form Ref} (found : h[root]? = some ⟨form, layout⟩) (body : List Ref) :
    (writeStatements root body).runOn h = (.ok (), h.set root ⟨.program body, layout⟩) := by
  show (Except.ok (), h.modify root _) = _
  rw [List.modify_eq_set_getElem?, found]
  rfl

theorem runOn_writeLine {form : Form Ref} (found : h[root]? = some ⟨form, some marks⟩) (body : List Ref)
    (index : Nat) (new : Ref) : (writeLine root body index new).runOn h =
      match Mark.splice marks body index new with
      | some marks' => (.ok (), h.set root ⟨form, some marks'⟩)
      | none => (.error .lostStatement, h) := by
  have put : ∀ (statement : Option Ref) (behind : Nat) (line : List Mark),
      (do let place ← placeOf marks statement; writeMarks root (place + behind) line : Change Unit).runOn h =
        match (statement.bind fun r => marks.findIdx? (· == .node r)).map fun place =>
          marks.take (place + behind) ++ line ++ marks.drop (place + behind) with
        | some marks' => (.ok (), h.set root ⟨form, some marks'⟩)
        | none => (.error .lostStatement, h) := by
    intro statement behind line
    rw [runOn_bind, runOn_placeOf]
    cases statement.bind fun r => marks.findIdx? (· == .node r) with
    | none => rfl
    | some place => exact runOn_writeMarks found _ line
  have layout : h.layout? root = some marks := by simp [Heap.layout?, found]
  unfold writeLine Mark.splice
  rw [runOn_get_bind, layout]
  dsimp only
  split
  · exact put _ 0 _
  · split
    · exact put _ 1 _
    · exact runOn_writeMarks found 0 _

theorem runOn_writeLine_none {form : Form Ref} (found : h[root]? = some ⟨form, none⟩) (body : List Ref)
    (index : Nat) (new : Ref) : (writeLine root body index new).runOn h = (.ok (), h) := by
  have layout : h.layout? root = none := by simp [Heap.layout?, found]
  unfold writeLine
  rw [runOn_get_bind, layout]
  rfl

theorem runOn_inject (found : h[root]? = some ⟨.program body, layout⟩) :
    (inject name source root).runOn h = match h.injectImport name source root with
      | .ok none => (.ok false, h)
      | .ok (some h') => (.ok true, h')
      | .error fault => (.error fault, (Build.namedImport name source h).2) := by
  have grown : (Build.namedImport name source h).2[root]? = some ⟨.program body, layout⟩ := by
    obtain ⟨more, longer⟩ := (Build.namedImport_gains (h := h) name source).longer
    rw [← longer]
    exact (List.getElem?_append_left (List.getElem?_eq_some_iff.1 found).1).trans found
  rw [inject, runOn_bind, runOn_statements found rfl, Heap.injectImport, found]
  dsimp only
  rw [runOn_get_bind]
  split
  · rfl
  · -- The statement is built first, so it also stays in the heap if its line has no place.
    rw [runOn_bind, runOn_build]
    generalize Build.namedImport name source h = made at grown
    obtain ⟨new, h₁⟩ := made
    generalize Import.insertionIndex (body.map h.tree) = index
    have written : ∀ {h₂ : Heap} {layout' : Option (List Mark)},
        h₂[root]? = some ⟨.program body, layout'⟩ →
        (do writeStatements root (body.insertIdx index new); return true : Change Bool).runOn h₂ =
          (.ok true, h₂.set root ⟨.program (body.insertIdx index new), layout'⟩) := by
      intro h₂ layout' here
      rw [runOn_bind, runOn_writeStatements here]
      rfl
    dsimp only at grown ⊢
    rw [runOn_bind]
    cases layout with
    | none =>
        rw [runOn_writeLine_none grown]
        exact written grown
    | some marks =>
        rw [runOn_writeLine grown]
        dsimp only
        cases Mark.splice marks body index new with
        | none => rfl
        | some marks' =>
            have bound := (List.getElem?_eq_some_iff.1 grown).1
            refine (written (List.getElem?_set_self bound)).trans ?_
            rw [List.set_set]

end Change

/-! ## The cut in the layout -/

def anchor? (body : List Ref) (index : Nat) : Option Ref :=
  body[index]?.or body.getLast?

namespace Mark

/-- Where a layout is cut for a new statement, with the marks that go there and their text. A statement
that is shown more than once counts where it is shown first. -/
inductive Cut (body : List Ref) (index : Nat) (new : Ref) (statement : String) :
    List Mark → List Mark → List Mark → String → Prop
  | above {front back : List Mark} {r : Ref} (here : body[index]? = some r) (first : .node r ∉ front) :
      Cut body index new statement front [.node new, .text "\n"] (.node r :: back) (statement ++ "\n")
  | below {front back : List Mark} {r : Ref} (past : body[index]? = none) (last : body.getLast? = some r)
      (first : .node r ∉ front) :
      Cut body index new statement (front ++ [.node r]) [.text "\n", .node new] back ("\n" ++ statement)
  | alone {back : List Mark} (empty : body = []) :
      Cut body index new statement [] [.node new, .text "\n"] back (statement ++ "\n")

theorem findIdx?_node_eq_none {r : Ref} : marks.findIdx? (· == .node r) = none ↔ .node r ∉ marks := by
  rw [List.findIdx?_eq_none_iff]
  constructor
  · intro none member
    simpa using none _ member
  · intro absent mark member
    rw [beq_eq_false_iff_ne]
    rintro rfl
    exact absent member

theorem findIdx?_node_eq_some {r : Ref} {place : Nat} (found : marks.findIdx? (· == .node r) = some place) :
    ∃ front back, marks = front ++ .node r :: back ∧ place = front.length ∧ .node r ∉ front := by
  obtain ⟨bound, here, before⟩ := List.findIdx?_eq_some_iff_getElem.1 found
  refine ⟨marks.take place, marks.drop (place + 1), ?_, (List.length_take_of_le bound.le).symm, fun member => ?_⟩
  · rw [← eq_of_beq here, List.getElem_cons_drop, List.take_append_drop]
  · obtain ⟨i, inside, same⟩ := List.getElem_of_mem member
    rw [List.length_take] at inside
    rw [List.getElem_take] at same
    exact before i (by omega) (by simp [same])

theorem splice_eq_none (inside : index ≤ body.length) : splice marks body index new = none ↔
    ∃ r, anchor? body index = some r ∧ .node r ∉ marks := by
  unfold splice anchor?
  dsimp only
  by_cases before : index < body.length
  · rw [if_pos before, List.getElem?_eq_getElem before, Option.bind_some, Option.map_eq_none_iff,
      findIdx?_node_eq_none]
    simp
  · have past : body[index]? = none := List.getElem?_eq_none (by omega)
    rw [if_neg before, past, Option.none_or]
    split
    · rw [List.getElem?_eq_getElem (by omega), Option.bind_some, Option.map_eq_none_iff,
        findIdx?_node_eq_none, List.getLast?_eq_getElem?, List.getElem?_eq_getElem (by omega)]
      have last : body.length - 1 = index - 1 := by omega
      simp [last]
    · have empty : body = [] := List.length_eq_zero_iff.1 (by omega)
      simp [empty]

theorem splice_eq_some {marks' : List Mark} (statement : String) (inside : index ≤ body.length)
    (spliced : splice marks body index new = some marks') :
    ∃ front line back text, Cut body index new statement front line back text ∧
      marks = front ++ back ∧ marks' = front ++ line ++ back := by
  unfold splice at spliced
  dsimp only at spliced
  split at spliced
  · rename_i before
    rw [List.getElem?_eq_getElem before, Option.bind_some, Option.map_eq_some_iff] at spliced
    obtain ⟨place, found, rfl⟩ := spliced
    obtain ⟨front, back, rfl, rfl, first⟩ := findIdx?_node_eq_some found
    exact ⟨_, _, _, _, .above (List.getElem?_eq_getElem before) first, rfl, by simp⟩
  · split at spliced
    · rw [List.getElem?_eq_getElem (by omega), Option.bind_some, Option.map_eq_some_iff] at spliced
      obtain ⟨place, found, rfl⟩ := spliced
      obtain ⟨front, back, rfl, rfl, first⟩ := findIdx?_node_eq_some found
      have last : body.getLast? = some body[index - 1] := by
        rw [List.getLast?_eq_getElem?, ← List.getElem?_eq_getElem]
        congr 1
        omega
      refine ⟨_, _, back, _, .below (List.getElem?_eq_none (by omega)) last first, List.append_cons .., ?_⟩
      have whole : front ++ node body[index - 1] :: back = front ++ [node body[index - 1]] ++ back :=
        List.append_cons ..
      have behind : (front ++ [node body[index - 1]]).length = front.length + 1 := by simp
      rw [whole, List.take_left' behind, List.drop_left' behind]
    · cases spliced
      exact ⟨_, _, marks, _, .alone (List.length_eq_zero_iff.1 (by omega)), rfl, rfl⟩

end Mark

/-! ## The objects afterwards -/

namespace Heap

variable {o p : Object} {h₁ : Heap} {n : Node}

theorem Stands.renew (stands : h.Stands root m) (found : h[root]? = some o) (gains : h.Gains h₁ ∅ new n)
    (listed : ∀ c ∈ p.refs, c = new ∨ c ∈ o.refs) :
    Stands (h₁.set root p) new n ∧ (∀ c ∈ o.refs, Stands (h₁.set root p) c (h.tree c)) ∧
      Stands (h₁.set root p) root (p.toNode (Function.update h.tree new n)) := by
  obtain ⟨_, here, rfl, below⟩ := stands.object
  cases found.symm.trans here
  obtain ⟨T, made, within⟩ := gains.holds
  obtain ⟨more, rfl⟩ := gains.longer
  have bound : (root : Nat) < h.length := stands.lt_length
  have first : Stands ((h ++ more).set root p) new n := by
    refine (made.frame fun x member => List.getElem?_set_ne ?_).stands
    rintro rfl
    exact Nat.not_le.2 bound ((within root member).resolve_left (Finset.notMem_empty root))
  have others : ∀ c ∈ o.refs, Stands ((h ++ more).set root p) c (h.tree c) := by
    intro c member
    refine (below c member).frame fun x k inner small => ?_
    have ne : root ≠ x := by
      rintro rfl
      rw [stands.unique inner] at small
      exact Nat.not_le.2 (Object.sizeOf_lt_toNode h.tree member) small
    rw [List.getElem?_set_ne ne, List.getElem?_append_left inner.lt_length]
  refine ⟨first, others, .intro (List.getElem?_set_self ?_) fun c member => ?_⟩
  · exact Nat.lt_of_lt_of_le bound (List.prefix_append h more).length_le
  · by_cases same : c = new
    · subst same
      rwa [Function.update_self]
    · rw [Function.update_of_ne same]
      exact others c ((listed c member).resolve_left same)

/-- The second heap has the import in the module at the reference, as statement `new` and on a line of its
own. No other object has changed, and a second run finds the import. -/
structure Injected (h h' : Heap) (root : Ref) (body : List Ref) (layout : Option (List Mark))
    (name source : String) (new : Ref) : Prop where
  fresh : h.length ≤ new
  statement : h'.tree new = Node.namedImport name source
  statements : h'.form? root =
    some (.program (body.insertIdx (Import.insertionIndex (body.map h.tree)) new))
  others : ∀ r < h.length, r ≠ root → h'[r]? = h[r]?
  trees : ∀ c ∈ body, h'.tree c = h.tree c
  present : (h'.tree root).importsName name source = true
  again : (Change.inject name source root).runOn h' = (.ok false, h')
  unlaid : layout = none → h'.layout? root = none
  line : ∀ marks, layout = some marks → ∃ front line back text,
    Mark.Cut body (Import.insertionIndex (body.map h.tree)) new (Import.statement name source)
      front line back text ∧
    marks = front ++ back ∧ h'.layout? root = some (front ++ line ++ back) ∧
    (h.tree root).print = (· ++ ·) <$> Mark.print h.tree front <*> Mark.print h.tree back ∧
    (h'.tree root).print = (· ++ text ++ ·) <$> Mark.print h.tree front <*> Mark.print h.tree back

end Heap

theorem Node.importsNameFrom_namedImport (name source : String) :
    (Node.namedImport name source).importsNameFrom name source = true := by
  simp [Node.namedImport, Node.importsNameFrom]

theorem Mark.Cut.print_line {front line back : List Mark} {statement text : String} {t : Ref → Node}
    (cut : Cut body index new statement front line back text) (printed : (t new).print = .ok statement) :
    print t line = .ok text := by
  have above : print t [.node new, .text "\n"] = .ok (statement ++ "\n") := by
    simp only [print, List.map_cons, List.map_nil, part, List.mapM_cons, List.mapM_nil, Part.print, printed]
    exact congrArg Except.ok (by simp)
  have below : print t [.text "\n", .node new] = .ok ("\n" ++ statement) := by
    simp only [print, List.map_cons, List.map_nil, part, List.mapM_cons, List.mapM_nil, Part.print, printed]
    exact congrArg Except.ok (by simp)
  cases cut with
  | above => exact above
  | below => exact below
  | alone => exact above

theorem Mark.Cut.print_splice {front line back : List Mark} {statement text : String} {t t' : Ref → Node}
    (cut : Cut body index new statement front line back text) (printed : (t' new).print = .ok statement)
    (kept : ∀ c, .node c ∈ front ++ back → t' c = t c) :
    print t' (front ++ line ++ back) = (· ++ text ++ ·) <$> print t front <*> print t back := by
  rw [print_append, print_append, cut.print_line printed,
    print_congr fun c member => kept c (List.mem_append_left _ member),
    print_congr fun c member => kept c (List.mem_append_right _ member)]
  cases print t front <;> cases print t back <;> rfl

theorem Mark.Cut.mem_line {front line back : List Mark} {statement text : String} {c : Ref}
    (cut : Cut body index new statement front line back text) (member : .node c ∈ line) : c = new := by
  cases cut <;> simpa using member

namespace Heap

theorem injectImport_present (found : h[root]? = some ⟨.program body, layout⟩)
    (present : (body.map h.tree).any (Node.importsNameFrom name source) = true) :
    h.injectImport name source root = .ok none := by
  rw [injectImport, found]
  exact if_pos present

theorem refs_of_splice {layout' : Option (List Mark)} (inside : index ≤ body.length)
    (unlaid : layout = none → layout' = none)
    (spliced : ∀ marks, layout = some marks → ∃ marks', layout' = some marks' ∧
      Mark.splice marks body index new = some marks') :
    ∀ c ∈ Object.refs ⟨.program (body.insertIdx index new), layout'⟩,
      c = new ∨ c ∈ Object.refs ⟨.program body, layout⟩ := by
  intro c member
  rw [Object.mem_refs]
  rcases Object.mem_refs.1 member with child | mark
  · exact ((List.mem_insertIdx inside).1 child).imp_right .inl
  · cases layout with
    | none =>
        cases unlaid rfl
        cases mark
    | some marks =>
        obtain ⟨marks', rfl, put⟩ := spliced marks rfl
        obtain ⟨front, line, back, text, cut, rfl, rfl⟩ := Mark.splice_eq_some "" inside put
        rw [Object.mem_marked rfl, List.append_assoc, List.mem_append, List.mem_append] at mark
        rw [Object.mem_marked rfl, List.mem_append]
        rcases mark with left | middle | right
        · exact .inr (.inr (.inl left))
        · exact .inl (cut.mem_line middle)
        · exact .inr (.inr (.inr right))

theorem injected_of_splice {h₁ : Heap} {layout' : Option (List Mark)}
    (found : h[root]? = some ⟨.program body, layout⟩) (stands : h.Stands root m)
    (gains : h.Gains h₁ ∅ new (Node.namedImport name source)) (unlaid : layout = none → layout' = none)
    (spliced : ∀ marks, layout = some marks → ∃ marks', layout' = some marks' ∧
      Mark.splice marks body (Import.insertionIndex (body.map h.tree)) new = some marks') :
    h.Injected (h₁.set root ⟨.program (body.insertIdx (Import.insertionIndex (body.map h.tree)) new), layout'⟩)
      root body layout name source new := by
  have inside : Import.insertionIndex (body.map h.tree) ≤ body.length := by
    simpa using Import.insertionIndex_le (body.map h.tree)
  have cuts : ∀ marks, layout = some marks → ∃ front line back text,
      Mark.Cut body (Import.insertionIndex (body.map h.tree)) new (Import.statement name source)
        front line back text ∧ marks = front ++ back ∧ layout' = some (front ++ line ++ back) := by
    intro marks same
    obtain ⟨marks', same', cut⟩ := spliced marks same
    obtain ⟨front, line, back, text, cut, rfl, rfl⟩ := Mark.splice_eq_some _ inside cut
    exact ⟨front, line, back, text, cut, rfl, same'⟩
  have listed := refs_of_splice inside unlaid spliced
  -- From here on only the references of the new object count, not how it is made.
  generalize made : (⟨.program (body.insertIdx (Import.insertionIndex (body.map h.tree)) new), layout'⟩ :
    Object) = p at listed
  have children : ∀ c, c ∈ p.form.children ↔ c = new ∨ c ∈ body := by
    subst made
    exact fun c => List.mem_insertIdx inside
  obtain ⟨first, others, whole⟩ := stands.renew found gains listed
  have bound : (root : Nat) < h₁.length := Nat.lt_of_lt_of_le stands.lt_length gains.longer.length_le
  have here : (h₁.set root p)[root]? = some p := List.getElem?_set_self bound
  have shows : ∀ c, c = new ∨ c ∈ Object.refs ⟨.program body, layout⟩ →
      tree (h₁.set root p) c = Function.update h.tree new (Node.namedImport name source) c := by
    intro c either
    by_cases same : c = new
    · rw [same, Function.update_self]
      exact first.tree_eq
    · rw [Function.update_of_ne same]
      exact (others c (either.resolve_left same)).tree_eq
  have old : ∀ c ∈ Object.refs ⟨.program body, layout⟩, tree (h₁.set root p) c = h.tree c :=
    fun c member => (others c member).tree_eq
  have present : (p.form.children.map (tree (h₁.set root p))).any (Node.importsNameFrom name source) = true := by
    rw [List.any_eq_true]
    refine ⟨_, List.mem_map_of_mem ((children new).2 (.inl rfl)), ?_⟩
    rw [first.tree_eq]
    exact Node.importsNameFrom_namedImport name source
  have whole_eq : tree (h₁.set root p) root = p.toNode (tree (h₁.set root p)) := by
    rw [whole.tree_eq]
    exact Object.toNode_congr fun c member => (shows c (listed c member)).symm
  refine ⟨gains.fresh, first.tree_eq, ?_, fun r inside ne => ?_, fun c member => ?_, ?_, ?_, fun none => ?_,
    fun marks same => ?_⟩
  · rw [form?, here, ← made]
    rfl
  · obtain ⟨more, rfl⟩ := gains.longer
    rw [List.getElem?_set_ne (Ne.symm ne), List.getElem?_append_left inside]
  · exact old c (Object.mem_refs.2 (.inl member))
  · rw [whole_eq]
    subst made
    exact present
  · subst made
    rw [Change.runOn_inject here, injectImport_present here present]
  · rw [layout?, here, ← made]
    exact unlaid none
  · obtain ⟨front, line, back, text, cut, rfl, same'⟩ := cuts marks same
    subst same same'
    have shown : ∀ c, .node c ∈ front ++ back → tree (h₁.set root p) c = h.tree c := fun c member =>
      old c (Object.mem_refs.2 (.inr ((Object.mem_marked rfl).2 member)))
    have before : (h.tree root).print = Mark.print h.tree (front ++ back) := by
      obtain ⟨o, there, eq, _⟩ := stands.object
      cases found.symm.trans there
      rw [stands.tree_eq, eq, Object.print_toNode]
    have after : (tree (h₁.set root p) root).print =
        Mark.print (tree (h₁.set root p)) (front ++ line ++ back) := by
      rw [whole_eq, ← made, Object.print_toNode]
    have printed : (tree (h₁.set root p) new).print = .ok (Import.statement name source) := by
      rw [first.tree_eq]
      exact Node.print_namedImport name source
    refine ⟨front, line, back, text, cut, rfl, by rw [layout?, here, ← made]; rfl, ?_, ?_⟩
    · rw [before, Mark.print_append]
    · rw [after, cut.print_splice printed shown]

theorem Stands.injectImport_eq (stands : h.Stands root m)
    (found : h[root]? = some ⟨.program body, layout⟩) (once : body.Nodup) :
    m.injectImport name source = match h.injectImport name source root with
      | .ok none => .ok none
      | .ok (some h') => .ok (some (h'.tree root))
      | .error fault => .error fault := by
  obtain ⟨o, there, rfl, below⟩ := stands.object
  cases found.symm.trans there
  have inside : Import.insertionIndex (body.map h.tree) ≤ body.length := by
    simpa using Import.insertionIndex_le (body.map h.tree)
  have module : Node.body? (Object.toNode h.tree ⟨.program body, layout⟩) = some (body.map h.tree) := rfl
  have asked : Node.importsName name source (Object.toNode h.tree ⟨.program body, layout⟩) =
      (body.map h.tree).any (Node.importsNameFrom name source) := rfl
  unfold Node.injectImport injectImport
  rw [module, asked, found]
  dsimp only
  by_cases present : (body.map h.tree).any (Node.importsNameFrom name source) = true
  · rw [if_pos present, if_pos present]
  · rw [if_neg present, if_neg present]
    have gains := Build.namedImport_gains (h := h) name source
    generalize Build.namedImport name source h = made at gains
    obtain ⟨new, h₁⟩ := made
    dsimp only at gains ⊢
    generalize Import.insertionIndex (body.map h.tree) = index at inside
    have old : ∀ c ∈ Object.refs ⟨.program body, layout⟩, c ≠ new := by
      rintro c member rfl
      exact Nat.not_le.2 (below c member).lt_length gains.fresh
    have own : ∀ c ∈ body, c ≠ new := fun c member => old c (Object.mem_refs.2 (.inl member))
    have node := Object.toNode_insertIdx (t := h.tree) (m := Node.namedImport name source) index own
    cases layout with
    | none =>
        have whole := (stands.renew (p := ⟨.program (body.insertIdx index new), none⟩) found gains
          (refs_of_splice inside (fun _ => rfl) nofun)).2.2
        dsimp only
        rw [whole.tree_eq, node]
        rfl
    | some marks =>
        have unseen : .node new ∉ marks := fun member =>
          old new (Object.mem_refs.2 (.inr ((Object.mem_marked rfl).2 member))) rfl
        have pieces := Mark.splice_toPiece (t := h.tree) once (fun member => own new member rfl) inside unseen
          fun c other => Function.update_of_ne other (Node.namedImport name source) h.tree
        have written : Node.layout (Object.toNode h.tree ⟨.program body, some marks⟩) =
            some (marks.map (Mark.toPiece body h.tree)) := rfl
        rw [written, List.length_map]
        dsimp only
        rw [pieces]
        cases spliced : Mark.splice marks body index new with
        | none => rfl
        | some marks' =>
            have whole := (stands.renew (p := ⟨.program (body.insertIdx index new), some marks'⟩) found gains
              (refs_of_splice inside nofun fun _ same => ⟨marks', rfl, by cases same; exact spliced⟩)).2.2
            dsimp only
            rw [whole.tree_eq, node]
            rfl

end Heap

/-- The layout lacks the statement beside which the line of a new statement would go. -/
def Mark.Lost (layout : Option (List Mark)) (body : List Ref) (index : Nat) : Prop :=
  ∃ marks r, layout = some marks ∧ anchor? body index = some r ∧ .node r ∉ marks

/-- What `inject` answers, and the tree of the module afterwards. -/
def Change.outcome (root : Ref) : Except Fault Bool × Heap → Except Fault (Option Node)
  | (.ok false, _) => .ok none
  | (.ok true, h) => .ok (some (h.tree root))
  | (.error fault, _) => .error fault

theorem inject_ends (name source : String) (found : h[root]? = some ⟨.program body, layout⟩)
    (stands : h.Stands root m) :
    let result := (Change.inject name source root).runOn h
    let index := Import.insertionIndex (body.map h.tree)
    m.importsName name source = true ∧ result = (.ok false, h) ∨
      m.importsName name source = false ∧ Mark.Lost layout body index ∧
        result.1 = .error .lostStatement ∧ h <+: result.2 ∨
      m.importsName name source = false ∧ ¬ Mark.Lost layout body index ∧
        result.1 = .ok true ∧ ∃ new, h.Injected result.2 root body layout name source new := by
  intro result index
  have asked : m.importsName name source = (body.map h.tree).any (Node.importsNameFrom name source) := by
    obtain ⟨o, there, rfl, _⟩ := stands.object
    cases found.symm.trans there
    rfl
  have ends : result = _ := Change.runOn_inject found
  rw [asked]
  by_cases present : (body.map h.tree).any (Node.importsNameFrom name source) = true
  · rw [Heap.injectImport_present found present] at ends
    exact .inl ⟨present, ends⟩
  · have absent := Bool.eq_false_iff.2 present
    right
    unfold Heap.injectImport at ends
    rw [found] at ends
    dsimp only at ends
    rw [if_neg present] at ends
    have gains := Build.namedImport_gains (h := h) name source
    generalize Build.namedImport name source h = made at gains ends
    obtain ⟨new, h₁⟩ := made
    dsimp only at gains ends
    have inside : index ≤ body.length := by
      simpa using Import.insertionIndex_le (body.map h.tree)
    cases layout with
    | none =>
        refine .inr ⟨absent, nofun, ?_⟩
        rw [ends]
        exact ⟨rfl, new, Heap.injected_of_splice found stands gains (fun _ => rfl) nofun⟩
    | some marks =>
        dsimp only at ends
        cases spliced : Mark.splice marks body index new with
        | none =>
            obtain ⟨r, anchor, lost⟩ := (Mark.splice_eq_none inside).1 spliced
            rw [spliced] at ends
            rw [ends]
            exact .inl ⟨absent, ⟨marks, r, rfl, anchor, lost⟩, rfl, gains.longer⟩
        | some marks' =>
            have kept : ¬ Mark.Lost (some marks) body index := by
              rintro ⟨_, r, same, anchor, lost⟩
              cases same
              rw [(Mark.splice_eq_none inside).2 ⟨r, anchor, lost⟩] at spliced
              cases spliced
            rw [spliced] at ends
            rw [ends]
            refine .inr ⟨absent, kept, rfl, new, Heap.injected_of_splice found stands gains nofun ?_⟩
            intro _ same
            cases same
            exact ⟨marks', rfl, spliced⟩

/-- The import goes into a module exactly if it is missing, at one place of the statements and of the
layout, or no object changes. -/
theorem inject_splices (name source : String) (found : h[root]? = some ⟨.program body, layout⟩)
    (stands : h.Stands root m) :
    let result := (Change.inject name source root).runOn h
    let index := Import.insertionIndex (body.map h.tree)
    (result.1 = .ok false ↔ m.importsName name source = true) ∧
      (result.1 = .ok false → result.2 = h) ∧
      (result.1 = .error .lostStatement ↔ m.importsName name source = false ∧ Mark.Lost layout body index) ∧
      (result.1 = .error .lostStatement → h <+: result.2) ∧
      (m.importsName name source = false → ¬ Mark.Lost layout body index →
        result.1 = .ok true ∧ ∃ new, h.Injected result.2 root body layout name source new) ∧
      (body.Nodup → m.injectImport name source = Change.outcome root result) := by
  intro result index
  have tree : body.Nodup → m.injectImport name source = Change.outcome root result := by
    intro once
    have ends : result = _ := Change.runOn_inject found
    rw [stands.injectImport_eq found once, ends]
    rcases h.injectImport name source root with _ | _ | _ <;> rfl
  rcases inject_ends name source found stands with
    ⟨present, ends⟩ | ⟨absent, lost, ends, longer⟩ | ⟨absent, kept, ends, injected⟩
  · change result = _ at ends
    exact ⟨by simp [ends, present], by simp [ends], by simp [ends, present], by simp [ends], by simp [present],
      tree⟩
  · change result.1 = _ at ends
    exact ⟨by simp [ends, absent], by simp [ends], by simp [ends, absent, lost, index], fun _ => longer,
      fun _ kept => absurd lost kept, tree⟩
  · change result.1 = _ at ends
    exact ⟨by simp [ends, absent], by simp [ends], by simp [ends, kept, index], by simp [ends],
      fun _ _ => ⟨ends, injected⟩, tree⟩

/-! ## A module -/

def Sample.script : Heap :=
  [⟨.generic "string" [], some [.text "\"use client\""]⟩,
    ⟨.generic "expression_statement" [0], some [.node 0, .text ";"]⟩,
    ⟨.identifier "x", some [.text "x"]⟩,
    ⟨.generic "expression_statement" [2], some [.node 2, .text ";"]⟩,
    ⟨.program [1, 3], some [.node 1, .text "\n", .node 3, .text "\n"]⟩]

theorem inject_splices_script :
    let result := (Change.inject "Memo" "state" 4).runOn Sample.script
    let layout := [.node 1, .text "\n", .node 3, .text "\n"]
    Sample.script.Stands 4 (Sample.script.tree 4) ∧
      Import.insertionIndex ([1, 3].map Sample.script.tree) = 1 ∧ result.1 = .ok true ∧
      ∃ new, Sample.script.Injected result.2 4 [1, 3] (some layout) "Memo" "state" new := by
  intro result layout
  have stands := Heap.stands_of_ordered (h := Sample.script) (by decide) 4 (by decide)
  have absent : (Sample.script.tree 4).importsName "Memo" "state" = false := by cbv
  have index : Import.insertionIndex ([1, 3].map Sample.script.tree) = 1 := by cbv
  have found : Sample.script[4]? = some ⟨.program [1, 3], some layout⟩ := rfl
  have spliced := inject_splices "Memo" "state" found stands
  have kept : ¬ Mark.Lost (some layout) [1, 3] (Import.insertionIndex ([1, 3].map Sample.script.tree)) := by
    rw [index]
    rintro ⟨marks, r, same, anchor, lost⟩
    cases same
    cases anchor
    simp [layout] at lost
  exact ⟨stands, index, spliced.2.2.2.2.1 absent kept⟩

end JsxBoundary.InPlace
