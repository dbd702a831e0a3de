import JsxBoundary.Proofs.InPlace.Import
import JsxBoundary.Proofs.InPlace.Reading
import JsxBoundary.Proofs.InPlace.Waiting

namespace JsxBoundary.InPlace

variable {h : Heap} {root : Ref} {read : Nat} {N : Node} {S : Finset Ref}

namespace Heap

/-- What is found from the root by the children and the layouts of objects. -/
inductive Reaches (h : Heap) (root : Ref) : Ref → Prop
  | root : Reaches h root root
  | step {r c : Ref} {o : Object} (reached : Reaches h root r) (found : h[r]? = some o)
      (listed : c ∈ o.form.children ∨ c ∈ o.marked) : Reaches h root c

/-- Blank text of the source that stood in the content of an element. The element is gone, and the text is
no child any more. -/
structure Dropped (h : Heap) (read : Nat) (root c : Ref) : Prop where
  source : c < read
  blank : ∃ value, h.form? c = some (.text value) ∧ Text.isBlank value = true
  gone : ∃ e opening content closing, h.form? e = some (.element opening content closing) ∧ c ∈ content ∧
    ¬ h.Reaches root e
  absent : ∀ r, h.Reaches root r → c ∉ h.children r

/-- The layouts agree with the children. The first `read` objects have been read from source text. -/
structure Laid (h : Heap) (read : Nat) (root : Ref) : Prop where
  single : ∀ a b, h.Reaches root a → h.Reaches root b → ∀ (i j : Nat) (c : Ref),
    (h.children a)[i]? = some c → (h.children b)[j]? = some c → a = b ∧ i = j
  shown : ∀ r o marks, h.Reaches root r → h[r]? = some o → o.layout = some marks → ∀ c ∈ o.form.children,
    marks.count (.node c) = 1 ∨ marks.count (.node c) = 0 ∧ h.Omits o c
  known : ∀ r o marks, h.Reaches root r → h[r]? = some o → o.layout = some marks → ∀ c, .node c ∈ marks →
    c ∈ o.form.children ∨ read ≤ r ∧ (∃ content, o.form = .fragment content) ∧ h.Dropped read root c

theorem Holds.refs_mem (holds : h.Holds root N S) {r c : Ref} {o : Object} (inside : r ∈ S)
    (found : h[r]? = some o) (listed : c ∈ o.refs) : c ∈ S ∧ c ≠ root := by
  obtain ⟨_, A, below, sub⟩ := holds.part inside
  obtain ⟨o', area, layer, rfl, rfl⟩ := below.layer
  cases found.symm.trans layer.found
  have own := layer.below c listed
  obtain ⟨within, outside⟩ := below.child_subset found listed own
  refine ⟨sub (within own.self_mem), ?_⟩
  rintro rfl
  obtain ⟨rfl, rfl⟩ := own.unique holds
  exact outside inside

theorem Holds.reaches (holds : h.Holds root N S) {r : Ref} (reached : h.Reaches root r) : r ∈ S := by
  induction reached with
  | root => exact holds.self_mem
  | step reached found listed ih => exact (holds.refs_mem ih found (Object.mem_refs.2 listed)).1

theorem Holds.single (holds : h.Holds root N S) {a b c : Ref} {o p : Object} (ha : a ∈ S) (hb : b ∈ S)
    (found : h[a]? = some o) (found' : h[b]? = some p) (listed : c ∈ o.refs) (listed' : c ∈ p.refs) :
    a = b := by
  induction holds with
  | @intro r q tree area here once shown below apart own ih =>
      rw [mem_area] at ha hb
      rcases ha with rfl | ⟨d, member, inside⟩ <;> rcases hb with rfl | ⟨e, member', inside'⟩
      · rfl
      · -- A child of the root is not referred to from below any child.
        cases here.symm.trans found
        obtain ⟨part, other⟩ := (below e member').refs_mem inside' found' listed'
        exact absurd part (Finset.disjoint_left.1 (apart c listed e member' other) (below c listed).self_mem)
      · cases here.symm.trans found'
        obtain ⟨part, other⟩ := (below d member).refs_mem inside found listed
        exact absurd part (Finset.disjoint_left.1 (apart c listed' d member other) (below c listed').self_mem)
      · by_cases same : d = e
        · subst same
          exact ih d member inside inside'
        · obtain ⟨part, _⟩ := (below d member).refs_mem inside found listed
          obtain ⟨part', _⟩ := (below e member').refs_mem inside' found' listed'
          exact absurd part' (Finset.disjoint_left.1 (apart d member e member' same) part)

end Heap

theorem Mark.count_refs (c : Ref) (marks : List Mark) : marks.count (.node c) = (Mark.refs marks).count c := by
  induction marks with
  | nil => rfl
  | cons mark marks ih =>
      cases mark with
      | text value => exact (List.count_cons_of_ne (by simp)).trans ih
      | node r =>
          have rest : Mark.refs (.node r :: marks) = r :: Mark.refs marks := rfl
          rw [rest, List.count_cons, List.count_cons, ih]
          simp

theorem Heap.Tidy.laid (tidy : h.Tidy read) (holds : h.Holds root N S) : h.Laid read root := by
  have present : ∀ {a c : Ref} {i : Nat}, (h.children a)[i]? = some c →
      ∃ o, h[a]? = some o ∧ o.form.children[i]? = some c := by
    intro a c i child
    cases found : h[a]? with
    | none => simp [Heap.children, Heap.form?, found] at child
    | some o => exact ⟨o, rfl, by simpa [Heap.children, Heap.form?, found] using child⟩
  have single : ∀ {a b c : Ref} {o p : Object}, h.Reaches root a → h.Reaches root b → h[a]? = some o →
      h[b]? = some p → c ∈ o.refs → c ∈ p.refs → a = b :=
    fun ha hb => holds.single (holds.reaches ha) (holds.reaches hb)
  refine ⟨fun a b ha hb i j c child child' => ?_, fun r o marks reached found layout c child => ?_,
    fun r o marks reached found layout c shown => ?_⟩
  · obtain ⟨o, found, listed⟩ := present child
    obtain ⟨p, found', listed'⟩ := present child'
    have same := single ha hb found found' (Object.mem_refs.2 (.inl (List.mem_of_getElem? listed)))
      (Object.mem_refs.2 (.inl (List.mem_of_getElem? listed')))
    subst same
    cases found.symm.trans found'
    refine ⟨rfl, ?_⟩
    obtain ⟨bound, _⟩ := List.getElem?_eq_some_iff.1 listed
    exact (List.getElem?_inj bound (tidy.objects a o found).once).1 (listed.trans listed'.symm)
  · have own := tidy.objects r o found
    have marked : o.marked = Mark.refs marks := by rw [Object.marked, layout]; rfl
    rw [Mark.count_refs, ← marked]
    by_cases shown : c ∈ o.marked
    · exact .inl (List.count_eq_one_of_mem own.shown shown)
    · refine .inr ⟨List.count_eq_zero_of_not_mem shown, ?_⟩
      apply (own.complete marks layout c child).resolve_left
      exact fun member => shown ((Object.mem_marked layout).2 member)
  · by_cases child : c ∈ o.form.children
    · exact .inl child
    · right
      have loose : c ∈ o.loose := Object.mem_loose.2 ⟨(Object.mem_marked layout).2 shown, child⟩
      have listed : c ∈ o.refs := Object.mem_refs.2 (.inr ((Object.mem_marked layout).2 shown))
      obtain ⟨made, ⟨inner, form⟩, ⟨value, text, blank⟩, e, opening, content, closing, element, member⟩ :=
        tidy.loose r o found c loose
      refine ⟨made, ⟨inner, form⟩, tidy.texts c value text, ⟨value, text, blank⟩,
        ⟨e, opening, content, closing, element, member, fun below => ?_⟩, fun a above slot => ?_⟩
      · -- The element would have the text in common with the fragment.
        obtain ⟨q, here, kind⟩ := Option.map_eq_some_iff.1 element
        have own : c ∈ q.refs := Object.mem_refs.2 (.inl (by simp [kind, Form.children, member]))
        cases single reached below found here listed own
        cases found.symm.trans here
        rw [form] at kind
        cases kind
      · obtain ⟨i, bound, same⟩ := List.getElem_of_mem slot
        obtain ⟨q, here, listed'⟩ := present (List.getElem?_eq_some_iff.2 ⟨bound, same⟩)
        have slot := List.mem_of_getElem? listed'
        cases single reached above found here listed (Object.mem_refs.2 (.inl slot))
        cases found.symm.trans here
        exact child slot

theorem Heap.Holds.program (holds : h.Holds root N S) {m : Node} (alike : h.Alike 1 root m) {body : List Node}
    (form : m.form = .program body) : ∃ statements, N.form = .program statements := by
  obtain ⟨own, found, pairs⟩ := alike
  obtain ⟨o, area, layer, rfl, rfl⟩ := holds.layer
  cases found.symm.trans (Heap.form?_eq layer.found)
  rw [form] at pairs
  generalize kind : o.form = own at pairs
  cases pairs with
  | program => exact ⟨_, by rw [Object.toNode, Node.form_mk, kind]; rfl⟩

/-- The layouts of a module agree with its children when it has been read, after any number of turns, and
once the import has been put in. -/
theorem layouts_agree (s : Settings) {source : String} {root : Concrete} {m : Node}
    (enclose : Concrete.TagsEnclose root) (read : root.toProgram source = .ok m) :
    ∃ (r : Ref) (h : Heap), root.storeProgram source [] = .ok (r, h) ∧ h.tree r = m ∧ h.Laid h.length r ∧
      ∀ p k, let σ := (Machine.visit s)^[k] (.start h r ⟨p, none⟩)
        σ.heap.Laid h.length r ∧
          (σ.heap.injectImport s.componentName s.importSource r = .ok none ∧
              (σ.heap.tree r).injectImport s.componentName s.importSource = .ok none ∨
            ∃ h', σ.heap.injectImport s.componentName s.importSource r = .ok (some h') ∧
              (σ.heap.tree r).injectImport s.componentName s.importSource = .ok (some (h'.tree r)) ∧
              h'.Laid h.length r) := by
  have stored : Stores [] (root.storeProgram source []) (root.toProgram source) :=
    Concrete.storeProgram_stores enclose
  obtain ⟨body, _, form, _⟩ := (Concrete.toProgram_parsed read).body
  rw [read] at stored
  generalize root.storeProgram source [] = result at stored
  cases stored with
  | @ok r h longer spans tidy =>
      obtain ⟨S, holds, _⟩ := spans
      refine ⟨r, h, rfl, rfl, tidy.laid holds, fun p k => ?_⟩
      obtain ⟨tidy', keeps, U, area, waiting⟩ := Machine.iterate_waiting s holds tidy p k
      generalize (Machine.visit s)^[k] (.start h r ⟨p, none⟩) = σ at tidy' keeps waiting
      obtain ⟨N, holds'⟩ := waiting.whole
      refine ⟨tidy'.laid holds', ?_⟩
      obtain ⟨statements, program⟩ := holds'.program (keeps 1 r _ (holds.alike 1)) form
      rw [holds'.tree_eq]
      rcases Heap.injectImport_tidy s.componentName s.importSource holds' tidy' program with
        ⟨present, present'⟩ | ⟨h', m', T, made, made', holds'', tidy''⟩
      · exact .inl ⟨present, present'⟩
      · exact .inr ⟨h', made, by rw [holds''.tree_eq, made'], tidy''.laid holds''⟩

theorem layouts_agree_memo : Concrete.TagsEnclose Sample.tree ∧
    ∃ m r h, Sample.tree.toProgram Sample.source = .ok m ∧
      Sample.tree.storeProgram Sample.source [] = .ok (r, h) ∧ h.tree r = m ∧ h.Laid h.length r ∧
        ∀ k, ((Machine.visit (.ofOptions {}))^[k] (.start h r ⟨{}, none⟩)).heap.Laid h.length r := by
  have enclose := Sample.wellFormed_tree.tagsEnclose
  obtain ⟨m, read⟩ := Concrete.toProgram_ok Sample.wellFormed_tree Sample.tagsNamed_tree rfl
  obtain ⟨r, h, stored, tree, laid, turns⟩ := layouts_agree (.ofOptions {}) enclose read
  exact ⟨enclose, m, r, h, read, stored, tree, laid, fun k => (turns {} k).1⟩

end JsxBoundary.InPlace
