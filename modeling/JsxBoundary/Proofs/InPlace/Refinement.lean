import JsxBoundary.Proofs.Completion
import JsxBoundary.Proofs.InPlace.Loading
import JsxBoundary.Proofs.InPlace.Traversal

/-!
# The loop refines the recursion

The traversal in place comes to an end on every tree without shared nodes. The tree, the reports and the
fault are then those of the rewrite of the tree (`traversal_refines_rewrite`), and no fault occurs on the
way if the rewrite has none (`faultless`).
-/

namespace JsxBoundary.InPlace

variable {s : Settings} {h : Heap} {r : Ref} {m : Node} {S : Finset Ref}

namespace Machine

/-- No turn changes anything any more. -/
def Halted (σ : Machine) : Prop :=
  σ.stack = [] ∨ σ.walk.fault.isSome

theorem visit_halted {σ : Machine} (halted : σ.Halted) : visit s σ = σ := by
  obtain ⟨h, stack, p, fault⟩ := σ
  cases fault with
  | some fault => rfl
  | none =>
      rcases halted with rfl | stopped
      · rfl
      · cases stopped

theorem iterate_after {σ : Machine} {j k : Nat} (halted : ((visit s)^[j] σ).Halted) (le : j ≤ k) :
    (visit s)^[k] σ = (visit s)^[j] σ := by
  rw [← Nat.sub_add_cancel le, Function.iterate_add_apply]
  exact Function.iterate_fixed (visit_halted halted) _

end Machine

open Machine

theorem start_halts (s : Settings) (holds : h.Holds r m S) (p : Progress) :
    ∃ k T, ((visit s)^[k] (start h r ⟨p, none⟩)).Halted ∧
      ((visit s)^[k] (start h r ⟨p, none⟩)).walk = (m.rewriteRoot s ⟨p, none⟩).2 ∧
      Heap.Holds ((visit s)^[k] (start h r ⟨p, none⟩)).heap r (m.rewriteRoot s ⟨p, none⟩).1 T := by
  obtain ⟨h', T, ⟨left, ⟨k, leads⟩, ended⟩, holds'⟩ := start_simulates s holds p
  have result : (visit s)^[k] (start h r ⟨p, none⟩) = ⟨h', left, (m.rewriteRoot s ⟨p, none⟩).2⟩ := leads
  refine ⟨k, T, ?_⟩
  rw [result]
  refine ⟨?_, rfl, holds'⟩
  cases stopped : (m.rewriteRoot s ⟨p, none⟩).2.fault with
  | none => exact .inl (ended stopped)
  | some fault => exact .inr (by rw [stopped]; rfl)

theorem faultless (holds : h.Holds r m S) {p : Progress}
    (sound : (m.rewriteRoot s ⟨p, none⟩).2.fault = none) (j : Nat) :
    ((visit s)^[j] (start h r ⟨p, none⟩)).walk.fault = none := by
  obtain ⟨k, T, halted, walk, _⟩ := start_halts s holds p
  rw [← walk] at sound
  rcases Nat.le_total j k with before | after
  · cases stopped : ((visit s)^[j] (start h r ⟨p, none⟩)).walk.fault with
    | none => rfl
    | some fault =>
        rw [iterate_after (.inr (by rw [stopped]; rfl)) before, stopped] at sound
        cases sound
  · rw [iterate_after halted after, sound]

theorem rewriteRoot_of_program {body : List Node} (root : m.form = .program body) (w : Walk) :
    m.rewriteRoot s w = m.rewrite s [] w := by
  have decided : (m.decide s []).runFrom w.progress = (.ok (.keep m), w.progress) := by
    unfold Node.decide
    split
    · rename_i own
      cases root.symm.trans own
    · rename_i own
      cases root.symm.trans own
    · rfl
  simp [Node.rewriteRoot, decided, Decision.keep]

/-- The loop ends with the tree, the reports and the fault of the recursion. Over a printable tree the
stack runs empty. -/
theorem traversal_refines_rewrite (s : Settings) {body : List Node} (holds : h.Holds r m S)
    (root : m.form = .program body) (p : Progress) :
    ∃ k, ((visit s)^[k] (start h r ⟨p, none⟩)).Halted ∧
      ((visit s)^[k] (start h r ⟨p, none⟩)).heap.tree r = (m.rewrite s [] ⟨p, none⟩).1 ∧
      ((visit s)^[k] (start h r ⟨p, none⟩)).walk = (m.rewrite s [] ⟨p, none⟩).2 ∧
      (m.Printable → ((visit s)^[k] (start h r ⟨p, none⟩)).stack = [] ∧
        ((visit s)^[k] (start h r ⟨p, none⟩)).walk.fault = none) := by
  obtain ⟨k, T, halted, walk, stands⟩ := start_halts s holds p
  rw [rewriteRoot_of_program root] at walk stands
  refine ⟨k, halted, stands.tree_eq, walk, fun printable => ?_⟩
  have sound := printable.finishes (s := s) [] ⟨p, none⟩ rfl
  rw [← walk] at sound
  refine ⟨halted.resolve_right fun stopped => ?_, sound⟩
  rw [sound] at stopped
  cases stopped

def Sample.page : Heap :=
  [⟨.program [1], some [.node 1]⟩,
    ⟨.element (some 2) [4] (some 9), some [.node 2, .node 4, .node 9]⟩,
    ⟨.openingTag 3 [] false, some [.text "<", .node 3, .text ">"]⟩,
    ⟨.identifier "p", some [.text "p"]⟩,
    ⟨.container 5, some [.text "\x7b", .node 5, .text "\x7d"]⟩,
    ⟨.call 6 [] false, some [.node 6, .text "()"]⟩,
    ⟨.member 7 8 false false, some [.node 7, .text ".", .node 8]⟩,
    ⟨.identifier "x$", some [.text "x$"]⟩,
    ⟨.identifier "get", some [.text "get"]⟩,
    ⟨.closingTag 10, some [.text "</", .node 10, .text ">"]⟩,
    ⟨.identifier "p", some [.text "p"]⟩]

theorem Sample.page_spans : page.Spans 0 0 11 := by
  have name : page.Spans 10 10 11 := Heap.Rows.spans rfl (.nil 11) .nil
  have closing : page.Spans 9 9 11 := Heap.Rows.spans rfl (.cons name (.nil 11)) (by decide)
  have method : page.Spans 8 8 9 := Heap.Rows.spans rfl (.nil 9) .nil
  have signal : page.Spans 7 7 8 := Heap.Rows.spans rfl (.nil 8) .nil
  have callee : page.Spans 6 6 9 := Heap.Rows.spans rfl (.cons signal (.cons method (.nil 9))) (by decide)
  have read : page.Spans 5 5 9 := Heap.Rows.spans rfl (.cons callee (.nil 9)) (by decide)
  have content : page.Spans 4 4 9 := Heap.Rows.spans rfl (.cons read (.nil 9)) (by decide)
  have name : page.Spans 3 3 4 := Heap.Rows.spans rfl (.nil 4) .nil
  have opening : page.Spans 2 2 4 := Heap.Rows.spans rfl (.cons name (.nil 4)) (by decide)
  have element : page.Spans 1 1 11 :=
    Heap.Rows.spans rfl (.cons opening (.cons content (.cons closing (.nil 11)))) (by decide)
  exact Heap.Rows.spans rfl (.cons element (.nil 11)) (by decide)

theorem Object.printable {o : Object} {tree : Ref → Node} {marks : List Mark} (layout : o.layout = some marks)
    (closed : o.loose = []) (plain : (o.toNode tree).isImport = false)
    (tagged : (o.toNode tree).isElement = true → (o.toNode tree).openingTag?.isSome = true)
    (below : ∀ c ∈ o.form.children, (tree c).Printable) : (o.toNode tree).Printable := by
  obtain ⟨form, _⟩ := o
  cases layout
  refine .of_pieces (fun m shown => ?_) plain tagged fun c member => ?_
  · obtain ⟨mark, member, piece⟩ := List.mem_map.1 shown
    cases mark with
    | text value => cases piece
    | node r =>
        by_cases child : r ∈ form.children
        · simp [Mark.toPiece, child] at piece
        · have loose : r ∈ Object.loose ⟨form, some marks⟩ := mem_loose.2 ⟨(mem_marked rfl).2 member, child⟩
          rw [closed] at loose
          cases loose
  · rw [Form.children_map] at member
    obtain ⟨r, child, rfl⟩ := List.mem_map.1 member
    exact below r child

theorem Sample.page_printable : (page.tree 0).Printable := by
  have one {d : Nat} {c : Ref} (printable : (page.treeWithin d c).Printable) :
      ∀ x ∈ [c], (page.treeWithin d x).Printable := fun x member => List.mem_singleton.1 member ▸ printable
  have name : (page.treeWithin 8 3).Printable := Object.printable rfl rfl rfl nofun nofun
  have opening : (page.treeWithin 9 2).Printable := Object.printable rfl rfl rfl nofun (one name)
  have signal : (page.treeWithin 6 7).Printable := Object.printable rfl rfl rfl nofun nofun
  have method : (page.treeWithin 6 8).Printable := Object.printable rfl rfl rfl nofun nofun
  have callee : (page.treeWithin 7 6).Printable :=
    Object.printable rfl rfl rfl nofun (List.forall_mem_cons.2 ⟨signal, one method⟩)
  have read : (page.treeWithin 8 5).Printable := Object.printable rfl rfl rfl nofun (one callee)
  have content : (page.treeWithin 9 4).Printable := Object.printable rfl rfl rfl nofun (one read)
  have name : (page.treeWithin 8 10).Printable := Object.printable rfl rfl rfl nofun nofun
  have closing : (page.treeWithin 9 9).Printable := Object.printable rfl rfl rfl nofun (one name)
  have element : (page.treeWithin 10 1).Printable := Object.printable rfl rfl rfl (fun _ => rfl)
    (List.forall_mem_cons.2 ⟨opening, List.forall_mem_cons.2 ⟨content, one closing⟩⟩)
  exact Object.printable rfl rfl rfl nofun (one element)

theorem page_traversed :
    (Sample.page.tree 0).form = .program [Sample.page.tree 1] ∧ (Sample.page.tree 0).Printable ∧
      (∃ S, Heap.Holds Sample.page 0 (Sample.page.tree 0) S) ∧
      ∃ k, ((visit (.ofOptions {}))^[k] (start Sample.page 0 ⟨{}, none⟩)).stack = [] ∧
        ((visit (.ofOptions {}))^[k] (start Sample.page 0 ⟨{}, none⟩)).walk.progress.rewriteCount = 1 ∧
        (((visit (.ofOptions {}))^[k] (start Sample.page 0 ⟨{}, none⟩)).heap.tree 0).print =
          .ok "<p><Memo>\x7b() => x$.get()\x7d</Memo></p>" := by
  have root : (Sample.page.tree 0).form = .program [Sample.page.tree 1] := by cbv
  obtain ⟨S, holds, _⟩ := Sample.page_spans
  obtain ⟨k, _, tree, walk, ends⟩ := traversal_refines_rewrite (.ofOptions {}) holds root {}
  refine ⟨root, Sample.page_printable, ⟨S, holds⟩, k, (ends Sample.page_printable).1, ?_, ?_⟩
  · rw [walk]
    cbv
  · rw [tree]
    cbv

end JsxBoundary.InPlace
