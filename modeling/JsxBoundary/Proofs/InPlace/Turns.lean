import JsxBoundary.Proofs.Census
import JsxBoundary.Proofs.InPlace.Waiting

namespace JsxBoundary.InPlace

open Machine

variable {s : Settings} {h : Heap} {r x root : Ref} {n N : Node} {S : Finset Ref}

theorem edit_scaffold (holds : h.Holds r n S) (scaffold : h.isScaffold r = true) (ancestors : List Ref)
    (p : Progress) : (edit s ancestors r).runFrom ⟨h, p⟩ = (.ok (r, true), ⟨h, p⟩) := by
  obtain ⟨o, area, layer, _, _⟩ := holds.layer
  have found := Heap.form?_eq layer.found
  rw [edit, Edit.runFrom_bind, Edit.runFrom_get]
  unfold Heap.isScaffold at scaffold
  dsimp only
  rw [found] at scaffold ⊢
  cases form : o.form with
  | element => simp [form] at scaffold
  | container e =>
      -- A function reads nothing until it is called.
      rw [form] at scaffold
      have below := layer.below e (Object.mem_refs.2 (.inl (by simp [form, Form.children])))
      have arrow := (below.alike 1).isArrow.symm.trans scaffold
      have silent : (h.tree e).containsRead s.policy = false :=
        Node.containsRead_of_isFunction (Node.isFunction_of_isArrow arrow)
      dsimp only
      rw [editContainer, Edit.runFrom_bind, Edit.runFrom_get]
      dsimp only
      rw [silent]
      split <;> rfl
  | _ => rfl

namespace Machine

variable {σ τ : Machine} {e : Entry} {area : Ref → Finset Ref}

theorem visit_scaffold (waiting : σ.heap.Waiting root σ.stack S area) (next : σ.next? = some e)
    (scaffold : σ.heap.isScaffold e.node = true) :
    (visit s σ).heap = σ.heap ∧ (visit s σ).walk = σ.walk := by
  obtain ⟨h, stack, p, fault⟩ := σ
  cases fault with
  | some fault => cases next
  | none =>
      cases stack with
      | nil => cases next
      | cons f rest =>
          cases Passes.eq_of_mem_next? next
          obtain ⟨n, holds⟩ := waiting.below e (.head _)
          have edited := edit_scaffold (s := s) holds scaffold e.ancestors p
          simp [visit, edited, install]

theorem Pending.alike (pending : σ.Pending x) (depth : Nat) : ∃ n, σ.heap.Alike depth x n := by
  obtain ⟨e, _, n, A, holds, inside⟩ := pending
  obtain ⟨m, _, below, _⟩ := holds.part inside
  exact ⟨m, below.alike depth⟩

theorem Pending.lt_length {x : Nat} (pending : σ.Pending x) : x < σ.heap.length := by
  obtain ⟨e, _, n, A, holds, inside⟩ := pending
  exact holds.lt_of_mem x inside

theorem mem_stack (next : σ.next? = some e) : e ∈ σ.stack := by
  unfold next? at next
  split at next
  · cases next
  · exact List.mem_of_head? next

theorem Pending.next (waiting : σ.heap.Waiting root σ.stack S area) (next : σ.next? = some e) :
    σ.Pending e.node := by
  obtain ⟨n, holds⟩ := waiting.below e (mem_stack next)
  exact ⟨e, mem_stack next, n, _, holds, holds.self_mem⟩

theorem Passes.isScaffold (passes : σ.Passes τ) (pending : σ.Pending x) :
    τ.heap.isScaffold x = σ.heap.isScaffold x := by
  obtain ⟨n, alike⟩ := pending.alike 2
  exact (passes.keeps 2 x n alike).isScaffold.trans alike.isScaffold.symm

end Machine

namespace Machine.Passes

variable {σ : Nat → Machine} (passes : ∀ k, (σ k).Passes (σ (k + 1))) {e : Entry} {j k : Nat}

include passes

theorem length_le (le : j ≤ k) : (σ j).heap.length ≤ (σ k).heap.length :=
  monotone_nat_of_le_succ (fun k => (passes k).grown) le

theorem keeps_le (le : j ≤ k) : (σ j).heap.Keeps (σ k).heap := by
  induction le with
  | refl => exact .refl _
  | step _ ih => exact ih.trans (passes _).keeps

theorem not_pending (next : (σ j).next? = some e) (own : (σ j).Pending e.node) (lt : j < k) :
    ¬ (σ k).Pending e.node := by
  induction lt with
  | refl =>
      intro pending
      rcases (passes j).pending e.node pending with ⟨_, other⟩ | ⟨new, _⟩
      · exact other e next rfl
      · exact Nat.not_le.2 own.lt_length new
  | @step k lt ih =>
      intro pending
      rcases (passes k).pending e.node pending with ⟨before, _⟩ | ⟨new, _⟩
      · exact ih before
      · have old := length_le passes (Nat.le_of_succ_le lt)
        exact Nat.not_le.2 own.lt_length (old.trans new)

theorem isScaffold_of_pending {x : Nat} (pending : (σ k).Pending x) (new : (σ 0).heap.length ≤ x) :
    (σ k).heap.isScaffold x = true := by
  induction k with
  | zero => exact absurd pending.lt_length (Nat.not_lt.2 new)
  | succ k ih =>
      rcases (passes k).pending x pending with ⟨before, _⟩ | ⟨_, scaffold⟩
      · exact ((passes k).isScaffold before).trans (ih before)
      · exact scaffold

end Machine.Passes

theorem iterate_waits (s : Settings) (holds : h.Holds root N S) (w : Walk) (k : Nat) :
    ∃ U area, ((visit s)^[k] (start h root w)).heap.Waiting root ((visit s)^[k] (start h root w)).stack U
      area := by
  induction k with
  | zero => exact ⟨S, _, .start holds⟩
  | succ k ih =>
      obtain ⟨U, area, waiting⟩ := ih
      rw [Function.iterate_succ_apply']
      exact (visit_waiting waiting).2

theorem iterate_passes (s : Settings) (holds : h.Holds root N S) (w : Walk) (k : Nat) :
    ((visit s)^[k] (start h root w)).Passes ((visit s)^[k + 1] (start h root w)) := by
  obtain ⟨U, area, waiting⟩ := iterate_waits s holds w k
  rw [Function.iterate_succ_apply']
  exact (visit_waiting waiting).1

/-- The traversal of a tree without shared objects comes to an end, with no more boundaries than the tree has
elements and containers and no more deferrals than it has elements. No object is visited twice. An object
that was not there before is visited only if it is scaffolding, and then neither the heap nor the progress
changes. No element that is made in the run is visited. -/
theorem traversal_bounded (s : Settings) {body : List Node} (holds : h.Holds root N S)
    (program : N.form = .program body) (p : Progress) :
    let σ := fun k => (visit s)^[k] (start h root ⟨p, none⟩)
    (∃ k, (σ k).Halted ∧
      (σ k).walk.progress.recorded ≤
        p.recorded + (N.tally Node.isElement + N.tally fun n => n.contained?.isSome) ∧
      (σ k).walk.progress.deferred ≤ p.deferred + N.tally Node.isElement) ∧
    (∀ i j e f, (σ i).next? = some e → (σ j).next? = some f → e.node = f.node → i = j) ∧
    (∀ k e, (σ k).next? = some e → h.length ≤ e.node → (σ k).heap.isScaffold e.node = true ∧
      (σ (k + 1)).heap = (σ k).heap ∧ (σ (k + 1)).walk = (σ k).walk) ∧
    ∀ j x, h.length ≤ x → (σ j).heap.isElement x = true → ∀ k e, (σ k).next? = some e → e.node ≠ x := by
  intro σ
  have passes : ∀ k, (σ k).Passes (σ (k + 1)) := iterate_passes s holds ⟨p, none⟩
  have pending : ∀ k e, (σ k).next? = some e → (σ k).Pending e.node := by
    intro k e next
    obtain ⟨U, area, waiting⟩ := iterate_waits s holds ⟨p, none⟩ k
    exact .next waiting next
  have scaffold : ∀ k e, (σ k).next? = some e → h.length ≤ e.node →
      (σ k).heap.isScaffold e.node = true := fun k e next new => Passes.isScaffold_of_pending passes (pending k e next) new
  have later : ∀ i j e f, (σ i).next? = some e → (σ j).next? = some f → i < j → e.node ≠ f.node := by
    intro i j e f first second lt same
    exact Passes.not_pending passes first (pending i e first) lt (same ▸ pending j f second)
  refine ⟨?_, fun i j e f first second same => ?_, fun k e next new => ⟨scaffold k e next new, ?_⟩,
    fun j x new element k e next same => ?_⟩
  · obtain ⟨k, halted, _, walk, _⟩ := traversal_refines_rewrite s holds program p
    obtain ⟨boundaries, deferrals⟩ := N.rewrite_within s [] ⟨p, none⟩
    rw [← walk] at boundaries deferrals
    refine ⟨k, halted, boundaries.trans (Nat.add_le_add_left N.tally_isSite_le _), deferrals⟩
  · rcases Nat.lt_trichotomy i j with lt | same' | lt
    · exact absurd same (later i j e f first second lt)
    · exact same'
    · exact absurd same.symm (later j i f e second first lt)
  · obtain ⟨U, area, waiting⟩ := iterate_waits s holds ⟨p, none⟩ k
    have turn := visit_scaffold (s := s) waiting next (scaffold k e next new)
    simp only [σ, Function.iterate_succ_apply']
    exact turn
  · subst same
    have plain := Heap.isElement_of_isScaffold (scaffold k e next new)
    -- An element is one before and after the turn.
    rcases Nat.le_total j k with le | le
    · rw [(Passes.keeps_le passes le).isElement (Heap.lt_of_isElement element), element] at plain
      cases plain
    · rw [(Passes.keeps_le passes le).isElement (pending k e next).lt_length, plain] at element
      cases element

theorem traversal_bounded_page :
    (∃ S, Heap.Holds Sample.page 0 (Sample.page.tree 0) S) ∧
      (Sample.page.tree 0).form = .program [Sample.page.tree 1] ∧
      let σ := fun k => (visit (.ofOptions {}))^[k] (start Sample.page 0 ⟨{}, none⟩)
      (∃ k, (σ k).Halted ∧ (σ k).walk.progress.recorded ≤ 2 ∧ (σ k).walk.progress.deferred ≤ 1) ∧
        (List.range 20).filterMap (fun k => (σ k).next?.map (·.node)) =
          [0, 1, 2, 3, 4, 12, 11, 14, 13, 5, 6, 7, 8, 16, 15, 9, 10] ∧
        (∀ i j e f, (σ i).next? = some e → (σ j).next? = some f → e.node = f.node → i = j) ∧
        (∀ k e, (σ k).next? = some e → 11 ≤ e.node → (σ k).heap.isScaffold e.node = true ∧
          (σ (k + 1)).heap = (σ k).heap ∧ (σ (k + 1)).walk = (σ k).walk) ∧
        ∀ j x, 11 ≤ x → (σ j).heap.isElement x = true → ∀ k e, (σ k).next? = some e → e.node ≠ x := by
  have program : (Sample.page.tree 0).form = .program [Sample.page.tree 1] := by cbv
  have elements : (Sample.page.tree 0).tally Node.isElement = 1 := by cbv
  have containers : ((Sample.page.tree 0).tally fun n => n.contained?.isSome) = 1 := by cbv
  obtain ⟨S, holds, _⟩ := Sample.page_spans
  obtain ⟨⟨k, halted, boundaries, deferrals⟩, once, scaffold, elsewhere⟩ :=
    traversal_bounded (.ofOptions {}) holds program {}
  rw [elements, containers] at boundaries
  rw [elements] at deferrals
  exact ⟨⟨S, holds⟩, program, ⟨k, halted, boundaries, deferrals⟩, by cbv, once, scaffold, elsewhere⟩

end JsxBoundary.InPlace
