import JsxBoundary.Concrete.Search
import JsxBoundary.Proofs.WellFormed

namespace JsxBoundary.Concrete

variable {n m c root : Concrete}

theorem findSome?_of_found {stack : Stack Concrete} (h : faultRound stack = some (.inl n)) :
    stack.pending.findSome? firstFault? = some n := by
  obtain ⟨rest, top, fault⟩ := pending_of_faultRound_found h
  simp [top, firstFault?_eq n, fault]

theorem findSome?_of_faultRound {stack left : Stack Concrete} (h : faultRound stack = some (.inr left)) :
    stack.pending.findSome? firstFault? = left.pending.findSome? firstFault? := by
  obtain ⟨n, rest, before, sound, after⟩ := pending_of_faultRound h
  simp only [before, after, List.findSome?_cons, List.findSome?_append, firstFault?_eq n, sound, Bool.false_eq_true,
    if_false]
  cases n.children.findSome? firstFault? <;> rfl

theorem searchFault_eq (stack : Stack Concrete) : searchFault stack = stack.pending.findSome? firstFault? := by
  fun_induction searchFault stack with
  | case1 stack empty => rw [pending_of_faultRound_none empty, List.findSome?_nil]
  | case2 stack n found => exact (findSome?_of_found found).symm
  | case3 stack left round ih => exact ih.trans (findSome?_of_faultRound round).symm

theorem syntaxFault_eq_fault (root : Concrete) : root.syntaxFault = root.fault := by
  have found : searchFault #[root] = root.firstFault? := by
    rw [searchFault_eq, Stack.pending_singleton, List.findSome?_cons]
    cases root.firstFault? <;> rfl
  cases first : root.firstFault? <;> simp only [syntaxFault, found, Concrete.fault, first]

/-- What holds of a node of a tree in document order. Its children cover ranges of its text, one after the other. A
range may be empty, for a missing token has no text. -/
structure Spans (n : Concrete) : Prop where
  range : n.start ≤ n.stop
  inside : ∀ c ∈ n.children, n.start ≤ c.start ∧ c.stop ≤ n.stop
  ordered : n.children.Pairwise fun a b => a.stop ≤ b.start

/-- The first node begins on an earlier line than the second one, or on the same line no further to the right. -/
def NoLater (a b : Concrete) : Prop :=
  a.info.row < b.info.row ∨ a.info.row = b.info.row ∧ a.info.column ≤ b.info.column

instance (a b : Concrete) : Decidable (NoLater a b) :=
  inferInstanceAs (Decidable (_ ∨ _))

/-- A tree in document order. Of the lines and columns of nodes at fault it is asked only that they follow the
text. -/
structure InOrder (root : Concrete) : Prop where
  spans : ∀ n, Occurs root n → Spans n
  points : ∀ a b, Occurs root a → Occurs root b → a.isFault = true → b.isFault = true → a.start ≤ b.start → NoLater a b

theorem Occurs.inside (spans : ∀ k, Occurs n k → Spans k) (h : Occurs n m) : n.start ≤ m.start ∧ m.stop ≤ n.stop := by
  induction h with
  | root => exact ⟨Nat.le_refl _, Nat.le_refl _⟩
  | @child k m parent member ih =>
      have own := (spans k parent).inside m member
      omega

theorem inductionOnChildren {motive : Concrete → Prop}
    (step : ∀ n : Concrete, (∀ c ∈ n.children, motive c) → motive n) (n : Concrete) : motive n :=
  step n fun c _ => inductionOnChildren step c
termination_by n
decreasing_by exact sizeOf_lt_of_mem_children ‹_›

theorem firstFault?_eq_none_iff : n.firstFault? = none ↔ ∀ m, Occurs n m → m.isFault = false := by
  induction n using inductionOnChildren with
  | step n ih =>
      rw [firstFault?_eq]
      constructor
      · intro h m occurs
        cases own : n.isFault with
        | true => simp [own] at h
        | false =>
            have none : ∀ c ∈ n.children, c.firstFault? = none := by simpa [own] using h
            obtain rfl | ⟨c, child, below⟩ := occurs.cases_root
            · exact own
            · exact (ih c child).1 (none c child) m below
      · intro sound
        have none : ∀ c ∈ n.children, c.firstFault? = none := fun c child =>
          (ih c child).2 fun m below => sound m ((Occurs.of_child child).trans below)
        simpa [sound n .root] using none

theorem firstFault?_least (spans : ∀ k, Occurs n k → Spans k) (h : n.firstFault? = some m) :
    Occurs n m ∧ m.isFault = true ∧ ∀ k, Occurs n k → k.isFault = true → m.start ≤ k.start := by
  induction n using inductionOnChildren with
  | step n ih =>
      rw [firstFault?_eq] at h
      cases own : n.isFault with
      | true =>
          obtain rfl : n = m := by simpa [own] using h
          exact ⟨.root, own, fun k occurs _ => (occurs.inside spans).1⟩
      | false =>
          have below (c : Concrete) (child : c ∈ n.children) : ∀ k, Occurs c k → Spans k :=
            fun k occurs => spans k ((Occurs.of_child child).trans occurs)
          simp only [own, Bool.false_eq_true, if_false] at h
          obtain ⟨front, c, back, children, found, clean⟩ := List.findSome?_eq_some_iff.1 h
          have child : c ∈ n.children := by simp [children]
          obtain ⟨occurs, fault, least⟩ := ih c child (below c child) found
          refine ⟨(Occurs.of_child child).trans occurs, fault, fun k occurs' fault' => ?_⟩
          obtain rfl | ⟨d, child', occurs'⟩ := occurs'.cases_root
          · rw [own] at fault'
            cases fault'
          · have place : d ∈ front ∨ d = c ∨ d ∈ back := by simpa [children] using child'
            rcases place with before | rfl | behind
            · have sound := firstFault?_eq_none_iff.1 (clean d before) k occurs'
              rw [sound] at fault'
              cases fault'
            · exact least k occurs' fault'
            · -- The first fault ends before the later child begins.
              have ordered := (spans n .root).ordered
              rw [children] at ordered
              have apart : c.stop ≤ d.start :=
                (List.pairwise_cons.1 (List.pairwise_append.1 ordered).2.1).1 d behind
              have inner := (occurs.inside (below c child)).2
              have range := (below c child m occurs).range
              have outer := (occurs'.inside (below d child')).1
              omega

def placeIn (bytes : List UInt8) (offset : Nat) : Nat × Nat :=
  let before := bytes.take offset
  (before.count 10, (before.reverse.takeWhile (· != 10)).length)

theorem placeIn_mono (bytes : List UInt8) {a b : Nat} (le : a ≤ b) :
    (placeIn bytes a).1 < (placeIn bytes b).1 ∨
      (placeIn bytes a).1 = (placeIn bytes b).1 ∧ (placeIn bytes a).2 ≤ (placeIn bytes b).2 := by
  obtain ⟨between, split⟩ : ∃ between, bytes.take b = bytes.take a ++ between := by
    have parts := List.take_append_drop a (bytes.take b)
    rw [List.take_take, Nat.min_eq_left le] at parts
    exact ⟨_, parts.symm⟩
  simp only [placeIn, split, List.count_append, List.reverse_append]
  by_cases breaks : (10 : UInt8) ∈ between
  · have := List.count_pos_iff.2 breaks
    omega
  · have sameLine : ∀ x ∈ between.reverse, (x != 10) = true := by
      intro x member
      have inside := List.mem_reverse.1 member
      have other : x ≠ 10 := fun same => breaks (same ▸ inside)
      simpa using other
    rw [List.takeWhile_append_of_pos sameLine, List.count_eq_zero.2 breaks]
    simp

theorem InOrder.of_text (source : String) (spans : ∀ n, Occurs root n → Spans n)
    (places : ∀ n, Occurs root n → n.isFault = true →
      (n.info.row, n.info.column) = placeIn source.toUTF8.data.toList n.start) : InOrder root := by
  refine ⟨spans, fun a b first second faulty faulty' le => ?_⟩
  have before := placeIn_mono source.toUTF8.data.toList le
  rwa [← places a first faulty, ← places b second faulty'] at before

/-- A tree with an error is refused. The line and the column in the refusal, counted from one, are those of a node at
fault than which none begins earlier, and there are none exactly if the tree has no node at fault. -/
theorem toProgram_reports_first (source : String) (faulty : root.info.faulty = true) (order : InOrder root) :
    toProgram source root = .error root.syntaxFault ∧
    (root.syntaxFault = .unparsable ↔ ∀ n, Occurs root n → n.isFault = false) ∧
    (∀ k, Occurs root k → k.isFault = true → ∃ n, Occurs root n ∧ n.isFault = true ∧
      root.syntaxFault = .unparsableAt n.info.missing (n.info.row + 1) (n.info.column + 1) ∧
      ∀ m, Occurs root m → m.isFault = true → NoLater n m) := by
  have refused : toProgram source root = .error root.fault := by rw [toProgram, faulty, if_pos rfl]
  rw [syntaxFault_eq_fault]
  refine ⟨refused, ?_, fun k occurs fault => ?_⟩
  · rw [← firstFault?_eq_none_iff, Concrete.fault]
    cases root.firstFault? <;> simp
  · cases found : root.firstFault? with
    | none =>
        rw [firstFault?_eq_none_iff.1 found k occurs] at fault
        cases fault
    | some n =>
        obtain ⟨inside, own, least⟩ := firstFault?_least order.spans found
        refine ⟨n, inside, own, by rw [Concrete.fault, found], fun m occurs' fault' => ?_⟩
        exact order.points n m inside occurs' own fault' (least m occurs' fault')

namespace FaultSample

def source : String :=
  "a;\nb = );\nf(;\n"

def stray : Concrete :=
  .mk { kind := "ERROR", start := 5, stop := 8, row := 1, column := 2, faulty := true } []

def assigned : Concrete :=
  .mk { kind := "expression_statement", start := 3, stop := 9, row := 1, faulty := true } [stray]

def absent : Concrete :=
  .mk { kind := ")", start := 12, stop := 12, named := false, missing := true, row := 2, column := 2, faulty := true } []

def called : Concrete :=
  .mk { kind := "call_expression", start := 10, stop := 12, row := 2, faulty := true } [absent]

def tree : Concrete :=
  .mk { kind := "program", start := 0, stop := 14, faulty := true }
    [.mk { kind := "expression_statement", start := 0, stop := 2 } [], assigned, called]

def nodes : List Concrete :=
  [tree, .mk { kind := "expression_statement", start := 0, stop := 2 } [], assigned, stray, called, absent]

theorem mem_nodes {n : Concrete} (h : Occurs tree n) : n ∈ nodes := by
  have closed : ∀ n ∈ nodes, ∀ c ∈ n.children, c ∈ nodes := by
    simp [nodes, tree, assigned, stray, called, absent, children]
  exact h.mem nodes closed (.head _)

theorem inOrder_tree : InOrder tree := by
  have spans : ∀ n ∈ nodes, n.start ≤ n.stop ∧ (∀ c ∈ n.children, n.start ≤ c.start ∧ c.stop ≤ n.stop) ∧
      n.children.Pairwise fun a b => a.stop ≤ b.start := by decide
  have places : ∀ n ∈ nodes, n.isFault = true →
      (n.info.row, n.info.column) = placeIn source.toUTF8.data.toList n.start := by decide
  refine .of_text source (fun n occurs => ?_) fun n occurs => places n (mem_nodes occurs)
  obtain ⟨range, inside, ordered⟩ := spans n (mem_nodes occurs)
  exact ⟨range, inside, ordered⟩

end FaultSample

theorem toProgram_reports_stray : FaultSample.tree.info.faulty = true ∧ InOrder FaultSample.tree ∧
    toProgram FaultSample.source FaultSample.tree = .error (.unparsableAt false 2 3) := by
  have order := FaultSample.inOrder_tree
  have stray : Occurs FaultSample.tree FaultSample.stray :=
    (Occurs.of_child (c := FaultSample.assigned) (by simp [FaultSample.tree, children])).child (.head _)
  have only : ∀ n ∈ FaultSample.nodes, n.isFault = true → NoLater n FaultSample.stray →
      Fault.unparsableAt n.info.missing (n.info.row + 1) (n.info.column + 1) = .unparsableAt false 2 3 := by decide
  obtain ⟨refused, _, found⟩ := toProgram_reports_first FaultSample.source rfl order
  obtain ⟨n, occurs, fault, reported, least⟩ := found FaultSample.stray stray rfl
  refine ⟨rfl, order, refused.trans (congrArg _ ?_)⟩
  exact reported.trans (only n (FaultSample.mem_nodes occurs) fault (least _ stray rfl))

end JsxBoundary.Concrete
