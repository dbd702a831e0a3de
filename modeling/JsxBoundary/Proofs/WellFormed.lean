import JsxBoundary.Concrete.Plan
import JsxBoundary.Text.Blank

namespace JsxBoundary.Concrete

/-- The node is a node of the tree. -/
inductive Occurs (root : Concrete) : Concrete → Prop
  | root : Occurs root root
  | child {n c : Concrete} (parent : Occurs root n) (member : c ∈ n.children) : Occurs root c

theorem Occurs.trans {root n c : Concrete} (outer : Occurs root n) (inner : Occurs n c) :
    Occurs root c := by
  induction inner with
  | root => exact outer
  | child _ member ih => exact .child ih member

theorem Occurs.of_child {n c : Concrete} (member : c ∈ n.children) : Occurs n c :=
  .child .root member

theorem Occurs.cases_root {n m : Concrete} (h : Occurs n m) : m = n ∨ ∃ c ∈ n.children, Occurs c m := by
  induction h with
  | root => exact .inl rfl
  | @child k m _ member ih =>
      right
      obtain rfl | ⟨c, below, occurs⟩ := ih
      · exact ⟨m, member, .root⟩
      · exact ⟨c, below, .child occurs member⟩

theorem Occurs.mem {root n : Concrete} (nodes : List Concrete) (h : Occurs root n)
    (closed : ∀ n ∈ nodes, ∀ c ∈ n.children, c ∈ nodes) (member : root ∈ nodes) : n ∈ nodes := by
  induction h with
  | root => exact member
  | child _ below ih => exact closed _ ih _ below

/-- What holds of a single node of a tree of nested ranges. Its children cover ranges of its text, in
order and none empty. An element does not take one child for both of its tags. -/
structure Nests (source : String) (n : Concrete) : Prop where
  start : (⟨n.start⟩ : String.Pos.Raw).IsValid source
  stop : (⟨n.stop⟩ : String.Pos.Raw).IsValid source
  nonempty : ∀ c ∈ n.children, c.start < c.stop
  inside : ∀ c ∈ n.children, n.start ≤ c.start ∧ c.stop ≤ n.stop
  ordered : n.children.Pairwise fun a b => a.stop ≤ b.start
  tags : n.kind = "jsx_element" → ∀ opening closing,
    Plan.elementTags n = (some opening, some closing) → opening ≠ closing

/-- The ranges of the nodes are nested as a tree. -/
def Nested (source : String) (root : Concrete) : Prop :=
  ∀ n, Occurs root n → Nests source n

theorem Nested.of_occurs {source : String} {root n : Concrete} (h : Nested source root)
    (occurs : Occurs root n) : Nested source n :=
  fun m inner => h m (occurs.trans inner)

theorem Nested.of_nodes {source : String} {root : Concrete} (nodes : List Concrete) (listed : root ∈ nodes)
    (closed : ∀ n ∈ nodes, ∀ c ∈ n.children, c ∈ nodes) (plain : ∀ n ∈ nodes, n.kind ≠ "jsx_element")
    (placed : ∀ n ∈ nodes, ((⟨n.start⟩ : String.Pos.Raw).IsValid source ∧
      (⟨n.stop⟩ : String.Pos.Raw).IsValid source) ∧ (∀ c ∈ n.children, c.start < c.stop) ∧
      (∀ c ∈ n.children, n.start ≤ c.start ∧ c.stop ≤ n.stop) ∧
      n.children.Pairwise fun a b => a.stop ≤ b.start) : Nested source root := by
  intro n occurs
  have member := occurs.mem nodes closed listed
  obtain ⟨⟨start, stop⟩, nonempty, inside, ordered⟩ := placed n member
  exact ⟨start, stop, nonempty, inside, ordered, fun kind => absurd kind (plain n member)⟩

/-- The element is an opening tag, content and a closing tag. The rest of its text is blank. -/
structure Tagged (source : String) (n opening closing : Concrete) : Prop where
  tags : Plan.elementTags n = (some opening, some closing)
  distinct : opening.stop ≤ closing.start
  content : ∀ c ∈ n.parts, c = opening ∨ c = closing ∨ opening.stop ≤ c.start ∧ c.stop ≤ closing.start
  blank : ∀ a b t, n.start ≤ a → b ≤ n.stop →
    (∀ c ∈ opening :: closing :: n.parts, c.stop ≤ a ∨ b ≤ c.start) →
    slice source.toUTF8 a b = .ok t → Text.isBlank t = true

structure Proper (source : String) (n : Concrete) : Prop where
  start : (⟨n.start⟩ : String.Pos.Raw).IsValid source
  stop : (⟨n.stop⟩ : String.Pos.Raw).IsValid source
  range : n.start ≤ n.stop
  nonempty : ∀ c ∈ n.children, c.start < c.stop
  inside : ∀ c ∈ n.children, n.start ≤ c.start ∧ c.stop ≤ n.stop
  ordered : n.children.Pairwise fun a b => a.stop ≤ b.start
  tagged : n.kind = "jsx_element" → ∃ opening closing, Tagged source n opening closing

/-- Every node of the tree covers a range of the source text, as the grammar has it. -/
def WellFormed (source : String) (root : Concrete) : Prop :=
  ∀ n, Occurs root n → Proper source n

theorem WellFormed.of_occurs {source : String} {root n : Concrete} (h : WellFormed source root)
    (occurs : Occurs root n) : WellFormed source n :=
  fun m inner => h m (occurs.trans inner)

theorem Proper.nests {source : String} {n : Concrete} (h : Proper source n) : Nests source n := by
  refine ⟨h.start, h.stop, h.nonempty, h.inside, h.ordered, fun kind opening closing tags same => ?_⟩
  obtain ⟨_, _, tagged⟩ := h.tagged kind
  have nonempty := h.nonempty opening (mem_children_of_elementTags (.inl (by rw [tags])))
  have apart := tagged.distinct
  cases tagged.tags.symm.trans tags
  rw [← same] at apart
  omega

theorem WellFormed.nested {source : String} {root : Concrete} (h : WellFormed source root) :
    Nested source root :=
  fun n occurs => (h n occurs).nests

def Apart (a b : Concrete) : Prop :=
  a.stop ≤ b.start ∨ b.stop ≤ a.start

theorem Apart.symm {a b : Concrete} (h : Apart a b) : Apart b a :=
  Or.symm h

structure Within (n : Concrete) (cs : List Concrete) : Prop where
  occurs : ∀ c ∈ cs, Occurs n c
  inside : ∀ c ∈ cs, n.start ≤ c.start ∧ c.start < c.stop ∧ c.stop ≤ n.stop
  apart : cs.Pairwise Apart

namespace Within

variable {source : String} {n c d : Concrete} {cs : List Concrete}

theorem nil : Within n [] :=
  ⟨fun c member => (by cases member), fun c member => (by cases member), .nil⟩

theorem self (nonempty : n.start < n.stop) : Within n [n] := by
  refine ⟨fun c member => ?_, fun c member => ?_, List.pairwise_singleton _ _⟩
  · cases List.mem_singleton.1 member
    exact .root
  · cases List.mem_singleton.1 member
    exact ⟨Nat.le_refl _, nonempty, Nat.le_refl _⟩

theorem of_sublist (nests : Nests source n) (h : cs.Sublist n.children) : Within n cs := by
  refine ⟨fun c member => .of_child (h.subset member), fun c member => ?_, ?_⟩
  · have inside := nests.inside c (h.subset member)
    exact ⟨inside.1, nests.nonempty c (h.subset member), inside.2⟩
  · exact (nests.ordered.sublist h).imp .inl

theorem single (nests : Nests source n) (member : c ∈ n.children) : Within n [c] :=
  .of_sublist nests (List.singleton_sublist.2 member)

theorem of_child (nests : Nests source n) (member : c ∈ n.children) (h : Within c cs) :
    Within n cs := by
  have outer := nests.inside c member
  refine ⟨fun d inner => (Occurs.of_child member).trans (h.occurs d inner), fun d inner => ?_, h.apart⟩
  have inside := h.inside d inner
  omega

theorem cons (nests : Nests source n) (member : c ∈ n.children) (h : Within n cs)
    (apart : ∀ d ∈ cs, Apart c d) : Within n (c :: cs) := by
  have inside := nests.inside c member
  refine ⟨fun d inner => ?_, fun d inner => ?_, List.pairwise_cons.2 ⟨apart, h.apart⟩⟩
  · rcases List.mem_cons.1 inner with rfl | inner
    · exact .of_child member
    · exact h.occurs d inner
  · rcases List.mem_cons.1 inner with rfl | inner
    · exact ⟨inside.1, nests.nonempty _ member, inside.2⟩
    · exact h.inside d inner

end Within

theorem Nests.apart {source : String} {n c d : Concrete} (h : Nests source n) (hc : c ∈ n.children)
    (hd : d ∈ n.children) (ne : c ≠ d) : Apart c d := by
  obtain ⟨i, hi, rfl⟩ := List.getElem_of_mem hc
  obtain ⟨j, hj, rfl⟩ := List.getElem_of_mem hd
  have ordered := List.pairwise_iff_getElem.1 h.ordered
  rcases Nat.lt_trichotomy i j with lt | rfl | gt
  · exact .inl (ordered i j hi hj lt)
  · exact absurd rfl ne
  · exact .inr (ordered j i hj hi gt)

end JsxBoundary.Concrete
