import Mathlib
import JsxBoundary.Proofs.Replacement

namespace JsxBoundary

namespace Node

variable {s : Settings}

def shelters (s : Settings) (n : Node) : Bool :=
  n.isElementNamed s.reactiveComponents || n.isCallNamed s.observerNames

theorem isSheltered_cons (s : Settings) (n : Node) (ancestors : Ancestors) :
    isSheltered s (n :: ancestors) = (n.shelters s || isSheltered s ancestors) := by
  simp only [isSheltered, shelters, Ancestors.insideReactive, Ancestors.insideObserver, List.any_cons]
  cases n.isElementNamed s.reactiveComponents <;> cases n.isCallNamed s.observerNames <;> simp

theorem insideAttribute_cons (n : Node) (ancestors : Ancestors) :
    Ancestors.insideAttribute (n :: ancestors) = (n.isAttribute || ancestors.insideAttribute) := rfl

theorem shelters_boundary (h : s.componentName ∈ s.reactiveComponents) (e : Node)
    (source : Option Node) : (e.boundary s.componentName source).shelters s = true := by
  rw [shelters, isElementNamed_boundary h, Bool.true_or]

theorem shelters_withChildren {n : Node} {cs : List Node}
    (h : Pointwise (Exchange s.policy) n.children cs) : (n.withChildren cs).shelters s = n.shelters s := by
  rw [shelters, shelters, isElementNamed_withChildren h, isCallNamed_withChildren h]

structure Beside (s : Settings) (outer ancestors : Ancestors) : Prop where
  insideAttribute : outer.insideAttribute = ancestors.insideAttribute
  sheltered : isSheltered s outer = isSheltered s ancestors

theorem Beside.cons {outer ancestors : Ancestors} (h : Beside s outer ancestors) {n : Node}
    {cs : List Node} (below : Pointwise (Exchange s.policy) n.children cs) :
    Beside s (n.withChildren cs :: outer) (n :: ancestors) where
  insideAttribute := by
    rw [insideAttribute_cons, insideAttribute_cons, isAttribute_withChildren, h.insideAttribute]
  sheltered := by
    rw [isSheltered_cons, isSheltered_cons, shelters_withChildren below, h.sheltered]

/-- The node stands in the tree under these ancestors. -/
inductive Occurs (root : Node) : Ancestors → Node → Prop
  | root : Occurs root [] root
  | child {ancestors : Ancestors} {n c : Node} (parent : Occurs root ancestors n)
      (member : c ∈ n.children) : Occurs root (n :: ancestors) c

/-- Nothing is left to put behind a boundary at the node itself. -/
structure Quiet (s : Settings) (ancestors : Ancestors) (n : Node) : Prop where
  container : ∀ e, n.form = .container e → ancestors.insideAttribute = false →
    isSheltered s ancestors = false → e.containsRead s.policy = false
  element : n.isElement = true → isSheltered s ancestors = false →
    ∃ tag, n.openingTag? = some tag ∧ tag.hasReadingAttribute s.policy = false

inductive Covered (s : Settings) : Ancestors → Node → Prop
  | node {ancestors : Ancestors} {n : Node} (quiet : Quiet s ancestors n)
      (below : ∀ c ∈ n.children, Covered s (n :: ancestors) c) : Covered s ancestors n

theorem Quiet.of_sheltered {ancestors : Ancestors} (h : isSheltered s ancestors = true) (n : Node) :
    Quiet s ancestors n :=
  ⟨fun _ _ _ bare => by simp [h] at bare, fun _ bare => by simp [h] at bare⟩

theorem Quiet.of_plain {n : Node} (element : n.isElement = false) (contained : n.contained? = none)
    (ancestors : Ancestors) : Quiet s ancestors n := by
  refine ⟨fun e form => ?_, fun element' => ?_⟩
  · simp [contained?, form] at contained
  · rw [element] at element'
    cases element'

theorem Covered.of_sheltered {ancestors : Ancestors} (h : isSheltered s ancestors = true) (n : Node) :
    Covered s ancestors n := by
  induction n using inductionOnChildren generalizing ancestors with
  | step n ih =>
      refine .node (.of_sheltered h n) fun c member => ih c member ?_
      rw [isSheltered_cons, h, Bool.or_true]

theorem Covered.quiet_of_occurs {root : Node} (h : Covered s [] root) {ancestors : Ancestors} {n : Node}
    (occurs : Occurs root ancestors n) : Quiet s ancestors n := by
  have covered : Covered s ancestors n := by
    induction occurs with
    | root => exact h
    | child parent member ih =>
        obtain ⟨quiet, below⟩ := ih
        exact below _ member
  obtain ⟨quiet, _⟩ := covered
  exact quiet

theorem Chosen.quiet {ancestors outer : Ancestors} {n : Node} {c : Choice} {cs : List Node}
    (chosen : Chosen s ancestors n c) (descends : c.descend = true) (beside : Beside s outer ancestors)
    (below : Pointwise (Exchange s.policy) c.node.children cs) :
    Quiet s outer (c.node.withChildren cs) := by
  have quietTag : ∀ {m : Node} {ds : List Node} {tag : OpeningTag}, m.isElement = true →
      Pointwise (Exchange s.policy) m.children ds → m.openingTag? = some tag →
      tag.hasReadingAttribute s.policy = false →
      ∃ tag, (m.withChildren ds).openingTag? = some tag ∧ tag.hasReadingAttribute s.policy = false := by
    intro m ds tag element pairs ht silent
    obtain ⟨tag', ht', _, reads⟩ := openingTag?_withChildren pairs element ht
    refine ⟨tag', ht', ?_⟩
    cases reading : tag'.hasReadingAttribute s.policy with
    | false => rfl
    | true => rw [reads reading] at silent; cases silent
  have noElement : ∀ {m : Node} {ds : List Node}, m.isElement = true → ∀ e,
      (m.withChildren ds).form ≠ .container e := by
    intro m ds element e form
    rw [← isElement_withChildren m ds] at element
    simp [isElement, form] at element
  -- An exchange keeps the form or leaves an element, so what was no container does not become one.
  cases chosen with
  | other he hc =>
      refine ⟨fun e form => ?_, fun element => ?_⟩
      · obtain ⟨form', layout⟩ := n
        have paired := paired_withChildren below
        simp only [withChildren_mk, form_mk] at paired form
        rw [form] at paired
        cases paired
        cases hc
      · rw [isElement_withChildren, he] at element
        cases element
  | @container e hn quiet =>
      refine ⟨fun e' form bare unsheltered => ?_, fun element => ?_⟩
      · have paired := paired_withChildren below
        rw [form, hn] at paired
        cases paired with
        | container exchange =>
            rw [← beside.insideAttribute, ← beside.sheltered, bare, unsheltered] at quiet
            cases reading : e'.containsRead s.policy with
            | false => rfl
            | true =>
                rw [exchange.reads reading] at quiet
                cases quiet
      · rw [isElement_withChildren] at element
        simp [isElement, hn] at element
  | boundary hn =>
      refine ⟨fun e form => absurd form (noElement (isElement_boundary _ _ _) e), fun _ _ => ?_⟩
      exact quietTag (isElement_boundary _ _ _) below (openingTag?_boundary _ _ _) rfl
  | element he hd ht quiet =>
      have element := hd.isElement he
      refine ⟨fun e form => absurd form (noElement element e), fun _ unsheltered => ?_⟩
      rw [← beside.sheltered, unsheltered] at quiet
      refine quietTag element below (hd.openingTag?.trans ht) ?_
      simpa using quiet
  | whole => cases descends

theorem Rewrites.covered (component : s.componentName ∈ s.reactiveComponents)
    {ancestors : Ancestors} {n n' : Node} {log : List Action} (h : Rewrites s ancestors n n' log)
    {outer : Ancestors} (beside : Beside s outer ancestors) : Covered s outer n' := by
  induction h generalizing outer with
  | @stop ancestors n c chosen stays =>
      cases chosen with
      | @whole m actions tag before after he hd ht hs hr hb hp =>
          refine .node ⟨fun e form => ?_, fun _ _ => ?_⟩ fun child _ => .of_sheltered ?_ child
          · cases form
          · exact ⟨_, openingTag?_boundary _ _ _, rfl⟩
          · rw [isSheltered_cons, shelters_boundary component, Bool.true_or]
      | other | container | boundary | element => cases stays
  | @onward ancestors n c results chosen descends length each ih =>
      have derived : Pointwise (fun a r => Rewrites s (c.node :: ancestors) a r.1 r.2) c.node.children
          results := ⟨length, each⟩
      have below := derived.map_right fun _ _ rewrites => rewrites.exchange
      refine .node (chosen.quiet descends beside below) fun child member => ?_
      have covered : Pointwise (fun _ r => ∀ {outer}, Beside s outer (c.node :: ancestors) →
          Covered s outer r.1) c.node.children results := ⟨length, ih⟩
      rw [c.node.children_withChildren below.length] at member
      obtain ⟨r, listed, rfl⟩ := List.mem_map.1 member
      obtain ⟨_, _, covered⟩ := covered.exists_left listed
      exact covered (beside.cons below)

end Node

/-- Whatever the options and the module are, a run of the wrapping pass without a fault leaves no
unprotected read. -/
theorem wrapReads_covers (o : Options) (root : Node) (w : Walk)
    (done : ((Pass.wrapReads (.ofOptions o)).run root w).2.fault = none) {ancestors : Ancestors}
    {n : Node} (occurs : ((Pass.wrapReads (.ofOptions o)).run root w).1.Occurs ancestors n) :
    n.Quiet (.ofOptions o) ancestors := by
  obtain ⟨log, rewrites, _⟩ := Node.rewriteRoot_derives (Node.rewriteRoot_start done) done
  have covered := rewrites.covered (Settings.componentName_mem_reactiveComponents o) ⟨rfl, rfl⟩
  exact covered.quiet_of_occurs occurs

namespace Sample

/-- The element `<name attributes>content</name>`. -/
def element (name : String) (attributes content : List Node) : Node :=
  .fresh (.element (some (.fresh (.openingTag (.fresh (.identifier name)) attributes false))) content
    (some (.fresh (.closingTag (.fresh (.identifier name))))))

/-- The call `name.get()`. -/
def call (name : String) : Node :=
  .fresh (.call (.fresh (.member (.fresh (.identifier name)) (.fresh (.identifier "get")) false false))
    [] false)

/-- The container `{name.get()}`. -/
def read (name : String) : Node :=
  .fresh (.container (call name))

def reading : Node :=
  .fresh (.program [element "div" [] [read "a$"]])

def wrappedReading : Node :=
  .fresh (.program [element "div" [] [(call "a$").boundary "Memo" none]])

end Sample

theorem wrapReads_reading_covered :
    ((Pass.wrapReads (.ofOptions {})).run Sample.reading ⟨{}, none⟩).2.fault = none ∧
      Sample.wrappedReading.Occurs [Sample.wrappedReading]
        (Sample.element "div" [] [(Sample.call "a$").boundary "Memo" none]) ∧
      (Sample.element "div" [] [(Sample.call "a$").boundary "Memo" none]).Quiet (.ofOptions {})
        [Sample.wrappedReading] := by
  have done : ((Pass.wrapReads (.ofOptions {})).run Sample.reading ⟨{}, none⟩).2.fault = none := by cbv
  have result : ((Pass.wrapReads (.ofOptions {})).run Sample.reading ⟨{}, none⟩).1 =
      Sample.wrappedReading := by cbv
  have occurs : Sample.wrappedReading.Occurs [Sample.wrappedReading]
      (Sample.element "div" [] [(Sample.call "a$").boundary "Memo" none]) := .child .root (.head _)
  exact ⟨done, occurs, wrapReads_covers {} Sample.reading ⟨{}, none⟩ done (result ▸ occurs)⟩

end JsxBoundary
