import JsxBoundary.Proofs.Coverage

namespace JsxBoundary

namespace Node

variable {s : Settings}

def MayDefer (s : Settings) (n m : Node) : Prop :=
  m = n ∨ n.deferral? s = some m

inductive Normalized (s : Settings) : Node → Node → Prop
  | node {n m : Node} {cs : List Node} (start : MayDefer s n m)
      (length : cs.length = m.children.length)
      (each : ∀ (i : Nat) (a b : Node), m.children[i]? = some a → cs[i]? = some b →
        Normalized s a b) : Normalized s n (m.withChildren cs)

/-- A boundary that was inserted: where it stands in the final tree, and what records it. -/
structure Insertion where
  path : List Nat
  action : Action

def Insertion.below (i : Nat) (insertion : Insertion) : Insertion :=
  { insertion with path := i :: insertion.path }

def gathered (results : List (Node × List Insertion)) : List Insertion :=
  results.zipIdx.flatMap fun r => r.1.2.map (Insertion.below r.2)

/-- The second tree comes out of the first one by deferred children and by these insertions, none of
which is made below a sheltering node of the first tree. -/
inductive Edited (s : Settings) : Node → Node → List Insertion → Prop
  | sheltering {n m : Node} {cs : List Node} (shelters : n.shelters s = true) (start : MayDefer s n m)
      (below : Pointwise (Normalized s) m.children cs) : Edited s n (m.withChildren cs) []
  | onward {n m : Node} {results : List (Node × List Insertion)} (before : n.shelters s = false)
      (start : MayDefer s n m) (after : (m.withChildren (results.map (·.1))).shelters s = false)
      (length : results.length = m.children.length)
      (each : ∀ (i : Nat) (a : Node) (r : Node × List Insertion), m.children[i]? = some a →
        results[i]? = some r → Edited s a r.1 r.2) :
      Edited s n (m.withChildren (results.map (·.1))) (gathered results)
  | container {n e : Node} {cs : List Node} {before after : String} (held : n.form = .container e)
      (hb : n.print = .ok before) (ha : (e.boundary s.componentName (some n)).print = .ok after)
      (below : Pointwise (Normalized s) (e.boundary s.componentName (some n)).children cs) :
      Edited s n ((e.boundary s.componentName (some n)).withChildren cs)
        [⟨[], .boundary n.typeName before after⟩]
  | whole {n m : Node} {before after : String} (element : n.isElement = true)
      (start : MayDefer s n m) (hb : m.print = .ok before)
      (ha : (m.boundary s.componentName none).print = .ok after) :
      Edited s n (m.boundary s.componentName none) [⟨[], .boundary m.typeName before after⟩]

/-- A boundary stands at the end of the path, and nothing above it shelters it. -/
structure Inserted (s : Settings) (root : Node) (path : List Nat) : Prop where
  boundary : ∃ (e : Node) (source : Option Node) (cs : List Node),
    root.get? path = some ((e.boundary s.componentName source).withChildren cs) ∧
    Pointwise (Normalized s) (e.boundary s.componentName source).children cs
  bare : ∀ above a, above <+: path → above ≠ path → root.get? above = some a → a.shelters s = false

theorem Deferring.mayDefer {n m : Node} {actions : List Action} (h : Deferring s n m actions) :
    MayDefer s n m := by
  cases h with
  | stays => exact .inl rfl
  | deferred h => exact .inr h

theorem Deferring.noBoundary {n m : Node} {actions : List Action} (h : Deferring s n m actions) :
    actions.filter Action.isBoundary = [] := by
  cases h <;> rfl

theorem Deferring.filter_append {n m : Node} {actions : List Action} (h : Deferring s n m actions)
    (more : List Action) :
    (actions ++ more).filter Action.isBoundary = more.filter Action.isBoundary := by
  rw [List.filter_append, h.noBoundary, List.nil_append]

theorem shelters_of_mayDefer {n m : Node} (h : MayDefer s n m) : m.shelters s = n.shelters s := by
  rcases h with rfl | h
  · rfl
  · obtain ⟨opening, content, closing, body, form, _, _, _, _, made⟩ :=
      deferChildren?_some (deferral?_some h)
    have tag : m.tagName? = n.tagName? := by
      rw [tagName?, tagName?, openingTag?_of_deferral h]
    have element : n.isElement = true := by simp [isElement, form]
    have calls : m.isCallNamed s.observerNames = n.isCallNamed s.observerNames := by
      rw [made]
      simp [isCallNamed, form]
    rw [shelters, shelters, isElementNamed, isElementNamed, tag, calls, element,
      isElement_of_deferral h]

theorem Normalized.refl (n : Node) : Normalized s n n := by
  induction n using inductionOnChildren with
  | step n ih =>
      have same := Pointwise.same ih
      have node := Normalized.node (.inl rfl) same.length same.each
      rwa [withChildren_children] at node

theorem Normalized.exchange {n m : Node} (h : Normalized s n m) : Exchange s.policy n m := by
  induction h with
  | @node n m cs start length each ih =>
      have kept := Exchange.of_pointwise ⟨length, ih⟩
      rcases start with rfl | h
      · exact kept
      · obtain ⟨_, _, _, _, form, _⟩ := deferChildren?_some (deferral?_some h)
        refine .markup (by simp [isMarkup, form]) (by simp [isElement_of_deferral h]) ?_
        intro reading
        exact containsRead_of_deferral h (kept.reads reading)

theorem silent_of_normalized {cs : List Node} {results : List (Node × List Action)}
    (h : Pointwise (fun a r => Normalized s a r.1 ∧ r.2.filter Action.isBoundary = []) cs results) :
    Pointwise (Normalized s) cs (results.map (·.1)) ∧
      (results.flatMap (·.2)).filter Action.isBoundary = [] := by
  refine ⟨h.map_right fun _ _ both => both.1, ?_⟩
  rw [List.filter_flatMap, List.flatMap_eq_nil_iff]
  intro r member
  obtain ⟨_, _, _, none⟩ := h.exists_left member
  exact none

theorem Rewrites.normalized {ancestors : Ancestors} {n n' : Node} {log : List Action}
    (h : Rewrites s ancestors n n' log) (sheltered : isSheltered s ancestors = true) :
    Normalized s n n' ∧ log.filter Action.isBoundary = [] := by
  induction h with
  | @stop ancestors n c chosen stays =>
      cases chosen with
      | whole he hd ht bare => simp [sheltered] at bare
      | other | container | boundary | element => cases stays
  | @onward ancestors n c results chosen descends length each ih =>
      have inside : isSheltered s (c.node :: ancestors) = true := by
        rw [isSheltered_cons, sheltered, Bool.or_true]
      obtain ⟨start, silent⟩ : MayDefer s n c.node ∧ c.actions.filter Action.isBoundary = [] := by
        cases chosen with
        | other | container => exact ⟨.inl rfl, rfl⟩
        | element he hd => exact ⟨hd.mayDefer, hd.noBoundary⟩
        | boundary hn ha bare => simp [sheltered] at bare
        | whole => cases descends
      obtain ⟨below, none⟩ := silent_of_normalized ⟨length, fun i a r ha hr => ih i a r ha hr inside⟩
      refine ⟨.node start below.length below.each, ?_⟩
      rw [List.filter_append, silent, none, List.append_nil]

theorem map_action_gathered (results : List (Node × List Insertion)) :
    (gathered results).map (·.action) = results.flatMap fun r => r.2.map (·.action) := by
  have same : ∀ r : (Node × List Insertion) × Nat,
      (r.1.2.map (Insertion.below r.2)).map (·.action) = r.1.2.map (·.action) := by
    intro r
    rw [List.map_map]
    rfl
  have firsts : results.zipIdx.map (·.1) = results := List.zipIdx_map_fst 0 results
  rw [gathered, List.map_flatMap]
  simp only [same]
  conv => rhs; rw [← firsts, List.flatMap_map]

theorem Edited.gather {n m : Node} (bare : n.shelters s = false) (start : MayDefer s n m)
    {results : List (Node × List Action)}
    (below : Pointwise (Exchange s.policy) m.children (results.map (·.1)))
    (edited : Pointwise (fun a r => ∃ insertions, Edited s a r.1 insertions ∧
      insertions.map (·.action) = r.2.filter Action.isBoundary) m.children results) :
    ∃ insertions, Edited s n (m.withChildren (results.map (·.1))) insertions ∧
      insertions.map (·.action) = (results.flatMap (·.2)).filter Action.isBoundary := by
  have after : (m.withChildren (results.map (·.1))).shelters s = false := by
    rw [shelters_withChildren below, shelters_of_mayDefer start, bare]
  obtain ⟨chosen, firsts, pairs⟩ := edited.choose
  have nodes : results.map (·.1) = (chosen.map fun p => (p.1.1, p.2)).map (·.1) := by
    rw [← firsts, List.map_map, List.map_map]
    rfl
  rw [nodes] at after ⊢
  have inner := pairs.map_right (T := fun a r => Edited s a r.1 r.2)
    (f := fun p => (p.1.1, p.2)) fun _ _ both => both.1
  refine ⟨_, .onward bare start after inner.length inner.each, ?_⟩
  have recorded : ∀ p ∈ chosen, p.2.map (·.action) = p.1.2.filter Action.isBoundary := by
    intro p member
    obtain ⟨_, _, _, actions⟩ := pairs.exists_left member
    exact actions
  rw [map_action_gathered, List.filter_flatMap, ← firsts, List.flatMap_map, List.flatMap_map]
  simp only [List.flatMap]
  rw [List.map_congr_left recorded]

theorem Rewrites.edited (component : s.componentName ∈ s.reactiveComponents)
    {ancestors : Ancestors} {n n' : Node} {log : List Action} (h : Rewrites s ancestors n n' log)
    (bare : isSheltered s ancestors = false) :
    ∃ insertions, Edited s n n' insertions ∧
      insertions.map (·.action) = log.filter Action.isBoundary := by
  induction h with
  | @stop ancestors n c chosen stays =>
      cases chosen with
      | whole he hd ht hs hr hb hp =>
          refine ⟨_, .whole he hd.mayDefer hb hp, ?_⟩
          rw [List.filter_append, hd.noBoundary]
          rfl
      | other | container | boundary | element => cases stays
  | @onward ancestors n c results chosen descends length each ih =>
      have derived : Pointwise (fun a r => Rewrites s (c.node :: ancestors) a r.1 r.2) c.node.children
          results := ⟨length, each⟩
      -- Below a node that shelters, a rewrite inserts nothing.
      have quiet : c.node.shelters s = true →
          Pointwise (Normalized s) c.node.children (results.map (·.1)) ∧
          (results.flatMap (·.2)).filter Action.isBoundary = [] := by
        intro shelters
        refine silent_of_normalized (derived.mono fun _ _ _ _ rewrites => rewrites.normalized ?_)
        rw [isSheltered_cons, shelters, Bool.true_or]
      have kept : MayDefer s n c.node → c.actions.filter Action.isBoundary = [] →
          ∃ insertions, Edited s n (c.node.withChildren (results.map (·.1))) insertions ∧
            insertions.map (·.action) =
              (c.actions ++ results.flatMap (·.2)).filter Action.isBoundary := by
        intro start silent
        rw [List.filter_append, silent, List.nil_append]
        cases shelters : n.shelters s with
        | true =>
            obtain ⟨below, none⟩ := quiet ((shelters_of_mayDefer start).trans shelters)
            rw [none]
            exact ⟨[], .sheltering shelters start below, rfl⟩
        | false =>
            have inside : isSheltered s (c.node :: ancestors) = false := by
              rw [isSheltered_cons, shelters_of_mayDefer start, shelters, bare, Bool.or_false]
            refine Edited.gather shelters start (derived.map_right fun _ _ rewrites =>
              rewrites.exchange) ⟨length, fun i a r ha hr => ih i a r ha hr inside⟩
      cases chosen with
      | other | container => exact kept (.inl rfl) rfl
      | element he hd => exact kept hd.mayDefer hd.noBoundary
      | boundary hn ha hs hr hb hp =>
          obtain ⟨below, none⟩ := quiet (shelters_boundary component _ _)
          refine ⟨_, .container hn hb hp below, ?_⟩
          rw [List.filter_append, none]
          rfl
      | whole => cases descends

theorem mem_gathered {results : List (Node × List Insertion)} {insertion : Insertion} :
    insertion ∈ gathered results ↔ ∃ (i : Nat) (r : Node × List Insertion) (inner : Insertion),
      results[i]? = some r ∧ inner ∈ r.2 ∧ inner.below i = insertion := by
  simp only [gathered, List.mem_flatMap, List.mem_zipIdx_iff_getElem?, List.mem_map, Prod.exists]
  constructor
  · rintro ⟨m, insertions, i, found, inner, member, rfl⟩
    exact ⟨i, m, insertions, inner, found, member, rfl⟩
  · rintro ⟨i, m, insertions, inner, found, member, rfl⟩
    exact ⟨m, insertions, i, found, inner, member, rfl⟩

theorem Inserted.below {root m : Node} {path : List Nat} {i : Nat} (h : Inserted s m path)
    (child : root.children[i]? = some m) (bare : root.shelters s = false) :
    Inserted s root (i :: path) := by
  obtain ⟨⟨e, source, cs, found, inside⟩, above⟩ := h
  refine ⟨⟨e, source, cs, by rw [get?_cons, child]; exact found, inside⟩, ?_⟩
  intro shorter a isPrefix proper at'
  cases shorter with
  | nil =>
      cases at'
      exact bare
  | cons j shorter =>
      obtain ⟨rfl, inner⟩ := List.cons_prefix_cons.1 isPrefix
      rw [get?_cons, child] at at'
      exact above shorter a inner (fun same => proper (by rw [same])) at'

theorem Inserted.here {e : Node} {source : Option Node} {cs : List Node}
    (inside : Pointwise (Normalized s) (e.boundary s.componentName source).children cs) :
    Inserted s ((e.boundary s.componentName source).withChildren cs) [] := by
  refine ⟨⟨e, source, cs, rfl, inside⟩, fun shorter a isPrefix proper _ => ?_⟩
  exact absurd (List.prefix_nil.1 isPrefix) proper

theorem Edited.inserted {n n' : Node} {insertions : List Insertion} (h : Edited s n n' insertions)
    {insertion : Insertion} (member : insertion ∈ insertions) : Inserted s n' insertion.path := by
  induction h generalizing insertion with
  | sheltering => cases member
  | @onward n m results before start after length each ih =>
      obtain ⟨i, r, inner, found, listed, rfl⟩ := mem_gathered.1 member
      have bound := length ▸ (List.getElem?_eq_some_iff.1 found).1
      have inserted := ih i _ r (List.getElem?_eq_getElem bound) found listed
      refine inserted.below ?_ after
      rw [children_withChildren _ (by simpa using length), List.getElem?_map, found]
      rfl
  | container held hb ha below =>
      cases List.mem_singleton.1 member
      exact .here below
  | @whole n m _ _ element start hb ha =>
      cases List.mem_singleton.1 member
      have same : Pointwise (Normalized s) (m.boundary s.componentName none).children
          (m.boundary s.componentName none).children := .same fun c _ => .refl c
      have here := Inserted.here same
      rwa [withChildren_children] at here

theorem Edited.apart {n n' : Node} {insertions : List Insertion} (h : Edited s n n' insertions) :
    insertions.Pairwise fun a b => ¬a.path <+: b.path ∧ ¬b.path <+: a.path := by
  induction h with
  | sheltering => exact .nil
  | @onward n m results before start after length each ih =>
      refine List.pairwise_flatMap.2 ⟨?_, ?_⟩
      · rintro ⟨r, i⟩ member
        have found := List.mem_zipIdx_iff_getElem?.1 member
        have bound := length ▸ (List.getElem?_eq_some_iff.1 found).1
        refine List.pairwise_map.2 ((ih i _ r (List.getElem?_eq_getElem bound) found).imp ?_)
        rintro a b ⟨left, right⟩
        exact ⟨fun h => left (List.cons_prefix_cons.1 h).2, fun h => right (List.cons_prefix_cons.1 h).2⟩
      · have ordered : results.zipIdx.Pairwise fun a b => a.2 < b.2 := by
          rw [← List.pairwise_map (R := (· < ·)), List.zipIdx_map_snd]
          exact List.pairwise_lt_range'
        refine ordered.imp ?_
        rintro ⟨r, i⟩ ⟨r', j⟩ less x inX y inY
        obtain ⟨a, _, rfl⟩ := List.mem_map.1 inX
        obtain ⟨b, _, rfl⟩ := List.mem_map.1 inY
        refine ⟨fun h => ?_, fun h => ?_⟩
        · have same := (List.cons_prefix_cons.1 h).1
          omega
        · have same := (List.cons_prefix_cons.1 h).1
          omega
  | container | whole => exact List.pairwise_singleton _ _

end Node

/-- Whatever the options and the module are, a run of the wrapping pass without a fault inserts the
boundaries that it records, none of them below a node of the final tree that shelters and none inside
another, and below what shelters in the given tree it only defers children. -/
theorem wrapReads_suppressed (o : Options) (root : Node) (w : Walk)
    (done : ((Pass.wrapReads (.ofOptions o)).run root w).2.fault = none) :
    ∃ log insertions,
      w.progress.Advance log ((Pass.wrapReads (.ofOptions o)).run root w).2.progress ∧
      insertions.map (·.action) = log.filter Action.isBoundary ∧
      Node.Edited (.ofOptions o) root ((Pass.wrapReads (.ofOptions o)).run root w).1 insertions ∧
      (∀ insertion ∈ insertions, Node.Inserted (.ofOptions o)
        ((Pass.wrapReads (.ofOptions o)).run root w).1 insertion.path) ∧
      insertions.Pairwise fun a b => ¬a.path <+: b.path ∧ ¬b.path <+: a.path := by
  obtain ⟨log, rewrites, advance⟩ := Node.rewriteRoot_derives (Node.rewriteRoot_start done) done
  obtain ⟨insertions, edited, recorded⟩ :=
    rewrites.edited (Settings.componentName_mem_reactiveComponents o) rfl
  exact ⟨log, insertions, advance, recorded, edited, fun _ => edited.inserted, edited.apart⟩

def Sample.observed : Node :=
  .fresh (.program [.fresh (.call (.fresh (.identifier "observer"))
    [element "div" [] [read "a$"]] false), element "p" [] [read "b$"]])

theorem wrapReads_observed_suppressed :
    ((Pass.wrapReads (.ofOptions {})).run Sample.observed ⟨{}, none⟩).2.fault = none ∧
    ∃ log insertions,
      Progress.Advance {} log ((Pass.wrapReads (.ofOptions {})).run Sample.observed ⟨{}, none⟩).2.progress ∧
      insertions.map (·.action) = log.filter Action.isBoundary ∧
      Node.Edited (.ofOptions {}) Sample.observed
        ((Pass.wrapReads (.ofOptions {})).run Sample.observed ⟨{}, none⟩).1 insertions ∧
      (∀ insertion ∈ insertions, Node.Inserted (.ofOptions {})
        ((Pass.wrapReads (.ofOptions {})).run Sample.observed ⟨{}, none⟩).1 insertion.path) ∧
      insertions.Pairwise fun a b => ¬a.path <+: b.path ∧ ¬b.path <+: a.path := by
  have done : ((Pass.wrapReads (.ofOptions {})).run Sample.observed ⟨{}, none⟩).2.fault = none := by
    cbv
  exact ⟨done, wrapReads_suppressed {} Sample.observed ⟨{}, none⟩ done⟩

end JsxBoundary
