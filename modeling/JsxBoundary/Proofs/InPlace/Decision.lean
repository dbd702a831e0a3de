import JsxBoundary.InPlace.Traversal
import JsxBoundary.Proofs.InPlace.Scaffold
import JsxBoundary.Proofs.Replacement

namespace JsxBoundary.InPlace

open Edit

inductive Agrees {α β : Type} (h : Heap) (R : Heap → α → β → Prop) :
    Except Fault α × Store → Except Fault β × Progress → Prop
  | ok {a : α} {b : β} {h' : Heap} {p : Progress} (longer : h <+: h') (related : R h' a b) :
      Agrees h R (.ok a, ⟨h', p⟩) (.ok b, p)
  | error {fault : Fault} {h' : Heap} {p : Progress} (longer : h <+: h') :
      Agrees h R (.error fault, ⟨h', p⟩) (.error fault, p)

def Mirrors {α β : Type} (h : Heap) (R : Heap → α → β → Prop) (edit : Edit α) (step : Step β) : Prop :=
  ∀ p, Agrees h R (edit.runFrom ⟨h, p⟩) (step.runFrom p)

theorem Edit.runFrom_bind {α β : Type} (x : Edit α) (f : α → Edit β) (σ : Store) :
    (x >>= f).runFrom σ = match x.runFrom σ with
      | (.ok a, τ) => (f a).runFrom τ
      | (.error fault, τ) => (.error fault, τ) := by
  simp only [runFrom, ExceptT.run_bind, StateT.run_bind]
  change (match x.run.run σ with | (r, τ) => _) = _
  rcases x.run.run σ with ⟨r, τ⟩
  cases r <;> rfl

theorem Edit.runFrom_get (σ : Store) : (MonadState.get : Edit Store).runFrom σ = (.ok σ, σ) := rfl

theorem Edit.runFrom_emit (r : Ref) (σ : Store) : (Edit.emit r).runFrom σ = ((σ.heap.tree r).print, σ) := by
  rw [Edit.emit, Edit.runFrom_bind, Edit.runFrom_get]
  dsimp only
  cases (σ.heap.tree r).print <;> rfl

namespace Mirrors

variable {α β γ δ : Type} {h h' : Heap} {R : Heap → α → β → Prop} {T : Heap → γ → δ → Prop}

theorem pure {a : α} {b : β} (related : R h a b) : Mirrors h R (Pure.pure a) (Pure.pure b) :=
  fun _ => .ok (List.prefix_refl h) related

theorem throw (fault : Fault) : Mirrors h R (MonadExcept.throw fault) (MonadExcept.throw fault) :=
  fun _ => .error (List.prefix_refl h)

theorem bind {edit : Edit α} {step : Step β} {f : α → Edit γ} {g : β → Step δ} (first : Mirrors h R edit step)
    (next : ∀ (h' : Heap) a b, h <+: h' → R h' a b → Mirrors h' T (f a) (g b)) :
    Mirrors h T (edit >>= f) (step >>= g) := by
  intro p
  rw [Edit.runFrom_bind, Step.runFrom_bind]
  have agrees := first p
  generalize edit.runFrom ⟨h, p⟩ = result at agrees
  generalize step.runFrom p = outcome at agrees
  cases agrees with
  | error longer => exact .error longer
  | @ok a b h' q longer related =>
      have rest := next h' a b longer related q
      dsimp only
      generalize (f a).runFrom ⟨h', q⟩ = result at rest
      generalize (g b).runFrom q = outcome at rest
      cases rest with
      | error longer' => exact .error (longer.trans longer')
      | ok longer' related' => exact .ok (longer.trans longer') related'

theorem get {step : Step δ} {f : Store → Edit γ} (next : ∀ p, Mirrors h T (f ⟨h, p⟩) step) :
    Mirrors h T (MonadState.get >>= f) step :=
  fun p => next p p

theorem log {f : PUnit → Edit γ} {g : PUnit → Step δ} (change : Progress → Progress)
    (next : Mirrors h T (f ⟨⟩) (g ⟨⟩)) : Mirrors h T (log change >>= f) (modify change >>= g) :=
  fun p => next (change p)

theorem build {make : Build α} {f : α → Edit γ} {step : Step δ} (longer : h <+: (make h).2)
    (next : Mirrors (make h).2 T (f (make h).1) step) : Mirrors h T (build make >>= f) step := by
  intro p
  have rest := next p
  change Agrees h T ((f (make h).1).runFrom ⟨(make h).2, p⟩) (step.runFrom p)
  generalize (f (make h).1).runFrom ⟨(make h).2, p⟩ = result at rest
  generalize step.runFrom p = outcome at rest
  cases rest with
  | error longer' => exact .error (longer.trans longer')
  | ok longer' related => exact .ok (longer.trans longer') related

theorem emit {r : Ref} {n : Node} {S : Finset Ref} {f : String → Edit γ} {g : String → Step δ}
    (holds : h.Holds r n S) (next : ∀ text, Mirrors h T (f text) (g text)) :
    Mirrors h T (emit r >>= f) (ofExcept n.print >>= g) := by
  intro p
  rw [Edit.runFrom_bind, Edit.runFrom_emit, holds.tree_eq]
  cases n.print with
  | error fault => exact .error (List.prefix_refl h)
  | ok text => exact next text p

end Mirrors

def Heap.Sees (h : Heap) (entries : List Ref) (ancestors : Ancestors) : Prop :=
  Pointwise (h.Alike 3) entries ancestors

theorem any_eq_of_pointwise {α β : Type} {R : α → β → Prop} {as : List α} {bs : List β}
    {p : α → Bool} {q : β → Bool} (pairs : Pointwise R as bs) (same : ∀ a b, R a b → p a = q b) :
    as.any p = bs.any q := by
  induction as generalizing bs with
  | nil =>
      rw [pairs.of_nil]
      rfl
  | cons a as ih =>
      obtain ⟨b, bs, rfl, related, rest⟩ := pairs.of_cons
      rw [List.any_cons, List.any_cons, same a b related, ih rest]

namespace Heap.Sees

variable {h h' : Heap} {entries : List Ref} {ancestors : Ancestors}

theorem isSheltered (sees : h.Sees entries ancestors) (s : Settings) :
    h.isSheltered s entries = Node.isSheltered s ancestors := by
  have element := any_eq_of_pointwise sees fun r n alike => alike.isElementNamed s.reactiveComponents
  have call := any_eq_of_pointwise sees fun r n alike => alike.isCallNamed s.observerNames
  rw [Heap.isSheltered, element, call]
  rfl

theorem insideAttribute (sees : h.Sees entries ancestors) :
    entries.any h.isAttribute = ancestors.insideAttribute :=
  any_eq_of_pointwise sees fun _ _ alike => alike.isAttribute

theorem keeps (sees : h.Sees entries ancestors) (keeps : h.Keeps h') : h'.Sees entries ancestors :=
  Pointwise.mono sees fun r n _ _ alike => keeps 3 r n alike

end Heap.Sees

variable {s : Settings} {h h' : Heap} {r : Ref} {n : Node} {S : Finset Ref} {entries : List Ref}
  {ancestors : Ancestors}

/-- The object stays as the node does, or a new object holds the node in its place. If the traversal goes on
below the new object, the old one is not there, and what else is new is scaffolding. -/
inductive Settles (h : Heap) (r : Ref) (n : Node) (S : Finset Ref) (h' : Heap) :
    Ref → Decision n → Prop
  | stays {d : Decision n} (node : d.node = n) (replaced : d.replaced = false) : Settles h r n S h' r d
  | gives {c : Ref} {d : Decision n} (replaced : d.replaced = true) (gains : h.Gains h' S c d.node)
      (gone : n.isMarkup = true) (markup : d.node.isMarkup = true)
      (inner : d.descend = true → h.Gains h' (S.erase r) c d.node ∧ h.Frames h' c) : Settles h r n S h' c d

theorem Settles.trans {h₁ h₂ : Heap} {c b : Ref} {d : Decision n} {m : Node} (settles : Settles h r n S h₁ c d)
    (holds : h.Holds r n S) (longer : h <+: h₁)
    (next : ∀ T, h₁.Holds c d.node T → h₁.Gains h₂ T b m) : h.Gains h₂ S b m := by
  cases settles with
  | stays node =>
      rw [node] at next
      exact (next S (holds.extend longer)).after longer
  | gives _ gains => exact gains.trans next

theorem tree_of_container {expression : Ref} {e : Node} (holds : h.Holds r n S)
    (seen : h.form? r = some (.container expression)) (own : n.form = .container e) :
    h.tree expression = e := by
  obtain ⟨o, area, layer, rfl, rfl⟩ := holds.layer
  rw [Heap.form?_eq layer.found] at seen
  have whole : (o.toNode h.tree).form = o.form.map h.tree := rfl
  rw [own, Option.some.inj seen] at whole
  cases whole
  rfl

theorem editContainer_mirrors {expression : Ref} {e : Node} (holds : h.Holds r n S)
    (seen : h.form? r = some (.container expression)) (own : n.form = .container e)
    (sees : h.Sees entries ancestors) :
    Mirrors h (fun h' a d => a.2 = d.descend ∧ Settles h r n S h' a.1 d)
      (editContainer s entries r expression) (n.decideContainer s ancestors e own) := by
  have inner := tree_of_container holds seen own
  have keep : Mirrors h (fun h' a d => a.2 = d.descend ∧ Settles h r n S h' a.1 d)
      (Pure.pure (r, true)) (Pure.pure (Decision.keep n)) := .pure ⟨rfl, .stays rfl rfl⟩
  unfold editContainer Node.decideContainer
  refine .get fun p => ?_
  dsimp only
  rw [sees.isSheltered, sees.insideAttribute, inner]
  by_cases sheltered : (ancestors.insideAttribute || Node.isSheltered s ancestors) = true
  · rw [if_pos sheltered, if_pos sheltered]
    exact keep
  · rw [if_neg sheltered, if_neg sheltered]
    by_cases reads : e.containsRead s.policy = true
    · rw [if_pos reads, dif_pos reads]
      have gains := Build.boundary_gains s.componentName (Build.Wraps.held holds seen inner)
      refine .build gains.longer (.log Progress.mark ?_)
      obtain ⟨T, holds', _⟩ := gains.holds
      refine .emit (holds.extend gains.longer) fun before => .emit holds' fun after => ?_
      rw [holds.tree_eq]
      have frames := Build.boundary_frames s.componentName expression (some r) h
      have whole := gains.mono (Finset.erase_subset r S)
      refine .log _ (.pure ⟨rfl, .gives rfl whole ?_ rfl fun _ => ⟨gains, frames⟩⟩)
      simp [Node.isMarkup, own]
    · rw [if_neg reads, dif_neg reads]
      exact keep

theorem isMarkup_of_deferChildren? {m : Node} (made : n.deferChildren? = some m) :
    n.isMarkup = true ∧ m.isMarkup = true := by
  obtain ⟨opening, content, closing, body, form, _, _, _, _, rfl⟩ := Node.deferChildren?_some made
  exact ⟨by simp [Node.isMarkup, form], rfl⟩

theorem editDeferral_mirrors (holds : h.Holds r n S) :
    Mirrors h (fun h' c d => d.descend = true ∧ Settles h r n S h' c d) (editDeferral s r)
      (n.decideDeferral s) := by
  have keep : Mirrors h (fun h' c d => d.descend = true ∧ Settles h r n S h' c d)
      (Pure.pure r) (Pure.pure (Decision.keep n)) := .pure ⟨rfl, .stays rfl rfl⟩
  unfold editDeferral
  refine .get fun p => ?_
  dsimp only
  rw [holds.tree_eq]
  have offers := deferral_offers holds
  unfold Node.decideDeferral
  cases n.tagName?.filter s.deferringComponents.contains with
  | none =>
      dsimp only
      split <;> exact keep
  | some tag =>
      dsimp only
      split
      · rename_i m made
        rw [made] at offers
        cases found : (Build.deferral r h).1 with
        | none =>
            rw [found] at offers
            cases offers
        | some c =>
            rw [found] at offers
            cases offers with
            | made gains =>
                obtain ⟨T, holds', _⟩ := gains.holds
                refine .build gains.longer ?_
                rw [found]
                refine .log _ (.emit (holds.extend gains.longer) fun before => .emit holds' fun after => ?_)
                obtain ⟨gone, markup⟩ := isMarkup_of_deferChildren? made
                have whole := gains.mono (Finset.erase_subset r S)
                exact .log _ (.pure ⟨rfl, .gives rfl whole gone markup fun _ =>
                  ⟨gains, Build.deferral_frames found⟩⟩)
      · rename_i refused
        rw [refused] at offers
        cases found : (Build.deferral r h).1 with
        | some c =>
            rw [found] at offers
            cases offers
        | none =>
            rw [found] at offers
            cases offers with
            | nothing longer =>
                refine .build longer ?_
                rw [found]
                exact .pure ⟨rfl, .stays rfl rfl⟩

theorem editElement_mirrors (holds : h.Holds r n S) (element : n.isElement = true)
    (sees : h.Sees entries ancestors) :
    Mirrors h (fun h' a d => a.2 = d.descend ∧ Settles h r n S h' a.1 d)
      (editElement s entries r) (n.decideElement s ancestors) := by
  unfold editElement Node.decideElement
  refine .get fun p => ?_
  dsimp only
  rw [holds.tree_eq]
  cases n.openingTag? with
  | none => exact .throw .missingPart
  | some tag =>
      refine .bind (editDeferral_mirrors holds) fun h₁ c d longer ⟨descend, settles⟩ => .get fun p => ?_
      obtain ⟨T, holds'⟩ : ∃ T, h₁.Holds c d.node T := by
        cases settles with
        | stays node => exact ⟨S, node.symm ▸ holds.extend longer⟩
        | gives _ gains => exact gains.holds.imp fun T => And.left
      dsimp only
      rw [(sees.keeps (.of_longer longer)).isSheltered]
      by_cases quiet : (Node.isSheltered s ancestors || !tag.hasReadingAttribute s.policy) = true
      · rw [if_pos quiet, if_pos quiet]
        exact .pure ⟨descend.symm, settles⟩
      · rw [if_neg quiet, if_neg quiet]
        refine .emit holds' fun before => ?_
        have built := fun T (holds : h₁.Holds c d.node T) =>
          Build.boundary_gains s.componentName (Build.Wraps.bare holds)
        have gains := settles.trans holds longer built
        refine .build (built T holds').longer (.log Progress.mark ?_)
        obtain ⟨U, holds'', _⟩ := gains.holds
        refine .emit holds'' fun after => ?_
        rw [holds'.tree_eq]
        exact .log _ (.pure ⟨rfl, .gives rfl gains (Node.isMarkup_of_isElement element) rfl fun going => by
          cases going⟩)

theorem edit_mirrors (holds : h.Holds r n S) (sees : h.Sees entries ancestors) :
    Mirrors h (fun h' a d => a.2 = d.descend ∧ Settles h r n S h' a.1 d) (edit s entries r)
      (n.decide s ancestors) := by
  obtain ⟨o, area, layer, rfl, _⟩ := holds.layer
  have seen := Heap.form?_eq layer.found
  have form : (o.toNode h.tree).form = o.form.map h.tree := rfl
  unfold Node.decide
  split
  · rename_i own
    rw [form] at own
    refine .get fun p => ?_
    dsimp only
    rw [seen]
    cases kind : o.form with
    | element => exact editElement_mirrors holds (by simp [Node.isElement, form, own]) sees
    | _ =>
        rw [kind] at own
        cases own
  · rename_i e own
    have shape := own
    rw [form] at shape
    refine .get fun p => ?_
    dsimp only
    rw [seen]
    cases kind : o.form with
    | container => exact editContainer_mirrors holds (seen.trans (congrArg some kind)) own sees
    | _ =>
        rw [kind] at shape
        cases shape
  · rename_i element container
    rw [form] at element container
    refine .get fun p => ?_
    dsimp only
    rw [seen]
    cases kind : o.form with
    | element => exact absurd (congrArg (Form.map h.tree) kind) (element _ _ _)
    | container => exact absurd (congrArg (Form.map h.tree) kind) (container _)
    | _ => exact .pure ⟨rfl, .stays rfl rfl⟩

end JsxBoundary.InPlace
