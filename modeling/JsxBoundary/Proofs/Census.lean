import JsxBoundary.Proofs.Accounts

namespace JsxBoundary

namespace Node

/-- The number of nodes in the tree for which the test holds. -/
def tally (p : Node → Bool) (n : Node) : Nat :=
  (if p n then 1 else 0) + (n.children.attach.map fun ⟨c, _⟩ => c.tally p).sum
termination_by n
decreasing_by exact sizeOf_lt_of_mem_children ‹_›

def tallyAll (p : Node → Bool) (ns : List Node) : Nat :=
  (ns.map (tally p)).sum

def isSite (n : Node) : Bool :=
  n.isElement || n.contained?.any fun e => !e.isFunction

section

variable {p q r : Node → Bool} {n : Node} {ms ns : List Node}

theorem tally_eq (p : Node → Bool) (n : Node) : n.tally p = (if p n then 1 else 0) + tallyAll p n.children := by
  rw [tally, tallyAll, List.map_subtype fun _ _ => rfl, List.unattach_attach]

@[simp] theorem tallyAll_nil (p : Node → Bool) : tallyAll p [] = 0 := rfl

@[simp] theorem tallyAll_cons (p : Node → Bool) (n : Node) (ns : List Node) :
    tallyAll p (n :: ns) = n.tally p + tallyAll p ns := by
  simp [tallyAll]

@[simp] theorem tallyAll_append (p : Node → Bool) (ms ns : List Node) :
    tallyAll p (ms ++ ns) = tallyAll p ms + tallyAll p ns := by
  simp [tallyAll]

theorem tallyAll_le_of_sublist (sub : ms.Sublist ns) : tallyAll p ms ≤ tallyAll p ns := by
  induction sub with
  | slnil => exact Nat.le_refl _
  | cons _ _ ih => rw [tallyAll_cons]; omega
  | cons_cons _ _ ih => rw [tallyAll_cons, tallyAll_cons]; omega

theorem tally_le_add (either : ∀ n, p n = true → q n = true ∨ r n = true) (n : Node) :
    n.tally p ≤ n.tally q + n.tally r := by
  have below : ∀ c ∈ n.children, c.tally p ≤ c.tally q + c.tally r :=
    fun c member => tally_le_add either c
  have all : tallyAll p n.children ≤ tallyAll q n.children + tallyAll r n.children := by
    generalize n.children = cs at below
    induction cs with
    | nil => exact Nat.le_refl _
    | cons c cs ih =>
        have first := below c (.head _)
        have rest := ih fun d member => below d (.tail _ member)
        simp only [tallyAll_cons]
        omega
  have own : (if p n then 1 else 0) ≤ (if q n then 1 else 0) + (if r n then 1 else 0) := by
    by_cases holds : p n = true
    · rcases either n holds with left | right <;> simp [*]
    · simp [holds]
  rw [tally_eq p, tally_eq q, tally_eq r]
  omega
termination_by n
decreasing_by exact sizeOf_lt_of_mem_children ‹_›

theorem tally_isSite_le (n : Node) :
    n.tally isSite ≤ n.tally isElement + n.tally fun n => n.contained?.isSome := by
  refine tally_le_add (fun m site => ?_) n
  rw [isSite, Bool.or_eq_true] at site
  refine site.imp_right fun held => ?_
  obtain ⟨e, found, _⟩ := (Option.any_eq_true _ _).1 held
  rw [found]
  rfl

theorem isElement_of_isScaffold (scaffold : n.isScaffold = true) : n.isElement = false := by
  unfold isScaffold at scaffold
  unfold isElement
  split at scaffold <;> simp_all

theorem isSite_of_isScaffold (scaffold : n.isScaffold = true) : n.isSite = false := by
  rw [isSite, isElement_of_isScaffold scaffold, Bool.false_or]
  unfold isScaffold at scaffold
  unfold contained?
  split at scaffold
  case h_6 e form => simp [form, isFunction_of_isArrow scaffold]
  all_goals simp_all

end

section

variable {p : Node → Bool} (bare : ∀ n : Node, n.isScaffold = true → p n = false) {s : Settings}
  {ancestors : Ancestors} {n m : Node}

include bare

theorem tally_scaffold (scaffold : n.isScaffold = true) : n.tally p = tallyAll p n.children := by
  rw [tally_eq, bare n scaffold]
  simp

theorem tally_thunk (body : Node) (source : Option Node) : (body.thunk source).tally p = body.tally p := by
  obtain ⟨layout, form⟩ := form_thunk body source
  have arrow : (mk (.arrow body none) layout).tally p = body.tally p := by
    rw [tally_scaffold bare rfl]
    simp [children, Form.children]
  rw [tally_scaffold bare (isScaffold_thunk body source), children, form]
  simp [Form.children, arrow]

theorem tallyAll_boundary (component : String) (e : Node) (source : Option Node) :
    tallyAll p (e.boundary component source).children = e.tally p := by
  have name : (fresh (.identifier component)).tally p = 0 := tally_scaffold bare rfl
  have opening : (fresh (.openingTag (fresh (.identifier component)) [] false)).tally p = 0 := by
    rw [tally_scaffold bare rfl]
    simp [children, Form.children, name]
  have closing : (fresh (.closingTag (fresh (.identifier component)))).tally p = 0 := by
    rw [tally_scaffold bare rfl]
    simp [children, Form.children, name]
  simp [children_boundary, opening, closing, tally_thunk bare]

theorem tallyAll_deferral (made : n.deferral? s = some m) : tallyAll p m.children ≤ tallyAll p n.children := by
  obtain ⟨opening, content, closing, body, form, _, _, _, chosen, rfl⟩ :=
    deferChildren?_some (deferral?_some made)
  have kept : tallyAll p (keptContent content) ≤ tallyAll p content :=
    tallyAll_le_of_sublist List.filter_sublist
  have inner : body.tally p ≤ tallyAll p (keptContent content) := by
    rcases deferredBody?_some chosen with ⟨c, lone, _, rfl⟩ | ⟨c, lone, held, _⟩ | ⟨_, rfl⟩
    · simp [lone]
    · have outer : c.tally p = (if p c then 1 else 0) + body.tally p := by
        rw [tally_eq, children, held]
        simp [Form.children]
      simp [lone, outer]
    · exact Nat.le_of_eq (tally_scaffold bare rfl)
  have before : n.children = opening :: (content ++ closing.toList) := by simp [children, form, Form.children]
  rw [before]
  show tallyAll p (opening :: body.thunk (loneContainer? (keptContent content)) :: closing.toList) ≤ _
  simp only [tallyAll_cons, tallyAll_append, tally_thunk bare]
  omega

theorem Chosen.tally_le {choice : Choice} (chosen : Chosen s ancestors n choice)
    (descends : choice.descend = true) : tallyAll p choice.node.children ≤ tallyAll p n.children := by
  cases chosen with
  | other | container => exact Nat.le_refl _
  | boundary form =>
      rw [tallyAll_boundary bare, children, form]
      simp [Form.children]
  | element _ deferring =>
      cases deferring with
      | stays => exact Nat.le_refl _
      | deferred made => exact tallyAll_deferral bare made
  | whole => cases descends

end

end Node

namespace Progress

/-- The number of deferrals that the trace records. -/
def deferred (p : Progress) : Nat :=
  p.trace.actions.countP Action.isDeferral

/-- From the first progress to the second, no more boundaries and deferrals than this are recorded. -/
structure Within (p : Progress) (boundaries deferrals : Nat) (q : Progress) : Prop where
  boundaries : q.recorded ≤ p.recorded + boundaries
  deferrals : q.deferred ≤ p.deferred + deferrals

namespace Within

variable {p q r : Progress} {b b' d d' : Nat}

theorem silent (same : q.trace = p.trace) : p.Within b d q :=
  ⟨by simp [recorded, same], by simp [deferred, same]⟩

theorem trans (first : p.Within b d q) (second : q.Within b' d' r) : p.Within (b + b') (d + d') r := by
  obtain ⟨low, low'⟩ := first
  obtain ⟨high, high'⟩ := second
  exact ⟨by omega, by omega⟩

theorem mono (within : p.Within b d q) (more : b ≤ b') (more' : d ≤ d') : p.Within b' d' q := by
  obtain ⟨low, low'⟩ := within
  exact ⟨by omega, by omega⟩

theorem record {a : Action} (same : q.trace = p.trace.record a)
    (boundary : (if a.isBoundary then 1 else 0) ≤ b) (deferral : (if a.isDeferral then 1 else 0) ≤ d) :
    p.Within b d q := by
  have actions : q.trace.actions = p.trace.actions ++ [a] := by
    rw [same]
    exact Trace.actions_foldl_record p.trace [a]
  refine ⟨?_, ?_⟩
  · rw [recorded, actions, List.countP_append, List.countP_singleton]
    exact Nat.add_le_add_left boundary _
  · rw [deferred, actions, List.countP_append, List.countP_singleton]
    exact Nat.add_le_add_left deferral _

end Within

end Progress

namespace Step

variable {α β : Type} {b b' d d' : Nat}

def Within (b d : Nat) (x : Step α) : Prop :=
  ∀ p : Progress, p.Within b d (x.runFrom p).2

namespace Within

theorem pure (a : α) : Within b d (pure a : Step α) :=
  fun _ => .silent rfl

theorem throw (fault : Fault) : Within b d (throw fault : Step α) :=
  fun _ => .silent rfl

theorem bind {x : Step α} {f : α → Step β} (first : Within b d x) (second : ∀ a, Within b' d' (f a)) :
    Within (b + b') (d + d') (x >>= f) := by
  intro p
  have start := first p
  rw [runFrom_bind]
  generalize x.runFrom p = result at start ⊢
  obtain ⟨fault | a, q⟩ := result
  · exact start.mono (Nat.le_add_right b b') (Nat.le_add_right d d')
  · exact start.trans (second a q)

theorem ofExcept_bind {x : Except Fault α} {f : α → Step β} (h : ∀ a, Within b d (f a)) :
    Within b d (ofExcept x >>= f) := by
  cases x with
  | error fault => exact .throw fault
  | ok a => exact h a

theorem silent_bind {f : Progress → Progress} {g : PUnit → Step β} (silent : ∀ p, (f p).trace = p.trace)
    (h : Within b d (g ⟨⟩)) : Within b d (modify f >>= g) := by
  intro p
  rw [modify_bind]
  have whole := (Progress.Within.silent (b := 0) (d := 0) (silent p)).trans (h (f p))
  rwa [Nat.zero_add, Nat.zero_add] at whole

theorem last {f : Progress → Progress} {a : Action} {c : α} (records : ∀ p, (f p).trace = p.trace.record a)
    (boundary : (if a.isBoundary then 1 else 0) ≤ b) (deferral : (if a.isDeferral then 1 else 0) ≤ d) :
    Within b d (do modify f; Pure.pure c : Step α) :=
  fun p => .record (records p) boundary deferral

theorem mono {x : Step α} (within : Within b d x) (more : b ≤ b') (more' : d ≤ d') : Within b' d' x :=
  fun p => (within p).mono more more'

end Within

end Step

namespace Node

variable {s : Settings} {ancestors : Ancestors} {n : Node} {b d : Nat}

theorem decideDeferral_within : (n.decideDeferral s).Within 0 1 := by
  unfold decideDeferral
  split
  · split
    · exact .silent_bind (fun _ => rfl) <| .ofExcept_bind fun _ => .ofExcept_bind fun _ =>
        .last (fun _ => rfl) (Nat.le_refl 0) (Nat.le_refl 1)
    · exact .pure _
  · exact .pure _

theorem decideElement_within : (n.decideElement s ancestors).Within 1 1 := by
  unfold decideElement
  split
  · exact .throw _
  · -- The deferral comes first, then the boundary.
    refine show Step.Within (0 + 1) (1 + 0) _ from .bind decideDeferral_within fun d => ?_
    split
    · exact .pure _
    · exact .ofExcept_bind fun _ => .silent_bind (fun _ => rfl) <| .ofExcept_bind fun _ =>
        .last (fun _ => rfl) (Nat.le_refl 1) (Nat.le_refl 0)

theorem decideContainer_within {e : Node} (form : n.form = .container e)
    (site : e.isFunction = false → 1 ≤ b) : (n.decideContainer s ancestors e form).Within b d := by
  unfold decideContainer
  split
  · exact .pure _
  · split
    · rename_i reads
      have one := site (isFunction_eq_false_of_containsRead reads)
      exact .silent_bind (fun _ => rfl) <| .ofExcept_bind fun _ => .ofExcept_bind fun _ =>
        .last (fun _ => rfl) one (Nat.zero_le d)
    · exact .pure _

theorem decide_within (s : Settings) (ancestors : Ancestors) (site : n.isSite = true → 1 ≤ b)
    (element : n.isElement = true → 1 ≤ d) : (n.decide s ancestors).Within b d := by
  unfold decide
  split
  · rename_i form
    have own : n.isElement = true := by
      unfold isElement
      rw [form]
    exact decideElement_within.mono (site (by rw [isSite, own]; rfl)) (element own)
  · rename_i e form
    exact decideContainer_within form fun plain => site (by simp [isSite, contained?, form, plain])
  · exact .pure _

theorem mapM_rewrite_within {cs : List Node}
    (each : ∀ c ∈ cs, ∀ w : Walk,
      w.progress.Within (c.tally isSite) (c.tally isElement) (c.rewrite s ancestors w).2.progress)
    (w : Walk) : w.progress.Within (tallyAll isSite cs) (tallyAll isElement cs)
      ((cs.mapM (rewrite s ancestors)).run w).2.progress := by
  induction cs generalizing w with
  | nil => exact .silent rfl
  | cons c cs ih =>
      rw [Walk.mapM_cons, tallyAll_cons, tallyAll_cons]
      exact (each c (.head _) w).trans (ih (fun c member => each c (.tail _ member)) _)

/-- A rewrite of a tree, also one that stops with a fault, records at most one boundary for each site and at
most one deferral for each element. -/
theorem rewrite_within (s : Settings) (ancestors : Ancestors) (n : Node) (w : Walk) :
    w.progress.Within (n.tally isSite) (n.tally isElement) (n.rewrite s ancestors w).2.progress := by
  have own : w.progress.Within (if n.isSite then 1 else 0) (if n.isElement then 1 else 0)
      ((n.decide s ancestors).runFrom w.progress).2 := by
    refine decide_within s ancestors (fun site => ?_) (fun element => ?_) w.progress
    · rw [if_pos site]
    · rw [if_pos element]
  have alone : ∀ q, w.progress.Within (if n.isSite then 1 else 0) (if n.isElement then 1 else 0) q →
      w.progress.Within (n.tally isSite) (n.tally isElement) q := fun q within => by
    rw [tally_eq, tally_eq]
    exact within.mono (Nat.le_add_right _ _) (Nat.le_add_right _ _)
  rw [rewrite_eq]
  by_cases stopped : w.fault.isSome = true
  · rw [if_pos stopped]
    exact .silent rfl
  · rw [if_neg stopped]
    rcases decided : (n.decide s ancestors).runFrom w.progress with ⟨fault | d, p⟩
    · rw [decided] at own
      exact alone p own
    · rw [decided] at own
      dsimp only at own ⊢
      by_cases descends : d.descend = true
      · rw [if_pos descends, tally_eq, tally_eq]
        obtain ⟨c, chosen, node, descend, _⟩ := decide_chosen decided
        -- The recursion is that of the rewrite.
        have each := fun c (member : c ∈ d.node.children) w => rewrite_within s (d.node :: ancestors) c w
        have below := mapM_rewrite_within each ⟨p, none⟩
        have onward := descend.symm.trans descends
        have sites := chosen.tally_le (p := isSite) (fun _ => isSite_of_isScaffold) onward
        have elements := chosen.tally_le (p := isElement) (fun _ => isElement_of_isScaffold) onward
        rw [← node] at sites elements
        exact own.trans (below.mono sites elements)
      · rw [if_neg descends]
        exact alone p own
termination_by n.weight
decreasing_by exact d.lighter ‹_› _ ‹_›

end Node

end JsxBoundary
