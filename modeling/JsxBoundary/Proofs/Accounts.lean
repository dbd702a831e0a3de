import JsxBoundary.Proofs.Completion
import JsxBoundary.Proofs.Records
import JsxBoundary.Rewrite.Session

namespace JsxBoundary

namespace Progress

/-- The number of boundaries that the trace records. -/
def recorded (p : Progress) : Nat :=
  p.trace.actions.countP Action.isBoundary

/-- From the first progress to the second, the boundaries counted are those recorded and the lost ones,
and the import is asked for as soon as one is counted. -/
structure Books (p : Progress) (lost : Nat) (q : Progress) : Prop where
  count : q.rewriteCount + p.recorded = p.rewriteCount + q.recorded + lost
  grown : p.rewriteCount ≤ q.rewriteCount
  needs : q.needsImport = (p.needsImport || decide (p.rewriteCount < q.rewriteCount))

namespace Books

variable {p q r : Progress} {lost lost' : Nat}

theorem same (count : q.rewriteCount = p.rewriteCount) (needs : q.needsImport = p.needsImport)
    (recorded : q.recorded = p.recorded) : Books p 0 q :=
  ⟨by omega, by omega, by simp [count, needs]⟩

theorem refl (p : Progress) : Books p 0 p :=
  same rfl rfl rfl

theorem trans (first : Books p lost q) (second : Books q lost' r) : Books p (lost + lost') r := by
  have grown := first.grown
  have grown' := second.grown
  refine ⟨?_, grown.trans grown', ?_⟩
  · have count := first.count
    have count' := second.count
    omega
  · rw [second.needs, first.needs, Bool.or_assoc, ← Bool.decide_or]
    congr 2
    exact propext ⟨by omega, by omega⟩

theorem of_advance {actions : List Action} (h : p.Advance actions q) : Books p 0 q := by
  have recorded : q.recorded = p.recorded + actions.countP Action.isBoundary := by
    rw [Progress.recorded, h.trace, Trace.actions_foldl_record, List.countP_append]
    rfl
  refine ⟨by rw [recorded, h.count]; omega, by rw [h.count]; omega, ?_⟩
  rw [h.needsImport, h.count, List.any_eq]
  congr 2
  exact propext (by rw [Nat.lt_add_right_iff_pos, List.countP_pos_iff])

theorem mark (p : Progress) : Books p 1 p.mark :=
  ⟨by simp [Progress.mark, Progress.recorded]; omega, Nat.le_succ _, by simp [Progress.mark]⟩

theorem counted (p : Progress) (typeName before after line : String) :
    Books p 0 ((p.mark.record (.boundary typeName before after)).note line) := by
  have advance : p.Advance [.boundary typeName before after]
      ((p.mark.record (.boundary typeName before after)).note line) :=
    ⟨rfl, by simp [Progress.note, Progress.record, Progress.mark, Action.isBoundary], rfl⟩
  exact .of_advance advance

end Books

end Progress

namespace Step

variable {α β : Type}

def Books (lost : Nat) (x : Step α) : Prop :=
  ∀ p : Progress, p.Books (if (x.runFrom p).1.isOk then 0 else lost) (x.runFrom p).2

def Steady (x : Step α) : Prop :=
  ∀ p q : Progress, (x.runFrom p).1 = (x.runFrom q).1

theorem Steady.pure (a : α) : Steady (pure a : Step α) :=
  fun _ _ => rfl

theorem Steady.throw (fault : Fault) : Steady (throw fault : Step α) :=
  fun _ _ => rfl

theorem Steady.bind {x : Step α} {f : α → Step β} (first : Steady x) (second : ∀ a, Steady (f a)) :
    Steady (x >>= f) := by
  intro p q
  have same := first p q
  rw [runFrom_bind, runFrom_bind]
  generalize x.runFrom p = before at same ⊢
  generalize x.runFrom q = after at same ⊢
  obtain ⟨result, p'⟩ := before
  obtain ⟨_, q'⟩ := after
  cases same
  cases result with
  | error fault => rfl
  | ok a => exact second a p' q'

theorem Steady.ofExcept_bind {x : Except Fault α} {f : α → Step β} (h : ∀ a, Steady (f a)) :
    Steady (ofExcept x >>= f) := by
  cases x with
  | error fault => exact .throw fault
  | ok a => exact h a

theorem Steady.modify_bind {f : Progress → Progress} {g : PUnit → Step β} (h : Steady (g ⟨⟩)) :
    Steady (modify f >>= g) :=
  fun p q => h (f p) (f q)

theorem Books.pure (a : α) (lost : Nat) : Books lost (pure a : Step α) :=
  fun p => .refl p

theorem Books.bind {lost : Nat} {x : Step α} {f : α → Step β} (first : Books lost x)
    (second : ∀ a, Books lost (f a)) : Books lost (x >>= f) := by
  intro p
  have start := first p
  rw [runFrom_bind]
  generalize x.runFrom p = result at start ⊢
  obtain ⟨fault | a, q⟩ := result
  · exact start
  · have whole := start.trans (second a q)
    change p.Books (0 + _) _ at whole
    rwa [Nat.zero_add] at whole

theorem Books.counting {before after : Except Fault String}
    (known : ∀ t, before = .ok t → ∃ t', after = .ok t') {typeName line : String} {a : α} :
    Books 0 (do
      let t ← ofExcept before
      modify Progress.mark
      let t' ← ofExcept after
      modify fun p => (p.record (.boundary typeName t t')).note line
      Pure.pure a) := by
  intro p
  cases before with
  | error fault => exact .refl p
  | ok t =>
      obtain ⟨t', rfl⟩ := known t rfl
      exact .counted p typeName t t' line

end Step

namespace Node

variable {s : Settings} {ancestors : Ancestors} {n : Node}

theorem decideDeferral_steady : (n.decideDeferral s).Steady := by
  unfold decideDeferral
  split
  · split
    · exact .modify_bind <| .ofExcept_bind fun _ => .ofExcept_bind fun _ => .modify_bind (.pure _)
    · exact .pure _
  · exact .pure _

theorem decide_steady : (n.decide s ancestors).Steady := by
  unfold decide
  split
  · unfold decideElement
    split
    · exact .throw _
    · refine .bind decideDeferral_steady fun d => ?_
      split
      · exact .pure _
      · exact .ofExcept_bind fun _ => .modify_bind <| .ofExcept_bind fun _ => .modify_bind (.pure _)
  · unfold decideContainer
    split
    · exact .pure _
    · split
      · exact .modify_bind <| .ofExcept_bind fun _ => .ofExcept_bind fun _ => .modify_bind (.pure _)
      · exact .pure _
  · exact .pure _

theorem decideDeferral_books : (n.decideDeferral s).Books 0 := by
  intro p
  rcases ran : (n.decideDeferral s).runFrom p with ⟨fault | d, q⟩
  · -- A deferral stops before it has recorded anything.
    unfold decideDeferral at ran
    split at ran
    · rename_i m _
      split at ran
      · rw [Step.modify_bind] at ran
        cases before : n.print with
        | error fault =>
            rw [before] at ran
            cases ran
            exact .same rfl rfl rfl
        | ok t =>
            cases after : m.print with
            | error fault =>
                rw [before, after] at ran
                cases ran
                exact .same rfl rfl rfl
            | ok t' =>
                rw [before, after] at ran
                cases ran
      · cases ran
    · cases ran
  · obtain ⟨_, _, _, advance⟩ := decideDeferral_ok ran
    exact .of_advance advance

theorem decideElement_books : (n.decideElement s ancestors).Books 0 := by
  unfold decideElement
  split
  · exact fun p => .refl p
  · refine .bind decideDeferral_books fun d => ?_
    split
    · exact .pure _ 0
    · -- A boundary around an element that prints is printed, too.
      have edits : d.node.Edits s.componentName false (d.node.boundary s.componentName none) :=
        ((Edits.refl d.node).thunk rfl).edits.boundary.edits
      refine .counting fun t before => ?_
      obtain ⟨t', after, _⟩ := edits t before
      exact ⟨t', after⟩

theorem decideContainer_books {expression : Node} (form : n.form = .container expression) :
    (n.decideContainer s ancestors expression form).Books 1 := by
  unfold decideContainer
  split
  · exact .pure _ 1
  · split
    · intro p
      rw [Step.modify_bind]
      cases before : n.print with
      | error fault => exact .mark p
      | ok t =>
          cases after : (expression.boundary s.componentName (some n)).print with
          | error fault => exact .mark p
          | ok t' => exact .counted p _ t t' _
    · exact .pure _ 1

def stake (n : Node) : Nat :=
  if n.contained?.isSome then 1 else 0

theorem decide_books (s : Settings) (ancestors : Ancestors) (n : Node) :
    (n.decide s ancestors).Books n.stake := by
  unfold decide
  split
  · rename_i form
    have element : n.stake = 0 := by simp [stake, contained?, form]
    exact element ▸ decideElement_books
  · rename_i e form
    have container : n.stake = 1 := by simp [stake, contained?, form]
    exact container ▸ decideContainer_books form
  · exact .pure _ _

def stopsAt? (s : Settings) (ancestors : Ancestors) (n : Node) : Option Node :=
  match ((n.decide s ancestors).runFrom {}).1 with
  | .error _ => some n
  | .ok d =>
    if _h : d.descend then
      d.node.children.attach.findSome? fun ⟨c, _⟩ => c.stopsAt? s (d.node :: ancestors)
    else none
termination_by n.weight
decreasing_by exact d.lighter _h _ ‹_›

theorem stopsAt?_eq (s : Settings) (ancestors : Ancestors) (n : Node) (p : Progress) :
    n.stopsAt? s ancestors = match ((n.decide s ancestors).runFrom p).1 with
      | .error _ => some n
      | .ok d =>
        if d.descend then d.node.children.findSome? (stopsAt? s (d.node :: ancestors)) else none := by
  rw [stopsAt?, decide_steady {} p]
  generalize ((n.decide s ancestors).runFrom p).1 = result
  cases result with
  | error fault => rfl
  | ok d =>
      dsimp only
      by_cases descends : d.descend = true
      · rw [dif_pos descends, if_pos descends, List.findSome?_subtype fun _ _ => rfl,
          List.unattach_attach]
      · rw [dif_neg descends, if_neg descends]

end Node

def lostAt (stop : Option Node) : Nat :=
  stop.elim 0 Node.stake

structure Walk.Ends (w : Walk) (stop : Option Node) (w' : Walk) : Prop where
  fault : w'.fault.isSome = stop.isSome
  books : w.progress.Books (lostAt stop) w'.progress

namespace Node

theorem mapM_rewrite_ends (s : Settings) (ancestors : Ancestors) {cs : List Node} {w : Walk}
    (each : ∀ c ∈ cs, ∀ w : Walk, w.fault = none →
      w.Ends (c.stopsAt? s ancestors) (c.rewrite s ancestors w).2)
    (start : w.fault = none) :
    w.Ends (cs.findSome? (stopsAt? s ancestors)) ((cs.mapM (rewrite s ancestors)).run w).2 := by
  induction cs generalizing w with
  | nil => exact ⟨congrArg Option.isSome start, .refl _⟩
  | cons c cs ih =>
      have first := each c (.head _) w start
      rw [Walk.mapM_cons, List.findSome?_cons]
      cases stop : c.stopsAt? s ancestors with
      | some m =>
          rw [stop] at first
          have stopped : (c.rewrite s ancestors w).2.fault.isSome = true := first.fault
          rwa [mapM_rewrite_fault stopped]
      | none =>
          rw [stop] at first
          have passed : (c.rewrite s ancestors w).2.fault = none := by simpa using first.fault
          have rest := ih (fun c member => each c (.tail _ member)) passed
          have whole := first.books.trans rest.books
          rw [show lostAt none = 0 from rfl, Nat.zero_add] at whole
          exact ⟨rest.fault, whole⟩

theorem rewrite_ends (s : Settings) (ancestors : Ancestors) (n : Node) {w : Walk}
    (start : w.fault = none) :
    w.Ends (n.stopsAt? s ancestors) (n.rewrite s ancestors w).2 := by
  have books := decide_books s ancestors n w.progress
  rw [rewrite_eq, if_neg (by simp [start]), stopsAt?_eq s ancestors n w.progress]
  rcases decided : (n.decide s ancestors).runFrom w.progress with ⟨fault | d, p⟩
  · rw [decided] at books
    exact ⟨rfl, books⟩
  · rw [decided] at books
    dsimp only
    split
    · have below := mapM_rewrite_ends s (d.node :: ancestors) (w := ⟨p, none⟩)
        (fun c (member : c ∈ d.node.children) w start => rewrite_ends s (d.node :: ancestors) c start) rfl
      have whole := books.trans below.books
      change w.progress.Books (0 + _) _ at whole
      rw [Nat.zero_add] at whole
      exact ⟨below.fault, whole⟩
    · exact ⟨rfl, books⟩
termination_by n.weight
decreasing_by exact d.lighter ‹_› _ ‹_›

end Node

theorem importWrapper_books (s : Settings) (root : Node) (w : Walk) :
    w.progress.Books 0 ((Pass.importWrapper s).run root w).2.progress := by
  have advance (action statement : String) : w.progress.Advance [.importing action statement]
      (w.progress.record (.importing action statement)) :=
    ⟨rfl, by simp [Progress.record, Action.isBoundary], rfl⟩
  simp only [Pass.importWrapper]
  split
  · exact .refl _
  · split
    · exact .refl _
    · exact .of_advance (advance _ _)
    · split
      · exact .refl _
      · have injected := advance "Injected" ‹_›
        exact .of_advance ⟨injected.count, injected.needsImport, injected.trace⟩

namespace Operation

def stopsAt? (s : Settings) : Operation → Option Node
  | decide ancestors n =>
    match ((n.decide s ancestors).runFrom {}).1 with
    | .error _ => some n
    | .ok _ => none
  | wrapReads root =>
    match ((root.decide s []).runFrom {}).1 with
    | .error _ => some root
    | .ok d => if d.replaced then none else root.stopsAt? s []
  | importWrapper _ => none

/-- Whether the operation stops with a boundary counted that it neither records nor inserts. This is so
if it stops at a container. -/
def losesBoundary (s : Settings) (op : Operation) : Bool :=
  (op.stopsAt? s).any (·.contained?.isSome)

theorem lostAt_stopsAt? (s : Settings) (op : Operation) :
    lostAt (op.stopsAt? s) = if op.losesBoundary s then 1 else 0 := by
  unfold losesBoundary
  cases op.stopsAt? s <;> rfl

theorem runFrom_books (s : Settings) (p : Progress) (op : Operation) :
    p.Books (lostAt (op.stopsAt? s)) (op.runFrom s p).2 := by
  cases op with
  | decide ancestors n =>
      have books := Node.decide_books s ancestors n p
      simp only [runFrom, stopsAt?, Node.decide_steady {} p]
      rcases decided : (n.decide s ancestors).runFrom p with ⟨fault | d, q⟩
      all_goals
        rw [decided] at books
        exact books
  | wrapReads root =>
      have books := Node.decide_books s [] root p
      simp only [runFrom, stopsAt?, Node.decide_steady {} p, Pass.wrapReads, Node.rewriteRoot]
      rcases decided : (root.decide s []).runFrom p with ⟨fault | d, q⟩
      · rw [decided] at books
        exact books
      · rw [decided] at books
        dsimp only
        split
        · exact books
        · exact (Node.rewrite_ends s [] root (w := ⟨p, none⟩) rfl).books
  | importWrapper root => exact importWrapper_books s root ⟨p, none⟩

theorem losesBoundary_of_printable (s : Settings) {root : Node} (h : Node.Printable root) :
    (wrapReads root).losesBoundary s = false := by
  have passed : (wrapReads root).stopsAt? s = none := by
    obtain ⟨d, q, decided⟩ := h.decide_ok (s := s) [] {}
    simp only [stopsAt?, decided]
    split
    · rfl
    · have ends := Node.rewrite_ends s [] root (w := ⟨{}, none⟩) rfl
      simpa [h.finishes [] ⟨{}, none⟩ rfl] using ends.fault.symm
  rw [losesBoundary, passed]
  rfl

end Operation

theorem session_books (s : Settings) (ops : List Operation) :
    Progress.Books {} (ops.countP (·.losesBoundary s)) (session s ops) := by
  have onwards (p : Progress) : p.Books (ops.countP (·.losesBoundary s))
      (ops.foldl (fun p op => (op.runFrom s p).2) p) := by
    induction ops generalizing p with
    | nil => exact .refl p
    | cons op ops ih =>
        have whole := (op.runFrom_books s p).trans (ih (op.runFrom s p).2)
        rwa [op.lostAt_stopsAt?, Nat.add_comm, ← List.countP_cons] at whole
  exact onwards {}

/-- After any session the import is asked for exactly if some boundary is counted. The boundaries counted
are those recorded, and one more for each operation that stopped at a container; so the two agree exactly
if no operation did. -/
theorem session_accounts (s : Settings) (ops : List Operation) :
    let p := session s ops
    (p.needsImport = true ↔ 0 < p.rewriteCount) ∧
    p.rewriteCount = p.recorded + ops.countP (·.losesBoundary s) ∧
    (p.rewriteCount = p.recorded ↔ ∀ op ∈ ops, op.losesBoundary s = false) := by
  intro p
  have books : Progress.Books {} _ p := session_books s ops
  have count : p.rewriteCount = p.recorded + ops.countP (·.losesBoundary s) := by
    have count := books.count
    rw [show Progress.recorded {} = 0 from rfl] at count
    simpa using count
  refine ⟨by simp [books.needs], count, ?_⟩
  have none_lost : ops.countP (·.losesBoundary s) = 0 ↔ ∀ op ∈ ops, op.losesBoundary s = false := by
    simp [List.countP_eq_zero]
  rw [← none_lost]
  omega

def textlessContainer : Node :=
  .fresh (.container (.fresh (.generic "x" [.fresh
    (.call (.fresh (.member (.fresh (.identifier "x$")) (.fresh (.identifier "get")) false false))
      [] false)])))

theorem textlessContainer_boundary_lost :
    let p := session (.ofOptions {}) [.wrapReads (.fresh (.program [textlessContainer]))]
    p.rewriteCount = 1 ∧ p.recorded = 0 ∧ p.needsImport = true := by
  cbv

end JsxBoundary
