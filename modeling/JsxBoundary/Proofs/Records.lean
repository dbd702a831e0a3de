import JsxBoundary.Proofs.Phases
import JsxBoundary.Proofs.Pipeline

namespace JsxBoundary

namespace Trace

variable {Q R : Action → Prop} {t t' t'' : Trace}

/-- The second trace is the first one with some more actions, each of which satisfies `Q`. -/
def Grows (Q : Action → Prop) (t t' : Trace) : Prop :=
  ∃ log : List Action, (∀ a ∈ log, Q a) ∧ t' = log.foldl record t

theorem Grows.refl (t : Trace) : Grows Q t t :=
  ⟨[], nofun, rfl⟩

theorem Grows.record {a : Action} (h : Q a) (t : Trace) : Grows Q t (t.record a) :=
  ⟨[a], by simpa using h, rfl⟩

theorem Grows.trans (first : Grows Q t t') (second : Grows Q t' t'') : Grows Q t t'' := by
  obtain ⟨log, kept, rfl⟩ := first
  obtain ⟨log', kept', rfl⟩ := second
  refine ⟨log ++ log', fun a member => ?_, (List.foldl_append ..).symm⟩
  rcases List.mem_append.1 member with member | member
  · exact kept a member
  · exact kept' a member

theorem Grows.mono (h : Grows Q t t') (weaker : ∀ a, Q a → R a) : Grows R t t' := by
  obtain ⟨log, kept, made⟩ := h
  exact ⟨log, fun a member => weaker a (kept a member), made⟩

theorem Grows.openPhases (h : Grows Q t t') : t'.openPhases = t.openPhases := by
  obtain ⟨log, _, rfl⟩ := h
  exact openPhases_foldl_record t log

theorem Grows.sound (h : Grows (fun a => a.isPhase = false) t t') (sound : t.Sound) : t'.Sound := by
  obtain ⟨log, quiet, rfl⟩ := h
  exact sound.foldl_record quiet

end Trace

namespace Step

variable {α β : Type} {Q : Action → Prop}

def Writes (Q : Action → Prop) (x : Step α) : Prop :=
  ∀ p : Progress, p.trace.Grows Q (x.runFrom p).2.trace

theorem Writes.pure (a : α) : Writes Q (pure a : Step α) :=
  fun p => .refl p.trace

theorem Writes.throw (fault : Fault) : Writes Q (throw fault : Step α) :=
  fun p => .refl p.trace

theorem Writes.bind {x : Step α} {f : α → Step β} (first : Writes Q x)
    (second : ∀ a, Writes Q (f a)) : Writes Q (x >>= f) := by
  intro p
  have start := first p
  rw [runFrom_bind]
  generalize x.runFrom p = result at start ⊢
  obtain ⟨fault | a, q⟩ := result
  · exact start
  · exact start.trans (second a q)

theorem Writes.ofExcept_bind {x : Except Fault α} {f : α → Step β} (h : ∀ a, Writes Q (f a)) :
    Writes Q (ofExcept x >>= f) := by
  cases x with
  | error fault => exact .throw fault
  | ok a => exact h a

theorem Writes.silent_bind {f : Progress → Progress} {g : PUnit → Step β}
    (silent : ∀ p, (f p).trace = p.trace) (h : Writes Q (g ⟨⟩)) : Writes Q (modify f >>= g) := by
  intro p
  rw [modify_bind, ← silent p]
  exact h (f p)

theorem Writes.record_bind {f : Progress → Progress} {a : Action} {g : PUnit → Step β}
    (records : ∀ p, (f p).trace = p.trace.record a) (allowed : Q a) (h : Writes Q (g ⟨⟩)) :
    Writes Q (modify f >>= g) := by
  intro p
  have next := h (f p)
  rw [records p] at next
  rw [modify_bind]
  exact (Trace.Grows.record allowed p.trace).trans next

end Step

namespace Node

variable {s : Settings}

inductive Recorded (s : Settings) (n : Node) : Action → Prop
  | deferral (tag before after : String) : Recorded s n (.deferral tag before after)
  | container {e : Node} (form : n.form = .container e) (before after : String) :
      Recorded s n (.boundary n.typeName before after)
  | whole {tag : OpeningTag} (he : n.isElement = true) (ht : n.openingTag? = some tag)
      (hr : tag.hasReadingAttribute s.policy = true) (typeName before after : String) :
      Recorded s n (.boundary typeName before after)

theorem Recorded.quiet {n : Node} {a : Action} (h : Recorded s n a) : a.isPhase = false := by
  cases h <;> rfl

theorem decideDeferral_writes (n : Node) : (n.decideDeferral s).Writes (Recorded s n) := by
  unfold decideDeferral
  split
  · split
    · exact .silent_bind (fun _ => rfl) <| .ofExcept_bind fun _ => .ofExcept_bind fun _ =>
        .record_bind (fun _ => rfl) (.deferral _ _ _) (.pure _)
    · exact .pure _
  · exact .pure _

theorem decide_writes (ancestors : Ancestors) (n : Node) :
    (n.decide s ancestors).Writes (Recorded s n) := by
  unfold decide
  split
  · rename_i form
    have element : n.isElement = true := by simp [isElement, form]
    unfold decideElement
    split
    · exact .throw _
    · rename_i tag ht
      refine .bind (decideDeferral_writes n) fun d => ?_
      split
      · exact .pure _
      · rename_i loud
        have reads : tag.hasReadingAttribute s.policy = true := by
          simp only [Bool.or_eq_true, not_or, Bool.not_eq_true', Bool.not_eq_false] at loud
          exact loud.2
        exact .ofExcept_bind fun _ => .silent_bind (fun _ => rfl) <| .ofExcept_bind fun _ =>
          .record_bind (fun _ => rfl) (.whole element ht reads _ _ _) (.pure _)
  · rename_i e form
    unfold decideContainer
    split
    · exact .pure _
    · split
      · exact .silent_bind (fun _ => rfl) <| .ofExcept_bind fun _ => .ofExcept_bind fun _ =>
          .record_bind (fun _ => rfl) (.container form _ _) (.pure _)
      · exact .pure _
  · exact .pure _

/-- A rewrite records what the decisions about its nodes record. `Good` is any property of nodes that
every choice passes on to the nodes below it. -/
theorem rewrite_grows (Good : Node → Prop) {Q : Action → Prop}
    (here : ∀ n a, Good n → Recorded s n a → Q a)
    (below : ∀ ancestors n c, Good n → Chosen s ancestors n c → c.descend = true →
      ∀ m ∈ c.node.children, Good m)
    {n : Node} (good : Good n) (ancestors : Ancestors) (w : Walk) :
    w.progress.trace.Grows Q (n.rewrite s ancestors w).2.progress.trace := by
  have first := (decide_writes (s := s) ancestors n w.progress).mono fun a => here n a good
  rw [rewrite_eq]
  split
  · exact .refl _
  · rcases decided : (n.decide s ancestors).runFrom w.progress with ⟨fault | d, p⟩
    · rwa [decided] at first
    · obtain ⟨c, chosen, node, descend, _⟩ := decide_chosen decided
      rw [decided] at first
      dsimp only
      split
      · rename_i descends
        refine Walk.mapM_keeps (P := fun w' => w.progress.trace.Grows Q w'.progress.trace)
          (fun child member w' grown => ?_) first
        have inner : Good child :=
          below ancestors n c good chosen (descend ▸ descends) child (node ▸ member)
        exact grown.trans (rewrite_grows Good here below inner _ w')
      · exact first
termination_by n.weight
decreasing_by exact d.lighter ‹_› _ ‹_›

theorem rewriteRoot_grows (Good : Node → Prop) {Q : Action → Prop}
    (here : ∀ n a, Good n → Recorded s n a → Q a)
    (below : ∀ ancestors n c, Good n → Chosen s ancestors n c → c.descend = true →
      ∀ m ∈ c.node.children, Good m)
    {root : Node} (good : Good root) (w : Walk) :
    w.progress.trace.Grows Q (root.rewriteRoot s w).2.progress.trace := by
  have first := (decide_writes (s := s) [] root w.progress).mono fun a => here root a good
  rcases decided : (root.decide s []).runFrom w.progress with ⟨fault | d, p⟩
  all_goals
    rw [decided] at first
    simp only [rewriteRoot, decided]
  · exact first
  · split
    · exact first
    · exact rewrite_grows Good here below good [] w

end Node

theorem importWrapper_grows {s : Settings} {Q : Action → Prop}
    (allowed : ∀ action statement, Q (.importing action statement)) (root : Node) (w : Walk) :
    w.progress.trace.Grows Q ((Pass.importWrapper s).run root w).2.progress.trace := by
  simp only [Pass.importWrapper]
  split
  · exact .refl _
  · split
    · exact .refl _
    · exact .record (allowed _ _) _
    · split
      · exact .refl _
      · exact .record (allowed _ _) _

end JsxBoundary
