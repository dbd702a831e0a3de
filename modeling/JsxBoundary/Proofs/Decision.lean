import JsxBoundary.Rewrite.Decision

namespace JsxBoundary

namespace Action

def isBoundary : Action → Bool
  | .boundary _ _ _ => true
  | _ => false

def isDeferral : Action → Bool
  | .deferral _ _ _ => true
  | _ => false

end Action

/-- What recording these actions does to the progress of a rewrite. -/
structure Progress.Advance (p : Progress) (actions : List Action) (q : Progress) : Prop where
  count : q.rewriteCount = p.rewriteCount + actions.countP Action.isBoundary
  needsImport : q.needsImport = (p.needsImport || actions.any Action.isBoundary)
  trace : q.trace = actions.foldl Trace.record p.trace

namespace Progress.Advance

theorem refl (p : Progress) : Advance p [] p :=
  ⟨rfl, by simp, rfl⟩

theorem trans {p q r : Progress} {as bs : List Action} (first : Advance p as q)
    (second : Advance q bs r) : Advance p (as ++ bs) r := by
  refine ⟨?_, ?_, ?_⟩
  · rw [second.count, first.count, List.countP_append, Nat.add_assoc]
  · rw [second.needsImport, first.needsImport, List.any_append, Bool.or_assoc]
  · rw [second.trace, first.trace, List.foldl_append]

end Progress.Advance

namespace Step

variable {α β : Type}

theorem runFrom_bind (x : Step α) (f : α → Step β) (p : Progress) :
    (x >>= f).runFrom p = match x.runFrom p with
      | (.ok a, q) => (f a).runFrom q
      | (.error fault, q) => (.error fault, q) := by
  simp only [runFrom, ExceptT.run_bind, StateT.run_bind]
  change (match x.run.run p with | (r, q) => _) = _
  rcases x.run.run p with ⟨r, q⟩
  cases r <;> rfl

theorem bind_ok {x : Step α} {f : α → Step β} {p r : Progress} {b : β}
    (h : (x >>= f).runFrom p = (.ok b, r)) :
    ∃ a q, x.runFrom p = (.ok a, q) ∧ (f a).runFrom q = (.ok b, r) := by
  rw [runFrom_bind] at h
  rcases hx : x.runFrom p with ⟨a | a, q⟩ <;> simp only [hx] at h
  · cases h
  · exact ⟨a, q, rfl, h⟩

theorem modify_bind (f : Progress → Progress) (g : PUnit → Step β) (p : Progress) :
    (modify f >>= g).runFrom p = (g ⟨⟩).runFrom (f p) := rfl

theorem ofExcept_bind_ok {x : Except Fault α} {f : α → Step β} {p r : Progress} {b : β}
    (h : (ofExcept x >>= f).runFrom p = (.ok b, r)) :
    ∃ a, x = .ok a ∧ (f a).runFrom p = (.ok b, r) := by
  cases x with
  | error fault => cases h
  | ok a => exact ⟨a, rfl, h⟩

end Step

namespace Node

def deferral? (s : Settings) (n : Node) : Option Node :=
  if n.tagName?.any s.deferringComponents.contains then n.deferChildren? else none

structure Choice where
  node : Node
  inserted : Bool
  descend : Bool
  actions : List Action

inductive Deferring (s : Settings) (n : Node) : Node → List Action → Prop
  | stays (h : n.deferral? s = none) : Deferring s n n []
  | deferred {m : Node} {tag before after : String} (h : n.deferral? s = some m)
      (hb : n.print = .ok before) (ha : m.print = .ok after) :
      Deferring s n m [.deferral tag before after]

inductive Chosen (s : Settings) (ancestors : Ancestors) (n : Node) : Choice → Prop
  | other (he : n.isElement = false) (hc : n.contained? = none) :
      Chosen s ancestors n ⟨n, false, true, []⟩
  | container {e : Node} (hn : n.form = .container e)
      (h : (ancestors.insideAttribute || isSheltered s ancestors || !e.containsRead s.policy) = true) :
      Chosen s ancestors n ⟨n, false, true, []⟩
  | boundary {e : Node} {before after : String} (hn : n.form = .container e)
      (ha : ancestors.insideAttribute = false) (hs : isSheltered s ancestors = false)
      (hr : e.containsRead s.policy = true) (hb : n.print = .ok before)
      (hp : (e.boundary s.componentName (some n)).print = .ok after) :
      Chosen s ancestors n ⟨e.boundary s.componentName (some n), true, true,
        [.boundary n.typeName before after]⟩
  | element {m : Node} {actions : List Action} {tag : OpeningTag} (he : n.isElement = true)
      (hd : Deferring s n m actions) (ht : n.openingTag? = some tag)
      (h : (isSheltered s ancestors || !tag.hasReadingAttribute s.policy) = true) :
      Chosen s ancestors n ⟨m, false, true, actions⟩
  | whole {m : Node} {actions : List Action} {tag : OpeningTag} {before after : String}
      (he : n.isElement = true) (hd : Deferring s n m actions) (ht : n.openingTag? = some tag)
      (hs : isSheltered s ancestors = false) (hr : tag.hasReadingAttribute s.policy = true)
      (hb : m.print = .ok before) (hp : (m.boundary s.componentName none).print = .ok after) :
      Chosen s ancestors n ⟨m.boundary s.componentName none, true, false,
        actions ++ [.boundary m.typeName before after]⟩

theorem decideDeferral_ok {s : Settings} {n : Node} {p q : Progress} {d : Decision n}
    (h : (n.decideDeferral s).runFrom p = (.ok d, q)) :
    ∃ actions, Deferring s n d.node actions ∧ d.descend = true ∧ p.Advance actions q := by
  unfold decideDeferral at h
  split at h
  · rename_i m hm
    split at h
    · rename_i tag ht
      rw [Step.modify_bind] at h
      obtain ⟨before, hb, h⟩ := Step.ofExcept_bind_ok h
      obtain ⟨after, ha, h⟩ := Step.ofExcept_bind_ok h
      rw [Step.modify_bind] at h
      cases h
      have asked : n.tagName?.any s.deferringComponents.contains = true := by
        obtain ⟨named, listed⟩ := Option.filter_eq_some_iff.1 ht
        rw [named]
        exact listed
      refine ⟨[.deferral tag before after], .deferred ?_ hb ha, rfl, ⟨rfl, ?_, rfl⟩⟩
      · rw [deferral?, if_pos asked]
        exact hm
      · simp [Progress.note, Progress.record, Action.isBoundary]
    · rename_i ht
      cases h
      refine ⟨_, .stays ?_, rfl, .refl _⟩
      have refused : n.tagName?.any s.deferringComponents.contains = false := by
        cases hn : n.tagName? with
        | none => rfl
        | some name => simpa [hn] using ht
      rw [deferral?, refused]
      rfl
  · rename_i hm
    cases h
    refine ⟨_, .stays ?_, rfl, .refl _⟩
    rw [deferral?, hm, ite_self]

theorem decide_chosen {s : Settings} {ancestors : Ancestors} {n : Node} {p q : Progress}
    {d : Decision n} (h : (n.decide s ancestors).runFrom p = (.ok d, q)) :
    ∃ c, Chosen s ancestors n c ∧ d.node = c.node ∧ d.descend = c.descend ∧
      p.Advance c.actions q := by
  unfold decide at h
  split at h
  · rename_i opening content closing hn
    have he : n.isElement = true := by simp [isElement, hn]
    unfold decideElement at h
    split at h
    · cases h
    · rename_i tag ht
      obtain ⟨d', q', hd, h⟩ := Step.bind_ok h
      obtain ⟨actions, deferring, descend, advance⟩ := decideDeferral_ok hd
      split at h
      · rename_i quiet
        cases h
        exact ⟨_, .element he deferring ht quiet, rfl, descend, advance⟩
      · rename_i loud
        obtain ⟨hs, hr⟩ : isSheltered s ancestors = false ∧ tag.hasReadingAttribute s.policy = true := by
          simpa using loud
        obtain ⟨before, hb, h⟩ := Step.ofExcept_bind_ok h
        rw [Step.modify_bind] at h
        obtain ⟨after, ha, h⟩ := Step.ofExcept_bind_ok h
        rw [Step.modify_bind] at h
        cases h
        refine ⟨_, .whole he deferring ht hs hr hb ha, rfl, rfl, advance.trans ⟨rfl, ?_, rfl⟩⟩
        simp [Progress.note, Progress.record, Progress.mark, Action.isBoundary]
  · rename_i e hn
    unfold decideContainer at h
    split at h
    · rename_i quiet
      cases h
      exact ⟨_, .container hn (by simp [quiet]), rfl, rfl, .refl _⟩
    · rename_i open'
      obtain ⟨ha, hs⟩ : ancestors.insideAttribute = false ∧ isSheltered s ancestors = false := by
        simpa using open'
      split at h
      · rename_i hr
        rw [Step.modify_bind] at h
        obtain ⟨before, hb, h⟩ := Step.ofExcept_bind_ok h
        obtain ⟨after, hp, h⟩ := Step.ofExcept_bind_ok h
        rw [Step.modify_bind] at h
        cases h
        refine ⟨_, .boundary hn ha hs hr hb hp, rfl, rfl, ⟨rfl, ?_, rfl⟩⟩
        simp [Progress.note, Progress.record, Progress.mark, Action.isBoundary]
      · rename_i hr
        cases h
        exact ⟨_, .container hn (by simp [hr]), rfl, rfl, .refl _⟩
  · rename_i he hc
    cases h
    refine ⟨_, .other ?_ ?_, rfl, rfl, .refl _⟩
    · unfold isElement
      split
      · rename_i hn
        exact absurd hn (he _ _ _)
      · rfl
    · unfold contained?
      split
      · rename_i hn
        exact absurd hn (hc _)
      · rfl

end Node

end JsxBoundary
