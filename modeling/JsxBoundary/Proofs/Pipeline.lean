import JsxBoundary.Proofs.Derivation

namespace JsxBoundary

namespace Trace

/-- What the events record, in order. -/
def actions (t : Trace) : List Action :=
  t.events.toList.map (·.action)

@[simp] theorem actions_record (t : Trace) (action : Action) :
    (t.record action).actions = t.actions ++ [action] := by
  simp [actions, record]

theorem actions_foldl_record (t : Trace) (log : List Action) :
    (log.foldl record t).actions = t.actions ++ log := by
  induction log generalizing t with
  | nil => simp
  | cons action log ih => simp [ih]

theorem openPhases_foldl_record (t : Trace) (log : List Action) :
    (log.foldl record t).openPhases = t.openPhases := by
  induction log generalizing t with
  | nil => rfl
  | cons action log ih => rw [List.foldl_cons, ih, openPhases_record]

theorem actions_startPhase (t : Trace) (name detail : String) :
    (t.startPhase name detail).actions = t.actions ++ [.phaseStart name detail] :=
  actions_record t _

theorem actions_endPhase {t : Trace} {seq : Nat} {name : String} {rest : List (Nat × String)}
    (h : t.openPhases = (seq, name) :: rest) : t.endPhase.actions = t.actions ++ [.phaseEnd name] := by
  simp [actions, endPhase, h]

end Trace

theorem Import.insertionIndex_le (body : List Node) : insertionIndex body ≤ body.length := by
  unfold insertionIndex
  generalize hl : body.takeWhile _ = leading
  have front : leading.length ≤ body.length := hl ▸ (List.takeWhile_prefix _).length_le
  have back := (List.dropWhile_suffix (l := leading.reverse) Node.isComment).length_le
  rw [List.length_reverse] at back
  exact Nat.le_trans back front

theorem Node.injectImport_some {name source : String} {root root' : Node}
    (h : root.injectImport name source = .ok (some root')) :
    root.importsName name source = false ∧ ∃ body body', root.form = .program body ∧
      root'.form = .program body' ∧ body'.Perm (Node.namedImport name source :: body) := by
  unfold Node.injectImport at h
  split at h
  · cases h
  · rename_i body found
    have form : root.form = .program body := by
      unfold Node.body? at found
      split at found
      · rename_i form
        cases found
        exact form
      · cases found
    split at h
    · cases h
    · rename_i absent
      refine ⟨Bool.eq_false_iff.2 absent, body, _, form, ?_,
        List.perm_insertIdx _ body (Import.insertionIndex_le body)⟩
      dsimp only at h
      split at h
      · cases h
        rfl
      · split at h <;> cases h
        rfl

/-- A run of the standard passes from a fresh start. -/
def transformed (o : Options) (root : Node) : Node × Walk :=
  Pass.runAll (Pass.standard (.ofOptions o)) root ⟨{}, none⟩

inductive Imported (s : Settings) (needed : Bool) (root : Node) : Node → List Action → Prop
  | skipped (h : needed = false) : Imported s needed root root []
  | present (h : needed = true) (found : root.injectImport s.componentName s.importSource = .ok none) :
      Imported s needed root root
        [.importing "Already present" (s.componentName ++ " from " ++ s.importSource)]
  | injected {root' : Node} {statement : String} (h : needed = true)
      (made : root.injectImport s.componentName s.importSource = .ok (some root'))
      (text : (Node.namedImport s.componentName s.importSource).print = .ok statement) :
      Imported s needed root root' [.importing "Injected" statement]

theorem importWrapper_ok {s : Settings} {root : Node} {w : Walk}
    (done : ((Pass.importWrapper s).run root w).2.fault = none) :
    ∃ actions, Imported s w.progress.needsImport root ((Pass.importWrapper s).run root w).1 actions ∧
      ((Pass.importWrapper s).run root w).2.progress.rewriteCount = w.progress.rewriteCount ∧
      ((Pass.importWrapper s).run root w).2.progress.trace =
        actions.foldl Trace.record w.progress.trace := by
  simp only [Pass.importWrapper] at done ⊢
  cases needed : w.progress.needsImport with
  | false => exact ⟨_, .skipped rfl, rfl, rfl⟩
  | true =>
      rw [needed] at done
      simp only [Bool.not_true, Bool.false_eq_true, if_false] at done ⊢
      split
      · rename_i fault failed
        simp [failed, Walk.stop] at done
      · rename_i found
        exact ⟨_, .present rfl found, rfl, rfl⟩
      · rename_i root' made
        simp only [made] at done
        split
        · rename_i fault failed
          simp [failed, Walk.stop] at done
        · rename_i statement text
          exact ⟨_, .injected rfl made text, rfl, rfl⟩

namespace Walk

def entering (w : Walk) (name detail : String) : Walk :=
  { w with progress.trace := w.progress.trace.startPhase name detail }

def leaving (w : Walk) : Walk :=
  { w with progress.trace := w.progress.trace.endPhase }

end Walk

theorem Pass.runAll_cons (pass : Pass) (passes : List Pass) (root : Node) (w : Walk) :
    runAll (pass :: passes) root w =
      let r := pass.run root (w.entering pass.name pass.detail)
      if r.2.fault.isSome then (r.1, r.2.leaving) else runAll passes r.1 r.2.leaving := by
  have step : runAll (pass :: passes) root w =
      let r := pass.run root (w.entering pass.name pass.detail)
      (if r.2.leaving.fault.isSome then pure r.1 else runAll passes r.1 : StateM Walk Node)
        r.2.leaving := rfl
  rw [step]
  obtain ⟨m, p, fault⟩ := pass.run root (w.entering pass.name pass.detail)
  cases fault <;> rfl

theorem Pass.runAll_pair (first second : Pass) (root : Node) (w : Walk) :
    runAll [first, second] root w =
      let r1 := first.run root (w.entering first.name first.detail)
      let r2 := second.run r1.1 (r1.2.leaving.entering second.name second.detail)
      if r1.2.fault.isSome then (r1.1, r1.2.leaving) else (r2.1, r2.2.leaving) := by
  have last : ∀ (m : Node) (w : Walk), runAll [second] m w =
      let r := second.run m (w.entering second.name second.detail)
      (r.1, r.2.leaving) := by
    intro m w
    rw [runAll_cons]
    exact ite_self _
  rw [runAll_cons]
  simp only [last]

def wrapped (o : Options) (root : Node) : Node × Walk :=
  root.rewriteRoot (.ofOptions o) (Walk.entering ⟨{}, none⟩ "Auto-Wrap" "AutoWrapPass")

def imported (o : Options) (root : Node) : Node × Walk :=
  (Pass.importWrapper (.ofOptions o)).run (wrapped o root).1
    ((wrapped o root).2.leaving.entering "Import Injection" "ImportInjectionPass")

theorem transformed_eq (o : Options) (root : Node) :
    transformed o root =
      if (wrapped o root).2.fault.isSome then ((wrapped o root).1, (wrapped o root).2.leaving)
      else ((imported o root).1, (imported o root).2.leaving) :=
  Pass.runAll_pair (Pass.wrapReads (.ofOptions o)) (Pass.importWrapper (.ofOptions o)) root ⟨{}, none⟩

theorem transformed_of_sound {o : Options} {root : Node} (done : (transformed o root).2.fault = none) :
    (wrapped o root).2.fault = none ∧ (imported o root).2.fault = none ∧
      transformed o root = ((imported o root).1, (imported o root).2.leaving) := by
  rw [transformed_eq] at done ⊢
  cases faulty : (wrapped o root).2.fault with
  | some fault => simp [faulty, Walk.leaving] at done
  | none =>
      simp only [faulty, Option.isSome_none, Bool.false_eq_true, if_false] at done ⊢
      exact ⟨trivial, done, trivial⟩

theorem rewriteCount_transformed {o : Options} {root : Node} (done : (transformed o root).2.fault = none) :
    (transformed o root).2.progress.rewriteCount = (wrapped o root).2.progress.rewriteCount := by
  obtain ⟨_, sound, runs⟩ := transformed_of_sound done
  obtain ⟨_, _, count, _⟩ := importWrapper_ok sound
  rw [runs]
  exact count

theorem transformed_ok {o : Options} {root : Node} (done : (transformed o root).2.fault = none) :
    ∃ rewritten log imports,
      Node.Rewrites (.ofOptions o) [] root rewritten log ∧
      Imported (.ofOptions o) (log.any Action.isBoundary) rewritten (transformed o root).1 imports ∧
      (transformed o root).2.progress.rewriteCount = log.countP Action.isBoundary ∧
      (transformed o root).2.progress.trace.actions =
        .phaseStart "Auto-Wrap" "AutoWrapPass" :: log ++
          .phaseEnd "Auto-Wrap" :: .phaseStart "Import Injection" "ImportInjectionPass" :: imports ++
          [.phaseEnd "Import Injection"] := by
  obtain ⟨sound, sound', runs⟩ := transformed_of_sound done
  rw [runs]
  obtain ⟨log, rewrites, count, needs, trace⟩ := Node.rewriteRoot_derives rfl sound
  obtain ⟨imports, found, _, trace'⟩ := importWrapper_ok sound'
  change (wrapped o root).2.progress.trace = _ at trace
  change (imported o root).2.progress.trace = _ at trace'
  have opened : (wrapped o root).2.progress.trace.openPhases = [(0, "Auto-Wrap")] := by
    rw [trace, Trace.openPhases_foldl_record]
    rfl
  have opened' : (imported o root).2.progress.trace.openPhases =
      [((wrapped o root).2.leaving.progress.trace.events.size, "Import Injection")] := by
    rw [trace', Trace.openPhases_foldl_record]
    simp [Walk.entering, Walk.leaving, Trace.startPhase, Trace.endPhase, opened]
  refine ⟨(wrapped o root).1, log, imports, rewrites, ?_, ?_, ?_⟩
  · have wanted : (wrapped o root).2.progress.needsImport = log.any Action.isBoundary := needs
    rw [← wanted]
    exact found
  · rw [← runs, rewriteCount_transformed done]
    exact count.trans (Nat.zero_add _)
  · have between : ((wrapped o root).2.leaving.entering "Import Injection"
        "ImportInjectionPass").progress.trace.actions = (wrapped o root).2.progress.trace.actions ++
        [.phaseEnd "Auto-Wrap", .phaseStart "Import Injection" "ImportInjectionPass"] := by
      rw [Walk.entering, Trace.actions_startPhase, Walk.leaving, Trace.actions_endPhase opened]
      simp
    have start : (Walk.entering ⟨{}, none⟩ "Auto-Wrap" "AutoWrapPass").progress.trace.actions =
        [.phaseStart "Auto-Wrap" "AutoWrapPass"] := rfl
    rw [Walk.leaving, Trace.actions_endPhase opened', trace', Trace.actions_foldl_record, between,
      trace, Trace.actions_foldl_record, start]
    simp

end JsxBoundary
