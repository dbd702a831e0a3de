import JsxBoundary.Proofs.Preservation
import JsxBoundary.Proofs.Records

namespace JsxBoundary

namespace Walk

variable {α β : Type}

def Nests (run : StateM Walk α) : Prop :=
  ∀ w : Walk, w.progress.trace.Sound → (run w).2.progress.trace.Sound ∧
    (run w).2.progress.trace.openPhases = w.progress.trace.openPhases

theorem Nests.of_grows {run : StateM Walk α} (h : ∀ w : Walk,
    w.progress.trace.Grows (fun a => a.isPhase = false) (run w).2.progress.trace) : Nests run :=
  fun w sound => ⟨(h w).sound sound, (h w).openPhases⟩

theorem Nests.pure (a : α) : Nests (pure a : StateM Walk α) :=
  fun _ sound => ⟨sound, rfl⟩

theorem Nests.bind {run : StateM Walk α} {next : α → StateM Walk β} (first : Nests run)
    (second : ∀ a, Nests (next a)) : Nests (run >>= next) := by
  intro w sound
  obtain ⟨sound', same⟩ := first w sound
  obtain ⟨sound'', same'⟩ := second (run w).1 (run w).2 sound'
  exact ⟨sound'', same'.trans same⟩

theorem Nests.inPhase {run : StateM Walk α} (h : Nests run) (name detail : String) :
    Nests (inPhase name detail run) := by
  intro w sound
  obtain ⟨inner, same⟩ := h (w.entering name detail) (sound.startPhase name detail)
  refine ⟨inner.endPhase, ?_⟩
  change (run (w.entering name detail)).2.progress.trace.endPhase.openPhases = _
  rw [Trace.openPhases_endPhase, same]
  rfl

theorem Nests.unlessStopped {run : StateM Walk α} (h : Nests run) (a : α) :
    Nests (do if (← get).fault.isSome then return a else run) := by
  intro w sound
  have goes : (do if (← get).fault.isSome then return a else run : StateM Walk α) w =
      (if w.fault.isSome then Pure.pure a else run : StateM Walk α) w := rfl
  rw [goes]
  split
  · exact ⟨sound, rfl⟩
  · exact h w sound

end Walk

namespace Pass

def Nests (pass : Pass) : Prop :=
  ∀ root, Walk.Nests (pass.run root)

theorem wrapReads_nests (s : Settings) : (wrapReads s).Nests := by
  intro root
  exact .of_grows fun w => Node.rewriteRoot_grows (fun _ => True)
    (fun _ _ _ recorded => recorded.quiet) (fun _ _ _ _ _ _ _ _ => trivial) trivial w

theorem importWrapper_nests (s : Settings) : (importWrapper s).Nests :=
  fun root => .of_grows fun w => importWrapper_grows (fun _ _ => rfl) root w

theorem runAll_nests {passes : List Pass} (each : ∀ pass ∈ passes, pass.Nests) (root : Node) :
    Walk.Nests (runAll passes root) := by
  induction passes generalizing root with
  | nil => exact .pure root
  | cons pass passes ih =>
      refine .bind ((each pass (.head _) root).inPhase _ _) fun root' => .unlessStopped ?_ root'
      exact ih (fun pass member => each pass (.tail _ member)) root'

/-- The passes, run in order, stop with this fault: the first one does, or the others do after it. -/
inductive Stops : List Pass → Node → Walk → Fault → Prop
  | here {pass : Pass} {passes : List Pass} {root : Node} {w : Walk} {fault : Fault}
      (failed : (pass.run root (w.entering pass.name pass.detail)).2.fault = some fault) :
      Stops (pass :: passes) root w fault
  | later {pass : Pass} {passes : List Pass} {root : Node} {w : Walk} {fault : Fault}
      (passed : (pass.run root (w.entering pass.name pass.detail)).2.fault = none)
      (rest : Stops passes (pass.run root (w.entering pass.name pass.detail)).1
        (pass.run root (w.entering pass.name pass.detail)).2.leaving fault) :
      Stops (pass :: passes) root w fault

theorem runAll_stops (passes : List Pass) (root : Node) {w : Walk} (start : w.fault = none)
    (fault : Fault) : (runAll passes root w).2.fault = some fault ↔ Stops passes root w fault := by
  induction passes generalizing root w with
  | nil =>
      have ends : (runAll [] root w).2.fault = none := start
      rw [ends]
      exact ⟨nofun, nofun⟩
  | cons pass passes ih =>
      rw [runAll_cons]
      dsimp only
      cases passed : (pass.run root (w.entering pass.name pass.detail)).2.fault with
      | some other =>
          simp only [Option.isSome_some, if_true]
          constructor
          · exact .here
          · rintro (failed | ⟨passed', _⟩)
            · exact failed
            · rw [passed] at passed'
              cases passed'
      | none =>
          simp only [Option.isSome_none, Bool.false_eq_true, if_false]
          rw [ih _ (w := (pass.run root (w.entering pass.name pass.detail)).2.leaving) passed]
          constructor
          · exact .later passed
          · rintro (failed | ⟨_, rest⟩)
            · rw [passed] at failed
              cases failed
            · exact rest

end Pass

namespace Outcome

def begun (o : Options) : Walk :=
  ((Walk.entering ⟨{}, none⟩ "Transform Pipeline"
    (o.componentName ++ " from " ++ o.importSource)).entering "Parsing" "Source -> Tree").leaving

/-- A step of the transformation stops with this fault: the source text cannot be read, a pass fails,
or the tree that the passes made cannot be printed. -/
inductive Stops (o : Options) : Except Fault Node → Fault → Prop
  | reading (fault : Fault) : Stops o (.error fault) fault
  | pass {root : Node} {fault : Fault}
      (stops : Pass.Stops (Pass.standard (.ofOptions o)) root (begun o) fault) :
      Stops o (.ok root) fault
  | printing {root : Node} {fault : Fault}
      (passed : ∀ fault, ¬Pass.Stops (Pass.standard (.ofOptions o)) root (begun o) fault)
      (failed : (Pass.runAll (Pass.standard (.ofOptions o)) root (begun o)).1.print = .error fault) :
      Stops o (.ok root) fault

/-- The outcome of a run that stopped: nothing has changed, and the one message is also the last event,
outside all phases. -/
structure Failed (source message : String) (r : Outcome) : Prop where
  success : r.success = false
  code : r.code = source
  changed : r.changed = false
  rewriteCount : r.rewriteCount = 0
  errors : r.errors = [message]
  last : ∃ before : Array Event, r.events = before.push ⟨before.size, .warning message, none⟩

theorem steps_nests (o : Options) (parsed : Except Fault Node) : Walk.Nests (steps o parsed) := by
  have standard : ∀ pass ∈ Pass.standard (.ofOptions o), pass.Nests := by
    intro pass member
    simp only [Pass.standard, List.mem_cons, List.not_mem_nil, or_false] at member
    rcases member with rfl | rfl
    · exact Pass.wrapReads_nests _
    · exact Pass.importWrapper_nests _
  refine .inPhase (.bind (.inPhase ?_ _ _) fun root? => ?_) _ _
  · intro w sound
    cases parsed <;> exact ⟨sound, rfl⟩
  · cases root? with
    | none => exact .pure _
    | some root =>
        refine .bind (Pass.runAll_nests standard root) fun root' => ?_
        refine Walk.Nests.unlessStopped (.inPhase ?_ _ _) ""
        intro w sound
        cases root'.print <;> exact ⟨sound, rfl⟩

theorem steps_fault (o : Options) (root : Node) :
    (steps o (.ok root) ⟨{}, none⟩).2.fault =
      let r := Pass.runAll (Pass.standard (.ofOptions o)) root (begun o)
      r.2.fault.or (match r.1.print with
        | .error fault => some fault
        | .ok _ => none) := by
  rw [steps_eq, ← begun]
  generalize Pass.runAll (Pass.standard (.ofOptions o)) root (begun o) = r
  obtain ⟨root', p, failed | passed⟩ := r
  -- The tree is printed only if no pass has failed.
  · dsimp only
    cases root'.print <;> rfl
  · rfl

theorem steps_stops (o : Options) (parsed : Except Fault Node) (fault : Fault) :
    (steps o parsed ⟨{}, none⟩).2.fault = some fault ↔ Stops o parsed fault := by
  cases parsed with
  | error cause =>
      have stopped : (steps o (.error cause) ⟨{}, none⟩).2.fault = some cause := rfl
      rw [stopped]
      constructor
      · rintro ⟨⟩
        exact .reading _
      · rintro ⟨⟩
        rfl
  | ok root =>
      have passes := Pass.runAll_stops (Pass.standard (.ofOptions o)) root (w := begun o) rfl
      rw [steps_fault]
      simp only [Option.or_eq_some_iff]
      constructor
      · rintro (failed | ⟨passed, unprinted⟩)
        · exact .pass ((passes fault).1 failed)
        · refine .printing (fun other stops => ?_) ?_
          · rw [← passes, passed] at stops
            cases stops
          · split at unprinted
            · rename_i failed
              exact failed.trans (congrArg Except.error (Option.some.inj unprinted))
            · cases unprinted
      · rintro (_ | stops | ⟨passed, failed⟩)
        · exact .inl ((passes fault).2 stops)
        · refine .inr ⟨Option.eq_none_iff_forall_ne_some.2 fun other same => ?_, by rw [failed]⟩
          exact passed other ((passes other).1 same)

/-- Whatever reading the source text came to, a run either ends with success or leaves everything as it
was and says why, and the phases of its trace nest and are all closed. -/
theorem ofParsed_atomic (o : Options) (source : String) (parsed : Except Fault Node) :
    let r := ofParsed o source parsed
    (∀ fault, Stops o parsed fault → r.Failed source fault.report) ∧
      ((∀ fault, ¬Stops o parsed fault) → r.success = true ∧ r.errors = []) ∧
      Balanced r.events.toList := by
  obtain ⟨sound, closed⟩ := steps_nests o parsed ⟨{}, none⟩ .empty
  simp only [← steps_stops]
  unfold ofParsed
  generalize steps o parsed ⟨{}, none⟩ = result at sound closed ⊢
  obtain ⟨code, p, _ | fault⟩ := result
  · exact ⟨nofun, fun _ => ⟨rfl, rfl⟩, sound.balanced closed⟩
  · refine ⟨?_, fun none => absurd rfl (none fault), (sound.record rfl).balanced closed⟩
    rintro _ ⟨⟩
    refine ⟨rfl, rfl, rfl, rfl, rfl, p.trace.events, ?_⟩
    have outside : p.trace.openPhases = [] := closed
    simp [Trace.record, outside]

example : (ofParsed {} "<a>" (.ok (.fresh (.program [.fresh (.element none [] none)])))).events.toList.map
    (fun e => (e.action.type, e.phase)) =
      [("phase_start", none), ("phase_start", some 0), ("phase_end", some 1), ("phase_start", some 0),
        ("phase_end", some 3), ("phase_end", some 0), ("warning", none)] := by cbv

end Outcome

end JsxBoundary
