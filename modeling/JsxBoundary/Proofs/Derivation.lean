import JsxBoundary.Proofs.Decision
import JsxBoundary.Proofs.Paired
import JsxBoundary.Rewrite.Pass

/-!
# Derivations of a rewrite

`Rewrites` derives what becomes of a tree and which actions that records, one choice at a time. The
traversal carries a state and may stop at any node; `rewrite_derives` and `rewriteRoot_derives` say
that whatever it returns without a fault has a derivation.
-/

namespace JsxBoundary

namespace Node

inductive Rewrites (s : Settings) : Ancestors → Node → Node → List Action → Prop
  | stop {ancestors : Ancestors} {n : Node} {c : Choice} (chosen : Chosen s ancestors n c)
      (stays : c.descend = false) : Rewrites s ancestors n c.node c.actions
  | onward {ancestors : Ancestors} {n : Node} {c : Choice} {results : List (Node × List Action)}
      (chosen : Chosen s ancestors n c) (descends : c.descend = true)
      (length : results.length = c.node.children.length)
      (each : ∀ (i : Nat) (a : Node) (r : Node × List Action), c.node.children[i]? = some a →
        results[i]? = some r → Rewrites s (c.node :: ancestors) a r.1 r.2) :
      Rewrites s ancestors n (c.node.withChildren (results.map (·.1)))
        (c.actions ++ results.flatMap (·.2))

theorem rewrite_eq (s : Settings) (ancestors : Ancestors) (n : Node) (w : Walk) :
    n.rewrite s ancestors w =
      if w.fault.isSome then (n, w) else
      match (n.decide s ancestors).runFrom w.progress with
      | (.error fault, p) => (n, ⟨p, some fault⟩)
      | (.ok d, p) =>
        if d.descend then
          let below := (d.node.children.mapM (rewrite s (d.node :: ancestors))).run ⟨p, none⟩
          (d.node.withChildren below.1, below.2)
        else (d.node, ⟨p, none⟩) := by
  rw [rewrite]
  by_cases stopped : w.fault.isSome = true
  · rw [if_pos stopped, if_pos stopped]
  · rw [if_neg stopped, if_neg stopped]
    generalize (n.decide s ancestors).runFrom w.progress = result
    obtain ⟨fault | d, p⟩ := result
    · rfl
    · dsimp only
      by_cases descends : d.descend = true
      · rw [dif_pos descends, if_pos descends, List.mapM_subtype fun _ _ => rfl, List.unattach_attach]
        rfl
      · rw [dif_neg descends, if_neg descends]

end Node

namespace Walk

theorem mapM_cons (f : Node → StateM Walk Node) (c : Node) (cs : List Node) (w : Walk) :
    ((c :: cs).mapM f).run w =
      ((f c w).1 :: ((cs.mapM f).run (f c w).2).1, ((cs.mapM f).run (f c w).2).2) := by
  rw [List.mapM_cons]
  rfl

theorem length_mapM (f : Node → StateM Walk Node) (cs : List Node) (w : Walk) :
    ((cs.mapM f).run w).1.length = cs.length := by
  induction cs generalizing w with
  | nil => rfl
  | cons c cs ih => rw [mapM_cons, List.length_cons, ih, List.length_cons]

theorem mapM_keeps {f : Node → StateM Walk Node} {P : Walk → Prop} {cs : List Node}
    (step : ∀ c ∈ cs, ∀ w, P w → P (f c w).2) {w : Walk} (h : P w) : P ((cs.mapM f).run w).2 := by
  induction cs generalizing w with
  | nil => exact h
  | cons c cs ih =>
      rw [mapM_cons]
      exact ih (fun c hc => step c (.tail _ hc)) (step c (.head _) w h)

end Walk

namespace Node

theorem rewrite_fault {s : Settings} {ancestors : Ancestors} {n : Node} {w : Walk}
    (h : w.fault.isSome) : n.rewrite s ancestors w = (n, w) := by
  rw [rewrite_eq, if_pos h]

theorem mapM_rewrite_stopped {s : Settings} {ancestors : Ancestors} {cs : List Node} {w : Walk}
    (h : w.fault.isSome) : (cs.mapM (rewrite s ancestors)).run w = (cs, w) := by
  induction cs with
  | nil => rfl
  | cons c cs ih => rw [Walk.mapM_cons, rewrite_fault h, ih]

theorem mapM_rewrite_fault {s : Settings} {ancestors : Ancestors} {cs : List Node} {w : Walk}
    (h : w.fault.isSome) : ((cs.mapM (rewrite s ancestors)).run w).2 = w := by
  rw [mapM_rewrite_stopped h]

theorem mapM_rewrite_derives {s : Settings} {ancestors : Ancestors} {cs : List Node}
    (each : ∀ c ∈ cs, ∀ w : Walk, w.fault = none → (c.rewrite s ancestors w).2.fault = none →
      ∃ log, Rewrites s ancestors c (c.rewrite s ancestors w).1 log ∧
        w.progress.Advance log (c.rewrite s ancestors w).2.progress)
    {w : Walk} (start : w.fault = none)
    (done : ((cs.mapM (rewrite s ancestors)).run w).2.fault = none) :
    ∃ results : List (Node × List Action),
      ((cs.mapM (rewrite s ancestors)).run w).1 = results.map (·.1) ∧
      Pointwise (fun a r => Rewrites s ancestors a r.1 r.2) cs results ∧
      w.progress.Advance (results.flatMap (·.2)) ((cs.mapM (rewrite s ancestors)).run w).2.progress := by
  induction cs generalizing w with
  | nil => exact ⟨[], rfl, .nil, .refl _⟩
  | cons c cs ih =>
      rw [Walk.mapM_cons] at done ⊢
      have first : (c.rewrite s ancestors w).2.fault = none := by
        cases faulty : (c.rewrite s ancestors w).2.fault with
        | none => rfl
        | some fault =>
            rw [mapM_rewrite_fault (by simp [faulty]), faulty] at done
            cases done
      obtain ⟨log, derived, advance⟩ := each c (.head _) w start first
      obtain ⟨results, nodes, rest, further⟩ := ih (fun c hc => each c (.tail _ hc)) first done
      refine ⟨((c.rewrite s ancestors w).1, log) :: results, by simp [nodes], .cons derived rest, ?_⟩
      exact advance.trans further

theorem rewrite_derives {s : Settings} {ancestors : Ancestors} {n : Node} {w : Walk}
    (start : w.fault = none) (done : (n.rewrite s ancestors w).2.fault = none) :
    ∃ log, Rewrites s ancestors n (n.rewrite s ancestors w).1 log ∧
      w.progress.Advance log (n.rewrite s ancestors w).2.progress := by
  rw [rewrite_eq, if_neg (by simp [start])] at done ⊢
  -- The recursion is that of the traversal: the children of a replacement weigh less than the node.
  rcases decided : (n.decide s ancestors).runFrom w.progress with ⟨fault | d, p⟩
  · simp [decided] at done
  · obtain ⟨c, chosen, node, descend, advance⟩ := decide_chosen decided
    simp only [decided] at done ⊢
    split
    · rename_i descends
      rw [if_pos descends] at done
      obtain ⟨results, nodes, derived, further⟩ := mapM_rewrite_derives
        (fun child member w start done => rewrite_derives start done) rfl done
      refine ⟨c.actions ++ results.flatMap (·.2), ?_, advance.trans further⟩
      dsimp only
      rw [nodes]
      rw [node] at derived ⊢
      exact .onward chosen (descend ▸ descends) derived.length derived.each
    · rename_i stays
      refine ⟨c.actions, ?_, advance⟩
      rw [node]
      exact .stop chosen (by simpa [descend] using stays)
termination_by n.weight
decreasing_by exact d.lighter ‹_› _ ‹_›

theorem rewriteRoot_eq {s : Settings} {root : Node} {w : Walk}
    (done : (root.rewriteRoot s w).2.fault = none) :
    root.rewriteRoot s w = root.rewrite s [] w := by
  rcases decided : (root.decide s []).runFrom w.progress with ⟨fault | d, p⟩
  · simp [rewriteRoot, decided] at done
  · simp only [rewriteRoot, decided] at done ⊢
    split
    · rename_i replaced
      simp [replaced] at done
    · rfl

theorem rewriteRoot_start {s : Settings} {root : Node} {w : Walk}
    (done : (root.rewriteRoot s w).2.fault = none) : w.fault = none := by
  rw [rewriteRoot_eq done] at done
  cases faulty : w.fault with
  | none => rfl
  | some fault =>
      rw [rewrite_fault (by simp [faulty]), faulty] at done
      cases done

theorem rewriteRoot_derives {s : Settings} {root : Node} {w : Walk} (start : w.fault = none)
    (done : (root.rewriteRoot s w).2.fault = none) :
    ∃ log, Rewrites s [] root (root.rewriteRoot s w).1 log ∧
      w.progress.Advance log (root.rewriteRoot s w).2.progress := by
  have same := rewriteRoot_eq done
  rw [same] at done ⊢
  exact rewrite_derives start done

end Node

end JsxBoundary
