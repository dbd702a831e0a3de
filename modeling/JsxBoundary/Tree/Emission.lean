import JsxBoundary.Stack
import JsxBoundary.Tree.Print

namespace JsxBoundary

def Node.rounds (n : Node) : Nat :=
  match _h : n.parts with
  | .error _ => 1
  | .ok ps =>
    ps.attach.foldr (fun ⟨part, mem⟩ others =>
      match part, mem with
      | .text _, _ => 1 + others
      | .node m, _ => m.rounds + others) 1
termination_by n
decreasing_by exact sizeOf_lt_of_mem_parts _h ‹_›

def Part.rounds : Part → Nat
  | .text _ => 1
  | .node m => m.rounds

def Part.totalRounds : List Part → Nat
  | [] => 0
  | part :: ps => part.rounds + totalRounds ps

theorem Part.totalRounds_append (ps qs : List Part) : totalRounds (ps ++ qs) = totalRounds ps + totalRounds qs := by
  induction ps with
  | nil => simp [totalRounds]
  | cons part ps ih => rw [List.cons_append, totalRounds, totalRounds, ih, Nat.add_assoc]

theorem Node.rounds_eq {n : Node} {ps : List Part} (h : n.parts = .ok ps) :
    n.rounds = 1 + Part.totalRounds ps := by
  have : (fun (x : { part // part ∈ ps }) (others : Nat) => match x.1, x.2 with
      | .text _, _ => 1 + others
      | .node m, _ => m.rounds + others) = fun x others => x.1.rounds + others := by
    funext ⟨part, _⟩
    cases part <;> rfl
  have folded (qs : List Part) : qs.foldr (fun part others => part.rounds + others) 1 = 1 + Part.totalRounds qs := by
    induction qs with
    | nil => rfl
    | cons part qs ih => rw [List.foldr_cons, ih, Part.totalRounds, Nat.add_left_comm]
  rw [rounds, h]
  simp only [this]
  exact (List.foldr_attach (f := fun (part : Part) others => part.rounds + others)).trans (folded ps)

structure Emission where
  written : Array String
  stack : Stack Part

namespace Emission

/-- The emission after one more round, or why there is none; nothing if there is nothing left to write. -/
def round (e : Emission) : Option (Except Fault Emission) :=
  e.stack.take?.map fun (part, rest) =>
    match part with
    | .text value => .ok ⟨e.written.push value, rest⟩
    | .node n => n.parts.map fun ps => ⟨e.written, rest.putInOrder ps⟩

def needed (e : Emission) : Nat :=
  Part.totalRounds e.stack.pending

inductive Advance (e : Emission) : Emission → Prop
  | text {value : String} {rest : Stack Part} (top : e.stack.pending = .text value :: rest.pending) :
      Advance e ⟨e.written.push value, rest⟩
  | node {n : Node} {ps : List Part} {rest : Stack Part} (top : e.stack.pending = .node n :: rest.pending)
      (parts : n.parts = .ok ps) : Advance e ⟨e.written, rest.putInOrder ps⟩

theorem pending_of_round_none {e : Emission} (h : e.round = none) : e.stack.pending = [] :=
  Stack.pending_of_take?_none (Option.map_eq_none_iff.1 h)

theorem advance_of_round {e next : Emission} (h : e.round = some (.ok next)) : e.Advance next := by
  obtain ⟨⟨part, rest⟩, taken, same⟩ := Option.map_eq_some_iff.1 h
  have top := Stack.pending_of_take? taken
  cases part with
  | text value =>
      cases same
      exact .text top
  | node n =>
      cases parts : n.parts with
      | error fault => simp [parts, Except.map] at same
      | ok ps =>
          simp only [parts, Except.map, Except.ok.injEq] at same
          exact same ▸ .node top parts

theorem stuck_of_round {e : Emission} {fault : Fault} (h : e.round = some (.error fault)) :
    ∃ n rest, e.stack.pending = .node n :: rest ∧ n.parts = .error fault := by
  obtain ⟨⟨part, rest⟩, taken, same⟩ := Option.map_eq_some_iff.1 h
  have top := Stack.pending_of_take? taken
  cases part with
  | text value => cases same
  | node n =>
      refine ⟨n, rest.pending, top, ?_⟩
      cases parts : n.parts with
      | error other => simpa [parts, Except.map] using same
      | ok ps => simp [parts, Except.map] at same

theorem needed_lt_of_round {e next : Emission} (h : e.round = some (.ok next)) : next.needed < e.needed := by
  cases advance_of_round h with
  | text top => simp [needed, top, Part.totalRounds, Part.rounds]
  | node top parts =>
      simp only [needed, top, Part.totalRounds, Part.rounds, Node.rounds_eq parts, Stack.pending_putInOrder,
        Part.totalRounds_append]
      omega

def finish (e : Emission) : Except Fault String :=
  match _h : e.round with
  | none => .ok (String.join e.written.toList)
  | some (.error fault) => .error fault
  | some (.ok next) => next.finish
termination_by e.needed
decreasing_by exact needed_lt_of_round _h

end Emission

def Node.emit (n : Node) : Except Fault String :=
  Emission.finish ⟨#[], #[.node n]⟩

end JsxBoundary
