import JsxBoundary.Concrete.Read
import JsxBoundary.Search
import JsxBoundary.Stack

namespace JsxBoundary.Concrete

/-- One round of the search: the node at fault that ends it or the nodes still to be looked at; nothing if there
are none left. -/
def faultRound (stack : Stack Concrete) : Option (Concrete ⊕ Stack Concrete) :=
  stack.take?.map fun (n, rest) => if n.isFault then .inl n else .inr (rest.putInOrder n.children)

theorem pending_of_faultRound_none {stack : Stack Concrete} (h : faultRound stack = none) : stack.pending = [] :=
  Stack.pending_of_take?_none (Option.map_eq_none_iff.1 h)

theorem pending_of_faultRound_found {stack : Stack Concrete} {n : Concrete} (h : faultRound stack = some (.inl n)) :
    ∃ rest, stack.pending = n :: rest ∧ n.isFault = true := by
  obtain ⟨⟨m, rest⟩, taken, same⟩ := Option.map_eq_some_iff.1 h
  cases fault : m.isFault with
  | false => simp [fault] at same
  | true =>
      obtain rfl : m = n := by simpa [fault] using same
      exact ⟨rest.pending, Stack.pending_of_take? taken, fault⟩

theorem pending_of_faultRound {stack left : Stack Concrete} (h : faultRound stack = some (.inr left)) :
    ∃ n rest, stack.pending = n :: rest ∧ n.isFault = false ∧ left.pending = n.children ++ rest := by
  obtain ⟨⟨n, rest⟩, taken, same⟩ := Option.map_eq_some_iff.1 h
  cases fault : n.isFault with
  | true => simp [fault] at same
  | false =>
      obtain rfl : rest.putInOrder n.children = left := by simpa [fault] using same
      exact ⟨n, rest.pending, Stack.pending_of_take? taken, fault, Stack.pending_putInOrder _ _⟩

theorem totalSize_lt_of_faultRound {stack left : Stack Concrete} (h : faultRound stack = some (.inr left)) :
    totalSize left.pending < totalSize stack.pending := by
  obtain ⟨n, rest, before, _, after⟩ := pending_of_faultRound h
  have smaller : totalSize n.children < sizeOf n := by
    obtain ⟨info, children⟩ := n
    have := totalSize_lt_sizeOf children
    simp only [Concrete.children, mk.sizeOf_spec]
    omega
  rw [before, after, totalSize_append, totalSize_cons]
  omega

def searchFault (stack : Stack Concrete) : Option Concrete :=
  match _h : faultRound stack with
  | none => none
  | some (.inl n) => some n
  | some (.inr left) => searchFault left
termination_by totalSize stack.pending
decreasing_by exact totalSize_lt_of_faultRound _h

/-- The fault that a tree with an error is refused with. The line and the column count from one. -/
def syntaxFault (root : Concrete) : Fault :=
  match searchFault #[root] with
  | some n => .unparsableAt n.info.missing (n.info.row + 1) (n.info.column + 1)
  | none => .unparsable

end JsxBoundary.Concrete
