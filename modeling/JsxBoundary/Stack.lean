/-!
# Stacks

A stack holds items that are still to be taken up. The last item of the array is on top and is the next one.
What is put on in order is put on from its end, so that its first item comes to the top
(`Stack.pending_putInOrder`).
-/

namespace JsxBoundary

abbrev Stack (α : Type) := Array α

namespace Stack

variable {α : Type}

def pending (stack : Stack α) : List α :=
  stack.toList.reverse

def take? (stack : Stack α) : Option (α × Stack α) :=
  stack.back?.map (·, stack.pop)

def putInOrder (stack : Stack α) (items : List α) : Stack α :=
  stack ++ items.reverse

@[simp] theorem pending_singleton (a : α) : pending #[a] = [a] := rfl

theorem pending_putInOrder (stack : Stack α) (items : List α) :
    (stack.putInOrder items).pending = items ++ stack.pending := by
  simp [pending, putInOrder]

theorem pending_of_take?_none {stack : Stack α} (h : stack.take? = none) : stack.pending = [] := by
  have empty : stack = #[] := by simpa [take?] using h
  rw [empty]
  rfl

theorem pending_of_take? {stack rest : Stack α} {a : α} (h : stack.take? = some (a, rest)) :
    stack.pending = a :: rest.pending := by
  obtain ⟨top, last, same⟩ := Option.map_eq_some_iff.1 h
  obtain ⟨front, rfl⟩ := Array.back?_eq_some_iff.1 last
  cases same
  simp [pending]

end Stack

end JsxBoundary
