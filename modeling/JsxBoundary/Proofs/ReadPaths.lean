import JsxBoundary.Read

/-!
# Paths to reads

`ReadAt` says where in a tree a read stands that belongs to the tree: no function literal lies on the way
to it. A tree contains a read exactly if there is such a path (`containsRead_iff`).
-/

namespace JsxBoundary.Node

variable {policy : ReadPolicy} {n c : Node} {path : List Nat} {i : Nat}

structure ReadAt (policy : ReadPolicy) (n : Node) (path : List Nat) : Prop where
  read : ∃ r, n.get? path = some r ∧ r.isRead policy = true
  direct : ∀ above a, above <+: path → n.get? above = some a → a.isFunction = false

theorem ReadAt.isFunction (h : ReadAt policy n path) : n.isFunction = false :=
  h.direct [] n List.nil_prefix rfl

theorem readAt_nil : ReadAt policy n [] ↔ n.isRead policy = true ∧ n.isFunction = false := by
  constructor
  · intro h
    obtain ⟨r, found, reads⟩ := h.read
    cases found
    exact ⟨reads, h.isFunction⟩
  · rintro ⟨reads, direct⟩
    refine ⟨⟨n, rfl, reads⟩, fun above a isPrefix found => ?_⟩
    rw [List.prefix_nil.1 isPrefix] at found
    cases found
    exact direct

theorem readAt_cons : ReadAt policy n (i :: path) ↔
    n.isFunction = false ∧ ∃ c, n.children[i]? = some c ∧ ReadAt policy c path := by
  constructor
  · intro h
    obtain ⟨r, found, reads⟩ := h.read
    rw [get?_cons] at found
    obtain ⟨c, child, below⟩ := Option.bind_eq_some_iff.1 found
    refine ⟨h.isFunction, c, child, ⟨r, below, reads⟩, fun above a isPrefix at' => ?_⟩
    exact h.direct (i :: above) a ((List.prefix_cons_inj i).2 isPrefix) (by rw [get?_cons, child]; exact at')
  · rintro ⟨direct, c, child, h⟩
    obtain ⟨r, below, reads⟩ := h.read
    refine ⟨⟨r, by rw [get?_cons, child]; exact below, reads⟩, fun above a isPrefix found => ?_⟩
    cases above with
    | nil =>
        cases found
        exact direct
    | cons j above =>
        obtain ⟨rfl, inner⟩ := List.cons_prefix_cons.1 isPrefix
        rw [get?_cons, child] at found
        exact h.direct above a inner found

theorem containsRead_iff : n.containsRead policy = true ↔ ∃ path, ReadAt policy n path := by
  induction n using inductionOnChildren with
  | step n ih =>
      rw [containsRead_eq, Bool.and_eq_true, Bool.not_eq_true', Bool.or_eq_true, List.any_eq_true]
      constructor
      · rintro ⟨direct, reads | ⟨c, member, below⟩⟩
        · exact ⟨[], readAt_nil.2 ⟨reads, direct⟩⟩
        · obtain ⟨path, h⟩ := (ih c member).1 below
          obtain ⟨i, child⟩ := List.getElem?_of_mem member
          exact ⟨i :: path, readAt_cons.2 ⟨direct, c, child, h⟩⟩
      · rintro ⟨path, h⟩
        refine ⟨h.isFunction, ?_⟩
        cases path with
        | nil => exact .inl (readAt_nil.1 h).1
        | cons i path =>
            obtain ⟨_, c, child, below⟩ := readAt_cons.1 h
            have member := List.mem_of_getElem? child
            exact .inr ⟨c, member, (ih c member).2 ⟨path, below⟩⟩

end JsxBoundary.Node
