import JsxBoundary.Deferral

namespace JsxBoundary.Node

def ownWeight (n : Node) : Nat :=
  match n.form with
  | .element _ _ _ => 10
  | .container expression => if expression.isFunction then 1 else 10
  | _ => 1

def weight (n : Node) : Nat :=
  n.ownWeight + (n.children.attach.map fun ⟨c, _⟩ => c.weight).foldr (· + ·) 0
termination_by n
decreasing_by exact sizeOf_lt_of_mem_children ‹_›

def totalWeight (ns : List Node) : Nat :=
  (ns.map weight).foldr (· + ·) 0

theorem weight_eq (n : Node) : n.weight = n.ownWeight + totalWeight n.children := by
  rw [weight, totalWeight, List.map_subtype fun _ _ => rfl, List.unattach_attach]

@[simp] theorem totalWeight_nil : totalWeight [] = 0 := rfl

@[simp] theorem totalWeight_cons (n : Node) (ns : List Node) :
    totalWeight (n :: ns) = n.weight + totalWeight ns := rfl

@[simp] theorem totalWeight_append (ms ns : List Node) :
    totalWeight (ms ++ ns) = totalWeight ms + totalWeight ns := by
  induction ms with
  | nil => simp
  | cons m ms ih => simp [ih, Nat.add_assoc]

theorem totalWeight_filter_le (p : Node → Bool) (ns : List Node) :
    totalWeight (ns.filter p) ≤ totalWeight ns := by
  induction ns with
  | nil => simp
  | cons n ns ih => rw [List.filter_cons]; split <;> simp <;> omega

theorem weight_le_totalWeight {n : Node} {ns : List Node} (h : n ∈ ns) :
    n.weight ≤ totalWeight ns := by
  induction ns with
  | nil => cases h
  | cons m ns ih =>
    rcases List.mem_cons.1 h with rfl | h
    · simp
    · have := ih h; simp; omega

theorem ownWeight_pos (n : Node) : 0 < n.ownWeight := by
  unfold ownWeight
  split
  · simp
  · split <;> simp
  · simp

theorem weight_lt_of_mem_children {n c : Node} (h : c ∈ n.children) : c.weight < n.weight := by
  have := weight_le_totalWeight h
  have := n.ownWeight_pos
  rw [n.weight_eq]
  omega

theorem weight_thunk (body : Node) (source : Option Node) :
    (body.thunk source).weight = body.weight + 2 := by
  obtain ⟨layout, h⟩ := form_thunk body source
  have children : (body.thunk source).children = [mk (.arrow body none) layout] := by
    simp [Node.children, h, Form.children]
  rw [weight_eq, children]
  simp only [ownWeight, h, isFunction, form_mk, Form.isFunction, if_true, totalWeight_cons,
    totalWeight_nil, Nat.add_zero]
  rw [weight_eq (mk _ _)]
  simp [ownWeight, Node.children, Form.children]
  omega

theorem weight_lt_of_mem_boundary {n expression c : Node} {component : String}
    {source : Option Node} (hn : n.form = .container expression)
    (hf : expression.isFunction = false)
    (hc : c ∈ (expression.boundary component source).children) : c.weight < n.weight := by
  have : n.weight = expression.weight + 10 := by
    rw [weight_eq]
    simp [ownWeight, hn, hf, Node.children, Form.children]
    omega
  have tag : (fresh (.identifier component)).weight = 1 := by
    rw [weight_eq]; simp [ownWeight, Node.children, Form.children]
  simp only [boundary, Node.children, form_mk, Form.children, Option.toList, List.mem_append,
    List.mem_cons, List.not_mem_nil, or_false] at hc
  rcases hc with rfl | rfl | rfl
  · rw [weight_eq]; simp [ownWeight, Node.children, Form.children, tag]; omega
  · rw [weight_thunk]; omega
  · rw [weight_eq]; simp [ownWeight, Node.children, Form.children, tag]; omega

theorem weight_le_of_deferredBody {content : List Node} {fragment body : Node}
    (hf : fragment.weight ≤ totalWeight content + 1)
    (h : deferredBody? (keptContent content) fragment = some body) :
    body.weight ≤ totalWeight content + 1 := by
  have kept : totalWeight (keptContent content) ≤ totalWeight content :=
    totalWeight_filter_le _ content
  unfold deferredBody? at h
  split at h
  · rename_i c hk
    rw [hk, totalWeight_cons] at kept
    split at h
    · cases h; omega
    · rename_i expression hc
      have := weight_lt_of_mem_children (n := c) (c := expression)
        (by simp [Node.children, hc, Form.children])
      split at h <;> cases h
      omega
    · cases h
  · cases h; exact hf

theorem weight_keptFragment_le (n : Node) (content : List Node) :
    (n.keptFragment content).weight ≤ totalWeight content + 1 := by
  have : totalWeight (keptContent content) ≤ totalWeight content :=
    totalWeight_filter_le _ content
  rw [weight_eq]
  simp [keptFragment, ownWeight, Node.children, Form.children]
  omega

theorem weight_lt_of_mem_deferred {n m c : Node} (h : n.deferChildren? = some m)
    (hc : c ∈ m.children) : c.weight < n.weight := by
  unfold deferChildren? at h
  split at h
  · rename_i opening content closing hn
    have hw : n.weight = totalWeight n.children + 10 := by
      rw [weight_eq]; simp [ownWeight, hn]; omega
    have hs : n.children = opening :: (content ++ closing.toList) := by
      simp [Node.children, hn, Form.children]
    rw [hs, totalWeight_cons, totalWeight_append] at hw
    split at h
    · dsimp only at h
      split at h
      · cases h
      · obtain ⟨body, hb, rfl⟩ := Option.map_eq_some_iff.1 h
        have := weight_le_of_deferredBody (weight_keptFragment_le n content) hb
        simp only [Node.children, form_mk, Form.children, Option.toList, List.mem_append,
          List.mem_cons, List.not_mem_nil, or_false] at hc
        rcases hc with rfl | rfl | hc
        · omega
        · rw [weight_thunk]; omega
        · have := @weight_le_totalWeight _ closing.toList hc
          omega
    · cases h
  · cases h

end JsxBoundary.Node
