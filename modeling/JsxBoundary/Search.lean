import JsxBoundary.Read

namespace JsxBoundary

def totalSize {α : Type} [SizeOf α] : List α → Nat
  | [] => 0
  | a :: as => sizeOf a + totalSize as

@[simp] theorem totalSize_nil {α : Type} [SizeOf α] : totalSize ([] : List α) = 0 := rfl

@[simp] theorem totalSize_cons {α : Type} [SizeOf α] (a : α) (as : List α) :
    totalSize (a :: as) = sizeOf a + totalSize as := rfl

@[simp] theorem totalSize_append {α : Type} [SizeOf α] (as bs : List α) :
    totalSize (as ++ bs) = totalSize as + totalSize bs := by
  induction as with
  | nil => simp
  | cons a as ih =>
      rw [List.cons_append, totalSize_cons, totalSize_cons, ih, Nat.add_assoc]

theorem totalSize_lt_sizeOf {α : Type} [SizeOf α] (as : List α) : totalSize as < sizeOf as := by
  induction as with
  | nil => simp
  | cons a as ih =>
      simp only [totalSize_cons, List.cons.sizeOf_spec]
      omega

theorem Form.totalSize_children_lt {α : Type} [SizeOf α] (form : Form α) :
    totalSize form.children < sizeOf form := by
  have option (o : Option α) : totalSize o.toList < sizeOf o := by
    cases o <;> simp
  cases form with
  | call _ cs _ | openingTag _ cs _ | function _ cs | generic _ cs | importDecl _ cs _ _ | program cs
  | fragment cs =>
      have := totalSize_lt_sizeOf cs
      simp [children]
      omega
  | arrow _ o | attr _ o =>
      have := option o
      simp [children]
      omega
  | element opening content closing =>
      have := option opening
      have := totalSize_lt_sizeOf content
      have := option closing
      simp [children]
      omega
  | _ => simp [children] <;> omega

namespace Node

/-- One round of the search: the answer if the search is over, or else the nodes still to be looked at,
the next one first. -/
def searchRound (policy : ReadPolicy) : List Node → Bool ⊕ List Node
  | [] => .inl false
  | n :: rest =>
    if n.isFunction then .inr rest
    else if n.isRead policy then .inl true
    else .inr (n.children ++ rest)

theorem totalSize_lt_of_searchRound {policy : ReadPolicy} {stack left : List Node}
    (h : searchRound policy stack = .inr left) : totalSize left < totalSize stack := by
  fun_cases searchRound policy stack with
  | case1 | case3 => simp [searchRound, *] at h
  | case2 n rest isFunction =>
      obtain rfl : rest = left := by simpa [searchRound, isFunction] using h
      have : 0 < sizeOf n := by
        cases n
        simp only [mk.sizeOf_spec]
        omega
      simp only [totalSize_cons]
      omega
  | case4 n rest noFunction noRead =>
      obtain rfl : n.children ++ rest = left := by simpa [searchRound, noFunction, noRead] using h
      have below := n.form.totalSize_children_lt
      have := n.sizeOf_form_lt
      simp only [totalSize_append, totalSize_cons, children]
      omega

def searchRead (policy : ReadPolicy) (stack : List Node) : Bool :=
  match _h : searchRound policy stack with
  | .inl answer => answer
  | .inr left => searchRead policy left
termination_by totalSize stack
decreasing_by exact totalSize_lt_of_searchRound _h

end Node

end JsxBoundary
