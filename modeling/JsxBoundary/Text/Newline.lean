namespace JsxBoundary.Text

def unifyNewlinesList : List Char → List Char
  | '\r' :: '\n' :: cs => '\n' :: unifyNewlinesList cs
  | '\r' :: cs => '\n' :: unifyNewlinesList cs
  | c :: cs => c :: unifyNewlinesList cs
  | [] => []

def unifyNewlines (s : String) : String :=
  String.ofList (unifyNewlinesList s.toList)

theorem unifyNewlinesList_eq_self {cs : List Char} (h : '\r' ∉ cs) : unifyNewlinesList cs = cs := by
  fun_induction unifyNewlinesList cs <;> simp_all

theorem not_mem_unifyNewlinesList (cs : List Char) : '\r' ∉ unifyNewlinesList cs := by
  fun_induction unifyNewlinesList cs <;> simp_all [eq_comm]

theorem unifyNewlines_eq_self {s : String} (h : '\r' ∉ s.toList) : unifyNewlines s = s := by
  simp [unifyNewlines, unifyNewlinesList_eq_self h]

theorem unifyNewlines_eq_self_iff {s : String} : unifyNewlines s = s ↔ '\r' ∉ s.toList := by
  refine ⟨fun same => ?_, unifyNewlines_eq_self⟩
  rw [← same, unifyNewlines, String.toList_ofList]
  exact not_mem_unifyNewlinesList _

end JsxBoundary.Text
