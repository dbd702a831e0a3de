import JsxBoundary.Proofs.Pipeline
import JsxBoundary.Proofs.Printing

namespace JsxBoundary

/-- The text of the import statement. -/
def Import.statement (name source : String) : String :=
  "import \x7b " ++ name ++ " \x7d from \"" ++ source ++ "\";"

inductive LineAdded (line : String) : String → String → Prop
  | above (a b : String) : LineAdded line (a ++ b) (a ++ (line ++ "\n") ++ b)
  | below (a b : String) : LineAdded line (a ++ b) (a ++ ("\n" ++ line) ++ b)

theorem LineAdded.sublist {line t t' : String} (h : LineAdded line t t') :
    t.toList.Sublist t'.toList := by
  have around : ∀ a b more : String, (a ++ b).toList.Sublist (a ++ more ++ b).toList := by
    intro a b more
    rw [String.toList_append, String.toList_append, String.toList_append]
    exact (List.sublist_append_left _ _).append (.refl _)
  cases h with
  | above a b => exact around a b _
  | below a b => exact around a b _

theorem Node.print_namedImport (name source : String) :
    (Node.namedImport name source).print = .ok (Import.statement name source) := by
  have text : "import " ++ ("\x7b " ++ name ++ " \x7d" ++ " from ") ++ "\"" ++ source ++ "\";" =
      Import.statement name source :=
    String.toList_inj.1 (by simp [Import.statement])
  have written : (Node.namedImport name source).parts = .ok [.text (Import.statement name source)] := by
    rw [← text]
    simp [namedImport, parts, Form.parts, Form.importText, Form.specifierText]
    rfl
  exact print_ok_iff.2 ⟨_, written, .single rfl⟩

namespace Import

theorem parts_shifted (body : List Node) (index : Nat) (new : Node) (pieces : List (Piece Node)) :
    (shifted index pieces).flatMap (Part.ofPiece (body.insertIdx index new)) =
      pieces.flatMap (Part.ofPiece body) := by
  induction pieces with
  | nil => rfl
  | cons piece pieces ih =>
      have rest : shifted index (piece :: pieces) = _ :: shifted index pieces := rfl
      rw [rest, List.flatMap_cons, List.flatMap_cons, ih]
      congr 1
      cases piece with
      | text value => rfl
      | loose n => rfl
      | child i =>
          simp only [Part.ofPiece]
          congr 2
          split
          · rename_i moved
            rw [List.getElem?_insertIdx_of_gt (by omega)]
            rfl
          · rename_i stays
            rw [List.getElem?_insertIdx_of_lt (by omega)]

theorem pieceIndex?_of_mem {pieces : List (Piece Node)} {i : Nat} (member : .child i ∈ pieces) :
    ∃ place, pieceIndex? pieces i = some place := by
  rw [← Option.isSome_iff_exists, pieceIndex?, List.findIdx?_isSome, List.any_eq_true]
  exact ⟨_, member, by simp⟩

theorem put_prints {body : List Node} {index : Nat} {new : Node} {front middle back : List (Piece Node)}
    {a more b : String} (before : Prints (front.flatMap (Part.ofPiece body)) a)
    (inserted : Prints (middle.flatMap (Part.ofPiece (body.insertIdx index new))) more)
    (after : Prints (back.flatMap (Part.ofPiece body)) b) :
    Prints ((shifted index front ++ middle ++ shifted index back).flatMap
      (Part.ofPiece (body.insertIdx index new))) (a ++ more ++ b) := by
  rw [List.flatMap_append, List.flatMap_append, parts_shifted, parts_shifted]
  exact (before.append inserted).append after

section

variable {all : List Node} {index : Nat} {new : Node} {line : String}

theorem lineAbove_prints (here : all[index]? = some new) (printed : new.print = .ok line) :
    Prints ([.child index, .text "\n"].flatMap (Part.ofPiece all)) (line ++ "\n") := by
  simp only [List.flatMap_cons, List.flatMap_nil, Part.ofPiece, here]
  exact (Prints.node printed (.text "\n" .nil)).of_toList (by simp)

theorem lineBelow_prints (here : all[index]? = some new) (printed : new.print = .ok line) :
    Prints ([.text "\n", .child index].flatMap (Part.ofPiece all)) ("\n" ++ line) := by
  simp only [List.flatMap_cons, List.flatMap_nil, Part.ofPiece, here]
  exact (Prints.text "\n" (.node printed .nil)).of_toList (by simp)

end

theorem splice_prints {body : List Node} {pieces : List (Piece Node)} {index : Nat} {new : Node}
    {line : String} (inside : index ≤ body.length) (shown : ∀ i < body.length, .child i ∈ pieces)
    (printed : new.print = .ok line) :
    ∃ pieces', splice pieces index body.length = some pieces' ∧
      ∀ t, Prints (pieces.flatMap (Part.ofPiece body)) t →
        ∃ t', Prints (pieces'.flatMap (Part.ofPiece (body.insertIdx index new))) t' ∧
          LineAdded line t t' := by
  have here : (body.insertIdx index new)[index]? = some new := by
    rw [List.getElem?_insertIdx_self, if_pos inside]
  have halves : ∀ place t, Prints (pieces.flatMap (Part.ofPiece body)) t → ∃ a b, t = a ++ b ∧
      Prints ((pieces.take place).flatMap (Part.ofPiece body)) a ∧
      Prints ((pieces.drop place).flatMap (Part.ofPiece body)) b := by
    intro place t prints
    rw [← List.take_append_drop place pieces, List.flatMap_append] at prints
    obtain ⟨a, b, front, back, rfl⟩ := prints.of_append
    exact ⟨a, b, rfl, front, back⟩
  -- The line break of the new line comes after it or, at the end of the statements, before it.
  unfold splice
  split
  · rename_i before
    obtain ⟨place, found⟩ := pieceIndex?_of_mem (shown index before)
    refine ⟨_, by rw [found]; rfl, fun t prints => ?_⟩
    obtain ⟨a, b, rfl, front, back⟩ := halves place t prints
    exact ⟨_, put_prints front (lineAbove_prints here printed) back, .above a b⟩
  · split
    · rename_i last positive
      obtain ⟨place, found⟩ := pieceIndex?_of_mem (shown (index - 1) (by omega))
      refine ⟨_, by rw [found]; rfl, fun t prints => ?_⟩
      obtain ⟨a, b, rfl, front, back⟩ := halves (place + 1) t prints
      exact ⟨_, put_prints front (lineBelow_prints here printed) back, .below a b⟩
    · refine ⟨_, rfl, fun t prints => ?_⟩
      obtain ⟨a, b, rfl, front, back⟩ := halves 0 t prints
      exact ⟨_, put_prints front (lineAbove_prints here printed) back, .above a b⟩

end Import

theorem Node.injectImport_text {name source : String} {root : Node} {body : List Node}
    {pieces : List (Piece Node)} (form : root.form = .program body) (layout : root.layout = some pieces)
    (shown : ∀ i < body.length, .child i ∈ pieces) :
    root.injectImport name source = .ok none ∨
      ∃ root', root.injectImport name source = .ok (some root') ∧
        ∀ t, root.print = .ok t → ∃ t', root'.print = .ok t' ∧
          LineAdded (Import.statement name source) t t' := by
  have found : root.body? = some body := by simp [body?, form]
  unfold injectImport
  rw [found]
  dsimp only
  split
  · exact .inl rfl
  · obtain ⟨pieces', spliced, text⟩ := Import.splice_prints (Import.insertionIndex_le body) shown
      (Node.print_namedImport name source)
    simp only [layout, spliced]
    refine .inr ⟨_, rfl, fun t printed => ?_⟩
    obtain ⟨ps, parts, prints⟩ := print_ok_iff.1 printed
    simp only [Node.parts, layout, children, form, Form.children] at parts
    cases parts
    obtain ⟨t', prints', added⟩ := text t prints
    exact ⟨t', print_ok_iff.2 ⟨_, rfl, prints'⟩, added⟩

end JsxBoundary
