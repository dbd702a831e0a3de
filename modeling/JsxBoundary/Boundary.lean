import JsxBoundary.Tree.Print

namespace JsxBoundary

def Piece.isFirstChild {α : Type} : Piece α → Bool
  | .child 0 => true
  | _ => false

namespace Node

/-- The container `{() => body}`. With a container that holds `body` as its `source`, the text of
the source around `body` stays, so `{a /* note */}` becomes `{() => a /* note */}`. -/
def thunk (body : Node) (source : Option Node) : Node :=
  match (source.bind layout).filter (·.any Piece.isFirstChild) with
  | some pieces =>
    let opened := if body.needsBodyParens then [.text "() => (", .child 0, .text ")"]
      else [.text "() => ", .child 0]
    mk (.container (mk (.arrow body none) (some opened))) (some pieces)
  | none => fresh (.container (fresh (.arrow body none)))

def boundary (component : String) (expression : Node) (source : Option Node) : Node :=
  fresh <| .element (some (fresh (.openingTag (fresh (.identifier component)) [] false)))
    [expression.thunk source] (some (fresh (.closingTag (fresh (.identifier component)))))

theorem form_thunk (body : Node) (source : Option Node) :
    ∃ layout, (body.thunk source).form = .container (mk (.arrow body none) layout) := by
  unfold thunk
  split <;> exact ⟨_, rfl⟩

end Node

end JsxBoundary
