import JsxBoundary.Rewrite.Pass

namespace JsxBoundary

inductive Operation where
  | decide (ancestors : Ancestors) (n : Node)
  | wrapReads (root : Node)
  | importWrapper (root : Node)

namespace Operation

def runFrom (s : Settings) (p : Progress) : Operation → Option Fault × Progress
  | decide ancestors n =>
    match (n.decide s ancestors).runFrom p with
    | (.ok _, q) => (none, q)
    | (.error fault, q) => (some fault, q)
  | wrapReads root =>
    let w := ((Pass.wrapReads s).run root ⟨p, none⟩).2
    (w.fault, w.progress)
  | importWrapper root =>
    let w := ((Pass.importWrapper s).run root ⟨p, none⟩).2
    (w.fault, w.progress)

end Operation

def session (s : Settings) (ops : List Operation) : Progress :=
  ops.foldl (fun p op => (op.runFrom s p).2) {}

end JsxBoundary
