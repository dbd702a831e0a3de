import JsxBoundary.Concrete.Read
import JsxBoundary.InPlace.Replacement

namespace JsxBoundary.InPlace

def Mark.ofPiece (refs : List Ref) : Piece Node → Mark
  | .text value => .text value
  | .child i => .node (refs[i]?.getD 0)
  | .loose _ => .text ""

def standIn (r : Ref) : Node :=
  .mk .emptyExpression (some [.child r])

def standsFor? (n : Node) : Option Ref :=
  match n.form, n.layout with
  | .emptyExpression, some [.child r] => some r
  | _, _ => none

namespace Build

def leaf (n : Node) : Build Ref :=
  alloc (n.form.map fun _ => 0) (n.layout.map (·.map (Mark.ofPiece [])))

/-- The object that a child of a form stands for. A child that a plan supplies stands for itself. -/
def resolve (n : Node) : Build Ref :=
  match standsFor? n with
  | some r => pure r
  | none => leaf n

def object (form : Form Node) (pieces : List (Piece Node)) : Build Ref := do
  let refs ← form.children.mapM resolve
  alloc ((form.map fun _ => 0).withChildren refs) (some (pieces.map (Mark.ofPiece refs)))

end Build

abbrev Load := StateT Heap (Except Fault)

namespace Load

def build {α : Type} (make : Build α) : Load α :=
  fun h => .ok (make h)

def ofExcept {α : Type} (x : Except Fault α) : Load α :=
  fun h => x.map (·, h)

end Load

end JsxBoundary.InPlace

namespace JsxBoundary.Concrete

open InPlace

def store (source : ByteArray) (role : Role) (n : Concrete) : Load Ref :=
  match _h : plan source role n with
  | .error fault => Load.ofExcept (.error fault)
  | .ok p => do
    let refs ← p.slots.attach.mapM fun ⟨slot, _⟩ => store source slot.role slot.node
    let pieces ← Load.ofExcept <| if p.whole then (n.text source).map ([.text ·])
      else layout source n.start n.stop p.slots
    Load.build (Build.object (p.form (refs.map standIn)) pieces)
termination_by (sizeOf n, role.rank)
decreasing_by
  rcases below_of_mem_slots _h ‹_› with h | ⟨h, h'⟩
  · exact .left _ _ h
  · rw [h]; exact .right _ h'

def storeProgram (source : String) (root : Concrete) : Load Ref :=
  if root.info.faulty then Load.ofExcept (.error root.fault) else do
  let bytes := source.toUTF8
  let body ← root.named.mapM (store bytes .plain)
  let pieces ← Load.ofExcept (layout bytes 0 bytes.size (slotsFrom .plain 0 root.named))
  Load.build (Build.object (.program (body.map standIn)) pieces)

end JsxBoundary.Concrete
