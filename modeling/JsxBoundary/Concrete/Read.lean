import JsxBoundary.Concrete.Plan

namespace JsxBoundary.Concrete

def gap (source : ByteArray) (cursor stop : Nat) : Except Fault (List (Piece Node)) :=
  if cursor < stop then (slice source cursor stop).map ([.text ·]) else .ok []

/-- The text from `cursor` to `stop` cut at the slots, which are in order of their starts. -/
def pieces (source : ByteArray) (cursor stop : Nat) : List Slot → Except Fault (List (Piece Node))
  | [] => gap source cursor stop
  | slot :: slots => do
    let before ← gap source cursor slot.node.start
    let after ← pieces source slot.node.stop stop slots
    return before ++ .child slot.index :: after

def layout (source : ByteArray) (start stop : Nat) (slots : List Slot) :
    Except Fault (List (Piece Node)) :=
  pieces source start stop (slots.mergeSort fun a b => a.node.start ≤ b.node.start)

def toNode (source : ByteArray) (role : Role) (n : Concrete) : Except Fault Node :=
  match _h : plan source role n with
  | .error fault => .error fault
  | .ok p => do
    let nodes ← p.slots.attach.mapM fun ⟨slot, _⟩ => toNode source slot.role slot.node
    let pieces ← if p.whole then (n.text source).map ([.text ·])
      else layout source n.start n.stop p.slots
    return .mk (p.form nodes) (some pieces)
termination_by (sizeOf n, role.rank)
decreasing_by
  rcases below_of_mem_slots _h ‹_› with h | ⟨h, h'⟩
  · exact .left _ _ h
  · rw [h]; exact .right _ h'

def fault (root : Concrete) : Fault :=
  match root.firstFault? with
  | some n => .unparsableAt n.info.missing (n.info.row + 1) (n.info.column + 1)
  | none => .unparsable

def toProgram (source : String) (root : Concrete) : Except Fault Node :=
  if root.info.faulty then .error root.fault else do
  let bytes := source.toUTF8
  let body ← root.named.mapM (toNode bytes .plain)
  let pieces ← layout bytes 0 bytes.size (slotsFrom .plain 0 root.named)
  return .mk (.program body) (some pieces)

end JsxBoundary.Concrete
