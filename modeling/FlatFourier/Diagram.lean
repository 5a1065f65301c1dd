import FlatFourier.Listing

namespace FlatFourier.Diagram

def label (array : String) (n : Node) : String :=
  match n.kind with
  | .const x => .ofList (Listing.literal x)
  | .binary op _ _ => s!"x{n.id} = {op.symbol}"
  | .unary op _ => s!"x{n.id} = {op.symbol}"
  | .read _ index epoch => s!"x{n.id} = {array}[{index}] @{epoch}"
  | .write _ index _ => s!"{array}[{index}] := #{n.seq.getD 0}"
  | .result _ => s!"x{n.id} = result"

/-- Further attributes of a vertex. -/
def style : Kind → String
  | .const _ => ", shape=plaintext"
  | .write _ _ _ => ", style=bold"
  | _ => ""

def vertex (array : String) (n : Node) : String :=
  s!"  n{n.id} [label=\"{label array n}\"{style n.kind}];"

def solid (source target : NodeId) : String :=
  s!"  n{source} -> n{target};"

def dashed (source target : NodeId) : String :=
  s!"  n{source} -> n{target} [style=dashed];"

/-- A vertex with its edges. -/
def entry (writes : WriteOrder) (array : String) (n : Node) : List String :=
  vertex array n ::
    n.kind.operands.map (solid · n.id) ++
    (writes.predecessor? n.kind n.seq).toList.map (dashed · n.id) ++
    (writes.successor? n.kind).toList.map (dashed n.id ·)

/-- The digraph of a plan that touches only the given array. -/
def text (b : Builder) (array : ArrayId) (p : Plan) : Except Error String := do
  let info ← p.bound b array
  let writes := WriteOrder.ofLog b.log
  let entries ← p.order.mapM fun id => do return entry writes info.name (← b.node id)
  return Listing.ofLines
    (["digraph fft \x7b", "  node [shape=box, fontname=monospace];"] ++ entries.flatten ++ ["\x7d"])

end FlatFourier.Diagram
