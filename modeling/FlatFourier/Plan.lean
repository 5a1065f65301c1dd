import FlatFourier.Builder.Basic

namespace FlatFourier

structure Plan where
  order : List NodeId
deriving DecidableEq, Repr

namespace Plan

def length (p : Plan) : Nat :=
  p.order.length

def position? (p : Plan) (id : NodeId) : Option Nat :=
  p.order.idxOf? id

/-- What a node needs: its operands, and the write that it has to come after. -/
def dependencies (graph : Graph) (writes : WriteOrder) (id : NodeId) : List NodeId :=
  match graph.node? id with
  | some n => n.kind.operands ++ (writes.predecessor? n.kind n.seq).toList
  | none => []

/-- A mark set for the first time leaves fewer nodes without one. -/
theorem count_set_lt {marks : Array Bool} {id : Nat} (h : id < marks.size)
    (unmarked : ¬marks[id] = true) : (marks.set id true h).count false < marks.count false := by
  have hm : marks[id] = false := by simpa using unmarked
  have pos : 0 < marks.count false := Array.count_pos_iff.mpr (hm ▸ Array.getElem_mem h)
  rw [Array.count_set, hm]
  exact Nat.sub_lt pos Nat.one_pos

/-- Marks all nodes that the nodes on the stack need. The node on top comes first. -/
def reach (needs : NodeId → List NodeId) (marks : Array Bool) :
    List NodeId → Except Error (Array Bool)
  | [] => .ok marks
  | id :: stack =>
    if h : id < marks.size then
      if marks[id] then reach needs marks stack
      else reach needs (marks.set id true h) ((needs id).reverse ++ stack)
    else .error (.unplannableNode id marks.size)
termination_by stack => (marks.count false, stack.length)
decreasing_by
  · exact Prod.Lex.right _ (Nat.lt_succ_self _)
  · exact Prod.Lex.left _ _ (count_set_lt h ‹_›)

/-- For each write, the marked reads that it would overwrite, in the order of their creation. -/
def readers (graph : Graph) (writes : WriteOrder) (marks : Array Bool) :
    Std.HashMap NodeId (Array NodeId) :=
  graph.nodes.foldl (fun table n =>
    if marks.getD n.id false then
      match writes.successor? n.kind with
      | some write => table.alter write fun ids => some ((ids.getD #[]).push n.id)
      | none => table
    else table) ∅

/-- A node that is yet to be opened, or one whose needs have been placed. -/
inductive Visit where
  | enter (id : NodeId)
  | leave (id : NodeId)

/-- Places each node behind what it needs, depth first. -/
def place (needs : NodeId → List NodeId) (marks : Array Bool) (placed : Array NodeId) :
    List Visit → Array NodeId
  | [] => placed
  | .leave id :: stack => place needs marks (placed.push id) stack
  | .enter id :: stack =>
    if h : id < marks.size then
      if marks[id] then place needs marks placed stack
      else place needs (marks.set id true h) placed
        ((needs id).map .enter ++ .leave id :: stack)
    else place needs marks placed stack
termination_by stack => (marks.count false, stack.length)
decreasing_by
  · exact Prod.Lex.right _ (Nat.lt_succ_self _)
  · exact Prod.Lex.right _ (Nat.lt_succ_self _)
  · exact Prod.Lex.left _ _ (count_set_lt h ‹_›)
  · exact Prod.Lex.right _ (Nat.lt_succ_self _)

/-- The nodes that the roots and all writes need. -/
def pruned (b : Builder) (roots : List NodeId) : Except Error Plan := do
  let writes := WriteOrder.ofLog b.log
  let starts := roots ++ writes.all
  let unmarked := Array.replicate b.graph.size false
  let needs := dependencies b.graph writes
  let marks ← reach needs unmarked starts.reverse
  let readers := readers b.graph writes marks
  let needsInOrder id := needs id ++ (readers.getD id #[]).toList
  return ⟨(place needsInOrder unmarked #[] (starts.map .enter)).toList⟩

/-- All nodes. -/
def complete (b : Builder) : Plan :=
  ⟨(b.graph.nodes.map (·.id)).toList⟩

end Plan

namespace Build

/-- Makes a plan and counts its length. -/
def plan (roots : List NodeId) (prune : Bool) : Build Plan := do
  let p ← ask fun b => if prune then Plan.pruned b roots else .ok (Plan.complete b)
  modify fun b => b.countPlanned p.length
  return p

end Build

end FlatFourier
