import Std.Data.HashMap
import FlatFourier.Arithmetic
import FlatFourier.Error

namespace FlatFourier

/-- Nodes are numbered in the order of their creation. -/
abbrev NodeId := Nat

/-- Arrays are numbered in the order of their declaration. -/
abbrev ArrayId := Nat

/-- Equal bits have equal hashes, and equality of floats as values of this type is that of bits. -/
instance hashableFloat : Hashable Float where
  hash x := hash x.toBits

/-- An operation with its operands. A read carries the number of writes to its array that come
before it, so reads on both sides of a write are different operations. -/
inductive Kind where
  | const (value : Float)
  | binary (op : BinaryOp) (left right : NodeId)
  | unary (op : UnaryOp) (argument : NodeId)
  | read (array : ArrayId) (index epoch : Nat)
  | write (array : ArrayId) (index : Nat) (value : NodeId)
  | result (value : NodeId)
deriving DecidableEq, Hashable, Repr

namespace Kind

/-- The nodes whose values are needed. -/
def operands : Kind → List NodeId
  | const _ => []
  | binary _ a b => [a, b]
  | unary _ a => [a]
  | read _ _ _ => []
  | write _ _ a => [a]
  | result a => [a]

/-- Everything but a write can be computed once and used again. -/
def isPure : Kind → Bool
  | write _ _ _ => false
  | _ => true

def constant? : Kind → Option Float
  | const x => some x
  | _ => none

/-- The array that is read or written. -/
def array? : Kind → Option ArrayId
  | read a _ _ => some a
  | write a _ _ => some a
  | _ => none

end Kind

structure Node where
  id : NodeId
  kind : Kind
  /-- The number of a write among the writes to its array. -/
  seq : Option Nat
deriving DecidableEq, Repr

structure Graph where
  /-- Whether equal pure operations share one node. -/
  sharing : Bool
  nodes : Array Node
  /-- The node of each pure operation, kept only for a graph that shares. -/
  table : Std.HashMap Kind NodeId

/-- Where an operation ended up. -/
inductive Placement where
  | created (id : NodeId)
  | reused (id : NodeId)
deriving DecidableEq, Repr

namespace Placement

def id : Placement → NodeId
  | created i => i
  | reused i => i

end Placement

namespace Graph

def empty (sharing : Bool) : Graph where
  sharing := sharing
  nodes := #[]
  table := ∅

def size (g : Graph) : Nat :=
  g.nodes.size

def node? (g : Graph) (id : NodeId) : Option Node :=
  g.nodes[id]?

/-- The node of an id, or what is wrong with the id. -/
def lookup (g : Graph) (id : NodeId) : Except Error Node :=
  match g.node? id with
  | some n => .ok n
  | none => .error (.unknownNode id g.size)

/-- Whether the operation may share a node with an equal one. -/
def shares (g : Graph) (kind : Kind) : Bool :=
  g.sharing && kind.isPure

/-- The node that already computes the operation, if nodes are shared. -/
def existing? (g : Graph) (kind : Kind) : Option NodeId :=
  if g.shares kind then g.table[kind]? else none

/-- A new node behind all others. -/
def append (g : Graph) (kind : Kind) (seq : Option Nat) : Graph :=
  let keep := g.shares kind
  match g with
  | ⟨sharing, nodes, table⟩ =>
    let id := nodes.size
    ⟨sharing, nodes.push ⟨id, kind, seq⟩, if keep then table.insert kind id else table⟩

/-- The node of an operation: the one that exists, or else a new one. -/
def insert (g : Graph) (kind : Kind) (seq : Option Nat) : Placement × Graph :=
  match g.existing? kind with
  | some id => (.reused id, g)
  | none => (.created g.size, g.append kind seq)

end Graph

end FlatFourier
