import FlatFourier.Builder.Tally
import FlatFourier.Error
import FlatFourier.Graph
import FlatFourier.WriteLog

namespace FlatFourier

structure ArrayInfo where
  name : String
  length : Nat
deriving DecidableEq, Repr

structure Options where
  /-- Whether equal pure operations share one node. -/
  sharing : Bool
  /-- Whether the standard rules are tried. -/
  simplify : Bool
deriving DecidableEq, Repr

structure Builder where
  options : Options
  rules : List Rule
  graph : Graph
  log : WriteLog
  arrays : Array ArrayInfo
  tally : Tally

/-- A step of building. -/
abbrev Build := EStateM Error Builder

namespace Builder

def withRules (options : Options) (rules : List Rule) : Builder where
  options := options
  rules := rules
  graph := .empty options.sharing
  log := .empty
  arrays := #[]
  tally := .zero

def new (options : Options) : Builder :=
  withRules options (if options.simplify then Rule.standard else [])

/-- The node of an operation, without trying any rule. A write takes the next number of its array
and is logged. -/
def add (b : Builder) (kind : Kind) : NodeId × Builder :=
  match b with
  | ⟨options, rules, graph, log, arrays, tally⟩ =>
    match kind with
    | .write array _ _ =>
      let (seq, log) := log.reserve array
      let (placement, graph) := graph.insert kind (some seq)
      let log := log.record ⟨array, seq, placement.id⟩
      let tally := { tally with created := tally.created + 1, writes := tally.writes + 1 }
      (placement.id, ⟨options, rules, graph, log, arrays, tally⟩)
    | _ =>
      match graph.insert kind none with
      | (.created id, graph) =>
        (id, ⟨options, rules, graph, log, arrays, { tally with created := tally.created + 1 }⟩)
      | (.reused id, graph) =>
        (id, ⟨options, rules, graph, log, arrays, { tally with reused := tally.reused + 1 }⟩)

def declare (b : Builder) (name : String) (length : Nat) : ArrayId × Builder :=
  (b.arrays.size, { b with arrays := b.arrays.push ⟨name, length⟩ })

/-- Counts an answer under the name of a rule. -/
def countAnswer (b : Builder) (name : String) : Builder :=
  { b with tally := b.tally.countAnswer name }

def countPlanned (b : Builder) (length : Nat) : Builder :=
  { b with tally := { b.tally with planned := length } }

def node (b : Builder) (id : NodeId) : Except Error Node :=
  b.graph.lookup id

def array (b : Builder) (id : ArrayId) : Except Error ArrayInfo :=
  match b.arrays[id]? with
  | some info => .ok info
  | none => .error (.unknownArray id)

end Builder

namespace Build

/-- A question to the state that may have no answer. -/
def ask (question : Builder → Except Error α) : Build α := do
  match question (← get) with
  | .ok a => return a
  | .error e => throw e

def add (kind : Kind) : Build NodeId :=
  modifyGet fun b => b.add kind

def declare (name : String) (length : Nat) : Build ArrayId :=
  modifyGet fun b => b.declare name length

def node (id : NodeId) : Build Node :=
  ask fun b => b.node id

def array (id : ArrayId) : Build ArrayInfo :=
  ask fun b => b.array id

/-- The value of a node that is a constant. -/
def constant? (id : NodeId) : Build (Option Float) :=
  return (← node id).kind.constant?

def countAnswer (name : String) : Build Unit :=
  modify fun b => b.countAnswer name

/-- The node of a constant. -/
def lift (x : Float) : Build NodeId :=
  add (.const x)

/-- Marks a value as a result. -/
def result (value : NodeId) : Build NodeId :=
  add (.result value)

/-- Refuses a cell that the array does not have. -/
def checkCell (array : ArrayId) (index : Nat) : Build Unit := do
  let info ← Build.array array
  unless index < info.length do throw (.cellOutOfBounds index info.name info.length)

/-- Reads a cell as it is after the writes so far. -/
def read (array : ArrayId) (index : Nat) : Build NodeId := do
  checkCell array index
  add (.read array index ((← get).log.epoch array))

def write (array : ArrayId) (index : Nat) (value : NodeId) : Build NodeId := do
  checkCell array index
  add (.write array index value)

/-- Reads cells of an array in order, `count` of them from `index` on. -/
def readFrom (array : ArrayId) (index : Nat) : Nat → Build (List NodeId)
  | 0 => return []
  | count + 1 => do
    let id ← read array index
    let ids ← readFrom array (index + 1) count
    return id :: ids

/-- Reads the first cells of an array. -/
def readCells (array : ArrayId) (length : Nat) : Build (List NodeId) :=
  readFrom array 0 length

end Build

end FlatFourier
