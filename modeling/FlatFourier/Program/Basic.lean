import FlatFourier.Arithmetic
import FlatFourier.Error

namespace FlatFourier

/-- The samples that come in, and the buffer for separate results. -/
inductive Buffer where
  | data
  | out
deriving DecidableEq, Repr

inductive Operand where
  | register (index : Nat)
  | immediate (value : Float)
deriving DecidableEq, Repr

inductive Instr where
  | load (target : Nat) (buffer : Buffer) (index : Nat)
  | binary (target : Nat) (op : BinaryOp) (left right : Operand)
  | unary (target : Nat) (op : UnaryOp) (argument : Operand)
  | copy (target : Nat) (source : Operand)
  | store (buffer : Buffer) (index : Nat) (source : Operand)
deriving DecidableEq, Repr

structure Program where
  inputLength : Nat
  /-- The length of the result buffer, if there is one. -/
  outLength : Option Nat
  returns : Buffer
  /-- How many registers there are. -/
  registers : Nat
  instrs : Array Instr
deriving DecidableEq, Repr

/-- What a running program can see. -/
structure Machine where
  data : Array Float
  out : Array Float
  registers : Array Float
deriving DecidableEq, Repr

namespace Machine

def buffer (m : Machine) : Buffer → Array Float
  | .data => m.data
  | .out => m.out

def setBuffer (m : Machine) (contents : Array Float) : Buffer → Machine
  | .data => { m with data := contents }
  | .out => { m with out := contents }

def value (m : Machine) : Operand → Except RunFault Float
  | .immediate x => .ok x
  | .register r =>
    match m.registers[r]? with
    | some x => .ok x
    | none => .error (.missingRegister r)

def setRegister (m : Machine) (r : Nat) (x : Float) : Except RunFault Machine :=
  if r < m.registers.size then .ok { m with registers := m.registers.setIfInBounds r x }
  else .error (.missingRegister r)

def load (m : Machine) (b : Buffer) (index : Nat) : Except RunFault Float :=
  match (m.buffer b)[index]? with
  | some x => .ok x
  | none => .error (.outOfBounds index (m.buffer b).size)

def store (m : Machine) (b : Buffer) (index : Nat) (x : Float) : Except RunFault Machine :=
  if index < (m.buffer b).size then .ok (m.setBuffer ((m.buffer b).setIfInBounds index x) b)
  else .error (.outOfBounds index (m.buffer b).size)

def step (m : Machine) : Instr → Except RunFault Machine
  | .load target b index => do
    m.setRegister target (← m.load b index)
  | .binary target op left right => do
    let x ← m.value left
    let y ← m.value right
    m.setRegister target (op.apply x y)
  | .unary target op argument => do
    m.setRegister target (op.apply (← m.value argument))
  | .copy target source => do
    m.setRegister target (← m.value source)
  | .store b index source => do
    m.store b index (← m.value source)

/-- Runs instructions in order, up to the first that fails. -/
def run (m : Machine) : List Instr → Except RunFault Machine
  | [] => .ok m
  | instr :: rest => do (← m.step instr).run rest

end Machine

namespace Program

/-- The result buffer and the registers start at zero. -/
def start (p : Program) (input : List Float) : Machine where
  data := input.toArray
  out := Array.replicate (p.outLength.getD 0) 0
  registers := Array.replicate p.registers 0

/-- The contents of the returned buffer after a run on an input of the declared length. -/
def call (p : Program) (input : List Float) : Except Error (List Float) :=
  if input.length ≠ p.inputLength then .error (.lengthMismatch p.inputLength input.length)
  else
    match (p.start input).run p.instrs.toList with
    | .ok m => .ok (m.buffer p.returns).toList
    | .error fault => .error (.execution fault)

end Program

end FlatFourier
