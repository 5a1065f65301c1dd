import Std.Data.HashMap
import FlatFourier.Decimal
import FlatFourier.Program.Basic

namespace FlatFourier

namespace BinaryOp

def ofSymbol? (s : Text) : Option BinaryOp :=
  match s with
  | ['+'] => some plus
  | ['-'] => some minus
  | ['*'] => some times
  | ['/'] => some div
  | _ => none

end BinaryOp

namespace Program

/-- What the body of a function has said so far. -/
structure Body where
  /-- The parameter's name. -/
  data : Text
  /-- Name and length of the result buffer. -/
  out : Option (Text × Nat)
  inputLength : Option Nat
  returns : Option Buffer
  /-- The register of each bound name. -/
  names : Std.HashMap String Nat
  instrs : Array Instr

/-- How far a text has been read. -/
inductive Reader where
  | start
  | body (b : Body)
  | closed (b : Body)

namespace Body

def ofParameter (name : Text) : Body where
  data := name
  out := none
  inputLength := none
  returns := none
  names := ∅
  instrs := #[]

/-- A constant as an operand: one of three names, or a number that starts with a digit or a minus
sign. -/
def constant? (s : Text) : Option Float :=
  if s = "f64::NAN".toList then some (ofMagnitude false Binary.nan)
  else if s = "f64::INFINITY".toList then some (ofMagnitude false Binary.infinity)
  else if s = "f64::NEG_INFINITY".toList then some (ofMagnitude true Binary.infinity)
  else if s.head?.any fun c => c.isDigit || c = '-' then Text.float? s
  else none

/-- A bound name, or a constant with or without parentheses around it. -/
def operand (b : Body) (s : Text) : Except LineFault Operand :=
  match b.names[String.ofList s]? with
  | some r => .ok (.register r)
  | none =>
    match constant? ((Text.between ['('] [')'] s).getD s) with
    | some x => .ok (.immediate x)
    | none => .error (.unboundName s)

def bufferNamed (b : Body) (name : Text) : Except LineFault Buffer :=
  if name = b.data then .ok .data
  else if b.out.any fun o => name = o.1 then .ok .out
  else .error (.unknownBuffer name)

/-- A cell: a buffer's name, and an index in brackets. -/
def cell (b : Body) (s : Text) : Except LineFault (Buffer × Nat) := do
  let some (name, written) := ([']'].isSuffixOf? s).bind (Text.cut ['['])
    | throw (.indexing s)
  let buffer ← b.bufferNamed name
  let some index := Text.count? written
    | throw (.badIndex written)
  return (buffer, index)

/-- The two sides of an assignment that ends in a semicolon. -/
def assignment? (s : Text) : Option (Text × Text) :=
  ([';'].isSuffixOf? s).bind (Text.cut " = ".toList)

/-- The instruction that computes an expression into a register. -/
def expression (b : Body) (target : Nat) (s : Text) : Except LineFault Instr :=
  match Text.between "f64::sin(".toList [')'] s with
  | some argument => return .unary target .sin (← b.operand argument)
  | none =>
  match Text.between "f64::cos(".toList [')'] s with
  | some argument => return .unary target .cos (← b.operand argument)
  | none =>
    if s.getLast? = some ']' then do
      let (buffer, index) ← b.cell s
      return .load target buffer index
    else
      match Text.words s with
      | [left, symbol, right] => do
        let some op := BinaryOp.ofSymbol? symbol
          | throw (.unknownOperator symbol)
        let left ← b.operand left
        let right ← b.operand right
        return .binary target op left right
      | [single] => return .copy target (← b.operand single)
      | _ => throw (.expression s)

/-- Binds the next register to a name. The rest of the line after the keyword is given. -/
def bindName (b : Body) (rest : Text) : Except LineFault Body := do
  let some (name, written) := assignment? rest
    | throw .binding
  let key := String.ofList name
  if key ∈ b.names then throw (.boundTwice name)
  let instr ← b.expression b.names.size written
  return { b with names := b.names.insert key b.names.size, instrs := b.instrs.push instr }

/-- Copies the data buffer, which changes nothing, or declares the result buffer. -/
def declare (b : Body) (rest : Text) : Except LineFault Body := do
  let some (name, value) := assignment? rest
    | throw .bufferDeclaration
  if name = b.data ∧ value = b.data ++ ".to_vec()".toList then return b
  let some written := Text.between "vec![0.0_f64; ".toList [']'] value
    | throw (.bufferInitializer value)
  let some length := Text.count? written
    | throw (.badLength written)
  return { b with out := some (name, length) }

/-- Takes the length of the input from an assertion. -/
def assertLength (b : Body) (rest : Text) : Except LineFault Body := do
  let some written := Text.between (b.data ++ ".len(), ".toList) ");".toList rest
    | throw .lengthAssertion
  let some length := Text.count? written
    | throw (.badLength written)
  return { b with inputLength := some length }

def assign (b : Body) (target value : Text) : Except LineFault Body := do
  let (buffer, index) ← b.cell target
  let source ← b.operand value
  return { b with instrs := b.instrs.push (.store buffer index source) }

/-- One statement of the body. -/
def statement (b : Body) (line : Text) : Except LineFault Body :=
  match "assert_eq!(".toList.isPrefixOf? line with
  | some rest => b.assertLength rest
  | none =>
  match "let mut ".toList.isPrefixOf? line with
  | some rest => b.declare rest
  | none =>
  match "let ".toList.isPrefixOf? line with
  | some rest => b.bindName rest
  | none =>
    if line = b.data then .ok { b with returns := some .data }
    else if b.out.any fun o => line = o.1 then .ok { b with returns := some .out }
    else
      match assignment? line with
      | some (target, value) => b.assign target value
      | none => .error (.statement line)

/-- The program of a function that has ended. -/
def program (b : Body) : Except LineFault Program := do
  let some inputLength := b.inputLength
    | throw .missingLength
  let some returns := b.returns
    | throw .missingReturn
  return { inputLength, outLength := b.out.map (·.2), returns, registers := b.names.size,
           instrs := b.instrs }

end Body

namespace Reader

/-- The parameter's name in a header, whose rest after the keywords is given. -/
def parameter (rest : Text) : Except LineFault Text :=
  match (Text.cut ['('] rest).bind fun parts =>
      Text.cut ": &[f64]) -> Vec<f64> \x7b".toList parts.2 with
  | some (name, _) => .ok name.trim
  | none => .error .header

/-- Lines that stand for nothing. -/
def isFiller (line : Text) : Bool :=
  line.isEmpty || "//".toList.isPrefixOf line || "#[".toList.isPrefixOf line

/-- One trimmed line that is no filler. -/
def line (r : Reader) (line : Text) : Except LineFault Reader :=
  match r with
  | closed _ => .error .afterEnd
  | start => do
    let some rest := "pub fn ".toList.isPrefixOf? line
      | throw .outsideFunction
    return body (.ofParameter (← parameter rest))
  | body b =>
    match "pub fn ".toList.isPrefixOf? line with
    | some rest => do
      let _ ← parameter rest
      throw .secondFunction
    | none =>
      if line = ['\x7d'] then .ok (closed b)
      else return body (← b.statement line)

/-- Reads lines in order; `count` lines come before them. -/
def lines (r : Reader) (count : Nat) : List Text → Except Error Reader
  | [] => .ok r
  | raw :: rest =>
    if isFiller raw.trim then r.lines (count + 1) rest
    else
      match r.line raw.trim with
      | .ok r => r.lines (count + 1) rest
      | .error fault => .error (.badLine (count + 1) fault)

/-- The program, if the text may end here. -/
def finish : Reader → Except LineFault Program
  | closed b => b.program
  | _ => .error .missingBrace

end Reader

/-- The program of a kernel text. What is missing at the end is reported on the last line. -/
def parse (source : Text) : Except Error Program := do
  let lines := source.lines
  let r ← Reader.start.lines 0 lines
  match r.finish with
  | .ok p => .ok p
  | .error fault => .error (.badLine lines.length fault)

end Program

end FlatFourier
