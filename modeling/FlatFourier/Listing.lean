import FlatFourier.Decimal
import FlatFourier.Plan

namespace FlatFourier

/-- How the values reach the caller. -/
inductive Binding where
  /-- They have been written into the array, which is returned. -/
  | inPlace
  /-- They are the values of the given nodes and fill a buffer of their own. -/
  | results (slots : List NodeId)
deriving DecidableEq, Repr

namespace Plan

/-- Refuses a node that touches an array other than the bound one. -/
def checkNode (b : Builder) (array : ArrayId) (id : NodeId) : Except Error Unit := do
  match (← b.node id).kind.array? with
  | some other => unless other = array do throw (.unboundArray (← b.array other).name)
  | none => return

/-- Checks that a plan touches only the bound array, and gives what is known of that array. -/
def bound (b : Builder) (array : ArrayId) (p : Plan) : Except Error ArrayInfo := do
  p.order.forM (checkNode b array)
  b.array array

end Plan

namespace Listing

/-- Numbers from `10 ^ -4` up to `10 ^ 16` have no exponent, and each number shows that it is no
integer by a point or by an exponent. -/
def number : Layout where
  isPositional power := -4 ≤ power && power ≤ 15
  keepsFraction := true

/-- A constant as one token. A number with a minus sign stands in parentheses. -/
def literal (x : Float) : Text :=
  match classify x with
  | .nan => "f64::NAN".toList
  | .infinite false => "f64::INFINITY".toList
  | .infinite true => "f64::NEG_INFINITY".toList
  | .finite false _ => number.finite x
  | .finite true _ => '(' :: number.finite x ++ [')']

example : literal (.ofBits 0x3fb999999999999a) = "0.1".toList := by decide +kernel

example : literal (.ofBits 0x8000000000000000) = "(-0.0)".toList := by decide +kernel

example : literal (.ofBits 0x430c6bf526340000) = "1000000000000000.0".toList := by decide +kernel

example : literal (.ofBits 0x4341c37937e08000) = "1e16".toList := by decide +kernel

example : literal (.ofBits 0x3ee4f8b588e368f1) = "1e-5".toList := by decide +kernel

/-- Of the two nearest decimals of 17 digits the upper is written. -/
example : literal (.ofBits 0x3e60000000000000) = "2.9802322387695313e-8".toList := by
  decide +kernel

/-- The lines of a text, each ended by a newline. -/
def ofLines (lines : List String) : String :=
  .join (lines.map (· ++ "\n"))

/-- A node's value where it is used. -/
def operand (b : Builder) (id : NodeId) : Except Error String := do
  match (← b.node id).kind with
  | .const x => return .ofList (literal x)
  | _ => return s!"x{id}"

def indented (line : String) : String :=
  "    " ++ line

/-- The statement of a node, if it has one. -/
def statement (b : Builder) (array : String) (n : Node) : Except Error (List String) := do
  match n.kind with
  | .const _ => return []
  | .binary op x y =>
    let x ← operand b x
    let y ← operand b y
    return [s!"let x{n.id} = {x} {op.symbol} {y};"]
  | .unary op x =>
    let x ← operand b x
    return [s!"let x{n.id} = f64::{op.symbol}({x});"]
  | .read _ index _ => return [s!"let x{n.id} = {array}[{index}];"]
  | .result x =>
    let x ← operand b x
    return [s!"let x{n.id} = {x};"]
  | .write _ index x =>
    let x ← operand b x
    return [s!"{array}[{index}] = {x};"]

/-- What comes before the function's body. -/
def header (info : ArrayInfo) (length : Nat) : List String :=
  [s!"// Generated by fftgen: {length} scheduled nodes over {quoted info.name} " ++
      s!"({info.length} values, interleaved re/im).",
    "#[allow(unused_parens, unused_mut)]",
    s!"pub fn transform({info.name}: &[f64]) -> Vec<f64> \x7b"]

def preparation (info : ArrayInfo) (binding : Binding) : List String :=
  [s!"assert_eq!({info.name}.len(), {info.length});",
    s!"let mut {info.name} = {info.name}.to_vec();"] ++
  match binding with
  | .inPlace => []
  | .results slots => [s!"let mut out = vec![0.0_f64; {slots.length}];"]

/-- The stores that fill the slots from the given one on. -/
def stores (b : Builder) : Nat → List NodeId → Except Error (List String)
  | _, [] => return []
  | slot, id :: ids => do
    let x ← operand b id
    return s!"out[{slot}] = {x};" :: (← stores b (slot + 1) ids)

def delivery (b : Builder) (info : ArrayInfo) : Binding → Except Error (List String)
  | .inPlace => return [info.name]
  | .results slots => return (← stores b 0 slots) ++ ["out"]

/-- The text of the kernel for a plan whose array is the parameter. -/
def text (b : Builder) (array : ArrayId) (p : Plan) (binding : Binding) : Except Error String := do
  let info ← p.bound b array
  let statements ← p.order.mapM fun id => do statement b info.name (← b.node id)
  let last ← delivery b info binding
  let body := preparation info binding ++ statements.flatten ++ last
  return ofLines (header info p.length ++ body.map indented ++ ["\x7d"])

end Listing

end FlatFourier
