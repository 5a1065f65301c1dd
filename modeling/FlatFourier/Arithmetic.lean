import FlatFourier.Decimal

namespace FlatFourier

inductive BinaryOp where
  | plus
  | minus
  | times
  | div
deriving DecidableEq, Repr, Hashable

inductive UnaryOp where
  | sin
  | cos
deriving DecidableEq, Repr, Hashable

namespace BinaryOp

def apply : BinaryOp → Float → Float → Float
  | plus => (· + ·)
  | minus => (· - ·)
  | times => (· * ·)
  | div => (· / ·)

def symbol : BinaryOp → String
  | plus => "+"
  | minus => "-"
  | times => "*"
  | div => "/"

end BinaryOp

def pi : Float := .ofBits 0x400921fb54442d18

def quarterTurn : Float := .ofBits 0x3ff921fb54442d18

/-- Whether a float is an odd integer. -/
def isOddInteger (x : Float) : Bool :=
  match classify x with
  | .finite _ value => value.isOddInteger
  | _ => false

/-- The cosine of an angle, with a true zero at the odd quarter turns. There the angle is a rounded
number and its cosine is not quite zero. -/
def exactCos (angle : Float) : Float :=
  if isOddInteger (angle / quarterTurn) then 0.0 else angle.cos

namespace UnaryOp

def apply : UnaryOp → Float → Float
  | sin => Float.sin
  | cos => Float.cos

/-- The value for a constant operand. -/
def fold : UnaryOp → Float → Float
  | sin => Float.sin
  | cos => exactCos

def symbol : UnaryOp → String
  | sin => "sin"
  | cos => "cos"

end UnaryOp

end FlatFourier
