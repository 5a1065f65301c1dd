import FlatFourier.Text

namespace FlatFourier

/-- The number `mantissa * 2 ^ exponent`. -/
structure Binary where
  mantissa : Nat
  exponent : Int
deriving DecidableEq, Repr

namespace Binary

/-- The exponent of the last place of the smallest numbers. -/
def minExponent : Int := -1074

/-- The width of the fraction field. -/
def fractionBits : Nat := 52

/-- The least mantissa of a normal number; all lie below its double. -/
def implicitBit : Nat := 0x10000000000000

/-- The magnitude bits of infinity; finite magnitudes lie below. -/
def infinity : Nat := 0x7ff0000000000000

/-- The magnitude bits of the one NaN. -/
def nan : Nat := 0x7ff8000000000000

/-- Reads magnitude bits, that is, all bits but the sign. -/
def ofMagnitude (bits : Nat) : Binary :=
  let field := bits / implicitBit
  if field = 0 then ⟨bits, minExponent⟩
  else ⟨implicitBit + bits % implicitBit, minExponent + field - 1⟩

/-- The magnitude bits. The implicit bit, and a mantissa rounded up to its double, carry into the
exponent field as they should. -/
def toMagnitude (b : Binary) : Nat :=
  (b.exponent - minExponent).toNat * implicitBit + b.mantissa

/-- Numerator and denominator. -/
def ratio (b : Binary) : Nat × Nat :=
  (b.mantissa * Nat.pow 2 b.exponent.toNat, Nat.pow 2 (-b.exponent).toNat)

/-- Whether the number is an odd integer. -/
def isOddInteger (b : Binary) : Bool :=
  let (num, den) := b.ratio
  num % den = 0 && num / den % 2 = 1

end Binary

/-- The highest of 64 bits. -/
def signBit : Nat := 0x8000000000000000

/-- All bits but the sign. -/
def magnitude (x : Float) : Nat :=
  x.toBits.toNat % signBit

/-- Whether the sign bit is set. -/
def isNegative (x : Float) : Bool :=
  signBit ≤ x.toBits.toNat

/-- The float with the given sign and magnitude bits. -/
def ofMagnitude (negative : Bool) (bits : Nat) : Float :=
  .ofBits (.ofNat (bits + if negative then signBit else 0))

/-- What a floating-point number is: not a number, or a sign with infinity or a finite value. -/
inductive NumberClass where
  | nan
  | infinite (negative : Bool)
  | finite (negative : Bool) (value : Binary)
deriving DecidableEq, Repr

def classify (x : Float) : NumberClass :=
  if Binary.infinity < magnitude x then .nan
  else if magnitude x = Binary.infinity then .infinite (isNegative x)
  else .finite (isNegative x) (Binary.ofMagnitude (magnitude x))

/-- The quotient rounded to the nearest whole number, a half to the even one. -/
def divNearest (a b : Nat) : Nat :=
  let q := a / b
  let twice := 2 * (a % b)
  if b < twice ∨ twice = b ∧ q % 2 = 1 then q + 1 else q

/-- The largest `e` with `2 ^ e` at most `num / den`, for positive `num` and `den`. -/
def floorLog2 (num den : Nat) : Int :=
  let e : Int := (num.log2 : Int) - den.log2
  if den * Nat.pow 2 e.toNat ≤ num * Nat.pow 2 (-e).toNat then e else e - 1

/-- The magnitude bits nearest to `num / den`, for positive `num` and `den`. -/
def nearestMagnitude (num den : Nat) : Nat :=
  let exponent := max Binary.minExponent (floorLog2 num den - Binary.fractionBits)
  let mantissa := divNearest (num * Nat.pow 2 (-exponent).toNat) (den * Nat.pow 2 exponent.toNat)
  min (Binary.toMagnitude ⟨mantissa, exponent⟩) Binary.infinity

/-- The number `digits * 10 ^ exponent`. -/
structure Decimal where
  digits : Nat
  exponent : Int
deriving DecidableEq, Repr

namespace Decimal

/-- At `10 ^ 400` and above everything is infinite, and below `10 ^ -400` everything is zero. -/
def reach : Nat := 400

/-- The magnitude bits nearest to a decimal. The cases out of reach come first, so that no power is
formed that the digits do not pay for. -/
def nearest (d : Decimal) : Nat :=
  if d.digits = 0 then 0
  else if reach < d.exponent then Binary.infinity
  else if d.exponent < -(reach + d.digits.log2 : Int) then 0
  else nearestMagnitude (d.digits * Nat.pow 10 d.exponent.toNat) (Nat.pow 10 (-d.exponent).toNat)

/-- The neighbour of `num / den` on the grid of `10 ^ exponent` that reads back as `bits`. Of two the
nearer is taken, and of two equally near the upper. -/
def neighbour? (bits num den : Nat) (exponent : Int) : Option Decimal :=
  let a := num * Nat.pow 10 (-exponent).toNat
  let b := den * Nat.pow 10 exponent.toNat
  let below : Decimal := ⟨a / b, exponent⟩
  let above : Decimal := ⟨a / b + 1, exponent⟩
  let (nearer, further) := if 2 * (a % b) < b then (below, above) else (above, below)
  if nearer.nearest = bits then some nearer
  else if further.nearest = bits then some further
  else none

/-- All digits of a finite number, of which there may be many. -/
def exact (b : Binary) : Decimal :=
  if 0 ≤ b.exponent then ⟨b.mantissa * Nat.pow 2 b.exponent.toNat, 0⟩
  else ⟨b.mantissa * Nat.pow 5 (-b.exponent).toNat, b.exponent⟩

/-- An exponent of a grid with at most one point up to the number: 30103/100000 is the decimal
logarithm of two, and two more make up for the rounding. -/
def coarsest (num den : Nat) : Int :=
  (floorLog2 num den * 30103).fdiv 100000 + 2

/-- Seventeen digits always suffice, and they are among the first twenty grids. -/
def grids : Nat := 20

/-- The shortest decimal that reads back as the given finite magnitude bits. On the grid of multiples
of a power of ten a number has one neighbour not above it and one above it, and if any point of a
grid reads back, one of these two does. The grids are tried from coarse to fine. -/
def shortest (bits : Nat) : Decimal :=
  if bits = 0 then ⟨0, 0⟩
  else
    let b := Binary.ofMagnitude bits
    let (num, den) := b.ratio
    let top := coarsest num den
    ((List.range grids).findSome? fun (step : Nat) =>
      neighbour? bits num den (top - step)).getD (exact b)

end Decimal

/-- How a decimal is laid out. -/
structure Layout where
  /-- Whether a number whose leading digit counts `10 ^ e` is written without an exponent. -/
  isPositional : Int → Bool
  /-- Whether a whole number in positional form ends in a point and a zero. -/
  keepsFraction : Bool

namespace Layout

/-- Point and digits without an exponent. -/
def positional (layout : Layout) (digits : Text) (exponent : Int) : Text :=
  let point := digits.length + exponent
  if 0 ≤ exponent then
    digits ++ List.replicate exponent.toNat '0' ++ if layout.keepsFraction then ['.', '0'] else []
  else if 0 < point then
    digits.take point.toNat ++ '.' :: digits.drop point.toNat
  else
    '0' :: '.' :: List.replicate (-point).toNat '0' ++ digits

/-- One digit before the point, and the power of ten it counts after the mark `e`. -/
def scientific (digits : Text) (power : Int) : Text :=
  let fraction := digits.drop 1
  digits.take 1 ++ (if fraction.isEmpty then [] else '.' :: fraction) ++
    'e' :: (if power < 0 then ['-'] else []) ++ Nat.toDigits 10 power.natAbs

def decimal (layout : Layout) (d : Decimal) : Text :=
  let digits := Nat.toDigits 10 d.digits
  let power := digits.length + d.exponent - 1
  if layout.isPositional power then layout.positional digits d.exponent
  else scientific digits power

/-- A finite number: its sign, then its shortest digits. -/
def finite (layout : Layout) (x : Float) : Text :=
  (if isNegative x then ['-'] else []) ++ layout.decimal (Decimal.shortest (magnitude x))

end Layout

namespace Text

/-- Takes off a sign; true stands for minus. -/
def sign : Text → Bool × Text
  | '-' :: s => (true, s)
  | '+' :: s => (false, s)
  | s => (false, s)

/-- A whole number with an optional sign. -/
def integer? (s : Text) : Option Int :=
  let (negative, digits) := sign s
  if isNumeral digits then some (if negative then -(numeral digits : Int) else numeral digits)
  else none

/-- The exponent part, which may be missing. -/
def exponent? : Text → Option Int
  | [] => some 0
  | c :: s => if c = 'e' ∨ c = 'E' then integer? s else none

/-- The digits after a point, which may be missing, and the rest. -/
def fraction : Text → Text × Text
  | '.' :: s => s.span Char.isDigit
  | s => ([], s)

/-- Digits, point and exponent; a digit has to stand on one side of the point. -/
def decimal? (s : Text) : Option Decimal :=
  let (whole, afterWhole) := s.span Char.isDigit
  let (part, rest) := fraction afterWhole
  let digits := whole ++ part
  if digits.isEmpty then none
  else (exponent? rest).map fun exponent => ⟨numeral digits, exponent - part.length⟩

/-- The magnitude bits that a text without its sign denotes. -/
def magnitude? (s : Text) : Option Nat :=
  let word := String.ofList (s.map Char.toLower)
  if word = "inf" ∨ word = "infinity" then some Binary.infinity
  else if word = "nan" then some Binary.nan
  else (decimal? s).map Decimal.nearest

def float? (s : Text) : Option Float :=
  let (negative, body) := sign s
  (magnitude? body).map (ofMagnitude negative)

end Text

end FlatFourier
