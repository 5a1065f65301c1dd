import FlatFourier.Builder.Simplify

namespace FlatFourier

/-- A complex number given by the nodes of its parts. -/
structure Sample where
  re : NodeId
  im : NodeId
deriving DecidableEq, Repr

namespace Sample

open Build

/-- The number of modulus one at an angle. -/
def polar (angle : Float) : Build Sample := do
  let theta ← lift angle
  let re ← cos theta
  let im ← sin theta
  return ⟨re, im⟩

def add (x y : Sample) : Build Sample := do
  let re ← plus x.re y.re
  let im ← plus x.im y.im
  return ⟨re, im⟩

def sub (x y : Sample) : Build Sample := do
  let re ← minus x.re y.re
  let im ← minus x.im y.im
  return ⟨re, im⟩

def mul (x y : Sample) : Build Sample := do
  let reRe ← times x.re y.re
  let imIm ← times x.im y.im
  let reIm ← times x.re y.im
  let imRe ← times x.im y.re
  let re ← minus reRe imIm
  let im ← plus reIm imRe
  return ⟨re, im⟩

/-- Pairs of consecutive nodes; a last single node is left out. -/
def ofNodes : List NodeId → List Sample
  | re :: im :: rest => ⟨re, im⟩ :: ofNodes rest
  | _ => []

def nodes (x : Sample) : List NodeId :=
  [x.re, x.im]

end Sample

/-- The elements at even positions, counted from zero. -/
def evens : List α → List α
  | [] => []
  | [a] => [a]
  | a :: _ :: rest => a :: evens rest

/-- The elements at odd positions, counted from zero. -/
def odds : List α → List α
  | _ :: b :: rest => b :: odds rest
  | _ => []

def isPowerOfTwo (n : Nat) : Bool :=
  n ≠ 0 && Nat.pow 2 n.log2 = n

namespace Fourier

/-- The angle of the `k`-th twiddle factor of a stage of length `n`. -/
def angle (k n : Nat) : Float :=
  -2 * pi * Float.ofNat k / Float.ofNat n

/-- One butterfly: the sum and the difference of `x` and the twiddled `y`. -/
def butterfly (n k : Nat) (x y : Sample) : Build (Sample × Sample) := do
  let twiddle ← Sample.polar (angle k n)
  let z ← twiddle.mul y
  let upper ← x.add z
  let lower ← x.sub z
  return (upper, lower)

/-- The butterflies of a stage of length `n` from the `k`-th on, as its two halves. -/
def stage (n : Nat) : Nat → List Sample → List Sample → Build (List Sample × List Sample)
  | k, x :: xs, y :: ys => do
    let (upper, lower) ← butterfly n k x y
    let (uppers, lowers) ← stage n (k + 1) xs ys
    return (upper :: uppers, lower :: lowers)
  | _, _, _ => return ([], [])

/-- The transform of `2 ^ depth` samples. -/
def stages : Nat → List Sample → Build (List Sample)
  | 0, xs => return xs
  | depth + 1, xs => do
    let fromEvens ← stages depth (evens xs)
    let fromOdds ← stages depth (odds xs)
    let (uppers, lowers) ← stage xs.length 0 fromEvens fromOdds
    return uppers ++ lowers

/-- The transform of samples, whose number has to be a power of two. -/
def transform (xs : List Sample) : Build (List Sample) :=
  if isPowerOfTwo xs.length then stages xs.length.log2 xs
  else throw (.notPowerOfTwo xs.length)

end Fourier

end FlatFourier
