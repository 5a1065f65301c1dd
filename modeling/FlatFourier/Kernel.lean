import FlatFourier.Diagram
import FlatFourier.Fourier

namespace FlatFourier

/-- Where the transformed values go. -/
inductive Delivery where
  | inPlace
  | results
deriving DecidableEq, Repr

/-- What is asked of a kernel beside its size. -/
structure Request where
  sharing : Bool
  simplify : Bool
  /-- Whether nodes that no output needs are left out. -/
  prune : Bool
  delivery : Delivery
deriving DecidableEq, Repr

namespace Request

def optimized : Request := ⟨true, true, true, .inPlace⟩

def unoptimized : Request := ⟨false, false, false, .inPlace⟩

def options (r : Request) : Options := ⟨r.sharing, r.simplify⟩

end Request

structure Kernel where
  /-- The number of complex samples. -/
  size : Nat
  source : String
  diagram : String
  planLength : Nat
  tally : Tally
deriving DecidableEq, Repr

namespace Kernel

/-- The number of values in the array. -/
def arrayLength (k : Kernel) : Nat := 2 * k.size

open Build

/-- Writes the parts of the samples to consecutive cells. -/
def writeSamples (array : ArrayId) : Nat → List Sample → Build Unit
  | _, [] => return
  | k, x :: xs => do
    let _ ← write array (2 * k) x.re
    let _ ← write array (2 * k + 1) x.im
    writeSamples array (k + 1) xs

/-- Hands over the outputs: the roots of the plan, and the binding of the text. -/
def deliver (array : ArrayId) (outputs : List Sample) :
    Delivery → Build (List NodeId × Binding)
  | .inPlace => do
    writeSamples array 0 outputs
    return ([], .inPlace)
  | .results => do
    let slots ← (outputs.flatMap Sample.nodes).mapM result
    return (slots, .results slots)

/-- Builds the transform of `size` samples from an empty state. -/
def build (size : Nat) (r : Request) : Build Kernel := do
  let array ← declare "data" (2 * size)
  let cells ← readCells array (2 * size)
  let outputs ← Fourier.transform (Sample.ofNodes cells)
  let (roots, binding) ← deliver array outputs r.delivery
  let p ← plan roots r.prune
  let source ← ask fun b => Listing.text b array p binding
  let diagram ← ask fun b => Diagram.text b array p
  return { size, source, diagram, planLength := p.length, tally := (← get).tally }

/-- The kernel for a size, which has to be a power of two whose double is still a count. -/
def specialize (size : Nat) (r : Request) : Except Error Kernel :=
  if !isPowerOfTwo size then .error (.notPowerOfTwo size)
  else if Text.countBound ≤ 2 * size then .error (.tooLarge size)
  else
    match (build size r).run (.new r.options) with
    | .ok k _ => .ok k
    | .error e _ => .error e

end Kernel

end FlatFourier
