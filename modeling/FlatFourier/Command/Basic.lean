import FlatFourier.Kernel
import FlatFourier.Program.Reader

namespace FlatFourier

/-- What is printed of a kernel that is not run. -/
inductive Emit where
  | listing
  | diagram
deriving DecidableEq, Repr

/-- What may be asked for once. -/
inductive Switch where
  | noSharing
  | noPruning
  | noSimplification
  | results
  | statistics
deriving DecidableEq, Repr

structure Command where
  size : Nat
  emit : Emit
  switches : List Switch
  /-- The values to run the kernel on, if it is to be run. -/
  input : Option (List Float)
deriving DecidableEq, Repr

/-- What a command leaves behind. -/
structure Outcome where
  code : Nat
  stdout : String
  stderr : String
deriving DecidableEq, Repr

namespace Command

def request (c : Command) : Request where
  sharing := .noSharing ∉ c.switches
  simplify := .noSimplification ∉ c.switches
  prune := .noPruning ∉ c.switches
  delivery := if .results ∈ c.switches then .results else .inPlace

/-- Output values have no exponent, and whole numbers no point. -/
def number : Layout where
  isPositional _ := true
  keepsFraction := false

def value (x : Float) : String :=
  match classify x with
  | .nan => "NaN"
  | .infinite false => "inf"
  | .infinite true => "-inf"
  | .finite _ _ => .ofList (number.finite x)

example : value (.ofBits 0x4024000000000000) = "10" := by decide +kernel

example : value (.ofBits 0x8000000000000000) = "-0" := by decide +kernel

example : value (.ofBits 0x3e7ad7f29abcaf48) = "0.0000001" := by decide +kernel

/-- What goes to the standard output once the kernel is there. -/
def output (c : Command) (k : Kernel) : Except Error String :=
  match c.input with
  | some input => do
    let p ← Program.parse k.source.toList
    let values ← p.call input
    return ",".intercalate (values.map value) ++ "\n"
  | none =>
    match c.emit with
    | .listing => return k.source
    | .diagram => return k.diagram

def statistics (k : Kernel) : String :=
  s!"Schedule length: {k.planLength}\n" ++ k.tally.report

def failure (e : Error) : String :=
  s!"Error: {e.message}\n"

/-- Makes the kernel, reports on it if asked to, and gives the output. -/
def run (c : Command) : Outcome :=
  match Kernel.specialize c.size c.request with
  | .error e => ⟨1, "", failure e⟩
  | .ok k =>
    let report := if .statistics ∈ c.switches then statistics k else ""
    match c.output k with
    | .ok text => ⟨0, text, report⟩
    | .error e => ⟨1, "", report ++ failure e⟩

end Command

end FlatFourier
