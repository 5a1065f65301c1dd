import FlatFourier.Command.Arguments

def main (arguments : List String) : IO UInt32 := do
  let outcome := FlatFourier.Command.execute arguments
  (← IO.getStderr).putStr outcome.stderr
  (← IO.getStdout).putStr outcome.stdout
  return .ofNat outcome.code
