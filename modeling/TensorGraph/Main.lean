import TensorGraph.CommandLine.Command

/-!
# The program

Runs the command on the arguments and environment variables of the process.
-/

open TensorGraph

def main (args : List String) : IO UInt32 := do
  let entries ← Environment.names.filterMapM fun name => do
    return (← IO.getEnv name).map (name, ·)
  let seed ← IO.monoNanosNow
  let outcome := CommandLine.run args { entries } (.ofNat seed)
  for line in outcome.lines do
    IO.println line
  if let some message := outcome.error then
    IO.eprintln ("Error: " ++ message)
  return .ofNat outcome.code
