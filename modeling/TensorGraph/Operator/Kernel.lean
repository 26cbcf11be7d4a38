import TensorGraph.Operator.Inputs

/-!
# Kernels

A kernel is an implementation of one operator that is prepared when a graph is linked. Kernels can compute elements
chunk by chunk, each chunk by itself.
-/

namespace TensorGraph

/-- An implementation of an operator. -/
structure Kernel where
  /-- The name of the operator. -/
  name : String
  run : List Value → OpResult (List Value)
  /-- Whether the kernel may overwrite its first input. -/
  inPlace : Bool := false
  /-- Runs the kernel on the first input, which it overwrites, and the others. -/
  runInPlace : Value → List Value → OpResult Value := fun _ _ => .error .notInPlace

/-- The elements at `size` positions, computed in chunks of `chunk` positions of which the last may have fewer:
`f` computes the elements of a chunk from its number and the number of its positions. -/
def chunks {α : Type} (size chunk : Nat) (f : Nat → Nat → List α) : List α :=
  (List.range ((size + chunk - 1) / chunk)).flatMap fun c => f c (Nat.min chunk (size - c * chunk))

end TensorGraph
