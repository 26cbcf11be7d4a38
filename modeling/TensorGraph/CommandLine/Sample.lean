import TensorGraph.Formula.InputSpec
import TensorGraph.Tensor.Value

/-!
# Sample inputs

Inputs that are made up for a run: floats from zero up to one and integers from zero to nine, which
follow from a seed.
-/

namespace TensorGraph.CommandLine

/-- The state of a generator of numbers. -/
abbrev Seed := UInt64

namespace Seed

/-- The next number, which has 32 bits. -/
def next : StateM Seed UInt64 := modifyGet fun (seed : Seed) =>
  let seed : Seed := seed * 6364136223846793005 + 1442695040888963407
  (seed >>> 32, seed)

/-- A float from zero up to one, a multiple of `2 ^ (-24)`. -/
def float : StateM Seed Single := do
  return .ofFloat32 (((← next) >>> 8).toFloat32 / 16777216)

/-- An integer from zero to nine. -/
def digit : StateM Seed Int32 := do return Word.ofCount ((← next) % 10).toNat

/-- A value of the given type and shape. -/
def value (type : ElementType) (shape : List Nat) : StateM Seed Value :=
  match type with
  | .float32 => do return .floats (← Tensor.generateM shape fun _ => float)
  | .int32 => do return .ints (← Tensor.generateM shape fun _ => digit)

end Seed

/-- The size of named dimensions for which none is given. -/
def defaultSize : Nat := 4

/-- The shape of a sample, for the given sizes of named dimensions. -/
def sampleShape (sizes : List DimSize) (dims : List Dimension) : List Nat :=
  dims.map fun
    | .fixed size => size
    | .symbolic name => ((sizes.find? (·.name == name)).map (·.size)).getD defaultSize

/-- Values for declared inputs. Every input must have a shape. -/
def sampleInputs (specs : List InputSpec) (sizes : List DimSize) :
    ExceptT String (StateM Seed) (List Value) :=
  specs.mapM fun spec => match spec.shape with
    | some dims => Seed.value spec.type (sampleShape sizes dims)
    | none => throw ("input \"" ++ spec.name ++ "\" has no shape. Declare one with eg. --input " ++
        spec.name ++ "[4]")

end TensorGraph.CommandLine
