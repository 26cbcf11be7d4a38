import TensorGraph.Operator.Elementwise
import TensorGraph.Operator.ScalarExpr

/-!
# Fused elementwise operators

Application of a scalar expression to the elements of inputs that are broadcast together, so that
the values of its subexpressions are never stored.
-/

namespace TensorGraph

/-- Applies a scalar expression to elements. -/
structure FusedElementwise where
  expr : ScalarExpr
  numInputs : Nat := expr.numInputs
  /-- Whether the first input may be overwritten. -/
  inPlace : Bool := false
deriving DecidableEq, Repr

namespace FusedElementwise

/-- The operator for an expression, with the inputs that it refers to. -/
def ofExpr (expr : ScalarExpr) : FusedElementwise := { expr }

/-- The inputs that the operator reads. -/
def floatInputs (op : FusedElementwise) (inputs : List Value) : OpResult (List (Tensor Single)) :=
  if inputs.length < op.numInputs then .error .missingInputs
  else (List.range op.numInputs).mapM (Inputs.requireFloats inputs)

/-- The shape that the inputs broadcast to. -/
def outputShape (inputs : List (Tensor Single)) : OpResult (List Nat) :=
  match Shape.broadcastAll? (inputs.map (·.shape)) with
  | some shape => .ok shape
  | none => .error .notBroadcastable

/-- How the elements of a tensor are read at offsets into a shape that it broadcasts to. -/
def reader (shape : List Nat) (t : Tensor Single) : OpResult (Nat → Single) :=
  match t.item? with
  | some x => .ok fun _ => x
  | none => match t.broadcast? shape with
    | some t => .ok t.read
    | none => .error .notBroadcastable

/-- Applies a function of the inputs' elements at every position of the output. -/
def apply (f : List Single → Single) (inputs : List (Tensor Single)) : OpResult Value := do
  let shape ← outputShape inputs
  let readers ← inputs.mapM (reader shape)
  return .floats (Tensor.generate shape fun i => f (readers.map (· i)))

def run (op : FusedElementwise) (inputs : List Value) : OpResult Value := do
  apply (fun xs => op.expr.eval xs) (← op.floatInputs inputs)

/-- Applies the expression and overwrites the first input, unless the result is larger. -/
def runInPlace (op : FusedElementwise) (first : Value) (rest : List Value) : OpResult Value := do
  if rest.length + 1 < op.numInputs then .error .missingInputs
  let x ← match first.asFloats? with
    | .ok x => pure x
    | .error e => .error (.cast e)
  let others ← (List.range (op.numInputs - 1)).mapM (Inputs.requireFloatsAfterFirst rest)
  let shape ← outputShape (x :: others)
  if shape ≠ x.shape then op.run (first :: rest)
  else
    let readers ← others.mapM (reader shape)
    let out ← x.overwrite fun i x => pure (op.expr.eval (x :: readers.map (· i)))
    return .floats out

/-- Applies a function at every position of the output, in chunks of positions. -/
def applyInChunks (chunk : Nat) (f : List Single → Single) (inputs : List (Tensor Single)) : OpResult Value := do
  let shape ← outputShape inputs
  let readers ← inputs.mapM (reader shape)
  return .floats <| Tensor.ofList shape <|
    chunks (volume shape) chunk fun c length =>
      (List.range length).map fun i => f (readers.map (· (c * chunk + i)))

/-- The kernel that computes chunks of the given size. -/
def kernelIn (chunk : Nat) (op : FusedElementwise) : Kernel :=
  let compiled := op.expr.compile
  { name := "FusedElementwise"
    run := fun inputs => do return [← applyInChunks chunk compiled (← op.floatInputs inputs)]
    inPlace := op.inPlace
    runInPlace := op.runInPlace }

/-- The number of positions that one task computes. -/
def parallelChunk : Nat := 16 * 1024

def kernel (op : FusedElementwise) : Kernel := op.kernelIn parallelChunk

def shapeRule (op : FusedElementwise) : ShapeRule := fun inputs =>
  if inputs.length ≠ op.numInputs then throw .incorrectInputCount
  else ShapeRule.broadcastAll inputs

end FusedElementwise

end TensorGraph
