import TensorGraph.Operator.Kernel

/-!
# Reductions

Sums, means and maxima over some of the dimensions of a tensor.
-/

namespace TensorGraph

inductive ReduceFn where
  | sum | mean | max
deriving DecidableEq, Repr

/-- Reduces a tensor over a set of axes. -/
structure Reduce where
  fn : ReduceFn
  /-- The axes to reduce, counted from the end if negative. Without them all are reduced. -/
  axes : Option (List Int)
  /-- Whether reduced dimensions are kept with size 1. -/
  keepDims : Bool
deriving DecidableEq, Repr

namespace Reduce

def name (op : Reduce) : String :=
  match op.fn with
  | .sum => "ReduceSum"
  | .mean => "ReduceMean"
  | .max => "ReduceMax"

/-- What is known of a reduction before it looks at elements. -/
structure Plan where
  /-- The shape of the result with reduced dimensions kept. -/
  keepShape : List Nat
  outShape : List Nat
  /-- The number of elements that are reduced to one. -/
  count : Nat
  /-- Whether the last axis is reduced and no other. -/
  lastAxisOnly : Bool
deriving DecidableEq, Repr

/-- The reduction of a tensor in which the marked dimensions are reduced. -/
def Plan.ofMarked (dims : List (Nat × Bool)) (keepDims : Bool) : Plan :=
  let keepShape := dims.map fun (size, reduced) => if reduced then 1 else size
  let kept := (dims.filter fun d => !d.2).map (·.1)
  let marks := dims.map (·.2)
  { keepShape
    outShape := if keepDims then keepShape else kept
    count := volume ((dims.filter (·.2)).map (·.1))
    lastAxisOnly := marks.count true == 1 && marks.getLast? == some true }

def plan (op : Reduce) (shape : List Nat) : OpResult Plan := do
  let reduced ← match op.axes with
    | none => pure (List.range shape.length)
    | some axes => axes.mapM (resolveAxis shape.length)
  return .ofMarked (shape.zipIdx.map fun (size, i) => (size, reduced.contains i)) op.keepDims

/-- Folds each element into the cell of the result that it belongs to, in row-major order. -/
def fold {α : Type} [Inhabited α] (x : Tensor α) (p : Plan) (start : α) (f : α → α → α) : Tensor α :=
  let offsets := Shape.broadcastOffsets p.keepShape x.shape
  let cells := (x.data.toList.zip offsets).foldl
    (fun cells (el, i) => cells.modify i (f · el)) (Array.replicate (volume p.keepShape) start)
  Tensor.generate p.outShape fun i => cells.getD i start

/-- Maxima need at least one element for each element of the result. -/
def checkNonEmpty (op : Reduce) (p : Plan) : OpResult Unit :=
  if op.fn = .max ∧ p.count = 0 ∧ 0 < volume p.outShape then
    .error (.invalidValue "Cannot compute Max of empty tensor")
  else .ok ()

def reduceValue (op : Reduce) (p : Plan) : Value → OpResult Value
  | .floats x => match op.fn with
    | .sum => .ok (.floats (fold x p .zero .add))
    | .mean => .ok (.floats ((fold x p .zero .add).map (·.div (.ofCount p.count))))
    | .max => .ok (.floats (fold x p .negInfinity .maximum))
  | .ints x => match op.fn with
    | .sum => .ok (.ints (fold x p 0 (· + ·)))
    | .max => .ok (.ints (fold x p Int32.minValue fun a b => if a < b then b else a))
    | .mean => .error .unsupportedType

def run (op : Reduce) (inputs : List Value) : OpResult Value := do
  let x ← Inputs.require inputs 0
  let p ← op.plan x.shape
  op.checkNonEmpty p
  op.reduceValue p x

/-- Reduces the elements of one row, whose sum starts at the given number. -/
def reduceRow (fn : ReduceFn) (start : Single) (row : List Single) : Single :=
  match fn with
  | .sum => row.foldl Single.add start
  | .mean => (row.foldl Single.add start).div (.ofCount row.length)
  | .max => row.foldl Single.maximum Single.negInfinity

/-- Reduces each row. -/
def reduceRows (op : Reduce) (p : Plan) (start : Single) (x : Tensor Single) : Tensor Single :=
  Tensor.ofList p.outShape <|
    (List.range (x.size / p.count)).map fun i => reduceRow op.fn start (x.slice (i * p.count) p.count)

/-- Reduces the last axis of floats row by row. -/
def runKernelFrom (start : Single) (op : Reduce) (inputs : List Value) : OpResult Value := do
  match inputs[0]? with
  | some (Value.floats x) =>
    let p ← op.plan x.shape
    if !p.lastAxisOnly || p.count == 0 then op.run inputs
    else return .floats (op.reduceRows p start x)
  | _ => op.run inputs

/-- The kernel that sums rows from the given number. -/
def kernelFrom (start : Single) (op : Reduce) : Kernel where
  name := op.name
  run inputs := do return [← op.runKernelFrom start inputs]

/-- The kernel. It sums rows from the negative zero, which leaves every number as it is. -/
def kernel (op : Reduce) : Kernel := op.kernelFrom .negZero

end Reduce

end TensorGraph
