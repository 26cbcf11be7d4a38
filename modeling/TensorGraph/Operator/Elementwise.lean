import TensorGraph.Operator.Kernel
import TensorGraph.Operator.ScalarFn

/-!
# Elementwise operators

Application of a scalar function to the elements of one input, or to pairs of elements of two
inputs that are broadcast together.
-/

namespace TensorGraph

/-- Replaces the elements of a tensor one after the other. The new element at an offset is computed
from the offset and the old element. -/
def Tensor.overwrite {α : Type} [Inhabited α] (f : Nat → α → OpResult α) (t : Tensor α) :
    OpResult (Tensor α) :=
  (List.range t.size).foldlM (fun t i => do
    let x ← f i (t.read i)
    pure (t.set i x)) t

/-- Combines the elements of two tensors that are broadcast together. -/
def Tensor.zipBroadcast {α β : Type} [Inhabited α] (f : α → α → OpResult β) (a b : Tensor α) :
    OpResult (Tensor β) :=
  match Shape.broadcast? a.shape b.shape with
  | none => .error .notBroadcastable
  | some shape =>
    let offsetsA := (Shape.broadcastOffsets a.shape shape).toArray
    let offsetsB := (Shape.broadcastOffsets b.shape shape).toArray
    Tensor.generateM shape fun i => f (a.read (offsetsA.getD i 0)) (b.read (offsetsB.getD i 0))

/-- Replaces the elements of `a` by their combination with those of `b`, which is broadcast to the
shape of `a`. -/
def Tensor.zipOverwrite {α : Type} [Inhabited α] (f : α → α → OpResult α) (a b : Tensor α) :
    OpResult (Tensor α) :=
  let offsets := (Shape.broadcastOffsets b.shape a.shape).toArray
  a.overwrite fun i x => f x (b.read (offsets.getD i 0))

/-- Applies a scalar function to elements. -/
structure Elementwise where
  fn : ScalarFn
  /-- Whether the first input may be overwritten. -/
  inPlace : Bool := false
deriving DecidableEq, Repr

namespace Elementwise

def runUnary (fn : ScalarFn) : Value → OpResult Value
  | .floats x => .ok (.floats (x.map fn.unary))
  | .ints x => do return .ints (← x.mapM fn.unaryInt)

def runBinary (fn : ScalarFn) : Value → Value → OpResult Value
  | .floats a, .floats b => do
    return .floats (← a.zipBroadcast (fun x y => pure (fn.binary x y)) b)
  | .ints a, .ints b =>
    if fn.supportsInts then do return .ints (← a.zipBroadcast fn.binaryInt b)
    else .error .unsupportedType
  | _, _ => .error .unsupportedType

/-- Applies the function to its first input or its first two inputs. -/
def run (op : Elementwise) (inputs : List Value) : OpResult Value := do
  let a ← Inputs.require inputs 0
  if op.fn.arity = 1 then runUnary op.fn a
  else runBinary op.fn a (← Inputs.require inputs 1)

/-- Applies the function and overwrites the first input, unless the result is larger. -/
def runInPlace (op : Elementwise) (first : Value) (rest : List Value) : OpResult Value :=
  let fn := op.fn
  if fn.arity = 1 then
    match first with
    | .floats x => do return .floats (← x.overwrite fun _ x => pure (fn.unary x))
    | .ints x => do return .ints (← x.overwrite fun _ x => fn.unaryInt x)
  else do
    let rhs ← Inputs.require rest 0
    if !Shape.canBroadcast rhs.shape first.shape then op.run [first, rhs]
    else match first, rhs with
      | .floats a, .floats b =>
        return .floats (← a.zipOverwrite (fun x y => pure (fn.binary x y)) b)
      | .ints a, .ints b =>
        if fn.supportsInts then return .ints (← a.zipOverwrite fn.binaryInt b)
        else .error .unsupportedType
      | _, _ => .error .unsupportedType

/-- The kernel's result on floats: it handles one input, two inputs of one shape, and a second
input of one element. -/
def kernelFloats? (fn : ScalarFn) (a : Tensor Single) : Option (Tensor Single) → Option (Tensor Single)
  | none => some (a.map fn.unary)
  | some b =>
    if a.shape = b.shape then
      some (Tensor.generate a.shape fun i => fn.binary (a.read i) (b.read i))
    else if b.rank ≤ a.rank then b.item?.map fun y => a.map (fn.binary · y)
    else none

def runKernel (op : Elementwise) (inputs : List Value) : OpResult Value := do
  match ← Inputs.require inputs 0 with
  | .ints _ => op.run inputs
  | .floats a =>
    let b? : Option (Tensor Single) ← match inputs[1]? with
      | some (Value.floats b) => pure (some b)
      | some (Value.ints _) => Except.error OpError.unsupportedType
      | none => pure none
    match kernelFloats? op.fn a b? with
    | some out => return .floats out
    | none => op.run inputs

def kernel (op : Elementwise) : Kernel where
  name := op.fn.name
  run inputs := do return [← op.runKernel inputs]
  inPlace := op.inPlace
  runInPlace := op.runInPlace

end Elementwise

end TensorGraph
