import TensorGraph.Operator.Kernel

/-!
# Softmax

Normalized exponentials along one axis.
-/

namespace TensorGraph

/-- Divides the exponentials along an axis by their sum. -/
structure Softmax where
  axis : Int
deriving DecidableEq, Repr

/-- The sizes around one axis of a tensor: a lane is made of the `length` elements that differ only
in their position on the axis, and there are `outer * inner` lanes. -/
structure LaneSizes where
  outer : Nat
  length : Nat
  inner : Nat
deriving DecidableEq, Repr

namespace LaneSizes

def ofAxis (shape : List Nat) (axis : Nat) : LaneSizes where
  outer := volume (shape.take axis)
  length := shape.getD axis 0
  inner := volume (shape.drop (axis + 1))

/-- The offset of element `k` of the lane with outer position `o` and inner position `i`. -/
def offset (s : LaneSizes) (o k i : Nat) : Nat := o * (s.length * s.inner) + k * s.inner + i

variable {α : Type} [Inhabited α]

/-- The elements of the lane with outer position `o` and inner position `i`. -/
def lane (s : LaneSizes) (x : Tensor α) (o i : Nat) : List α :=
  (List.range s.length).map fun k => x.read (s.offset o k i)

/-- Overwrites a lane with what `f` makes of its elements. -/
def overwrite (f : List α → List α) (s : LaneSizes) (x : Tensor α) (o i : Nat) : Tensor α :=
  (f (s.lane x o i)).zipIdx.foldl (fun x (y, k) => x.set (s.offset o k i) y) x

/-- Overwrites all lanes, one after the other. -/
def overwriteAll (f : List α → List α) (s : LaneSizes) (x : Tensor α) : Tensor α :=
  (List.range s.outer).foldl (fun x o => (List.range s.inner).foldl (fun x i => s.overwrite f x o i) x) x

end LaneSizes

namespace Softmax

/-- Normalizes one lane. The largest element is subtracted first, so that no exponential
overflows. -/
def normalizeLane (lane : List Single) : List Single :=
  let largest := lane.foldl .max .negInfinity
  let powers := lane.map fun x => (x.sub largest).exp
  let sum := powers.foldl .add .zero
  powers.map (·.div sum)

def lanes (op : Softmax) (shape : List Nat) : OpResult LaneSizes := do
  return .ofAxis shape (← resolveAxis shape.length op.axis)

/-- Overwrites the lanes along the axis with what `f` makes of them. -/
def runWith (f : List Single → List Single) (op : Softmax) (inputs : List Value) : OpResult Value := do
  let x ← Inputs.requireFloats inputs 0
  return .floats ((← op.lanes x.shape).overwriteAll f x)

/-- Normalizes the lanes along the axis. -/
def run : Softmax → List Value → OpResult Value := runWith normalizeLane

/-- Normalizes rows of the given length. -/
def normalizeRows (length : Nat) (x : Tensor Single) : Tensor Single :=
  Tensor.ofList x.shape <| chunks x.size length fun r width => normalizeLane (x.slice (r * length) width)

/-- Normalizes rows, if lanes are rows. -/
def runKernel (op : Softmax) (inputs : List Value) : OpResult Value := do
  let x ← Inputs.requireFloats inputs 0
  let s ← op.lanes x.shape
  if s.inner ≠ 1 ∨ s.length = 0 then op.run inputs
  else return .floats (normalizeRows s.length x)

def kernel (op : Softmax) : Kernel where
  name := "Softmax"
  run inputs := do return [← op.runKernel inputs]

end Softmax

end TensorGraph
