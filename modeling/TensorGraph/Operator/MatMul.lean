import TensorGraph.Operator.Kernel

/-!
# Matrix multiplication

Multiplication of the matrices in the last two dimensions, with the leading dimensions broadcast.
-/

namespace TensorGraph.MatMul

/-- The sizes of a batched multiplication of `m × k` by `k × n` matrices. -/
structure Plan where
  outShape : List Nat
  m : Nat
  k : Nat
  n : Nat
  /-- For each matrix of the result, the numbers of the matrices that it is the product of. -/
  batches : Array (Nat × Nat)
deriving DecidableEq, Repr

/-- Splits a shape into its leading dimensions and the last two. -/
def splitShape? (shape : List Nat) : Option (List Nat × Nat × Nat) :=
  match shape.reverse with
  | columns :: rows :: batch => some (batch.reverse, rows, columns)
  | _ => none

def plan (a b : List Nat) : OpResult Plan :=
  match splitShape? a, splitShape? b with
  | some (batchA, m, k), some (batchB, k', n) =>
    if k ≠ k' then
      .error (.incompatibleShapes "Columns of first matrix does not match rows of second matrix")
    else match Shape.broadcast? batchA batchB with
      | none => .error (.incompatibleShapes "Cannot broadcast batch dimensions")
      | some batch =>
        let pairs := (Shape.broadcastOffsets batchA batch).zip (Shape.broadcastOffsets batchB batch)
        .ok { outShape := batch ++ [m, n], m, k, n, batches := pairs.toArray }
  | _, _ => .error (.invalidValue "MatMul inputs must have at least 2 dims")

namespace Plan

/-- Where row `i` of matrix `s` of the left operand starts. -/
def leftRow (p : Plan) (s i : Nat) : Nat := s * (p.m * p.k) + i * p.k

/-- Where row `l` of matrix `t` of the right operand starts. -/
def rightRow (p : Plan) (t l : Nat) : Nat := t * (p.k * p.n) + l * p.n

/-- The first elements of row `i` of the product of matrix `s` of `a` and matrix `t` of `b`. They start at zero, and
the rows of the right matrix are added to them one after the other, each multiplied by an element of the left row. -/
def row (p : Plan) (a b : Tensor Single) (s t i width : Nat) : List Single :=
  (a.slice (p.leftRow s i) p.k).zipIdx.foldl
    (fun sums (x, l) => List.zipWith (fun sum y => sum.add (x.mul y)) sums (b.slice (p.rightRow t l) p.n))
    (List.replicate width .zero)

/-- Computes the product matrix by matrix, and each matrix row by row. -/
def multiply (p : Plan) (a b : Tensor Single) : Tensor Single :=
  let size := volume p.outShape
  Tensor.ofList p.outShape <|
    if 0 < p.n ∧ 0 < p.m then
      chunks size (p.m * p.n) fun c length => match p.batches[c]? with
        | some (s, t) => chunks length p.n fun i width => p.row a b s t i width
        | none => List.replicate length .zero
    else List.replicate size .zero

/-- Computes the product row by row. -/
def multiplyRows (p : Plan) (a b : Tensor Single) : Tensor Single :=
  let size := volume p.outShape
  Tensor.ofList p.outShape <|
    if 0 < p.n ∧ 0 < p.m then
      chunks size p.n fun r width =>
        let (s, t) := p.batches.getD (r / p.m) (0, 0)
        p.row a b s t (r % p.m) width
    else List.replicate size .zero

end Plan

/-- Plans a multiplication of the first two inputs and carries it out. -/
def runWith (multiply : Plan → Tensor Single → Tensor Single → Tensor Single)
    (inputs : List Value) : OpResult Value := do
  let a ← Inputs.requireFloats inputs 0
  let b ← Inputs.requireFloats inputs 1
  return .floats (multiply (← plan a.shape b.shape) a b)

def run : List Value → OpResult Value := runWith Plan.multiply

def kernel : Kernel where
  name := "MatMul"
  run inputs := do return [← runWith Plan.multiplyRows inputs]

end TensorGraph.MatMul
