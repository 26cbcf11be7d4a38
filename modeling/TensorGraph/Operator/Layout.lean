import TensorGraph.Operator.Inputs

/-!
# Operators that rearrange elements

Reshaping, transposition, concatenation and conversion.
-/

namespace TensorGraph.Layout

/-! ## Reshaping -/

/-- Counts are below this bound. -/
def countLimit : Nat := Nat.pow 2 64

/-- The product of the sizes in a target shape and the position of its entry -1, found so far. -/
structure TargetScan where
  inferred : Option Nat := none
  known : Nat := 1

/-- Looks at the next entry of a target shape. -/
def TargetScan.step (s : TargetScan) (entry : Int32 × Nat) : OpResult TargetScan :=
  let (size, i) := entry
  if size = -1 then
    if s.inferred.isSome then .error (.invalidValue "Multiple -1 entries in shape")
    else .ok { s with inferred := some i }
  else if size < 0 then .error (.invalidValue "Shape entries must be >= -1")
  else
    let known := s.known * size.toInt.toNat
    if known < countLimit then .ok { s with known } else .error (.invalidValue "Shape is too large")

def notReshapable : OpError :=
  .incompatibleShapes "Input cannot be reshaped to requested shape"

/-- The sizes that a target shape stands for, for an input of `len` elements: the entry -1 is the
size that is left over. -/
def resolveTarget (len : Nat) (target : List Int32) : OpResult (List Nat) := do
  let scan ← target.zipIdx.foldlM TargetScan.step {}
  let sizes := target.map (·.toInt.toNat)
  match scan.inferred with
  | some i =>
    if scan.known = 0 ∨ len % scan.known ≠ 0 then .error notReshapable
    else .ok (sizes.set i (len / scan.known))
  | none => if scan.known ≠ len then .error notReshapable else .ok sizes

/-- The elements of an input that must be a vector. -/
def requireVector (inputs : List Value) (i : Nat) : OpResult (List Int32) := do
  let t ← Inputs.requireInts inputs i
  if t.rank ≠ 1 then .error (.invalidValue "Shape must be a vector") else pure t.data.toList

def reshape (inputs : List Value) : OpResult Value := do
  let input ← Inputs.require inputs 0
  let shape ← resolveTarget input.size (← requireVector inputs 1)
  match input.reshape? shape with
  | some out => pure out
  | none => .error notReshapable

/-! ## Transposition -/

/-- The order of dimensions, which by default is reversed, if it is a permutation. -/
def resolvePermutation (perm? : Option (List Nat)) (rank : Nat) : OpResult (List Nat) :=
  let perm := perm?.getD (List.range rank).reverse
  if perm.length = rank ∧ (∀ axis ∈ perm, axis < rank) ∧ perm.Nodup then .ok perm
  else .error (.invalidValue "Permutation is invalid")

/-- The dimensions of a tensor, by their sizes and strides, in another order. -/
def permutedDims (perm shape : List Nat) : List (Nat × Nat) :=
  let dims := shape.zip (Shape.strides shape)
  perm.filterMap (dims[·]?)

/-- The tensor whose dimension `i` is dimension `perm[i]` of `x`. -/
def permute {α : Type} [Inhabited α] (perm : List Nat) (x : Tensor α) : Tensor α :=
  let dims := permutedDims perm x.shape
  x.gather (dims.map (·.1)) (Shape.offsets x.size dims)

def transpose (perm? : Option (List Nat)) (inputs : List Value) : OpResult Value := do
  let input ← Inputs.require inputs 0
  let perm ← resolvePermutation perm? input.rank
  return match input with
    | .floats x => .floats (permute perm x)
    | .ints x => .ints (permute perm x)

/-! ## Concatenation -/

/-- Whether two shapes have the same rank and differ at most in one dimension. -/
def sameExcept (axis : Nat) (a b : List Nat) : Bool := a.length == b.length && a.eraseIdx axis == b.eraseIdx axis

/-- Joins tensors along an axis: for each position in the dimensions before the axis, the blocks of
all tensors follow each other. -/
def join {α : Type} [Inhabited α] (axis : Int) : List (Tensor α) → OpResult (Tensor α)
  | [] => .error .missingInputs
  | first :: rest => do
    let all := first :: rest
    let axis ← resolveAxis first.rank axis
    if !all.all fun t => sameExcept axis t.shape first.shape then
      .error (.incompatibleShapes "Inputs must have the same shape except along the concat axis")
    else
      let outer := volume (first.shape.take axis)
      let inner := volume (first.shape.drop (axis + 1))
      let blockSize (t : Tensor α) := t.shape.getD axis 0 * inner
      let elements := (List.range outer).flatMap fun o => all.flatMap fun t =>
        (t.data.extract (o * blockSize t) ((o + 1) * blockSize t)).toList
      let elements := elements.toArray
      let length := total (all.map fun t => t.shape.getD axis 0)
      return Tensor.generate (first.shape.set axis length) fun i => elements.getD i default

def concat (axis : Int) (inputs : List Value) : OpResult Value := do
  let indices := List.range inputs.length
  match ← Inputs.require inputs 0 with
  | .floats _ => return .floats (← join axis (← indices.mapM (Inputs.requireFloats inputs)))
  | .ints _ => return .ints (← join axis (← indices.mapM (Inputs.requireInts inputs)))

/-! ## Conversion -/

/-- Converts the elements. -/
def cast (type : ElementType) (inputs : List Value) : OpResult Value := do
  let input ← Inputs.require inputs 0
  return match type with
    | .float32 => .floats input.toFloats
    | .int32 => .ints input.toInts

end TensorGraph.Layout
