import TensorGraph.Operator.Layout

/-!
# Operators on shapes

Operators that read or check the shape of a tensor, make a tensor of a given shape, or check
conditions at run time.
-/

namespace TensorGraph.ShapeAccess

/-- A size as an integer, if it fits. -/
def sizeToWord (size : Nat) : OpResult Int32 :=
  match Word.ofInt? size with
  | some w => .ok w
  | none => .error (.invalidValue "Dimension size exceeds i32 range")

/-- The shape as a vector. -/
def shape (inputs : List Value) : OpResult Value := do
  let input ← Inputs.require inputs 0
  return .ints (.vector (← input.shape.mapM sizeToWord).toArray)

/-- One size as a scalar. -/
def size (index : Nat) (inputs : List Value) : OpResult Value := do
  let input ← Inputs.require inputs 0
  match input.shape[index]? with
  | some size => return .ints (.scalar (← sizeToWord size))
  | none => .error (.invalidValue "Dimension index is out of range")

/-- Whether a shape has the given rank and the given sizes where there are some. -/
def specMatches (spec : List (Option Nat)) (shape : List Nat) : Bool :=
  shape.length == spec.length && (shape.zip spec).all fun (size, s) => s.all (· == size)

/-- The input, if it has the given sizes. -/
def specify (spec : List (Option Nat)) (inputs : List Value) : OpResult Value := do
  let input ← Inputs.require inputs 0
  if specMatches spec input.shape then pure input
  else .error (.incompatibleShapes "shape does not match SpecifyShape")

/-- A tensor of one value whose shape is given by a vector. -/
def fill (x : Single) (inputs : List Value) : OpResult Value := do
  let sizes ← (← Layout.requireVector inputs 0).mapM fun size =>
    match Word.toCount? size with
    | some n => pure n
    | none => .error (.invalidValue "Shape entries must be >= 0")
  return .floats (.full sizes x)

/-- Whether no element is zero. -/
def allNonZero : Value → Bool
  | .floats x => x.data.all (!·.isZero)
  | .ints x => x.data.all (· != 0)

/-- The first input, if no element of the others is zero. -/
def assertAll (message : String) (inputs : List Value) : OpResult Value := do
  let input ← Inputs.require inputs 0
  if (inputs.drop 1).all allNonZero then pure input else .error (.assertionFailed message)

end TensorGraph.ShapeAccess
