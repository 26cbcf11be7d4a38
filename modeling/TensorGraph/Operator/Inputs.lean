import TensorGraph.Tensor.Value

/-!
# Inputs of operators

Why an operator can fail, and access to its inputs with the errors that belong to it.
-/

namespace TensorGraph

/-- Why an operator fails. -/
inductive OpError where
  /-- A value has the wrong element type. -/
  | cast (e : TypeMismatch)
  /-- The input with the given index has the wrong element type. -/
  | inputCast (index : Nat) (e : TypeMismatch)
  | unsupportedType
  /-- The shapes fit neither each other nor the attributes. -/
  | incompatibleShapes (details : String)
  | missingInputs
  | invalidValue (details : String)
  /-- A run-time assertion failed. -/
  | assertionFailed (message : String)
deriving DecidableEq, Repr

namespace OpError

/-- A short name for the kind of error. -/
def kind : OpError → String
  | .cast _ => "CastFailed"
  | .inputCast .. => "InputCastFailed"
  | .unsupportedType => "UnsupportedType"
  | .incompatibleShapes _ => "IncompatibleInputShapes"
  | .missingInputs => "MissingInputs"
  | .invalidValue _ => "InvalidValue"
  | .assertionFailed _ => "AssertionFailed"

def message : OpError → String
  | .cast e => e.message
  | .inputCast index e => "conversion error for input " ++ toString index ++ ": " ++ e.message
  | .incompatibleShapes details => "incompatible input shapes: " ++ details
  | .missingInputs => "required inputs were missing"
  | .invalidValue details => "input or attribute has invalid value: " ++ details
  | .unsupportedType => "unsupported input type"
  | .assertionFailed message => "assertion failed: " ++ message

/-- Says which input a failed conversion belongs to. -/
def withInputIndex (index : Nat) : OpError → OpError
  | .cast e | .inputCast _ e => .inputCast index e
  | e => e

/-- The failure of operators that cannot overwrite an input. -/
def notInPlace : OpError := .invalidValue "In-place execution not supported"

/-- The failure of operators whose inputs do not broadcast. -/
def notBroadcastable : OpError := .incompatibleShapes "Cannot broadcast inputs"

end OpError

/-- A computation of an operator. -/
abbrev OpResult := Except OpError

namespace Inputs

/-- The input with the given index. -/
def require (inputs : List Value) (i : Nat) : OpResult Value :=
  match inputs[i]? with
  | some v => .ok v
  | none => .error .missingInputs

/-- The input at position `i` of the list, as converted by `read`. In errors it has the index
`index`. -/
def requireAs {α : Type} (read : Value → Except TypeMismatch α) (inputs : List Value)
    (i index : Nat) : OpResult α := do
  match read (← require inputs i) with
  | .ok t => pure t
  | .error e => .error (.inputCast index e)

def requireFloats (inputs : List Value) (i : Nat) : OpResult (Tensor Single) :=
  requireAs Value.asFloats? inputs i i

def requireInts (inputs : List Value) (i : Nat) : OpResult (Tensor Int32) :=
  requireAs Value.asInts? inputs i i

/-- An input after the first, from the list that lacks the first. -/
def requireFloatsAfterFirst (rest : List Value) (i : Nat) : OpResult (Tensor Single) :=
  requireAs Value.asFloats? rest i (i + 1)

end Inputs

/-- The dimension that an axis stands for. A negative axis counts from the end. -/
def resolveAxis (rank : Nat) (axis : Int) : OpResult Nat :=
  let resolved := if axis < 0 then rank + axis else axis
  if resolved < 0 ∨ rank ≤ resolved then .error (.invalidValue "Axis is invalid")
  else .ok resolved.toNat

end TensorGraph
