import TensorGraph.Facts.Layout
import TensorGraph.Operator.Fused
import TensorGraph.Operator.MatMul
import TensorGraph.Operator.Reduce
import TensorGraph.Operator.ShapeAccess
import TensorGraph.Operator.Softmax

/-!
# Operators

An operator computes output values from input values. Besides its reference implementation it can
have a shape rule, a kernel, and an implementation that overwrites its first input.
-/

namespace TensorGraph

/-- An operator given by its functions. -/
structure CustomOperator where
  name : String
  /-- The largest number of inputs; without it there is no limit. -/
  maxInputs : Option Nat
  numOutputs : Nat := 1
  run : List Value → OpResult (List Value)
  /-- Whether the order of the inputs does not matter. -/
  commutative : Bool := false
  /-- Whether the outputs depend only on the inputs. -/
  deterministic : Bool := true
  /-- Whether the first input may be overwritten. -/
  inPlace : Bool := false
  runInPlace : Value → List Value → OpResult Value := fun _ _ => .error .notInPlace
  shapeRule? : Option ShapeRule := none
  /-- The types of the outputs for the types of the inputs, as far as they are known. -/
  outputTypes : List (Option ElementType) → List (Option ElementType) := fun types =>
    List.replicate numOutputs types.head?.join
  kernel? : Option Kernel := none

/-- A computation step of a graph. -/
inductive Operator where
  | elementwise (op : Elementwise)
  | fused (op : FusedElementwise)
  | matMul
  | reduce (op : Reduce)
  | softmax (op : Softmax)
  /-- The first input in the shape that the second holds. -/
  | reshape
  /-- The dimensions in another order, by default reversed. -/
  | transpose (perm : Option (List Nat))
  | concat (axis : Int)
  | cast (type : ElementType)
  | identity
  /-- The shape as an integer vector. -/
  | shape
  /-- One size as an integer scalar. -/
  | size (index : Nat)
  /-- The input, checked to have the given sizes. -/
  | specifyShape (spec : List (Option Nat))
  | fill (x : Single)
  /-- The first input, if no element of the others is zero. -/
  | assertAll (message : String)
  | custom (op : CustomOperator)

namespace Operator

instance : Inhabited Operator := ⟨.identity⟩

def name : Operator → String
  | .elementwise op => op.fn.name
  | .fused _ => "FusedElementwise"
  | .matMul => "MatMul"
  | .reduce op => op.name
  | .softmax _ => "Softmax"
  | .reshape => "Reshape"
  | .transpose _ => "Transpose"
  | .concat _ => "Concat"
  | .cast _ => "Cast"
  | .identity => "Identity"
  | .shape => "Shape"
  | .size _ => "ShapeI"
  | .specifyShape _ => "SpecifyShape"
  | .fill _ => "Fill"
  | .assertAll _ => "Assert"
  | .custom op => op.name

/-- The largest number of inputs; without it there is no limit. -/
def maxInputs : Operator → Option Nat
  | .elementwise op => some op.fn.arity
  | .fused op => some op.numInputs
  | .matMul | .reshape => some 2
  | .concat _ | .assertAll _ => none
  | .custom op => op.maxInputs
  | _ => some 1

def numOutputs : Operator → Nat
  | .custom op => op.numOutputs
  | _ => 1

/-- Whether the order of the inputs does not matter. -/
def isCommutative : Operator → Bool
  | .elementwise op => op.fn.isCommutative
  | .custom op => op.commutative
  | _ => false

/-- Whether the outputs depend only on the inputs. Assertions do not count as such, so that they
are neither merged nor folded away. -/
def isDeterministic : Operator → Bool
  | .assertAll _ => false
  | .custom op => op.deterministic
  | _ => true

/-- Whether the first input may be overwritten. -/
def canRunInPlace : Operator → Bool
  | .elementwise op => op.inPlace
  | .fused op => op.inPlace
  | .custom op => op.inPlace
  | _ => false

/-- Computes the outputs by the reference implementation. -/
def run (op : Operator) (inputs : List Value) : OpResult (List Value) :=
  match op with
  | .elementwise op => do return [← op.run inputs]
  | .fused op => do return [← op.run inputs]
  | .matMul => do return [← MatMul.run inputs]
  | .reduce op => do return [← op.run inputs]
  | .softmax op => do return [← op.run inputs]
  | .reshape => do return [← Layout.reshape inputs]
  | .transpose perm => do return [← Layout.transpose perm inputs]
  | .concat axis => do return [← Layout.concat axis inputs]
  | .cast type => do return [← Layout.cast type inputs]
  | .identity => do return [← Inputs.require inputs 0]
  | .shape => do return [← ShapeAccess.shape inputs]
  | .size index => do return [← ShapeAccess.size index inputs]
  | .specifyShape spec => do return [← ShapeAccess.specify spec inputs]
  | .fill x => do return [← ShapeAccess.fill x inputs]
  | .assertAll message => do return [← ShapeAccess.assertAll message inputs]
  | .custom op => op.run inputs

/-- Computes the output and overwrites the first input. -/
def runInPlace (op : Operator) (first : Value) (rest : List Value) : OpResult Value :=
  match op with
  | .elementwise op => op.runInPlace first rest
  | .fused op => op.runInPlace first rest
  | .custom op => op.runInPlace first rest
  | _ => .error .notInPlace

/-- The shape rule, which drops constants from maxima and minima where the test says so. -/
def shapeRuleBy? (drops : DropTest) : Operator → Option ShapeRule
  | .elementwise op => some (op.fn.shapeRuleBy drops)
  | .fused op => some op.shapeRule
  | .matMul => some ShapeRule.matMul
  | .reduce op => some (.reduction op.axes op.keepDims)
  | .softmax _ | .cast .float32 => some ShapeRule.sameAsFirst
  | .reshape => some (.reshapeBy drops)
  | .transpose perm => some (.transpose perm)
  | .concat axis => some (.concatBy drops axis)
  -- Integer elements are tracked, and a cast to integers keeps them.
  | .cast .int32 | .identity | .assertAll _ => some ShapeRule.passFirst
  | .shape => some ShapeRule.shapeOf
  | .size index => some (.sizeOf index)
  | .specifyShape spec => some (.specifyShape spec)
  | .fill _ => some ShapeRule.fill
  | .custom op => op.shapeRule?

/-- The simplified facts that the shape rule gives for the outputs; without a rule there are none. -/
def outputFactsBy (drops : DropTest) (op : Operator) : ShapeRule := fun inputs =>
  match op.shapeRuleBy? drops with
  | some rule => do return (← rule inputs).map (TensorFacts.simplifyBy drops)
  | none => pure []

def outputFacts : Operator → ShapeRule := outputFactsBy boundsDominate

/-- The types of the outputs for the types of the inputs, as far as they are known. -/
def outputTypes (op : Operator) (types : List (Option ElementType)) : List (Option ElementType) :=
  match op with
  | .elementwise _ => [types.findSome? id]
  | .fused _ | .matMul | .fill _ => [some .float32]
  | .cast type => [some type]
  | .shape | .size _ => [some .int32]
  | .custom op => op.outputTypes types
  | _ => [types.head?.join]

def kernel? : Operator → Option Kernel
  | .elementwise op => some op.kernel
  | .fused op => some op.kernel
  | .matMul => some MatMul.kernel
  | .reduce op => some op.kernel
  | .softmax op => some op.kernel
  | .custom op => op.kernel?
  | _ => none

/-- Whether two operators have the same kind and attributes, with floats compared numerically. -/
def sameAs : Operator → Operator → Bool
  | .elementwise a, .elementwise b => a == b
  | .fused a, .fused b =>
    a.expr.eq b.expr && a.numInputs == b.numInputs && a.inPlace == b.inPlace
  | .matMul, .matMul | .reshape, .reshape | .identity, .identity | .shape, .shape => true
  | .reduce a, .reduce b => a == b
  | .softmax a, .softmax b => a == b
  | .transpose a, .transpose b => a == b
  | .concat a, .concat b => a == b
  | .cast a, .cast b => a == b
  | .size a, .size b => a == b
  | .specifyShape a, .specifyShape b => a == b
  | .fill a, .fill b => a.eq b
  | .assertAll a, .assertAll b => a == b
  | _, _ => false

/-- The name and the attributes. -/
def text (op : Operator) : String :=
  let inPlaceText (b : Bool) := if b then " in_place" else ""
  let listText (xs : List String) := bracketed xs
  match op with
  | .elementwise e => e.fn.name ++ inPlaceText e.inPlace
  | .fused f =>
    op.name ++ " " ++ f.expr.text ++ " inputs=" ++ toString f.numInputs ++ inPlaceText f.inPlace
  | .reduce r =>
    let axes := match r.axes with
      | some axes => listText (axes.map toString)
      | none => "all"
    op.name ++ " axes=" ++ axes ++ " keep_dims=" ++ toString r.keepDims
  | .softmax s => op.name ++ " axis=" ++ toString s.axis
  | .transpose perm =>
    let perm := match perm with
      | some perm => countsText perm
      | none => "none"
    op.name ++ " perm=" ++ perm
  | .concat axis => op.name ++ " axis=" ++ toString axis
  | .cast type => op.name ++ " to=" ++ type.text
  | .size index => op.name ++ " index=" ++ toString index
  | .specifyShape spec =>
    let entry (s : Option Nat) := match s with
      | some n => toString n
      | none => "_"
    op.name ++ " " ++ listText (spec.map entry)
  | .fill x => op.name ++ " value=" ++ x.text
  | .assertAll message => op.name ++ " " ++ message
  | _ => op.name

end Operator

end TensorGraph
