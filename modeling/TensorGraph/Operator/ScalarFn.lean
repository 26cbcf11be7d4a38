import TensorGraph.Facts.Arith
import TensorGraph.Operator.Inputs

/-!
# Scalar functions

The functions of one or two numbers that operators apply to the elements of their inputs. Some are
also defined on integers, whose arithmetic wraps except for division.
-/

namespace TensorGraph

/-- A function of one or two numbers. -/
inductive ScalarFn where
  | neg | exp | log | log1p | sqrt | abs | tanh | sigmoid | softplus
  | add | sub | mul | div | pow | maximum | minimum
deriving DecidableEq, Repr, Inhabited

namespace ScalarFn

def all : List ScalarFn :=
  [.neg, .exp, .log, .log1p, .sqrt, .abs, .tanh, .sigmoid, .softplus,
    .add, .sub, .mul, .div, .pow, .maximum, .minimum]

/-- The number of arguments. -/
def arity : ScalarFn → Nat
  | .neg | .exp | .log | .log1p | .sqrt | .abs | .tanh | .sigmoid | .softplus => 1
  | .add | .sub | .mul | .div | .pow | .maximum | .minimum => 2

def name : ScalarFn → String
  | .neg => "Neg"
  | .exp => "Exp"
  | .log => "Log"
  | .log1p => "Log1p"
  | .sqrt => "Sqrt"
  | .abs => "Abs"
  | .tanh => "Tanh"
  | .sigmoid => "Sigmoid"
  | .softplus => "Softplus"
  | .add => "Add"
  | .sub => "Sub"
  | .mul => "Mul"
  | .div => "Div"
  | .pow => "Pow"
  | .maximum => "Maximum"
  | .minimum => "Minimum"

/-- The name in lower case. -/
def text (fn : ScalarFn) : String := fn.name.toLower

/-- The function with a given name. The case of ASCII letters does not matter. -/
def ofName? (name : String) : Option ScalarFn := all.find? fun fn => fn.text == name.toLower

def isCommutative : ScalarFn → Bool
  | .add | .mul | .maximum | .minimum => true
  | _ => false

/-- Whether the function is defined on integers. -/
def supportsInts : ScalarFn → Bool
  | .neg | .abs | .add | .sub | .mul | .div | .maximum | .minimum => true
  | _ => false

/-! ## Values -/

/-- `1 / (1 + exp (-x))`, computed so that the exponential does not overflow. -/
def logistic (x : Single) : Single :=
  if Single.zero.le x then Single.one.div (Single.one.add x.neg.exp)
  else
    let e := x.exp
    e.div (Single.one.add e)

/-- `log (1 + exp x)`, computed so that the exponential does not overflow. -/
def softened (x : Single) : Single :=
  if Single.zero.lt x then x.add x.neg.exp.log1p else x.exp.log1p

/-- The value at one number; a NaN for functions of two numbers. -/
def unary : ScalarFn → Single → Single
  | .neg, x => x.neg
  | .exp, x => x.exp
  | .log, x => x.log
  | .log1p, x => x.log1p
  | .sqrt, x => x.sqrt
  | .abs, x => x.abs
  | .tanh, x => x.tanh
  | .sigmoid, x => logistic x
  | .softplus, x => softened x
  | _, _ => .nan

/-- The value at two numbers; a NaN for functions of one number. -/
def binary : ScalarFn → Single → Single → Single
  | .add, x, y => x.add y
  | .sub, x, y => x.sub y
  | .mul, x, y => x.mul y
  | .div, x, y => x.div y
  | .pow, x, y => x.pow y
  | .maximum, x, y => x.maximum y
  | .minimum, x, y => x.minimum y
  | _, _, _ => .nan

def unaryInt : ScalarFn → Int32 → OpResult Int32
  | .neg, x => .ok (-x)
  | .abs, x => .ok (if x < 0 then -x else x)
  | _, _ => .error .unsupportedType

/-- The quotient of two integers, rounded towards negative infinity. -/
def divideInts (x y : Int32) : OpResult Int32 :=
  if y = 0 then .error (.invalidValue "integer division by zero")
  else match Word.floorDiv? x y with
    | some q => .ok q
    | none => .error (.invalidValue "integer division overflow")

def binaryInt : ScalarFn → Int32 → Int32 → OpResult Int32
  | .add, x, y => .ok (x + y)
  | .sub, x, y => .ok (x - y)
  | .mul, x, y => .ok (x * y)
  | .div, x, y => divideInts x y
  | .maximum, x, y => .ok (if x < y then y else x)
  | .minimum, x, y => .ok (if y < x then y else x)
  | _, _, _ => .error .unsupportedType

/-! ## Shape rules -/

/-- The arithmetic on sizes that the function amounts to on integers. -/
def sizeOp? : ScalarFn → Option SizeOp
  | .add => some .add
  | .sub => some .sub
  | .mul => some .mul
  | .div => some .div
  | .maximum => some .max
  | .minimum => some .min
  | _ => none

/-- The shape rule of applying the function to elements. -/
def shapeRuleBy (drops : DropTest) (fn : ScalarFn) : ShapeRule :=
  if fn = .neg then .negationBy drops
  else if fn.arity = 1 then ShapeRule.sameAsFirst
  else match fn.sizeOp? with
    | some op => .arithBy drops op
    | none => ShapeRule.broadcastPair

end ScalarFn

end TensorGraph
