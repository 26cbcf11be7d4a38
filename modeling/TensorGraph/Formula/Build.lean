import TensorGraph.Formula.Basic
import TensorGraph.Formula.InputSpec
import TensorGraph.Graph.Sketch

/-!
# Meaning of formulas

A formula is turned into a sketch of a graph. Every function is the name of an operator, some of
whose attributes are given by arguments; the other arguments are its inputs.
-/

namespace TensorGraph

/-- Why a formula has no meaning. -/
inductive FormulaMeaningError where
  /-- A name is not that of an input. -/
  | unknownName (name : String)
  | unknownFunction (name : String)
  | argumentCount (function expected : String) (actual : Nat)
  | unknownKeyword (function name : String)
  | invalidArgument (function argument expected : String)
deriving DecidableEq, Repr

/-- A short name for the kind of error. -/
def FormulaMeaningError.kind : FormulaMeaningError → String
  | .unknownName _ => "UnknownName"
  | .unknownFunction _ => "UnknownFunction"
  | .argumentCount .. => "ArgCount"
  | .unknownKeyword .. => "UnknownKeyword"
  | .invalidArgument .. => "InvalidArg"

def FormulaMeaningError.message : FormulaMeaningError → String
  | .unknownName name =>
    "\"" ++ name ++ "\" is not an input. Declare it with --input " ++ name
  | .unknownFunction name => "unknown function \"" ++ name ++ "\""
  | .argumentCount function expected actual =>
    function ++ "() takes " ++ expected ++ " positional arguments but " ++ toString actual ++
      " were given"
  | .unknownKeyword function name => function ++ "() has no argument \"" ++ name ++ "\""
  | .invalidArgument function argument expected =>
    "argument \"" ++ argument ++ "\" of " ++ function ++ "() must be " ++ expected

/-- The arguments of a function. -/
structure CallArguments where
  function : String
  args : List Formula
  keywords : List (String × Formula)

namespace CallArguments

abbrev Result := Except FormulaMeaningError

/-- Checks the number of positional arguments, and that all keywords are known. -/
def check (c : CallArguments) (least most : Nat) (expected : String) (known : List String) :
    Result Unit := do
  if c.args.length < least ∨ most < c.args.length then
    throw (.argumentCount c.function expected c.args.length)
  match c.keywords.find? fun k => !known.contains k.1 with
  | some (name, _) => throw (.unknownKeyword c.function name)
  | none => pure ()

/-- An argument that is given by keyword, or at a position if it has one. -/
def get? (c : CallArguments) (position : Option Nat) (name : String) : Option Formula :=
  c.keywords.lookup name <|> position.bind (c.args[·]?)

def invalid {α : Type} (c : CallArguments) (argument expected : String) : Result α :=
  .error (.invalidArgument c.function argument expected)

/-- The integer that a formula denotes, if it is a number with an optional minus sign. -/
def integer? : Formula → Option Int32
  | .number x => if x.isInteger then some x.toWord else none
  | .neg (.number x) => if x.isInteger then some x.neg.toWord else none
  | _ => none

def int? (c : CallArguments) (position : Option Nat) (name : String) : Result (Option Int32) :=
  match c.get? position name with
  | none => .ok none
  | some f => match integer? f with
    | some i => .ok (some i)
    | none => c.invalid name "an integer"

def intList? (c : CallArguments) (position : Option Nat) (name : String) :
    Result (Option (List Int32)) :=
  match c.get? position name with
  | none => .ok none
  | some (.list items) => .ok (some items)
  | some f => match integer? f with
    | some i => .ok (some [i])
    | none => c.invalid name "an integer or list of integers"

/-- Whether an integer argument is given and not zero. -/
def flag (c : CallArguments) (name : String) : Result Bool := do
  return (← c.int? none name).any (· != 0)

/-- Integers that must all be counts. -/
def counts? (items : List Int32) : Option (List Nat) := items.mapM Word.toCount?

def reduceFn? : String → Option ReduceFn
  | "sum" => some .sum
  | "mean" => some .mean
  | "max" => some .max
  | _ => none

/-- The operator that a call applies, and the number of its first arguments that are inputs. -/
def operator (c : CallArguments) : Result (Operator × Nat) := do
  let all := c.args.length
  if let some fn := ScalarFn.ofName? c.function then
    c.check fn.arity fn.arity (toString fn.arity) []
    return (.elementwise { fn }, all)
  if let some fn := reduceFn? c.function then
    c.check 1 2 "1 or 2" ["axes", "keep_dims"]
    let axes ← c.intList? (some 1) "axes"
    return (.reduce ⟨fn, axes.map (·.map Int32.toInt), ← c.flag "keep_dims"⟩, 1)
  match c.function with
  | "softmax" =>
    c.check 1 2 "1 or 2" ["axis"]
    return (.softmax ⟨((← c.int? (some 1) "axis").getD (-1)).toInt⟩, 1)
  | "transpose" =>
    c.check 1 2 "1 or 2" ["perm"]
    match ← c.intList? (some 1) "perm" with
    | none => return (.transpose none, 1)
    | some items => match counts? items with
      | some perm => return (.transpose (some perm), 1)
      | none => c.invalid "perm" "a list of non-negative integers"
  | "reshape" =>
    c.check 2 2 "2" []
    return (.reshape, all)
  | "specify_shape" =>
    c.check 2 2 "2" []
    match c.args with
    | [_, .list sizes] => return (.specifyShape (sizes.map Word.toCount?), 1)
    | _ => c.invalid "shape" "a list of integers"
  | "concat" =>
    if c.args.isEmpty then throw (.argumentCount c.function "at least 1" 0)
    c.check 0 all "" ["axis"]
    return (.concat ((← c.int? none "axis").getD 0).toInt, all)
  | "matmul" =>
    c.check 2 2 "2" []
    return (.matMul, all)
  | "shape" =>
    c.check 1 1 "1" []
    return (.shape, 1)
  | "shape_i" =>
    c.check 1 2 "1 or 2" ["index"]
    match (← c.int? (some 1) "index").bind Word.toCount? with
    | some index => return (.size index, 1)
    | none => c.invalid "index" "a non-negative integer"
  | "fill" =>
    c.check 1 2 "1 or 2" ["value"]
    match c.get? (some 1) "value" with
    | none => return (.fill .zero, 1)
    | some (.number x) => return (.fill x, 1)
    | some (.neg (.number x)) => return (.fill x.neg, 1)
    | some _ => c.invalid "value" "a number"
  | "int" =>
    c.check 1 1 "1" []
    return (.cast .int32, 1)
  | "float" =>
    c.check 1 1 "1" []
    return (.cast .float32, 1)
  | "identity" =>
    c.check 1 1 "1" []
    return (.identity, 1)
  | _ => throw (.unknownFunction c.function)

end CallArguments

namespace FormulaOp

/-- The function that an operator stands for. -/
def fn : FormulaOp → ScalarFn
  | .add => .add
  | .sub => .sub
  | .mul => .mul
  | .div => .div
  | .pow => .pow

end FormulaOp

namespace Formula

/-- A computation that adds expressions to a sketch. -/
abbrev BuildM := StateT Sketch (Except FormulaMeaningError)

def push (e : SketchExpr) : BuildM ExprId := modifyGet fun s => s.push e

mutual

/-- Adds the expressions of a formula to the sketch. Inputs are given by their names. -/
def build (inputs : List (String × ExprId)) : Formula → BuildM ExprId
  | .number x => push (.constant (.floats (.scalar x)))
  | .name ident => match inputs.lookup ident with
    | some id => pure id
    | none => throw (.unknownName ident)
  | .list items => push (.constant (.ints (.vector items.toArray)))
  | .neg x => do
    let x ← x.build inputs
    push (.operator (.elementwise { fn := .neg }) [x])
  | .binary op lhs rhs => do
    let lhs ← lhs.build inputs
    let rhs ← rhs.build inputs
    push (.operator (.elementwise { fn := op.fn }) [lhs, rhs])
  | .call function args keywords => do
    let (op, count) ← (CallArguments.operator { function, args, keywords } : BuildM _)
    let operands ← buildFirst inputs count args
    push (.operator op operands)

/-- Adds the expressions of the first formulas of a list. -/
def buildFirst (inputs : List (String × ExprId)) : Nat → List Formula → BuildM (List ExprId)
  | count + 1, x :: xs => do
    let id ← x.build inputs
    return id :: (← buildFirst inputs count xs)
  | _, _ => pure []

end

/-- The value that a declared input stands for. Without a shape its type is not declared either. -/
def inputExpr (spec : InputSpec) : SketchExpr :=
  match spec.shape with
  | some dims => .value spec.name (some dims) (some spec.type)
  | none => .value spec.name none none

/-- The graph that computes a formula from declared inputs. Of two inputs with one name the formula
means the last. -/
def graph (f : Formula) (specs : List InputSpec) : Except FormulaMeaningError Graph := do
  let inputs := List.range specs.length
  let names := (specs.map (·.name)).zip inputs
  let (output, sketch) ← f.build names.reverse |>.run { exprs := (specs.map inputExpr).toArray }
  return sketch.graph inputs [output]

/-- The functions of the language. -/
def functionsHelp : List String :=
  ["exp log log1p sqrt abs tanh sigmoid softplus neg maximum minimum pow",
    "sum mean max (axes=[..], keep_dims=0) softmax (axis=-1)",
    "transpose (perm=[..]) reshape (x, shape) specify_shape (x, [..])",
    "concat (.., axis=0) matmul shape shape_i (index) fill (shape, value)",
    "int float identity"]

end Formula

end TensorGraph
