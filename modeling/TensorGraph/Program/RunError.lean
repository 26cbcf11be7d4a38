import TensorGraph.Graph.PlanningFault

/-!
# Errors of running graphs

Why the values that a graph is given do not fit it, and what can go wrong while it runs.
-/

namespace TensorGraph

/-- How a value differs from what was inferred about it. -/
inductive FactMismatch where
  | rank (rank : Nat) (facts : TensorFacts)
  /-- A size differs from its expression, whose value is given if it has one. -/
  | shape (shape : List Nat) (facts : TensorFacts) (expected : Option (Int32 × SizeExpr))
  | elements (xs : List Int32) (facts : TensorFacts)
deriving DecidableEq, Repr

def FactMismatch.message : FactMismatch → String
  | .rank r known => "rank " ++ toString r ++ " does not match inferred shape " ++ known.text
  | .shape sizes known expected =>
    let details := match expected with
      | some (size, dim) => " (expected size " ++ toString size ++ " for " ++ toString dim ++ ")"
      | none => ""
    "shape " ++ countsText sizes ++ " does not match inferred shape " ++ known.text ++ details
  | .elements xs known =>
    "values " ++ bracketed (xs.map toString) ++ " do not match inferred values " ++ known.text

/-- Why a value cannot be used as an input. -/
inductive InputFault where
  | missing
  /-- There are more or fewer values than inputs. -/
  | count (expected actual : Nat)
  | type (expected actual : ElementType)
  | rank (expected : Nat) (shape : List Nat)
  | size (expected dim actual : Nat)
  | sizeTooLarge (size dim : Nat)
  /-- A named dimension had another size before. -/
  | unequalSizes (dim : String) (size bound : Int32)
  | facts (e : FactMismatch)
deriving DecidableEq, Repr

def InputFault.message : InputFault → String
  | .missing => "no value was provided"
  | .count expected actual =>
    "expected " ++ toString expected ++ " inputs but got " ++ toString actual
  | .type expected actual => (TypeMismatch.mk actual expected).message
  | .rank expected shape =>
    "expected " ++ toString expected ++ " dims but got shape " ++ countsText shape
  | .size expected dim actual =>
    "expected size " ++ toString expected ++ " for dim " ++ toString dim ++ " but got " ++
      toString actual
  | .sizeTooLarge n dim => "size " ++ toString n ++ " of dim " ++ toString dim ++ " is too large"
  | .unequalSizes dim n bound =>
    "dim \"" ++ dim ++ "\" has size " ++ toString n ++ " but another input has size " ++
      toString bound
  | .facts e => e.message

/-- How the result of a kernel differs from the expected one. -/
inductive ResultMismatch where
  | type (actual expected : ElementType)
  | shape (actual expected : List Nat)
  | float (index : Nat) (actual expected : Single)
  | int (index : Nat) (actual expected : Int32)
deriving DecidableEq, Repr

def ResultMismatch.message : ResultMismatch → String
  | .type actual expected =>
    "type " ++ actual.text ++ " does not match expected " ++ expected.text
  | .shape actual expected =>
    "shape " ++ countsText actual ++ " does not match expected " ++ countsText expected
  | .float i actual expected => element i actual.text expected.text
  | .int i actual expected => element i (toString actual) (toString expected)
where
  element (i : Nat) (actual expected : String) : String :=
    "element " ++ toString i ++ " is " ++ actual ++ " but expected " ++ expected

/-- Why a checked step fails although the reference implementation does not. -/
inductive CheckFault where
  | kernelFailed (e : OpError)
  | kernelOutputCount (actual expected : Nat)
  | kernelOutput (index : Nat) (e : ResultMismatch)
  | facts (output : String) (e : FactMismatch)
deriving DecidableEq, Repr

def CheckFault.message : CheckFault → String
  | .kernelFailed e => "native kernel failed: " ++ e.message
  | .kernelOutputCount actual expected =>
    "native kernel returned " ++ toString actual ++ " outputs but reference returned " ++
      toString expected
  | .kernelOutput i e => "output " ++ toString i ++ ": " ++ e.message
  | .facts output e => "output \"" ++ output ++ "\" " ++ e.message

/-- Why running a graph fails. -/
inductive RunError where
  /-- A value is given for a node that is not an input. -/
  | invalidNode
  | planning (fault : PlanningFault)
  /-- An operator failed on inputs of the given kinds. -/
  | operator (name : String) (e : OpError) (inputs : List ValueMeta)
  /-- An operator did not return as many outputs as it should. -/
  | outputCount (name : String) (returned expected : Nat)
  | input (name : String) (fault : InputFault)
  | check (name : String) (fault : CheckFault)
deriving DecidableEq, Repr

namespace RunError

/-- A short name for the kind of error. -/
def kind : RunError → String
  | .invalidNode => "NodeNotFound"
  | .planning _ => "PlanningError"
  | .operator .. | .outputCount .. => "OperatorError"
  | .input .. => "InputMismatch"
  | .check .. => "DebugMismatch"

/-- The name of the node that the error is about. -/
def nodeName? : RunError → Option String
  | .invalidNode | .planning _ => none
  | .operator name .. | .outputCount name .. | .input name _ | .check name _ => some name

def message : RunError → String
  | .invalidNode => "node ID is invalid"
  | .planning fault => fault.message
  | .operator name e inputs =>
    "operator \"" ++ name ++ "\" failed: " ++ e.message ++ ". Inputs were (" ++
      ", ".intercalate (inputs.map ValueMeta.text) ++ ")"
  | .outputCount name returned expected =>
    "operator \"" ++ name ++ "\" output mismatch: operator returned " ++ toString returned ++
      " outputs but " ++ toString expected ++ " were expected"
  | .input name fault => "input \"" ++ name ++ "\" mismatch: " ++ fault.message
  | .check name fault => "debug check failed for \"" ++ name ++ "\": " ++ fault.message

end RunError

end TensorGraph
