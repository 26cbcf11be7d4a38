import TensorGraph.Graph.IdMap
import TensorGraph.Operator.Basic

/-!
# Nodes

A graph consists of operators, of constants, and of values: its inputs and what operators produce.
-/

namespace TensorGraph

/-- The size of a dimension of a value that is given when the graph runs. -/
inductive Dimension where
  | fixed (size : Nat)
  /-- A size that is known when the graph runs. Dimensions of one name have one size. -/
  | symbolic (name : String)
deriving DecidableEq, Repr

namespace Dimension

def fixed? : Dimension → Option Nat
  | .fixed size => some size
  | .symbolic _ => none

/-- The size, or the name between quotes. -/
def quoted : Dimension → String
  | .fixed size => toString size
  | .symbolic name => "\"" ++ name ++ "\""

def text : Dimension → String
  | .fixed size => toString size
  | .symbolic name => name

end Dimension

/-- The text of a shape, with names between quotes. -/
def dimensionsText (dims : List Dimension) : String := bracketed (dims.map Dimension.quoted)

structure OperatorNode where
  name : Option String
  inputs : List NodeId
  outputs : List NodeId
  op : Operator

/-- A tensor that is known when the graph is built. -/
structure ConstantNode where
  name : Option String
  value : Value
deriving DecidableEq

/-- An input of the graph or the output of an operator. -/
structure ValueNode where
  name : Option String
  /-- The declared shape. -/
  shape : Option (List Dimension)
  /-- The declared element type. -/
  type : Option ElementType
deriving DecidableEq

inductive Node where
  | operator (n : OperatorNode)
  | constant (n : ConstantNode)
  | value (n : ValueNode)

namespace Node

def name? : Node → Option String
  | .operator n => n.name
  | .constant n => n.name
  | .value n => n.name

/-- The shape of a constant, or the declared shape of a value. -/
def shape? : Node → Option (List Dimension)
  | .operator _ => none
  | .constant n => some (n.value.shape.map .fixed)
  | .value n => n.shape

/-- The element type of a constant, or the declared type of a value. -/
def type? : Node → Option ElementType
  | .operator _ => none
  | .constant n => some n.value.type
  | .value n => n.type

def operator? : Node → Option OperatorNode
  | .operator n => some n
  | _ => none

def constant? : Node → Option Value
  | .constant n => some n.value
  | _ => none

/-- Whether operators can read the node. -/
def isReadable : Node → Bool
  | .operator _ => false
  | .constant _ | .value _ => true

def isValue : Node → Bool
  | .value _ => true
  | _ => false

end Node

end TensorGraph
