import TensorGraph.Graph.Basic

/-!
# Patterns

A pattern describes the part of a graph that computes a value: operators by their names, constants,
and symbols that stand for any value. Matching binds symbols and named operators to nodes. The
inputs of a commutative operator with two inputs match in either order.
-/

namespace TensorGraph

inductive Pattern where
  /-- The output of an operator with the given name. If there is a key, the operator is bound to
  it. -/
  | operator (name : String) (inputs : List Pattern) (key : Option String)
  /-- A constant of one element, up to a small difference. -/
  | constant (x : Single)
  /-- Any value, or only a constant. Symbols of one name stand for one node. -/
  | symbol (name : String) (constantOnly : Bool)
deriving Repr, Inhabited

/-- The nodes that names are bound to, in the order of binding. -/
abbrev Bindings := List (String × NodeId)

namespace Pattern

/-- A symbol that stands for any value. -/
def any (name : String) : Pattern := .symbol name false

def unary (name : String) (x : Pattern) : Pattern := .operator name [x] none

def binary (name : String) (a b : Pattern) : Pattern := .operator name [a, b] none

/-- Gives a name to an operator or symbol. Constants have no names. -/
def named (name : String) : Pattern → Pattern
  | .operator op inputs _ => .operator op inputs (some name)
  | .symbol _ constantOnly => .symbol name constantOnly
  | .constant x => .constant x

/-- How much a constant may differ from the one in a pattern. -/
def tolerance : Single := .ofDecimal 1 (-4)

def constantMatches (x : Single) (v : Value) : Bool :=
  v.asScalar?.any fun y => (y.sub x).abs.le tolerance

/-- The operator that a node is, or whose output it is. -/
def operatorAt? (g : Graph) (id : NodeId) : Option (NodeId × OperatorNode) :=
  match g.node? id with
  | some (.operator op) => some (id, op)
  | some (.value _) => g.producer? id
  | _ => none

def bindSymbol (g : Graph) (id : NodeId) (b : Bindings) (name : String) (constantOnly : Bool) :
    Option Bindings :=
  if !g.isReadable id || (constantOnly && (g.constant? id).isNone) then none
  else match b.lookup name with
    | some bound => if bound = id then some b else none
    | none => some (b ++ [(name, id)])

mutual

/-- Matches a pattern with a node, and extends the bindings. -/
def matchNode (g : Graph) (id : NodeId) (b : Bindings) : Pattern → Option Bindings
  | .constant x => if (g.constant? id).any (constantMatches x) then some b else none
  | .symbol name constantOnly => bindSymbol g id b name constantOnly
  | .operator name inputs key => do
    let (opId, op) ← operatorAt? g id
    if op.op.name != name || inputs.length != op.inputs.length then none
    let b ←
      if op.op.isCommutative && inputs.length == 2 then
        matchForward g op.inputs b inputs <|> matchBackward g op.inputs.reverse b inputs
      else matchForward g op.inputs b inputs
    return match key with
      | some key => b ++ [(key, opId)]
      | none => b

/-- Matches patterns with nodes, first to last. -/
def matchForward (g : Graph) : List NodeId → Bindings → List Pattern → Option Bindings
  | id :: ids, b, p :: ps => do
    let b ← p.matchNode g id b
    matchForward g ids b ps
  | _, b, _ => some b

/-- Matches patterns with nodes, last to first. -/
def matchBackward (g : Graph) : List NodeId → Bindings → List Pattern → Option Bindings
  | id :: ids, b, p :: ps => do
    let b ← matchBackward g ids b ps
    p.matchNode g id b
  | _, b, _ => some b

end

/-- The bindings under which a pattern describes how a node is computed. -/
def match? (p : Pattern) (g : Graph) (id : NodeId) : Option Bindings := p.matchNode g id []

/-- The bindings of the first pattern of a list that matches. -/
def firstMatch? (ps : List Pattern) (g : Graph) (id : NodeId) : Option Bindings :=
  ps.findSome? (·.match? g id)

end Pattern

end TensorGraph
