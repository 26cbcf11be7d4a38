import TensorGraph.Graph.Basic

/-!
# Sketches of graphs

A sketch is a list of expressions, each of which can refer to earlier ones by their position. An
expression that is referred to from several places is computed once. `Sketch.graph` turns chosen
expressions into a graph.
-/

namespace TensorGraph

/-- The position of an expression in a sketch. -/
abbrev ExprId := Nat

inductive SketchExpr where
  /-- A value that is given when the graph runs. -/
  | value (name : String) (shape : Option (List Dimension)) (type : Option ElementType)
  | constant (v : Value)
  /-- An operator applied to all results of the inputs. -/
  | operator (op : Operator) (inputs : List ExprId)
  /-- One output of an operator. -/
  | output (op : ExprId) (index : Nat)

/-- A list of expressions. -/
structure Sketch where
  exprs : Array SketchExpr := #[]

namespace Sketch

def expr? (s : Sketch) (id : ExprId) : Option SketchExpr := s.exprs[id]?

/-- Adds an expression. -/
def push (s : Sketch) (e : SketchExpr) : ExprId × Sketch := (s.exprs.size, ⟨s.exprs.push e⟩)

/-- Adds the application of a scalar function. -/
def pushScalar (s : Sketch) (fn : ScalarFn) (inputs : List ExprId) : ExprId × Sketch :=
  s.push (.operator (.elementwise { fn }) inputs)

/-- The number of values that an operator makes in a graph, at least one. -/
def outputCount (op : Operator) : Nat := max op.numOutputs 1

/-- Adds an expression for one output of an operator, if there is such an output. -/
def pushOutput? (s : Sketch) (id : ExprId) (index : Nat) : Option (ExprId × Sketch) :=
  match s.expr? id with
  | some (.operator op _) => if index < outputCount op then some (s.push (.output id index)) else none
  | _ => none

/-! ## Turning sketches into graphs -/

/-- A graph that is being built, the names in use, and the nodes of the expressions in it. -/
structure Builder where
  graph : Graph := {}
  usedNames : List String := []
  built : List (ExprId × List NodeId) := []

/-- A name that is not in use: the given one, or it with a number. -/
def Builder.freshName (b : Builder) (stem : String) : String × Builder :=
  let candidate (i : Nat) := if i = 0 then stem else stem ++ "_" ++ toString i
  let free := ((List.range (b.usedNames.length + 1)).map candidate).find? (!b.usedNames.contains ·)
  let name := free.getD stem
  (name, { b with usedNames := name :: b.usedNames })

/-- Adds an operator and values for its outputs. -/
def Builder.addOperator (b : Builder) (op : Operator) (inputs : List NodeId) :
    List NodeId × Builder :=
  let (name, b) := b.freshName op.name
  let (outputs, b) := (List.range (outputCount op)).foldl (fun (outputs, b) _ =>
    let (outputName, b) := Builder.freshName b (name ++ "_out")
    let (graph, id) := b.graph.addValue (some outputName) none none
    (outputs ++ [id], { b with graph })) ([], b)
  (outputs, { b with graph := (b.graph.addOperator (some name) op inputs outputs).1 })

/-- Adds the nodes of an expression, unless they are there already, and returns those that hold its
results. The first argument is larger than the expression's position. -/
def addExpr (s : Sketch) : Nat → ExprId → Builder → List NodeId × Builder
  | 0, _, b => ([], b)
  | bound + 1, id, b =>
    match b.built.lookup id with
    | some ids => (ids, b)
    | none =>
      let (ids, b) := match s.expr? id with
        | none => ([], b)
        | some (.value name shape type) =>
          let (name, b) := b.freshName name
          let (graph, node) := b.graph.addValue (some name) shape type
          ([node], { b with graph })
        | some (.constant v) =>
          let (name, b) := b.freshName "const"
          let (graph, node) := b.graph.addConstant (some name) v
          ([node], { b with graph })
        | some (.operator op inputs) =>
          let (inputs, b) := inputs.foldl (fun (ids, b) input =>
            let (more, b) := s.addExpr bound input b
            (ids ++ more, b)) ([], b)
          b.addOperator op inputs
        | some (.output op index) =>
          let (ids, b) := s.addExpr bound op b
          ((ids[index]?).toList, b)
      (ids, { b with built := (id, ids) :: b.built })

/-- Adds several expressions and lists the nodes that hold their results, each once. -/
def addExprs (s : Sketch) (ids : List ExprId) (b : Builder) : List NodeId × Builder :=
  ids.foldl (fun (nodes, b) id =>
    let (more, b) := s.addExpr s.exprs.size id b
    (more.foldl (fun nodes n => if nodes.contains n then nodes else nodes ++ [n]) nodes, b)) ([], b)

/-- The graph that computes the outputs from the inputs. Inputs are added first, so that they keep
their names. -/
def graph (s : Sketch) (inputs outputs : List ExprId) : Graph :=
  let (inputIds, b) := s.addExprs inputs {}
  let (outputIds, b) := s.addExprs outputs b
  (b.graph.setInputs inputIds).setOutputs outputIds

/-- The graph that computes one expression, whose inputs are the values with the given names. Names
that do not appear are left out. -/
def graphOfNames (s : Sketch) (names : List String) (output : ExprId) : Graph :=
  let (outputIds, b) := s.addExpr s.exprs.size output {}
  (b.graph.setInputs (names.filterMap b.graph.find?)).setOutputs outputIds

end Sketch

end TensorGraph
