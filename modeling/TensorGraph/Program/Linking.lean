import TensorGraph.Graph.Infer
import TensorGraph.Graph.Plan

/-!
# Linking

A linker binds the operators of a graph to implementations. The result is a program: steps in the
order of an execution plan.
-/

namespace TensorGraph

/-- How a step is executed. -/
inductive Strategy where
  /-- By the reference implementation. -/
  | interpreted
  /-- By the kernel. -/
  | native
  /-- By both, whose results are compared. -/
  | checked
deriving DecidableEq, Repr

namespace Strategy

def text : Strategy → String
  | .interpreted => "interpreted"
  | .native => "native"
  | .checked => "checked"

end Strategy

/-- The implementation of a step. -/
inductive Implementation where
  | interpreted
  | native (k : Kernel)
  /-- The reference implementation, compared with the kernel if there is one. -/
  | checked (k : Option Kernel)

/-- An operator node that is bound to an implementation. -/
structure Step where
  id : NodeId
  node : OperatorNode
  impl : Implementation

namespace Step

def strategy (s : Step) : Strategy :=
  match s.impl with
  | .interpreted => .interpreted
  | .native _ => .native
  | .checked _ => .checked

/-- Whether the step may overwrite an input. Checked steps need their inputs twice. -/
def mayRunInPlace (s : Step) : Bool :=
  match s.impl with
  | .interpreted => s.node.op.canRunInPlace
  | .native k => k.inPlace
  | .checked _ => false

/-- Runs the chosen implementation, and the reference implementation of checked steps. -/
def run (s : Step) (inputs : List Value) : OpResult (List Value) :=
  match s.impl with
  | .native k => k.run inputs
  | .interpreted | .checked _ => s.node.op.run inputs

/-- Runs the chosen implementation and overwrites the first input. -/
def runInPlace (s : Step) (first : Value) (rest : List Value) : OpResult Value :=
  match s.impl with
  | .native k => k.runInPlace first rest
  | .interpreted | .checked _ => s.node.op.runInPlace first rest

end Step

/-- Chooses implementations. -/
inductive Linker where
  /-- Uses reference implementations. -/
  | interpreted
  /-- Uses kernels. Operators without one cannot be linked. -/
  | native
  /-- Uses kernels where there are any. Values are freed as soon as they are not needed any more,
  if `frees` holds. -/
  | hybrid (frees : Bool)
  /-- Compares both implementations, and shapes with inferred ones. -/
  | debug
deriving DecidableEq, Repr

/-- Why a graph cannot be linked. -/
inductive LinkError where
  | noKernel (node op : String)
  | planning (fault : PlanningFault)
  | inference (e : InferenceError)
deriving DecidableEq, Repr

namespace LinkError

/-- A short name for the kind of error. -/
def kind : LinkError → String
  | .noKernel .. => "NoNativeKernel"
  | .planning _ => "Planning"
  | .inference _ => "Shape"

/-- The text of the error behind this one. -/
def cause? : LinkError → Option String
  | .noKernel .. => none
  | .planning fault => some fault.message
  | .inference e => some e.message

def message : LinkError → String
  | .noKernel node op => "no native kernel for operator " ++ op ++ " (node \"" ++ node ++ "\")"
  | .planning fault => "link failed: " ++ fault.message
  | .inference e => "link failed: " ++ e.message

end LinkError

/-- A graph that is ready to run. -/
structure Program where
  graph : Graph
  inputs : List NodeId
  outputs : List NodeId
  steps : List Step
  /-- Whether values are freed as soon as they are not needed any more. -/
  frees : Bool
  /-- What values are checked against while the program runs. -/
  facts : Option InferredFacts

def Program.strategies (p : Program) : List (NodeId × Strategy) :=
  p.steps.map fun s => (s.id, s.strategy)

namespace Linker

def name : Linker → String
  | .interpreted => "interpreted"
  | .native => "native"
  | .hybrid true => "hybrid"
  | .hybrid false => "hybrid_nogc"
  | .debug => "debug"

def all : List Linker := [.interpreted, .native, .hybrid true, .hybrid false, .debug]

def ofName? (name : String) : Option Linker := all.find? (·.name == name)

def frees : Linker → Bool
  | .hybrid frees => frees
  | _ => true

/-- Whether programs check values against what is inferred about them. -/
def checksFacts : Linker → Bool
  | .debug => true
  | _ => false

/-- Chooses the implementation of an operator, if there is a suitable one. -/
def implementation? (linker : Linker) (op : Operator) : Option Implementation :=
  match linker with
  | .interpreted => some .interpreted
  | .native => op.kernel?.map .native
  | .hybrid _ => some ((op.kernel?.map .native).getD .interpreted)
  | .debug => some (.checked op.kernel?)

/-- Binds an operator node. -/
def bind (linker : Linker) (g : Graph) (id : NodeId) (node : OperatorNode) : Except LinkError Step :=
  match linker.implementation? node.op with
  | some impl => .ok { id, node, impl }
  | none => .error (.noKernel (g.nodeName id) node.op.name)

/-- The program that computes `outputs` from `inputs`. -/
def link (linker : Linker) (g : Graph) (inputs outputs : List NodeId) : Except LinkError Program := do
  let plan ← (g.executionPlan inputs outputs).mapError .planning
  let nodes := plan.filterMap fun id => (g.operator? id).map (id, ·)
  let steps ← nodes.mapM fun (id, node) => linker.bind g id node
  let facts ←
    if linker.checksFacts then do pure (some (← (g.infer false).mapError .inference))
    else pure none
  return { graph := g, inputs, outputs, steps, frees := linker.frees, facts }

end Linker

end TensorGraph
