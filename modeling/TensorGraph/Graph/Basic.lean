import TensorGraph.Graph.Node

/-!
# Graphs

A dataflow graph of operators and of the values that they read and produce. Nodes are numbered in
the order in which they are added, and the numbers of removed nodes are not used again. Beside its
nodes a graph keeps, for every value, its producer and its consumers. Pruning removes the nodes on
which no output of the graph depends; inputs of the graph stay.
-/

namespace TensorGraph

structure Graph where
  /-- The nodes by number; removed nodes are `none`. -/
  nodes : Array (Option Node) := #[]
  inputIds : List NodeId := []
  outputIds : List NodeId := []
  /-- The operator that produces a value. -/
  sources : IdMap NodeId := {}
  /-- The operators that read a value, in the order in which they were added, each once for every
  input that is the value. -/
  consumers : IdMap (List NodeId) := {}
  /-- The node that a name was last given to. -/
  names : List (String × NodeId) := []

namespace Graph

instance : Inhabited Graph := ⟨{}⟩

def empty : Graph := {}

/-! ## Looking at a graph -/

def node? (g : Graph) (id : NodeId) : Option Node := (g.nodes[id]?).join

def operator? (g : Graph) (id : NodeId) : Option OperatorNode := (g.node? id).bind Node.operator?

/-- The value of a constant. -/
def constant? (g : Graph) (id : NodeId) : Option Value := (g.node? id).bind Node.constant?

/-- Whether the number is that of a value or constant. -/
def isReadable (g : Graph) (id : NodeId) : Bool := (g.node? id).any Node.isReadable

/-- Whether the number is that of a value. -/
def isValue (g : Graph) (id : NodeId) : Bool := (g.node? id).any Node.isValue

/-- The node with the given name that was added last. -/
def find? (g : Graph) (name : String) : Option NodeId :=
  (g.names.lookup name).filter fun id => (g.node? id).isSome

/-- The name of a node, or a text made from its number. -/
def nodeName (g : Graph) (id : NodeId) : String :=
  ((g.node? id).bind Node.name?).getD ("[ID: " ++ toString id ++ "]")

/-- The numbers of the nodes, in the order in which they were added. -/
def ids (g : Graph) : List NodeId :=
  (List.range g.nodes.size).filter fun id => (g.node? id).isSome

def operatorIds (g : Graph) : List NodeId := g.ids.filter fun id => (g.operator? id).isSome

def constantIds (g : Graph) : List NodeId := g.ids.filter fun id => (g.constant? id).isSome

/-- The operators and their numbers, in the order in which they were added. -/
def operators (g : Graph) : List (NodeId × OperatorNode) :=
  g.ids.filterMap fun id => (g.operator? id).map (id, ·)

def nodeCount (g : Graph) : Nat := g.ids.length

def operatorCount (g : Graph) : Nat := g.operatorIds.length

/-- The number of the operator that produces a value. -/
def source? (g : Graph) (value : NodeId) : Option NodeId :=
  (g.sources.get? value).filter fun id => (g.operator? id).isSome

/-- The operator that produces a value, and its number. -/
def producer? (g : Graph) (value : NodeId) : Option (NodeId × OperatorNode) := do
  let id ← g.source? value
  return (id, ← g.operator? id)

/-- The operators that read a value, each once for every input that is the value. -/
def consumersOf (g : Graph) (value : NodeId) : List NodeId := (g.consumers.get? value).getD []

/-! ## Changing a graph -/

/-- Says that an operator reads a value. -/
def addConsumer (g : Graph) (value op : NodeId) : Graph :=
  { g with consumers := g.consumers.insert value (g.consumersOf value ++ [op]) }

def setNode (g : Graph) (id : NodeId) (node : Option Node) : Graph :=
  { g with nodes := g.nodes.setIfInBounds id node }

/-- Adds a node without edges. -/
def addNode (g : Graph) (node : Node) : Graph × NodeId :=
  let id := g.nodes.size
  let names := match node.name? with
    | some name => (name, id) :: g.names.filter (·.1 != name)
    | none => g.names
  ({ g with nodes := g.nodes.push (some node), names }, id)

def addValue (g : Graph) (name : Option String) (shape : Option (List Dimension))
    (type : Option ElementType) : Graph × NodeId :=
  g.addNode (.value { name, shape, type })

def addConstant (g : Graph) (name : Option String) (value : Value) : Graph × NodeId :=
  g.addNode (.constant { name, value })

/-- Adds an operator that reads and produces existing nodes. -/
def addOperator (g : Graph) (name : Option String) (op : Operator) (inputs outputs : List NodeId) :
    Graph × NodeId :=
  let (g, id) := g.addNode (.operator { name, inputs, outputs, op })
  let g := { g with sources := outputs.foldl (fun m value => m.insert value id) g.sources }
  (inputs.foldl (fun g value => g.addConsumer value id) g, id)

/-- Adds an operator together with values for its outputs, which are named after it. The result is
the first of these values. -/
def addSimpleOperator (g : Graph) (name : String) (op : Operator) (inputs : List NodeId) :
    Graph × NodeId :=
  let outputName (i : Nat) := name ++ "_out" ++ if i = 0 then "" else "_" ++ toString i
  let (g, outputs) := (List.range (max op.numOutputs 1)).foldl
    (fun (g, outputs) i =>
      let (g, id) := g.addValue (some (outputName i)) none none
      (g, outputs ++ [id]))
    (g, [])
  ((g.addOperator (some name) op inputs outputs).1, outputs.headD 0)

def setInputs (g : Graph) (ids : List NodeId) : Graph := { g with inputIds := ids }

def setOutputs (g : Graph) (ids : List NodeId) : Graph := { g with outputIds := ids }

/-- Removes one node, its name and the edges that start at it. -/
def removeNode (g : Graph) (id : NodeId) : Graph :=
  match g.node? id with
  | none => g
  | some node =>
    let g := g.setNode id none
    let g := match node.name? with
      | some name =>
        if g.names.lookup name = some id then
          { g with names := g.names.filter (·.1 != name) }
        else g
      | none => g
    match node with
    | .operator n =>
      let drop (m : IdMap NodeId) (value : NodeId) :=
        if m.get? value = some id then m.erase value else m
      { g with sources := n.outputs.foldl drop g.sources }
    | _ => { g with sources := g.sources.erase id, consumers := g.consumers.erase id }

/-- Removes nodes. The lists of graph inputs and outputs stay as they are. -/
def remove (g : Graph) (ids : List NodeId) : Graph :=
  let g := ids.foldl removeNode g
  let remaining := g.consumers.entries.map fun (value, ops) => (value, ops.filter (!ids.contains ·))
  { g with consumers := ⟨remaining.filter (!·.2.isEmpty)⟩ }

/-- Changes an operator node. -/
def modifyOperator (g : Graph) (id : NodeId) (f : OperatorNode → OperatorNode) : Graph :=
  match g.operator? id with
  | some n => g.setNode id (some (.operator (f n)))
  | none => g

/-- Changes a value node. -/
def modifyValue (g : Graph) (id : NodeId) (f : ValueNode → ValueNode) : Graph :=
  match g.node? id with
  | some (.value n) => g.setNode id (some (.value (f n)))
  | _ => g

/-- Uses `new` in place of `old` in the inputs of operators and in the outputs of the graph. -/
def replaceValue (g : Graph) (old new : NodeId) : Graph :=
  if old = new then g
  else
    let swap (id : NodeId) := if id = old then new else id
    let g := { g with outputIds := g.outputIds.map swap }
    match g.consumers.get? old with
    | none => g
    | some ops =>
      let g := ops.foldl
        (fun g op => g.modifyOperator op fun n => { n with inputs := n.inputs.map swap }) g
      let consumers := g.consumers.erase old
      { g with consumers := consumers.insert new ((consumers.get? new).getD [] ++ ops) }

/-- Replaces the operator of an operator node. -/
def replaceOperator (g : Graph) (id : NodeId) (op : Operator) : Graph :=
  g.modifyOperator id fun n => { n with op }

/-- Takes back one use of a value by an operator. -/
def removeConsumer (g : Graph) (value op : NodeId) : Graph :=
  match g.consumers.get? value with
  | none => g
  | some ops =>
    let ops := ops.erase op
    { g with consumers :=
        if ops.isEmpty then g.consumers.erase value else g.consumers.insert value ops }

/-- Replaces all inputs of an operator node. -/
def replaceInputs (g : Graph) (id : NodeId) (inputs : List NodeId) : Graph :=
  match g.operator? id with
  | none => g
  | some n =>
    let g := g.modifyOperator id fun n => { n with inputs }
    let g := n.inputs.foldl (fun g value => g.removeConsumer value id) g
    inputs.foldl (fun g value => g.addConsumer value id) g

/-! ## Pruning -/

/-- Marks what the values in `pending` depend on, last value first. Pending values are marked
already. The first argument bounds the number of values that are looked at. -/
def markNeeded (g : Graph) : Nat → List NodeId → List NodeId → List NodeId
  | 0, _, marked => marked
  | _ + 1, [], marked => marked
  | bound + 1, value :: pending, marked =>
    match g.producer? value with
    | none => g.markNeeded bound pending marked
    | some (id, op) =>
      if marked.contains id then g.markNeeded bound pending marked
      else
        let (pending, marked) := op.inputs.foldl
          (fun (pending, marked) input =>
            if marked.contains input then (pending, marked)
            else (input :: pending, input :: marked))
          (pending, id :: op.outputs ++ marked)
        g.markNeeded bound pending marked

/-- The nodes that must stay: inputs and outputs, and everything that an output depends on. -/
def neededIds (g : Graph) : List NodeId :=
  let reads := total (g.operators.map fun (_, op) => op.inputs.length)
  g.markNeeded (g.outputIds.length + reads + 1) g.outputIds.reverse (g.inputIds ++ g.outputIds)

/-- Removes the nodes that are not needed, and counts them. -/
def prune (g : Graph) : Graph × Nat :=
  let needed := g.neededIds
  let unneeded := g.ids.filter (!needed.contains ·)
  (g.remove unneeded, unneeded.length)

end Graph

end TensorGraph
