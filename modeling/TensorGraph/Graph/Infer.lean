import TensorGraph.Graph.Order

/-!
# Shape and type inference

`Graph.infer` follows a graph in topological order and applies the shape rule of each operator to
the facts about its inputs. No operator runs.
-/

namespace TensorGraph

/-- What is known of the values of a graph. -/
structure InferredFacts where
  facts : IdMap TensorFacts := {}
  types : IdMap ElementType := {}

/-- Why inference fails. -/
inductive InferenceError where
  /-- The shape rule of an operator rejects its inputs. -/
  | rule (node : String) (e : ShapeRuleError)
  | graph (fault : PlanningFault)
deriving DecidableEq, Repr

/-- A short name for the kind of error. -/
def InferenceError.kind : InferenceError → String
  | .rule .. => "Operator"
  | .graph _ => "Graph"

/-- The text of the error behind this one. -/
def InferenceError.cause : InferenceError → String
  | .rule _ e => e.message
  | .graph fault => fault.message

def InferenceError.message : InferenceError → String
  | .rule node e => "shape inference failed for \"" ++ node ++ "\": " ++ e.message
  | .graph fault => "shape inference failed: " ++ fault.message

namespace Dimension

/-- The dimension of a given size. A compound size is named after its expression. -/
def ofSizeExpr : SizeExpr → Dimension
  | .value v => match Word.toCount? v with
    | some size => .fixed size
    | none => .symbolic (toString v)
  | .sym s => .symbolic s.name
  | e => .symbolic (toString e)

/-- The size of a dimension; fixed sizes are limited to 32 bits. -/
def sizeExpr : Dimension → SizeExpr
  | .fixed size => .value (Word.saturate size)
  | .symbolic name => .posVar name

end Dimension

namespace InferredFacts

/-- The facts about a value, unless nothing is known. -/
def get? (f : InferredFacts) (id : NodeId) : Option TensorFacts :=
  (f.facts.get? id).filter (!·.isUnknown)

def type? (f : InferredFacts) (id : NodeId) : Option ElementType := f.types.get? id

/-- The shape of a value. -/
def dims? (f : InferredFacts) (id : NodeId) : Option (List Dimension) := do
  return (← (← f.get? id).dims?).map Dimension.ofSizeExpr

/-- The shape of a value, if all sizes are known. -/
def fixedShape? (f : InferredFacts) (id : NodeId) : Option (List Nat) := do
  (← f.get? id).fixedShape?

/-- Whether two values are known to have the same shape. -/
def sameShape (f : InferredFacts) (a b : NodeId) : Bool :=
  match f.get? a, f.get? b with
  | some a, some b => a.sameShape b
  | _, _ => false

/-- The number of values of which something is known. -/
def size (f : InferredFacts) : Nat := f.facts.entries.countP fun e => !e.2.isUnknown

def isEmpty (f : InferredFacts) : Bool := f.size == 0

/-- Records the facts about a value, and its type if it is known. -/
def insert (f : InferredFacts) (id : NodeId) (facts : TensorFacts) (type : Option ElementType) :
    InferredFacts :=
  { facts := f.facts.insert id facts
    types := match type with
      | some type => f.types.insert id type
      | none => f.types }

end InferredFacts

namespace TensorFacts

/-- The longest integer vector whose elements are tracked. -/
def trackedLength : Nat := 16

/-- The facts about a constant. The elements of integer scalars and short vectors are tracked. -/
def ofValue : Value → TensorFacts
  | .ints t => match t.shape with
    | [] => .ofConstant (.scalar (t.read 0))
    | [n] => if n ≤ trackedLength then .ofConstant (.vector t.data.toList) else .ofFixedShape [n]
    | sizes => .ofFixedShape sizes
  | .floats t => .ofFixedShape t.shape

/-- The facts about a value that is only declared. -/
def ofDeclared : Option (List Dimension) → TensorFacts
  | some dims => .shape (dims.map Dimension.sizeExpr)
  | none => .unknown "no declared shape"

end TensorFacts

namespace Graph

/-- What is known before any operator is looked at: constants, and the declared shapes and types of
values without a producer. -/
def initialFacts (g : Graph) : InferredFacts :=
  g.ids.foldl (fun f id => match g.node? id with
    | some (.constant n) => f.insert id (.ofValue n.value) (some n.value.type)
    | some (.value n) =>
      if (g.source? id).isNone then f.insert id (.ofDeclared n.shape) n.type else f
    | _ => f) {}

/-- The facts about an operator's inputs. -/
def inputFacts (f : InferredFacts) (op : OperatorNode) : List TensorFacts :=
  op.inputs.map fun id => (f.facts.get? id).getD (.unknown "missing input")

/-- The facts that an operator's rule gives for its outputs; if the rule rejects the inputs there
are none, unless inference is strict. -/
def ruleFacts (g : Graph) (strict : Bool) (id : NodeId) (op : OperatorNode)
    (inputs : List TensorFacts) : ExceptT InferenceError (StateM SymbolSupply) (List TensorFacts) := do
  match ← (op.op.outputFacts inputs).run with
  | .ok outputs => pure outputs
  | .error e => if strict then throw (.rule (g.nodeName id) e) else pure []

/-- Records what is known of an operator's outputs. The declared shape and type of an output stand
in for what the operator leaves unknown. -/
def recordOutputs (g : Graph) (f : InferredFacts) (op : OperatorNode) (outputs : List TensorFacts) :
    InferredFacts :=
  let types := op.op.outputTypes (op.inputs.map f.type?)
  op.outputs.zipIdx.foldl (fun f (id, i) =>
    let node := g.node? id
    let declared := match node with
      | some (.value n) => n.shape
      | _ => none
    let facts := match outputs[i]? with
      | some t => if t.isUnknown then .ofDeclared declared else t
      | none => .ofDeclared declared
    f.insert id facts ((types[i]?).join <|> node.bind Node.type?)) f

/-- Infers the outputs of one operator. -/
def inferOperator (g : Graph) (strict : Bool) (f : InferredFacts) (id : NodeId) :
    ExceptT InferenceError (StateM SymbolSupply) InferredFacts :=
  match g.operator? id with
  | none => pure f
  | some op => return g.recordOutputs f op (← g.ruleFacts strict id op (inputFacts f op))

/-- The shapes and types of all values. -/
def infer (g : Graph) (strict : Bool) : Except InferenceError InferredFacts := do
  let order ← match g.topologicalOrder with
    | .ok order => pure order
    | .error fault => throw (.graph fault)
  ((order.foldlM (g.inferOperator strict) g.initialFacts).run.run {}).1

/-- Declares the inferred shapes and types of all values but the graph's inputs. -/
def annotate (g : Graph) (f : InferredFacts) : Graph :=
  (g.ids.filter fun id => g.isValue id && !g.inputIds.contains id).foldl
    (fun g id => g.modifyValue id fun n =>
      { n with shape := f.dims? id <|> n.shape, type := f.type? id <|> n.type }) g

end Graph

end TensorGraph
