import TensorGraph.Graph.Outline
import TensorGraph.Mode

/-!
# Compiled functions

Compiling checks a graph, optimizes and links it. The result can be called with one value for each
input of the graph.
-/

namespace TensorGraph

/-- Why a graph cannot be compiled. -/
inductive CompileError where
  | graph (fault : PlanningFault)
  | optimize (e : OptimizeError)
  | inference (e : InferenceError)
  | link (e : LinkError)
deriving DecidableEq, Repr

namespace CompileError

/-- A short name for the kind of error. -/
def kind : CompileError → String
  | .graph _ => "Graph"
  | .optimize _ => "Optimize"
  | .inference _ => "Shape"
  | .link _ => "Link"

/-- The text of the error behind this one. -/
def cause : CompileError → String
  | .graph fault => fault.message
  | .optimize e => e.message
  | .inference e => e.message
  | .link e => e.message

def message (e : CompileError) : String :=
  match e with
  | .graph _ => "invalid graph: " ++ e.cause
  | .inference _ => "shape inference failed: " ++ e.cause
  | .optimize _ | .link _ => e.cause

end CompileError

/-- A graph that was compiled. -/
structure CompiledFunction where
  program : Program
  /-- What is known of the values of the optimized graph. -/
  facts : InferredFacts
  stats : RewriteStats
  /-- The name of the mode. -/
  mode : String

/-- Optimizes a graph for a mode. -/
def Mode.optimize (m : Mode) (level : DiagnosticLevel) (g : Graph) :
    Except OptimizeError OptimizedGraph :=
  match m.optimizer? level with
  | some optimizer => optimizer.optimize g
  | none => .ok { graph := g, stats := .ofUnchanged g, log := [] }

/-- Infers facts about an optimized graph, and links it. -/
def Mode.finish (m : Mode) (optimized : OptimizedGraph) : Except CompileError CompiledFunction := do
  let g := optimized.graph
  let facts ← (g.infer false).mapError .inference
  let program ← (m.linker.link g g.inputIds g.outputIds).mapError .link
  return { program, facts, stats := optimized.stats, mode := m.name }

/-- Compiles a graph. The messages of the optimizer come with the result. -/
def Mode.compile (m : Mode) (level : DiagnosticLevel) (g : Graph) :
    List String × Except CompileError CompiledFunction :=
  match g.validate with
  | .error fault => ([], .error (.graph fault))
  | .ok _ => match m.optimize level g with
    | .error e => ([], .error (.optimize e))
    | .ok optimized => (optimized.log, m.finish optimized)

/-! ## Binding inputs -/

namespace SymbolMap

/-- Notes the size of a dimension of an input. -/
def bindDimension (m : SymbolMap) (dim : Dimension) (index size : Nat) :
    Except InputFault SymbolMap :=
  match dim with
  | .fixed expected => if size = expected then .ok m else .error (.size expected index size)
  | .symbolic name => match Word.ofInt? size with
    | none => .error (.sizeTooLarge size index)
    | some w => match m.get? name with
      | none => .ok (m.insert name w)
      | some bound => if bound = w then .ok m else .error (.unequalSizes name w bound)

/-- Notes the sizes of an input. -/
def bindShape (m : SymbolMap) (dims : List Dimension) (shape : List Nat) :
    Except InputFault SymbolMap :=
  if dims.length ≠ shape.length then .error (.rank dims.length shape)
  else (dims.zip shape).zipIdx.foldlM (fun m ((dim, size), i) => bindDimension m dim i size) m

/-- Checks a value against the declaration of an input, and notes its sizes. -/
def bindValue (m : SymbolMap) (node : ValueNode) (v : Value) : Except InputFault SymbolMap := do
  match node.type with
  | some type => if v.type != type then throw (.type type v.type)
  | none => pure ()
  match node.shape with
  | some dims => bindShape m dims v.shape
  | none => return m

end SymbolMap

/-- Checks values against the declared inputs, and returns the sizes of named dimensions. A name has
the same size in all inputs. -/
def Program.bindInputs (p : Program) (inputs : List Value) : Except RunError SymbolMap := do
  let ids := p.inputs
  if inputs.length != ids.length then
    throw (.input "inputs" (.count ids.length inputs.length))
  (ids.zip inputs).foldlM (fun m (id, v) => match p.graph.node? id with
    | some (.value node) => (SymbolMap.bindValue m node v).mapError (.input (p.graph.nodeName id))
    | _ => .ok m) .empty

namespace CompiledFunction

/-- The optimized graph. -/
def graph (f : CompiledFunction) : Graph := f.program.graph

def bindInputs (f : CompiledFunction) : List Value → Except RunError SymbolMap := f.program.bindInputs

/-- Runs the function on values for its inputs. -/
def call (f : CompiledFunction) (inputs : List Value) : Run :=
  match f.bindInputs inputs with
  | .error e => { trace := [], result := .error e }
  | .ok _ => f.program.run (f.program.inputs.zip inputs)

/-! ## Shapes -/

/-- The inferred shapes of the outputs. -/
def outputShapes (f : CompiledFunction) : List (Option (List Dimension)) :=
  f.program.outputs.map f.facts.dims?

/-- The shapes of the outputs for given sizes of named dimensions. Shapes of unknown rank are
`none`. -/
def resolveOutputShapes (f : CompiledFunction) (m : SymbolMap) :
    Except EvalError (List (Option (List Nat))) :=
  f.program.outputs.mapM fun id => match f.facts.get? id with
    | some facts => facts.evalShape m
    | none => .ok none

/-- The outline of the optimized graph. -/
def outline (f : CompiledFunction) : List String := f.graph.outline f.facts

end CompiledFunction

end TensorGraph
