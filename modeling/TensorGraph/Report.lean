import TensorGraph.CompiledFunction
import TensorGraph.Text.JsonDoc

/-!
# Reports

Summaries of compiled functions and of their runs for other programs to read.
-/

namespace TensorGraph

/-- An input or output of a function. -/
structure ValueReport where
  name : String
  type : Option ElementType
  shape : Option (List Dimension)
  /-- The shape for given sizes of named dimensions. -/
  resolvedShape : Option (List Nat)

/-- A run of a function. -/
structure RunReport where
  outputs : List Value
  timing : RunTiming

structure Report where
  expr : String
  mode : String
  inputs : List ValueReport
  outputs : List ValueReport
  stats : RewriteStats
  /-- The steps: number and name of the operator, and strategy. -/
  steps : List (NodeId × String × Strategy)
  run : Option RunReport := none

namespace CompiledFunction

def valueReport (f : CompiledFunction) (id : NodeId) (resolvedShape : Option (List Nat)) :
    ValueReport :=
  let node := f.graph.node? id
  { name := f.graph.nodeName id
    type := f.facts.type? id <|> node.bind Node.type?
    shape := f.facts.dims? id <|> node.bind Node.shape?
    resolvedShape }

/-- The report about a function for a formula. If sizes of named dimensions are given, the shapes of
the outputs are resolved, unless one of them cannot be. -/
def report (f : CompiledFunction) (expr : String) (symbols : Option SymbolMap) : Report :=
  let resolved := (symbols.bind fun m => (f.resolveOutputShapes m).toOption).getD
    (f.program.outputs.map fun _ => none)
  { expr, mode := f.mode, stats := f.stats
    inputs := f.program.inputs.map fun id => f.valueReport id none
    outputs := (f.program.outputs.zip resolved).map fun (id, shape) => f.valueReport id shape
    steps := f.program.steps.map fun s => (s.id, s.node.op.name, s.strategy) }

end CompiledFunction

/-- The list of some counts. -/
def countsDoc (counts : List Nat) : JsonDoc := .array (counts.map .count)

def ValueReport.toDoc (r : ValueReport) : JsonDoc :=
  let type := match r.type with
    | some type => .string type.text
    | none => .null
  let shape := match r.shape with
    | some dims => .array (dims.map fun d => .string d.text)
    | none => .null
  let resolved := match r.resolvedShape with
    | some sizes => [("resolved_shape", countsDoc sizes)]
    | none => []
  .object ([("name", .string r.name), ("dtype", type), ("shape", shape)] ++ resolved)

/-- A number of nanoseconds as milliseconds. -/
def millisecondsDoc (nanoseconds : Nat) : JsonDoc :=
  let zeros := ((toString nanoseconds).toList.reverse.takeWhile (· == '0')).length
  let dropped := min 5 (if nanoseconds = 0 then 5 else zeros)
  .number (pointText (6 - dropped) (nanoseconds / Nat.pow 10 dropped))

/-- A float as it is written by default. -/
def floatDoc (x : Single) : JsonDoc := if x.isFinite then .number x.jsonText else .null

/-- The document about a run, with elements written by the given function. Integers are written like
floats. -/
def RunReport.toDoc (element : Single → JsonDoc) (r : RunReport) : JsonDoc :=
  let output (v : Value) : JsonDoc := .object
    [("shape", countsDoc v.shape), ("dtype", .string v.type.text),
      ("data", .array (v.toFloats.data.toList.map element))]
  .object
    [("outputs", .array (r.outputs.map output)), ("total_ms", millisecondsDoc r.timing.total),
      ("op_times_ms", .array ((r.timing.byOperator .byTime).map fun (name, ns) =>
        .array [.string name, millisecondsDoc ns]))]

namespace Report

def statsDoc (s : RewriteStats) : JsonDoc := .object
  [("rewrites", .object (s.sortedRewrites.map fun (rule, n) => (rule, .count n))),
    ("rejected", .count s.rejected), ("pruned", .count s.pruned),
    ("nodes_before", .count s.nodesBefore), ("nodes_after", .count s.nodesAfter),
    ("operators_before", .count s.operatorsBefore), ("operators_after", .count s.operatorsAfter)]

/-- The document, with elements written by the given function. -/
def toDoc (element : Single → JsonDoc) (r : Report) : JsonDoc :=
  let step : NodeId × String × Strategy → JsonDoc := fun (id, op, strategy) => .object
    [("id", .count id), ("op", .string op), ("strategy", .string strategy.text)]
  let run := match r.run with
    | some run => [("run", run.toDoc element)]
    | none => []
  .object ([("expr", .string r.expr), ("mode", .string r.mode),
    ("inputs", .array (r.inputs.map ValueReport.toDoc)),
    ("outputs", .array (r.outputs.map ValueReport.toDoc)),
    ("optimizer", statsDoc r.stats), ("steps", .array (r.steps.map step))] ++ run)

end Report

end TensorGraph
