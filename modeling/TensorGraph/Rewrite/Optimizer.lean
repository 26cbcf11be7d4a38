import TensorGraph.Graph.Order
import TensorGraph.Rewrite.Admission
import TensorGraph.Rewrite.Diagnostics
import TensorGraph.Rewrite.RuleSet
import TensorGraph.Rewrite.Stats

/-!
# Optimizing graphs

In each phase the selected rules are tried at every operator in topological order, again and again
until none applies or the limit of iterations is reached. Unused nodes are removed in between.
-/

namespace TensorGraph

/-- Why a graph cannot be optimized. -/
inductive OptimizeError where
  | graph (fault : PlanningFault)
  | inference (e : InferenceError)
deriving DecidableEq, Repr

namespace OptimizeError

/-- A short name for the kind of error. -/
def kind : OptimizeError → String
  | .graph _ => "Graph"
  | .inference _ => "Shape"

/-- The text of the error behind this one. -/
def cause : OptimizeError → String
  | .graph fault => fault.message
  | .inference e => e.message

def message (e : OptimizeError) : String := "optimization failed: " ++ e.cause

end OptimizeError

/-- The graph that is being optimized, and what was done so far. -/
structure RewriteState where
  graph : Graph
  diagnostics : Diagnostics
  stats : RewriteStats := {}
  /-- How many rewrites each rule has proposed. -/
  proposed : List (String × Nat) := []
  /-- Whether a rewrite was applied in the current iteration. -/
  changed : Bool := false

namespace RewriteState

def warn (s : RewriteState) (id : NodeId) (message : String) : RewriteState :=
  { s with diagnostics := s.diagnostics.warn s.graph id message }

def countProposal (s : RewriteState) (rule : String) : RewriteState :=
  { s with proposed := countUp s.proposed rule }

def reject (s : RewriteState) (rule : String) (id : NodeId) (fault : RewriteFault) : RewriteState :=
  let s := s.warn id (rule ++ " rejected: " ++ fault.message)
  { s with stats := { s.stats with rejected := s.stats.rejected + 1 } }

def apply (s : RewriteState) (rule : String) (id : NodeId) (r : Rewrite) (removed : List NodeId) :
    RewriteState :=
  { s with
    diagnostics := s.diagnostics.info s.graph id ("applied " ++ rule)
    graph := r.apply s.graph removed
    stats := { s.stats with rewrites := countUp s.stats.rewrites rule }
    changed := true }

/-- Removes unused nodes. -/
def prune (s : RewriteState) : RewriteState :=
  let (graph, n) := s.graph.prune
  { s with graph, stats := { s.stats with pruned := s.stats.pruned + n } }

/-- Whether a rule may propose a further rewrite. -/
def mayPropose (s : RewriteState) (rule : RewriteRule) : Bool :=
  rule.limit.all fun limit => (s.proposed.lookup rule.name).getD 0 < limit

/-- Asks the rules one after the other about an operator, and applies the first rewrite that is not
rejected. -/
def ask (facts : InferredFacts) (id : NodeId) (op : OperatorNode) :
    List RewriteRule → RewriteState → RewriteState
  | [], s => s
  | rule :: rules, s =>
    if !s.mayPropose rule then ask facts id op rules s
    else match rule.propose { graph := s.graph, facts } id op with
      | .skip => ask facts id op rules s
      | .warning message => ask facts id op rules (s.warn id message)
      | .rewrite r =>
        let s := s.countProposal rule.name
        match r.check s.graph with
        | .ok removed => s.apply rule.name id r removed
        | .error fault => ask facts id op rules (s.reject rule.name id fault)

/-- Looks at one operator, unless an earlier rewrite removed it or made it unused. -/
def visit (rules : List RewriteRule) (facts : InferredFacts) (s : RewriteState) (id : NodeId) :
    RewriteState :=
  match s.graph.operator? id with
  | none => s
  | some op =>
    if RewriteView.isUnused { graph := s.graph, facts } op then s else ask facts id op rules s

/-- Looks at all operators once. -/
def sweep (rules : List RewriteRule) (s : RewriteState) : Except OptimizeError RewriteState := do
  let facts ← (s.graph.infer false).mapError .inference
  let order ← s.graph.topologicalOrder.mapError .graph
  return order.foldl (visit rules facts) { s with changed := false }

/-- Looks at all operators again and again until nothing changes, and counts how often. The first
argument is the limit of iterations. -/
def sweepAll (rules : List RewriteRule) :
    Nat → RewriteState → Except OptimizeError (Nat × RewriteState)
  | 0, s => .ok (0, s)
  | bound + 1, s => do
    let s ← s.sweep rules
    if s.changed then
      let (n, s) ← sweepAll rules bound s.prune
      return (n + 1, s)
    else return (1, s)

/-- Runs one phase, unless it has no rules. -/
def runPhase (rules : List RewriteRule) (bound : Nat) (s : RewriteState) (phase : Phase) :
    Except OptimizeError RewriteState := do
  let rules := rules.filter (·.phases.contains phase)
  if rules.isEmpty then return s
  let (n, s) ← s.sweepAll rules bound
  return { s with stats := { s.stats with iterations := s.stats.iterations ++ [(phase, n)] } }.prune

end RewriteState

/-- Applies the rules that a query selects. -/
structure Optimizer where
  rules : RuleSet
  query : RuleQuery
  /-- The limit of iterations of each phase. -/
  maxIterations : Nat := 10
  level : DiagnosticLevel := .off

/-- A graph after optimization. -/
structure OptimizedGraph where
  graph : Graph
  stats : RewriteStats
  /-- The messages about rewrites. -/
  log : List String

namespace Optimizer

def selected (o : Optimizer) : List RewriteRule := o.rules.select o.query

/-- Optimizes a graph. Its inputs stay, while its outputs may become other values. -/
def optimize (o : Optimizer) (g : Graph) : Except OptimizeError OptimizedGraph := do
  g.validate.mapError .graph
  let start : RewriteState :=
    { graph := g, diagnostics := { level := o.level }
      stats := { nodesBefore := g.nodeCount, operatorsBefore := g.operatorCount } }
  let s ← Phase.all.foldlM (RewriteState.runPhase o.selected (max o.maxIterations 1)) start
  return {
    graph := s.graph
    stats := { s.stats with
      nodesAfter := s.graph.nodeCount, operatorsAfter := s.graph.operatorCount }
    log := s.diagnostics.lines }

end Optimizer

end TensorGraph
