import TensorGraph.Graph.Plan
import TensorGraph.Rewrite.Basic

/-!
# Applying rewrites

A rewrite is checked against the graph before it is applied, since any rule may propose anything.
`Rewrite.check` says why a rewrite is rejected, and `Rewrite.apply` changes the graph.
-/

namespace TensorGraph

/-- Why a rewrite is rejected. -/
inductive RewriteFault where
  | fusionWithoutOutputs
  /-- The outputs of a fusion cannot be computed from its inputs. -/
  | fusionNotPlanned (fault : PlanningFault)
  | fusionOfNothing
  /-- A value that a fusion would no longer compute is a graph output. -/
  | intermediateIsOutput (value : String)
  /-- A value that a fusion would no longer compute is read elsewhere. -/
  | intermediateIsRead (value : String)
  | aliasOfItself
  | aliasOfNoValue
  | graphInputReplaced (input : String)
  | duplicateOutput (output : String)
  | constantForNoResult
  | notAnOperator
  | invalidInput (input : String)
deriving DecidableEq, Repr

def RewriteFault.message : RewriteFault → String
  | .fusionWithoutOutputs => "fusion has no outputs"
  | .fusionNotPlanned fault => fault.message
  | .fusionOfNothing => "fusion replaces no operators"
  | .intermediateIsOutput value => "intermediate value \"" ++ value ++ "\" is a graph output"
  | .intermediateIsRead value =>
    "intermediate value \"" ++ value ++ "\" is used outside the fused subgraph"
  | .aliasOfItself => "value aliased to itself"
  | .aliasOfNoValue => "alias of a node which is not a value"
  | .graphInputReplaced input => "graph input \"" ++ input ++ "\" cannot be replaced"
  | .duplicateOutput output => "alias would duplicate graph output \"" ++ output ++ "\""
  | .constantForNoResult => "only computed values can be replaced by constants"
  | .notAnOperator => "node is not an operator"
  | .invalidInput input => "invalid input \"" ++ input ++ "\""

/-- The elements of an ascending list, each once. -/
def dedupSorted : List NodeId → List NodeId
  | a :: b :: rest => if a = b then dedupSorted (b :: rest) else a :: dedupSorted (b :: rest)
  | ids => ids

namespace Fusion

/-- Checks that the values which one of the replaced operators computes, other than the outputs of
the fusion, are needed by replaced operators only. -/
def checkIntermediates (f : Fusion) (g : Graph) (replaced : List NodeId) (op : OperatorNode) :
    Except RewriteFault Unit :=
  op.outputs.forM fun output => do
    if f.outputs.contains output then return
    if g.outputIds.contains output then throw (.intermediateIsOutput (g.nodeName output))
    if (g.consumersOf output).any (!replaced.contains ·) then
      throw (.intermediateIsRead (g.nodeName output))

/-- The operators that the fusion replaces. -/
def check (f : Fusion) (g : Graph) : Except RewriteFault (List NodeId) := do
  if f.outputs.isEmpty then throw .fusionWithoutOutputs
  let inputs := dedupSorted f.inputs.mergeSort
  match g.executionPlan inputs f.outputs with
  | .error fault => throw (.fusionNotPlanned fault)
  | .ok replaced =>
    if replaced.isEmpty then throw .fusionOfNothing
    (replaced.filterMap g.operator?).forM (f.checkIntermediates g replaced)
    return replaced

end Fusion

namespace Rewrite

/-- Checks one pair of an alias. The outputs of the graph are those after the pairs before it. -/
def checkAlias (g : Graph) (outputs : List NodeId) (pair : NodeId × NodeId) :
    Except RewriteFault (List NodeId) := do
  let (old, new) := pair
  if old = new then throw .aliasOfItself
  if !g.isReadable old || !g.isReadable new then throw .aliasOfNoValue
  if g.inputIds.contains old then throw (.graphInputReplaced (g.nodeName old))
  if outputs.contains old && outputs.contains new then throw (.duplicateOutput (g.nodeName new))
  return outputs.map fun id => if id = old then new else id

/-- Checks that a rewrite can be applied. The result is the list of operators that it removes. -/
def check (g : Graph) : Rewrite → Except RewriteFault (List NodeId)
  | .fuse f => f.check g
  | .alias pairs => do
    let _ ← pairs.foldlM (checkAlias g) g.outputIds
    return []
  | .constant id _ =>
    if !g.isValue id || g.inputIds.contains id then .error .constantForNoResult else .ok []
  | .replaceOperator id _ => if (g.operator? id).isNone then .error .notAnOperator else .ok []
  | .replaceInputs id _ inputs => do
    match g.operator? id with
    | none => throw .notAnOperator
    | some op =>
      for input in inputs do
        if !g.isReadable input || op.outputs.contains input then
          throw (.invalidInput (g.nodeName input))
      return []

/-- Applies a rewrite, given the operators that it removes. -/
def apply (g : Graph) (removed : List NodeId) : Rewrite → Graph
  | .fuse f => ((g.remove removed).addOperator f.name f.op f.inputs f.outputs).1
  | .alias pairs => pairs.foldl (fun g (old, new) => g.replaceValue old new) g
  | .constant id v =>
    let (g, new) := g.addConstant ((g.node? id).bind Node.name?) v
    g.replaceValue id new
  | .replaceOperator id op => g.replaceOperator id op
  | .replaceInputs id op inputs =>
    let g := match op with
      | some op => g.replaceOperator id op
      | none => g
    g.replaceInputs id inputs

end Rewrite

end TensorGraph
