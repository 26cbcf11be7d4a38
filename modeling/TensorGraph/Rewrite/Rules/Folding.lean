import TensorGraph.Rewrite.Basic

/-!
# Folding and merging

Operators whose inputs are constants run once, when the graph is optimized, and equal computations
are done once.
-/

namespace TensorGraph.Rules

/-- The largest number of elements of a constant that folding creates. -/
def maxFoldedSize : Nat := Nat.pow 2 20

/-- Evaluates an operator whose inputs are all constants. If it fails, it will fail again when the
graph runs. -/
def foldConstants (v : RewriteView) (op : OperatorNode) : Proposal :=
  if !op.op.isDeterministic || op.inputs.isEmpty then .skip
  else match op.singleOutput?, op.inputs.mapM v.constant? with
    | some output, some inputs => match op.op.run inputs with
      | .ok (x :: _) => if maxFoldedSize < x.size then .skip else .rewrite (.constant output x)
      | .ok [] => .skip
      | .error e => .warning ("constant folding failed: " ++ e.message)
    | _, _ => .skip

def constantFolding : RewriteRule where
  name := "constant_folding"
  tags := ["fast_run", "fast_compile", "canonicalize"]
  phases := [.canonicalize, .specialize]
  propose := fun v _ op => foldConstants v op

/-- The first constant that is older than the given one and equal to it. -/
def olderEqual? (v : RewriteView) (id : NodeId) : Option NodeId := do
  let x ← v.constant? id
  (v.graph.ids.takeWhile (· < id)).find? fun other => (v.constant? other).any (·.eq x)

/-- An older operator that computes the same outputs from the same inputs. -/
def olderSame? (v : RewriteView) (id : NodeId) (op : OperatorNode) : Option OperatorNode := do
  if !op.op.isDeterministic then none
  let consumers := v.consumers (← op.inputs.head?)
  (consumers.filter (· < id)).findSome? fun otherId => do
    let other ← v.graph.operator? otherId
    if other.inputs == op.inputs && other.outputs.length == op.outputs.length &&
        op.op.sameAs other.op then some other
    else none

/-- Uses an older constant for an input, or the outputs of an older operator. -/
def mergeEqual (v : RewriteView) (id : NodeId) (op : OperatorNode) : Option Rewrite :=
  match op.inputs.findSome? fun input => (olderEqual? v input).map (input, ·) with
  | some pair => some (.alias [pair])
  | none => (olderSame? v id op).map fun other => .alias (op.outputs.zip other.outputs)

def merge : RewriteRule where
  name := "merge"
  tags := ["fast_run", "fast_compile"]
  phases := [.canonicalize, .specialize]
  propose := fun v id op => .ofOption (mergeEqual v id op)

end TensorGraph.Rules
