import TensorGraph.Graph.Infer

/-!
# Rewrites

A rule looks at one operator of a graph and may propose a rewrite, which describes a change of the
graph. Rules are tagged, and belong to one or more phases of optimization.
-/

namespace TensorGraph

/-- A stage of optimization. -/
inductive Phase where
  /-- Simplify the graph. -/
  | canonicalize
  /-- Replace expressions that are numerically unstable. -/
  | stabilize
  /-- Replace groups of general operators by special ones. -/
  | specialize
  /-- Combine operators, so that the values between them are never stored. -/
  | fusion
  /-- Allow operators to overwrite their inputs. -/
  | inPlace
deriving DecidableEq, Repr

namespace Phase

/-- The phases in the order in which they run. -/
def all : List Phase := [.canonicalize, .stabilize, .specialize, .fusion, .inPlace]

def text : Phase → String
  | .canonicalize => "canonicalize"
  | .stabilize => "stabilize"
  | .specialize => "specialize"
  | .fusion => "fusion"
  | .inPlace => "inplace"

end Phase

/-- An operator that replaces those that compute `outputs` from `inputs`. -/
structure Fusion where
  name : Option String
  op : Operator
  inputs : List NodeId
  outputs : List NodeId

/-- A change of a graph. -/
inductive Rewrite where
  /-- Replace a part of the graph by one operator. -/
  | fuse (f : Fusion)
  /-- Use the second value of each pair in place of the first. -/
  | alias (pairs : List (NodeId × NodeId))
  /-- Use a constant in place of a value. -/
  | constant (id : NodeId) (v : Value)
  /-- Replace an operator, but keep its inputs and outputs. -/
  | replaceOperator (id : NodeId) (op : Operator)
  /-- Replace the inputs of an operator node, and its operator if another is given. -/
  | replaceInputs (id : NodeId) (op : Option Operator) (inputs : List NodeId)

/-- What a rule sees: a graph, and what was inferred about it when the current iteration began.
About values that were added since then nothing is known. -/
structure RewriteView where
  graph : Graph
  facts : InferredFacts

namespace RewriteView

/-- The operators that read a value, each once for every input that is the value. -/
def consumers (v : RewriteView) (value : NodeId) : List NodeId := v.graph.consumersOf value

def isGraphInput (v : RewriteView) (id : NodeId) : Bool := v.graph.inputIds.contains id

def isGraphOutput (v : RewriteView) (id : NodeId) : Bool := v.graph.outputIds.contains id

/-- The value of a constant. -/
def constant? (v : RewriteView) (id : NodeId) : Option Value := v.graph.constant? id

/-- Whether a value is known to be a float tensor. -/
def isFloat (v : RewriteView) (id : NodeId) : Bool := v.facts.type? id == some .float32

/-- The rank of a value. -/
def rank? (v : RewriteView) (id : NodeId) : Option Nat := (v.facts.get? id).bind (·.rank?)

/-- Whether a value is no graph output and is read by one operator only. -/
def usedOnlyBy (v : RewriteView) (value op : NodeId) : Bool :=
  let consumers := v.consumers value
  !v.isGraphOutput value && !consumers.isEmpty && consumers.all (· == op)

/-- Whether a value is no graph output and is read exactly once, by the given operator. -/
def hasSingleUse (v : RewriteView) (value op : NodeId) : Bool :=
  !v.isGraphOutput value && v.consumers value == [op]

/-- Whether no output of an operator is read or is a graph output. -/
def isUnused (v : RewriteView) (op : OperatorNode) : Bool :=
  op.outputs.all fun id => (v.consumers id).isEmpty && !v.isGraphOutput id

end RewriteView

/-- What a rule says about an operator. -/
inductive Proposal where
  /-- The rule does not apply. -/
  | skip
  | rewrite (r : Rewrite)
  /-- The rule does not apply, for a reason that is worth a message. -/
  | warning (message : String)

def Proposal.ofOption : Option Rewrite → Proposal
  | some r => .rewrite r
  | none => .skip

/-- A rule, which looks at one operator at a time. -/
structure RewriteRule where
  name : String
  tags : List String
  /-- The phases in which the rule is tried. -/
  phases : List Phase
  /-- The largest number of rewrites that the rule proposes in one run of an optimizer. Without it
  there is no limit. -/
  limit : Option Nat := none
  propose : RewriteView → NodeId → OperatorNode → Proposal

/-- Whether a rule has a tag. Its name is also a tag. -/
def RewriteRule.hasTag (rule : RewriteRule) (tag : String) : Bool :=
  rule.name == tag || rule.tags.contains tag

namespace OperatorNode

/-- The output of an operator that has exactly one. -/
def singleOutput? (op : OperatorNode) : Option NodeId :=
  match op.outputs with
  | [output] => some output
  | _ => none

end OperatorNode

end TensorGraph
