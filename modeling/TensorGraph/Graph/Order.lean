import TensorGraph.Graph.Basic
import TensorGraph.Graph.PlanningFault

/-!
# Order and validity

`Graph.topologicalOrder` lists the operators so that each follows the producers of its inputs, and
`Graph.validate` checks what every well-formed graph satisfies.
-/

namespace TensorGraph.Graph

/-! ## Topological order -/

/-- The number of an operator's inputs that are produced by operators. -/
def pendingCount (g : Graph) (op : OperatorNode) : Nat :=
  op.inputs.countP fun id => (g.source? id).isSome

/-- The numbers of inputs that operators still wait for, and the operators that no longer wait. -/
structure Waiting where
  pending : IdMap Nat
  released : List NodeId := []

/-- Counts one input of an operator as available. -/
def Waiting.arrive (w : Waiting) (op : NodeId) : Waiting :=
  match w.pending.get? op with
  | none => w
  | some n =>
    if n ≤ 1 then { pending := w.pending.erase op, released := w.released ++ [op] }
    else { w with pending := w.pending.insert op (n - 1) }

/-- Takes operators from the front of `ready`, and puts those that they release there, lowest number
first. The first argument bounds the number of operators taken. -/
def sortReady (g : Graph) : Nat → List NodeId → IdMap Nat → List NodeId × IdMap Nat
  | 0, _, pending => ([], pending)
  | _ + 1, [], pending => ([], pending)
  | fuel + 1, op :: ready, pending =>
    let outputs := ((g.operator? op).map (·.outputs)).getD []
    let w := (outputs.flatMap g.consumersOf).foldl Waiting.arrive { pending }
    let (order, pending) := g.sortReady fuel (w.released.mergeSort ++ ready) w.pending
    (op :: order, pending)

/-- All operators, each after the producers of its inputs. -/
def topologicalOrder (g : Graph) : Except PlanningFault (List NodeId) :=
  let counts := g.operators.map fun (id, op) => (id, g.pendingCount op)
  let ready := (counts.filter (·.2 == 0)).map (·.1)
  let (order, pending) := g.sortReady g.operatorCount ready ⟨counts.filter (·.2 != 0)⟩
  match (pending.entries.map (·.1)).min? with
  | some id => .error (.cycle (g.nodeName id))
  | none => .ok order

/-! ## Validity -/

/-- Checks the edges of one operator, given the producers of values that were found before. -/
def validateOperator (g : Graph) (producers : IdMap NodeId) (id : NodeId) (op : OperatorNode) :
    Except PlanningFault (IdMap NodeId) := do
  for input in op.inputs do
    if !g.isReadable input then throw (.readsNoValue (g.nodeName input) (g.nodeName id))
  op.outputs.foldlM (fun producers output => do
    if !g.isValue output then throw (.producesNoValue (g.nodeName output) (g.nodeName id))
    if let some other := producers.get? output then
      throw (.twoProducers (g.nodeName output) (g.nodeName other) (g.nodeName id))
    return producers.insert output id) producers

/-- Checks that operators read and produce values, that no value has two producers, that inputs are
values without a producer, that outputs exist and that no operator depends on itself. -/
def validate (g : Graph) : Except PlanningFault Unit := do
  let producers ← g.operators.foldlM
    (fun producers (id, op) => g.validateOperator producers id op) IdMap.empty
  for input in g.inputIds do
    if !g.isValue input || producers.contains input then
      throw (.graphInputNotFree (g.nodeName input))
  for output in g.outputIds do
    if !g.isReadable output then throw (.graphOutputNotReadable (g.nodeName output))
  let _ ← g.topologicalOrder

end TensorGraph.Graph
