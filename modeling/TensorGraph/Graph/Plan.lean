import TensorGraph.Graph.Basic
import TensorGraph.Graph.PlanningFault

/-!
# Execution plans

A plan lists the operators that must run to compute some outputs from some inputs, each after the
producers of its inputs. Among the operators that could run next, those that cannot overwrite an
input come first, so that the others are more likely to be the last users of their inputs.
-/

namespace TensorGraph.Graph

/-- The first element that appears again later. -/
def firstDuplicate? : List NodeId → Option NodeId
  | [] => none
  | id :: ids => if ids.contains id then some id else firstDuplicate? ids

/-- The values that are available, and the operators that make them so. -/
structure PlanState where
  available : List NodeId
  plan : List NodeId := []

/-- Adds an operator to the plan, after everything that it depends on. The operators in `path` are
waiting for it. The first argument bounds the length of the path. -/
def planOperator (g : Graph) :
    Nat → List NodeId → NodeId → PlanState → Except PlanningFault PlanState
  | 0, _, id, _ => .error (.cycle (g.nodeName id))
  | fuel + 1, path, id, s =>
    if path.contains id then .error (.cycle (g.nodeName id))
    else match g.operator? id with
      | none => .ok s
      | some op => do
        let s ← op.inputs.foldlM (fun (s : PlanState) input =>
          if s.available.contains input then pure s
          else match g.source? input with
            | some source => g.planOperator fuel (id :: path) source s
            | none => .error (.missingInput (g.nodeName input) (g.nodeName id))) s
        return { available := s.available ++ op.outputs, plan := s.plan ++ [id] }

/-- Adds what an output depends on to the plan. -/
def planOutput (g : Graph) (s : PlanState) (output : NodeId) : Except PlanningFault PlanState :=
  if s.available.contains output then .ok s
  else match g.source? output with
    | some source => g.planOperator (g.operatorCount + 1) [] source s
    | none => .error (.missingSource (g.nodeName output))

/-- The operators, each after everything that it depends on. -/
def dependencyPlan (g : Graph) (available outputs : List NodeId) :
    Except PlanningFault (List NodeId) := do
  return (← outputs.foldlM g.planOutput { available }).plan

/-! ## Choosing the order -/

def inputsOf (g : Graph) (id : NodeId) : List NodeId := ((g.operator? id).map (·.inputs)).getD []

def outputsOf (g : Graph) (id : NodeId) : List NodeId := ((g.operator? id).map (·.outputs)).getD []

/-- Whether the operator may overwrite an input. -/
def mayOverwrite (g : Graph) (id : NodeId) : Bool :=
  (g.operator? id).any fun op => op.op.canRunInPlace

/-- The progress of scheduling: the operators that could run next, in the order in which they became
able to, and those that were chosen. -/
structure Schedule where
  frontier : List NodeId
  available : List NodeId
  chosen : List NodeId := []

/-- Adds an operator to the frontier once all its inputs are available. -/
def Schedule.offer (g : Graph) (s : Schedule) (id : NodeId) : Schedule :=
  if s.frontier.contains id || s.chosen.contains id then s
  else if (g.inputsOf id).all s.available.contains then { s with frontier := s.frontier ++ [id] }
  else s

/-- Chooses an operator of the frontier and looks at those that depend on it. -/
def Schedule.choose (g : Graph) (plan : List NodeId) (s : Schedule) (id : NodeId) : Schedule :=
  let outputs := g.outputsOf id
  let s := { frontier := s.frontier.erase id, available := s.available ++ outputs,
             chosen := s.chosen ++ [id] : Schedule }
  let dependents := outputs.flatMap fun value => plan.filter fun op => (g.inputsOf op).contains value
  dependents.foldl (Schedule.offer g) s

/-- Chooses operators until the frontier is empty. The first argument bounds their number. -/
def Schedule.run (g : Graph) (plan : List NodeId) : Nat → Schedule → List NodeId
  | 0, s => s.chosen
  | fuel + 1, s => match s.frontier with
    | [] => s.chosen
    | first :: _ =>
      let next := (s.frontier.find? fun id => !g.mayOverwrite id).getD first
      Schedule.run g plan fuel (s.choose g plan next)

/-- The operators of a plan, those that cannot overwrite inputs first where there is a choice. -/
def schedule (g : Graph) (available plan : List NodeId) : List NodeId :=
  let frontier := plan.filter fun id => (g.inputsOf id).all available.contains
  Schedule.run g plan plan.length { frontier, available }

/-- Checks that values are listed once each and exist. The faults are given the position and the name
of a value. -/
def checkListed (g : Graph) (ids : List NodeId) (twice : String → PlanningFault)
    (notReadable : Nat → String → PlanningFault) : Except PlanningFault Unit :=
  match firstDuplicate? ids with
  | some id => .error (twice (g.nodeName id))
  | none => ids.zipIdx.forM fun (id, i) =>
    if g.isReadable id then .ok () else .error (notReadable i (g.nodeName id))

/-- The operators to run, in order, to compute `outputs` from `inputs`. -/
def executionPlan (g : Graph) (inputs outputs : List NodeId) :
    Except PlanningFault (List NodeId) := do
  g.checkListed outputs .duplicateOutput .outputNotReadable
  g.checkListed inputs .duplicateInput .inputNotReadable
  let available := inputs ++ g.constantIds
  return g.schedule available (← g.dependencyPlan available outputs)

end TensorGraph.Graph
