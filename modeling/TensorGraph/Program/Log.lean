import TensorGraph.Program.Run
import TensorGraph.Program.Timing

/-!
# Logs of runs

What is printed about a run. Times are not measured: steps take no time.
-/

namespace TensorGraph

/-- What is printed about runs. -/
structure RunOptions where
  /-- A summary of times at the end. -/
  timing : Bool := false
  timingOrder : TimingOrder := .byTime
  /-- Times by the shapes of inputs. -/
  timingByShape : Bool := false
  /-- Every step. -/
  verbose : Bool := false

namespace StepTrace

/-- The lines about a step, which is the one with the given index. -/
def lines (t : StepTrace) (g : Graph) (index : Nat) : List String :=
  let value (label : String) (i : Nat) (id : NodeId) (m : ValueMeta) :=
    "  " ++ label ++ " " ++ toString i ++ ": " ++ g.nodeName id ++ " (" ++ m.text ++ ")"
  let inputs := (t.step.node.inputs.zip t.inputs).zipIdx.filterMap fun ((id, m), i) =>
    m.map (value "input" i id)
  let outputs := (t.step.node.outputs.zip (t.outputs.getD [])).zipIdx.map fun ((id, m), i) =>
    value "output" i id m
  ["#" ++ toString index ++ " " ++ t.step.node.op.name ++ " (" ++ g.nodeName t.step.id ++ ") [" ++
      t.step.strategy.text ++ "]"] ++
    inputs ++ outputs ++ ["  time: 0.000ms"]

def record (t : StepTrace) (g : Graph) : TimingRecord :=
  { name := t.step.node.op.name, nodeName := g.nodeName t.step.id, strategy := t.step.strategy
    inputs := t.inputs, nanoseconds := 0 }

end StepTrace

namespace Run

/-- The lines about all steps. -/
def stepLines (r : Run) (g : Graph) : List String :=
  r.trace.zipIdx.flatMap fun (t, i) => t.lines g i

/-- The times of all steps. -/
def timing (r : Run) (g : Graph) : RunTiming := { records := r.trace.map (·.record g) }

/-- What is printed about a run of a program. The summary is left out if the run fails. -/
def log (r : Run) (p : Program) (opts : RunOptions) : List String :=
  let steps := if opts.verbose then r.stepLines p.graph else []
  let summary := match opts.timing, r.result with
    | true, .ok _ =>
      ("Program run of " ++ toString p.steps.length ++ " steps finished in 0.000ms") ::
        (r.timing p.graph).lines opts.timingOrder opts.timingByShape
    | _, _ => []
  steps ++ summary

end Run

end TensorGraph
