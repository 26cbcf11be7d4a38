import TensorGraph.Proofs.Sequence
import TensorGraph.Program.Run

/-!
# Evaluation that keeps every value

`Program.evaluate` runs the steps of a program one after the other on the values of their inputs. It
frees nothing and overwrites nothing, so it says what a program means. A step is `Faithful` if its
implementation can be used in the ways in which running programs use it.
-/

namespace TensorGraph

namespace Program

/-- The value of a node: computed, given or constant. -/
def valueIn? (p : Program) (env : IdMap Value) (id : NodeId) : Option Value :=
  env.get? id <|> p.graph.constant? id

/-- Runs one step on the values of its inputs and adds the values of its outputs. -/
def evaluateStep (p : Program) (env : IdMap Value) (s : Step) : Option (IdMap Value) := do
  let inputs ← s.node.inputs.mapM (p.valueIn? env)
  let outputs ← (s.run inputs).toOption
  if outputs.length = s.node.outputs.length then some (env.insertAll (s.node.outputs.zip outputs))
  else none

/-- Runs steps one after the other. The error is the number of steps before the one that fails. -/
def evaluateSteps (p : Program) : List Step → IdMap Value → Except Nat (IdMap Value)
  | [], env => .ok env
  | s :: rest, env => match p.evaluateStep env s with
    | some env => (p.evaluateSteps rest env).mapError (· + 1)
    | none => .error 0

/-- The outputs of a program, or the number of steps before the one that fails. If an output has no
value, that is the number of all steps. -/
def evaluate (p : Program) (inputs : List (NodeId × Value)) : Except Nat (List Value) := do
  let env ← p.evaluateSteps p.steps ⟨inputs⟩
  match p.outputs.mapM (p.valueIn? env) with
  | some outputs => .ok outputs
  | none => .error p.steps.length

/-- The steps are the operators of an execution plan, in its order. -/
structure Planned (p : Program) : Prop where
  plan : p.graph.executionPlan p.inputs p.outputs = .ok (p.steps.map (·.id))
  node : ∀ s ∈ p.steps, p.graph.operator? s.id = some s.node

end Program

namespace Step

/-- The ways to run a step agree: on an input that is overwritten with the ordinary one, and for
commutative operators also on inputs in another order. -/
structure Faithful (s : Step) : Prop where
  overwrite : s.mayRunInPlace = true → ∀ first rest, rest.length + 1 = s.node.inputs.length →
    (s.run (first :: rest)).toOption = (s.runInPlace first rest).toOption.map ([·])
  swap : s.node.op.isCommutative = true → ∀ vs ws : List Value, vs.Perm ws →
    vs.length = s.node.inputs.length → (s.run vs).toOption = (s.run ws).toOption

/-- Whether the step compares two implementations. -/
def isChecked (s : Step) : Bool := s.strategy == .checked

end Step

end TensorGraph
