import TensorGraph.Rewrite.Basic

/-!
# Rules about assertions

An assertion returns its first input if its conditions, the other inputs, hold. Conditions that are
known to hold are removed, and with them assertions that have no conditions left.
-/

namespace TensorGraph.Rules

/-- Whether no element of a value is zero. -/
def hasNoZero : Value → Bool
  | .floats t => t.data.all (!·.isZero)
  | .ints t => t.data.all (· != 0)

/-- Whether a condition is known to hold. -/
def conditionHolds (v : RewriteView) (condition : NodeId) : Bool :=
  match v.constant? condition with
  | some x => hasNoZero x
  | none =>
    ((v.facts.get? condition).bind (·.toConstant?)).any fun known => known.toList.all (· != 0)

def dropConditions (v : RewriteView) (id : NodeId) (op : OperatorNode) : Option Rewrite := do
  match op.op, op.inputs with
  | .assertAll _, input :: conditions =>
    let output ← op.singleOutput?
    let remaining := conditions.filter (!conditionHolds v ·)
    if remaining.isEmpty then return .alias [(output, input)]
    if remaining.length < conditions.length then
      return .replaceInputs id none (input :: remaining)
    none
  | _, _ => none

/-- Removes conditions that are known to hold. -/
def uselessAssert : RewriteRule where
  name := "useless_assert"
  tags := ["fast_run", "fast_compile"]
  phases := [.canonicalize]
  propose := fun v id op => .ofOption (dropConditions v id op)

def bypassAssertion (op : OperatorNode) : Option Rewrite := do
  match op.op with
  | .assertAll _ => return .alias [(← op.singleOutput?, ← op.inputs.head?)]
  | _ => none

/-- Removes all assertions, as if their conditions held. -/
def removeAllAssert : RewriteRule where
  name := "remove_all_assert"
  tags := ["unsafe"]
  phases := [.canonicalize]
  propose := fun _ _ op => .ofOption (bypassAssertion op)

end TensorGraph.Rules
