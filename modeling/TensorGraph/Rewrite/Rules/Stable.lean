import TensorGraph.Rewrite.Basic
import TensorGraph.Rewrite.Pattern

/-!
# Stable and special functions

Expressions that lose accuracy or overflow are replaced by operators that do not.
-/

namespace TensorGraph.Rules

/-- Replaces the computation of an operator's output from `x` by one operator. -/
def fuseUnary (op : OperatorNode) (new : Operator) (x output : NodeId) : Rewrite :=
  .fuse { name := op.name, op := new, inputs := [x], outputs := [output] }

/-- The expression `-softplus(-x)`. -/
def negatedSoftplus : ScalarExpr :=
  .unary .neg (.unary .softplus (.unary .neg (.input 0)))

def stabilizeLogSigmoid (v : RewriteView) (op : OperatorNode) : Option Rewrite := do
  let output ← op.singleOutput?
  if !v.isFloat output then none
  let pattern := Pattern.unary "Log" (.unary "Sigmoid" (.any "x"))
  let x ← (← pattern.match? v.graph output).lookup "x"
  return fuseUnary op (.fused (.ofExpr negatedSoftplus)) x output

/-- Replaces `log(sigmoid(x))` by `-softplus(-x)`, which does not become `log(0)` for large
negative `x`. -/
def logSigmoid : RewriteRule where
  name := "log_sigmoid"
  tags := ["fast_run", "stabilize"]
  phases := [.stabilize]
  propose := fun v _ op => .ofOption (stabilizeLogSigmoid v op)

def stabilizeLogOnePlus (v : RewriteView) (op : OperatorNode) : Option Rewrite := do
  let output ← op.singleOutput?
  let pattern := Pattern.unary "Log" (.binary "Add" (.constant .one) (.any "x"))
  let x ← (← pattern.match? v.graph output).lookup "x"
  if !v.isFloat x || !v.facts.sameShape output x then none
  return fuseUnary op (.elementwise { fn := .log1p }) x output

/-- Replaces `log(1 + x)` by `log1p(x)`, which is accurate for small `x`. -/
def logOnePlus : RewriteRule where
  name := "log1p"
  tags := ["fast_run", "stabilize"]
  phases := [.stabilize]
  propose := fun v _ op => .ofOption (stabilizeLogOnePlus v op)

/-- The division of an exponential by its sum. The pattern of the exponential appears twice, with
names of their own. -/
def normalizedPattern (exponential : Pattern) : Pattern :=
  .binary "Div" (exponential.named "numerator")
    ((Pattern.unary "ReduceSum" (exponential.named "denominator")).named "sum")

/-- The computations that are replaced by a softmax: of `x` less its maximum, and of `x` itself. -/
def softmaxPatterns : List Pattern :=
  let x := Pattern.any "x"
  let maximum := (Pattern.unary "ReduceMax" x).named "max"
  [normalizedPattern (.unary "Exp" (.binary "Sub" x maximum)), normalizedPattern (.unary "Exp" x)]

/-- The axis of a reduction over one axis that keeps the reduced dimension. -/
def reducedAxis? (v : RewriteView) (id : NodeId) (fn : ReduceFn) : Option Int := do
  match (← v.graph.operator? id).op with
  | .reduce { fn := fn', axes := some [axis], keepDims := true } =>
    if fn' = fn then some axis else none
  | _ => none

/-- Whether two axes of a tensor are the same, where negative ones count from the end. -/
def sameAxis (rank : Nat) (a b : Int) : Bool :=
  let resolve (axis : Int) := if axis < 0 then axis + rank else axis
  resolve a == resolve b

def useSoftmax (v : RewriteView) (op : OperatorNode) : Option Rewrite := do
  let output ← op.singleOutput?
  if !v.isFloat output then none
  let found ← Pattern.firstMatch? softmaxPatterns v.graph output
  let x ← found.lookup "x"
  if (← found.lookup "numerator") != (← found.lookup "denominator") then none
  let axis ← reducedAxis? v (← found.lookup "sum") .sum
  if let some maximum := found.lookup "max" then
    let maxAxis ← reducedAxis? v maximum .max
    if !sameAxis (← v.rank? x) axis maxAxis then none
  return fuseUnary op (.softmax { axis }) x output

/-- Replaces the division of exponentials by their sum along one axis by a softmax. -/
def softmax : RewriteRule where
  name := "softmax"
  tags := ["fast_run", "specialize"]
  phases := [.specialize]
  propose := fun v _ op => .ofOption (useSoftmax v op)

end TensorGraph.Rules
