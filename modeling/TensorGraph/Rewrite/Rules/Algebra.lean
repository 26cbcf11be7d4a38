import TensorGraph.Rewrite.Basic
import TensorGraph.Rewrite.Pattern

/-!
# Operators without effect

Operators that return their input unchanged, and arithmetic with neutral elements, are removed.
-/

namespace TensorGraph.Rules

/-- Whether a list counts up from zero. -/
def isIdentityPermutation (perm : List Nat) : Bool := perm == List.range perm.length

/-- Whether an operator returns its first input unchanged. -/
def returnsInput (v : RewriteView) (op : Operator) (input : NodeId) : Bool :=
  match op with
  | .identity => true
  | .cast type => v.facts.type? input == some type
  | .transpose (some perm) => isIdentityPermutation perm
  | .transpose none => (v.rank? input).any (· ≤ 1)
  | _ => false

def bypassIdentity (v : RewriteView) (op : OperatorNode) : Option Rewrite := do
  let output ← op.singleOutput?
  let input ← op.inputs.head?
  if returnsInput v op.op input then some (.alias [(output, input)]) else none

/-- Removes operators that return their input unchanged. -/
def removeIdentity : RewriteRule where
  name := "remove_identity"
  tags := ["fast_run", "fast_compile", "canonicalize"]
  phases := [.canonicalize]
  propose := fun v _ op => .ofOption (bypassIdentity v op)

/-- Arithmetic of `x` with a neutral element. -/
def neutralPatterns : List Pattern :=
  let x := Pattern.any "x"
  [.binary "Add" x (.constant .zero), .binary "Sub" x (.constant .zero),
    .binary "Mul" x (.constant .one), .binary "Div" x (.constant .one),
    .binary "Pow" x (.constant .one)]

/-- Removes arithmetic with a neutral element, unless broadcasting changes the shape. -/
def bypassNeutral (v : RewriteView) (op : OperatorNode) : Option Rewrite := do
  let output ← op.singleOutput?
  let x ← (← Pattern.firstMatch? neutralPatterns v.graph output).lookup "x"
  if v.facts.sameShape output x then some (.alias [(output, x)]) else none

def uselessElementwise : RewriteRule where
  name := "useless_elementwise"
  tags := ["fast_run", "canonicalize", "algebraic"]
  phases := [.canonicalize]
  propose := fun v _ op => .ofOption (bypassNeutral v op)

def bypassNegations (v : RewriteView) (op : OperatorNode) : Option Rewrite := do
  let output ← op.singleOutput?
  let pattern := Pattern.unary "Neg" (.unary "Neg" (.any "x"))
  let x ← (← pattern.match? v.graph output).lookup "x"
  return .alias [(output, x)]

/-- Replaces `-(-x)` by `x`. -/
def doubleNegation : RewriteRule where
  name := "double_negation"
  tags := ["fast_run", "canonicalize", "algebraic"]
  phases := [.canonicalize]
  propose := fun v _ op => .ofOption (bypassNegations v op)

end TensorGraph.Rules
