import TensorGraph.Rewrite.Basic

/-!
# Rules about elementwise operators

Chains of elementwise operators become one operator, and elementwise operators overwrite an input
that nothing else needs.
-/

namespace TensorGraph.Rules

/-! ## Fusion -/

/-- The largest number of inputs of a fused operator. -/
def maxFusedInputs : Nat := 32

/-- The largest number of scalar functions in a fused operator. -/
def maxFusedOps : Nat := 256

/-- An operator that can become a part of a fused operator. -/
inductive Fusable where
  | function (fn : ScalarFn)
  | expression (e : ScalarExpr)

namespace Fusable

def ofOperator? : Operator → Option Fusable
  | .elementwise op => if op.inPlace then none else some (.function op.fn)
  | .fused op => if op.inPlace then none else some (.expression op.expr)
  | _ => none

/-- Whether the operator reads an input more than once. The computation of such an input is not
made a part of the expression, since it would be copied. -/
def rereads (f : Fusable) (i : Nat) : Bool :=
  match f with
  | .function _ => false
  | .expression e => 1 < e.inputUses i

/-- The expression for the operator applied to arguments, if their number fits. -/
def expr? (f : Fusable) (args : List ScalarExpr) : Option ScalarExpr :=
  match f, args with
  | .function fn, [x] => if fn.arity = 1 then some (.unary fn x) else none
  | .function fn, [a, b] => if fn.arity = 2 then some (.binary fn a b) else none
  | .function _, _ => none
  | .expression e, args =>
    if args.length < e.numInputs then none
    else some (e.mapInputs fun i => args.getD i (.input i))

end Fusable

/-- A fused expression that is being built. -/
structure FusionBuilder where
  /-- The values that the expression reads. Its input `i` is the value at position `i`. -/
  inputs : List NodeId := []
  /-- How many operators became part of the expression, not counting the last one. -/
  absorbed : Nat := 0

namespace FusionBuilder

abbrev BuildM := StateM FusionBuilder

/-- The expression that reads a value. -/
def input (value : NodeId) : BuildM ScalarExpr :=
  modifyGet fun b => match b.inputs.idxOf? value with
    | some i => (.input i, b)
    | none => (.input b.inputs.length, { b with inputs := b.inputs ++ [value] })

/-- The operator that computes a value, if it can become a part of the expression of its only
reader. -/
def absorbable? (v : RewriteView) (value reader : NodeId) :
    Option (NodeId × OperatorNode × Fusable) := do
  let (id, op) ← v.graph.producer? value
  let f ← Fusable.ofOperator? op.op
  if op.outputs.length == 1 && v.isFloat value && v.hasSingleUse value reader &&
      op.inputs.all v.isFloat then some (id, op, f)
  else none

/-- The number in a float scalar that is constant. -/
def scalarConstant? (v : RewriteView) (value : NodeId) : Option Single :=
  match v.constant? value with
  | some (.floats t) => if t.rank = 0 then t.item? else none
  | _ => none

/-- The expression for a value that is read by the given operator. The first argument bounds the
length of the chain of operators. -/
def valueExpr (v : RewriteView) : Nat → NodeId → NodeId → BuildM ScalarExpr
  | 0, value, _ => input value
  | bound + 1, value, reader =>
    match scalarConstant? v value, absorbable? v value reader with
    | some x, _ => pure (.constant x)
    | none, some (id, op, f) => do
      let args ← op.inputs.zipIdx.mapM fun (arg, i) =>
        if f.rereads i then input arg else valueExpr v bound arg id
      match f.expr? args with
      | some e => do
        modify fun b => { b with absorbed := b.absorbed + 1 }
        pure e
      | none => input value
    | none, none => input value

/-- The expression for the output of an operator. -/
def operatorExpr (v : RewriteView) (f : Fusable) (id : NodeId) (op : OperatorNode) :
    BuildM (Option ScalarExpr) := do
  let args ← op.inputs.zipIdx.mapM fun (arg, i) =>
    if f.rereads i then input arg else valueExpr v (v.graph.operatorCount + 1) arg id
  return f.expr? args

end FusionBuilder

/-- Whether the only reader of a value will make the operator that computes it a part of its
expression. -/
def absorbedByReader (v : RewriteView) (output : NodeId) : Bool :=
  match v.consumers output with
  | [reader] => !v.isGraphOutput output && (v.graph.operator? reader).any fun op =>
    (Fusable.ofOperator? op.op).isSome && op.outputs.all v.isFloat && op.inputs.all v.isFloat
  | _ => false

/-- Fuses the chains of operators that end with the given one. -/
def fuseElementwise (v : RewriteView) (id : NodeId) (op : OperatorNode) : Option Rewrite := do
  let root ← Fusable.ofOperator? op.op
  let output ← op.singleOutput?
  if !v.isFloat output || !op.inputs.all v.isFloat || absorbedByReader v output then none
  let (expr, b) := (FusionBuilder.operatorExpr v root id op).run {}
  let expr ← expr
  if b.absorbed == 0 || maxFusedInputs < b.inputs.length || maxFusedOps < expr.opCount then none
  return .fuse
    { name := op.name, op := .fused (.ofExpr expr), inputs := b.inputs, outputs := [output] }

/-- Fuses chains of elementwise operators. -/
def elementwiseFusion : RewriteRule where
  name := "elementwise_fusion"
  tags := ["fast_run", "fusion"]
  phases := [.fusion]
  propose := fun v id op => .ofOption (fuseElementwise v id op)

/-! ## Overwriting inputs -/

/-- Whether an operator may overwrite a value with its output. -/
def canDestroy (v : RewriteView) (value op output : NodeId) : Bool :=
  !v.isGraphInput value && (v.constant? value).isNone && v.hasSingleUse value op &&
    v.facts.sameShape value output && v.facts.type? value == v.facts.type? output

/-- The same operator, made to overwrite an input. -/
def inPlaceVariant? : Operator → Option Operator
  | .elementwise op => if op.inPlace then none else some (.elementwise { op with inPlace := true })
  | .fused op => if op.inPlace then none else some (.fused { op with inPlace := true })
  | _ => none

/-- Lets an operator overwrite its first input, or any input if their order does not matter. -/
def allowInPlace (v : RewriteView) (id : NodeId) (op : OperatorNode) : Option Rewrite := do
  let output ← op.singleOutput?
  let variant ← inPlaceVariant? op.op
  let candidates := if op.op.isCommutative then op.inputs else op.inputs.take 1
  if candidates.any fun value => canDestroy v value id output then
    some (.replaceOperator id variant)
  else none

/-- Lets elementwise operators overwrite inputs that have no other uses. -/
def inPlaceElementwise : RewriteRule where
  name := "inplace_elementwise"
  tags := ["fast_run", "inplace"]
  phases := [.inPlace]
  propose := fun v id op => .ofOption (allowInPlace v id op)

end TensorGraph.Rules
