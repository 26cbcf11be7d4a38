import TensorGraph.Rewrite.Rules.Algebra

/-!
# Rules about shapes

These rules use what is inferred about shapes: known sizes become constants, and operators that
only confirm a shape or change it twice are removed.
-/

namespace TensorGraph.Rules

/-- The tensor of a known integer constant. -/
def constantValue : IntConstant → Value
  | .scalar x => .ints (.scalar x)
  | .vector xs => .ints (.vector xs.toArray)

def useInferredValue (v : RewriteView) (op : OperatorNode) : Option Rewrite := do
  if !op.op.isDeterministic then none
  let output ← op.singleOutput?
  if v.facts.type? output != some .int32 then none
  let known ← (← v.facts.get? output).toConstant?
  return .constant output (constantValue known)

/-- Replaces integers that are known from inference by constants. -/
def shapeToConstant : RewriteRule where
  name := "shape_to_constant"
  tags := ["fast_run", "fast_compile", "shape"]
  phases := [.canonicalize]
  propose := fun v _ op => .ofOption (useInferredValue v op)

/-- Whether an operator reads nothing but the shape of its input. -/
def readsShapeOnly : Operator → Bool
  | .shape | .size _ => true
  | _ => false

/-- Reads the shape of an input of the operator that computes a value of the same shape, but not
across an assertion, whose check would be lost. -/
def liftShape (v : RewriteView) (id : NodeId) (op : OperatorNode) : Option Rewrite := do
  if !readsShapeOnly op.op then none
  match op.inputs with
  | [input] =>
    let (_, source) ← v.graph.producer? input
    if !source.op.isDeterministic then none
    let lifted ← source.inputs.find? fun other => v.facts.sameShape other input
    return .replaceInputs id none [lifted]
  | _ => none

/-- Computes `Shape(f(x))` as `Shape(x)` if `f` keeps the shape of `x`. -/
def shapeLift : RewriteRule where
  name := "shape_lift"
  tags := ["fast_run", "shape"]
  phases := [.canonicalize]
  propose := fun v id op => .ofOption (liftShape v id op)

/-- Whether sizes are known to be as specified. -/
def satisfies (dims : List SizeExpr) (spec : List (Option Nat)) : Bool :=
  dims.length == spec.length && (dims.zip spec).all fun (dim, size) => match size with
    | some size => dim.asValue? == some (Word.ofCount size)
    | none => true

def bypassSpecifyShape (v : RewriteView) (op : OperatorNode) : Option Rewrite := do
  match op.op with
  | .specifyShape spec =>
    let output ← op.singleOutput?
    let input ← op.inputs.head?
    let dims ← (← v.facts.get? input).dims?
    if satisfies dims spec then some (.alias [(output, input)]) else none
  | _ => none

/-- Removes shape specifications that are known to hold. -/
def uselessSpecifyShape : RewriteRule where
  name := "useless_specify_shape"
  tags := ["fast_run", "fast_compile", "shape"]
  phases := [.canonicalize]
  propose := fun v _ op => .ofOption (bypassSpecifyShape v op)

def bypassReshape (v : RewriteView) (op : OperatorNode) : Option Rewrite := do
  match op.op with
  | .reshape =>
    let output ← op.singleOutput?
    let input ← op.inputs.head?
    if v.facts.sameShape output input then some (.alias [(output, input)]) else none
  | _ => none

/-- Removes reshapes to the shape that the input has already. -/
def uselessReshape : RewriteRule where
  name := "useless_reshape"
  tags := ["fast_run", "shape"]
  phases := [.canonicalize]
  propose := fun v _ op => .ofOption (bypassReshape v op)

def joinReshapes (v : RewriteView) (id : NodeId) (op : OperatorNode) : Option Rewrite := do
  match op.op, op.inputs with
  | .reshape, [input, shape] =>
    let (_, inner) ← v.graph.producer? input
    match inner.op with
    | .reshape => return .replaceInputs id none [← inner.inputs.head?, shape]
    | _ => none
  | _, _ => none

/-- Replaces `Reshape(Reshape(x, a), b)` by `Reshape(x, b)`. -/
def reshapeChain : RewriteRule where
  name := "reshape_chain"
  tags := ["fast_run", "canonicalize"]
  phases := [.canonicalize]
  propose := fun v id op => .ofOption (joinReshapes v id op)

/-- The permutation of a transpose, which by default reverses the dimensions. -/
def resolvePermutation? (perm : Option (List Nat)) (rank : Option Nat) : Option (List Nat) :=
  perm <|> rank.map fun n => (List.range n).reverse

/-- The permutation that has the effect of two, one after the other. -/
def composePermutations? (inner outer : List Nat) : Option (List Nat) :=
  if outer.length = inner.length then outer.mapM (inner[·]?) else none

def joinTransposes (v : RewriteView) (id : NodeId) (op : OperatorNode) : Option Rewrite := do
  match op.op with
  | .transpose outer =>
    let output ← op.singleOutput?
    let (_, source) ← v.graph.producer? (← op.inputs.head?)
    match source.op with
    | .transpose inner =>
      let x ← source.inputs.head?
      let inner ← resolvePermutation? inner (v.rank? x)
      let outer ← resolvePermutation? outer (some inner.length)
      let perm ← composePermutations? inner outer
      if isIdentityPermutation perm then return .alias [(output, x)]
      return .replaceInputs id (some (.transpose (some perm))) [x]
    | _ => none
  | _ => none

/-- Combines two transposes into one. -/
def transposeChain : RewriteRule where
  name := "transpose_chain"
  tags := ["fast_run", "canonicalize"]
  phases := [.canonicalize]
  propose := fun v id op => .ofOption (joinTransposes v id op)

end TensorGraph.Rules
