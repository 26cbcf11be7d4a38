import TensorGraph.Facts.Rule

/-!
# Shape rules of arithmetic

Integer arithmetic on scalars and vectors is followed element by element; otherwise only the
broadcast shape is inferred.
-/

namespace TensorGraph

/-- Binary arithmetic whose symbolic results are tracked. -/
inductive SizeOp where
  | add | sub | mul | div | max | min
deriving DecidableEq, Repr

/-- The simplified result of an operation on expressions. -/
def SizeOp.apply (drops : DropTest) (op : SizeOp) (x y : SizeExpr) : SizeExpr :=
  (match op with
    | .add => SizeExpr.add x y
    | .sub => SizeExpr.sub x y
    | .mul => SizeExpr.mul x y
    | .div => SizeExpr.div x y
    | .max => SizeExpr.max x y
    | .min => SizeExpr.min x y).simplifyBy drops

namespace ShapeRule

/-- The elements of the result of broadcasting two lists of elements, if their lengths allow it. -/
def zipElements (f : SizeExpr → SizeExpr → SizeExpr) (xs ys : List SizeExpr) :
    Option (List SizeExpr) :=
  if xs.length = ys.length then some (xs.zipWith f ys)
  else match xs, ys with
    | [x], ys => some (ys.map (f x))
    | xs, [y] => some (xs.map (f · y))
    | _, _ => none

/-- Arithmetic on two inputs. -/
def arithBy (drops : DropTest) (op : SizeOp) : ShapeRule
  | [a, b] => match a.asScalar?, b.asScalar? with
    | some x, some y => pure [.scalar (op.apply drops x y)]
    | _, _ => match a.values?, b.values? with
      | some xs, some ys => match zipElements (op.apply drops) xs ys with
        | some zs => pure [.vector zs]
        | none => throw .incompatibleShapes
      | _, _ => broadcastPair [a, b]
  | _ => throw .incorrectInputCount

def arith : SizeOp → ShapeRule := arithBy boundsDominate

/-- Negation. -/
def negationBy (drops : DropTest) : ShapeRule
  | [.scalar x] => pure [.scalar ((SizeExpr.neg x).simplifyBy drops)]
  | [.vector xs] => pure [.vector (xs.map fun x => (SizeExpr.neg x).simplifyBy drops)]
  | [t] => sameAsFirst [t]
  | _ => throw .incorrectInputCount

def negation : ShapeRule := negationBy boundsDominate

/-- Batched multiplication of matrices, whose last two dimensions are rows and columns. -/
def matMul : ShapeRule
  | [a, b] => match a.dims?, b.dims? with
    | some as, some bs =>
      match as.reverse, bs.reverse with
      | ka :: m :: aBatch, n :: kb :: bBatch => do
        if let (some x, some y) := (ka.asValue?, kb.asValue?) then
          if x ≠ y then throw .incompatibleShapes
        let batch ← broadcastDims aBatch.reverse bBatch.reverse
        pure [.shape (batch ++ [m, n])]
      | _, _ => throw .incorrectRank
    | _, _ => pure unknownInput
  | _ => throw .incorrectInputCount

end ShapeRule

end TensorGraph
