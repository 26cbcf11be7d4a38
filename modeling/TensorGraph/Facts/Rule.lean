import TensorGraph.Facts.Basic

/-!
# Shape rules

A shape rule gives the facts about an operator's outputs from the facts about its inputs. Sizes
that cannot be expressed through the inputs become fresh symbols. This file holds what the rules
share, and the rules that serve many operators: equal shapes, broadcasting and reductions.
-/

namespace TensorGraph

/-- Why a shape rule rejects its inputs. -/
inductive ShapeRuleError where
  | incorrectInputCount
  /-- The shapes cannot be combined, so the operator would fail. -/
  | incompatibleShapes
  /-- A rank, or an axis, is not what the operator expects. -/
  | incorrectRank
  | invalidValue
deriving DecidableEq, Repr

/-- A short name for the kind of error. -/
def ShapeRuleError.kind : ShapeRuleError → String
  | .incorrectInputCount => "IncorrectInputCount"
  | .incompatibleShapes => "IncompatibleShapes"
  | .incorrectRank => "IncorrectRank"
  | .invalidValue => "InvalidValue"

def ShapeRuleError.message : ShapeRuleError → String
  | .incorrectInputCount => "incorrect number of inputs"
  | .incompatibleShapes => "incompatible input shapes"
  | .incorrectRank => "incorrect input rank or axis"
  | .invalidValue => "invalid input or attribute value"

/-- A computation that may fail and draws fresh symbols. -/
abbrev RuleM := ExceptT ShapeRuleError (StateM SymbolSupply)

/-- The facts about an operator's outputs, given those about its inputs. -/
abbrev ShapeRule := List TensorFacts → RuleM (List TensorFacts)

namespace ShapeRule

/-- A fresh symbol for a size. -/
def freshSize : RuleM SizeExpr := modifyGet SymbolSupply.next

/-- As many fresh symbols as asked for. -/
def freshSizes : Nat → RuleM (List SizeExpr)
  | 0 => pure []
  | n + 1 => do
    let first ← freshSize
    return first :: (← freshSizes n)

/-! ## Axes -/

/-- The dimension that an axis in `[-rank, rank)` stands for. -/
def resolveAxis (rank : Nat) (axis : Int) : Except ShapeRuleError Nat :=
  if axis < -rank ∨ rank ≤ axis then .error .incorrectRank
  else .ok (if axis < 0 then (rank + axis).toNat else axis.toNat)

/-- The dimensions that a list of axes stands for. No dimension may be named twice. -/
def resolveAxes (rank : Nat) (axes : List Int) : Except ShapeRuleError (List Nat) :=
  axes.foldlM (fun found axis => do
    let i ← resolveAxis rank axis
    if found.contains i then .error .invalidValue else pure (found ++ [i])) []

/-! ## Broadcasting -/

/-- The size of a dimension that is broadcast from sizes `a` and `b`. A fixed size other than 1
forces a symbolic size to match it. -/
def broadcastDim (a b : SizeExpr) : Except ShapeRuleError SizeExpr :=
  if a.alike b then .ok a
  else match a.asValue?, b.asValue? with
    | some x, some y =>
      if x = 1 then .ok b else if y = 1 then .ok a else .error .incompatibleShapes
    | some x, none => .ok (if x = 1 then b else a)
    | none, some y => .ok (if y = 1 then a else b)
    | none, none => .ok (.broadcast a b)

/-- The sizes, with ones in front up to the given rank. -/
def padTo (rank : Nat) (dims : List SizeExpr) : List SizeExpr :=
  List.replicate (rank - dims.length) (.value 1) ++ dims

/-- The shape that two shapes, aligned at their last dimensions, broadcast to. -/
def broadcastDims (a b : List SizeExpr) : Except ShapeRuleError (List SizeExpr) :=
  let rank := max a.length b.length
  ((padTo rank a).zip (padTo rank b)).mapM fun p => broadcastDim p.1 p.2

/-- What is known of an output whose inputs have unknown shapes. -/
def unknownInput : List TensorFacts := [.unknown "unknown input shape"]

/-! ## Rules of many operators -/

/-- The output has the shape of the first input. -/
def sameAsFirst : ShapeRule
  | [] => throw .incorrectInputCount
  | data :: _ => match data.dims? with
    | some dims => pure [.shape dims]
    | none => pure unknownInput

/-- The output is the first input, elements included. -/
def passFirst : ShapeRule
  | [] => throw .incorrectInputCount
  | data :: _ => pure [data]

/-- The output has the shape that two inputs broadcast to. -/
def broadcastPair : ShapeRule
  | [a, b] => match a.dims?, b.dims? with
    | some as, some bs => do pure [.shape (← broadcastDims as bs)]
    | _, _ => pure unknownInput
  | _ => throw .incorrectInputCount

/-- The output has the shape that all inputs broadcast to. -/
def broadcastAll : ShapeRule
  | [] => throw .incorrectInputCount
  | inputs => go [] inputs
where
  /-- Broadcasts `acc` with the shapes of the remaining inputs. -/
  go (acc : List SizeExpr) : ShapeRule
    | [] => pure [.shape acc]
    | t :: rest => match t.dims? with
      | some dims => do go (← broadcastDims acc dims) rest
      | none => pure unknownInput

/-- The sizes that are left when the given dimensions are dropped, or kept with size 1. -/
def reduceDims (reduced : List Nat) (keepDims : Bool) (dims : List SizeExpr) : List SizeExpr :=
  dims.zipIdx.filterMap fun (d, i) =>
    if !reduced.contains i then some d else if keepDims then some (.value 1) else none

/-- A reduction over the given axes, or over all of them. -/
def reduction (axes : Option (List Int)) (keepDims : Bool) : ShapeRule
  | [data] => match data.dims? with
    | none => pure unknownInput
    | some dims => do
      let reduced ← match axes with
        | some axes => resolveAxes dims.length axes
        | none => pure (List.range dims.length)
      pure [.shape (reduceDims reduced keepDims dims)]
  | _ => throw .incorrectInputCount

end ShapeRule

end TensorGraph
