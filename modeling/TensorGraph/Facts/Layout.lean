import TensorGraph.Facts.Rule

/-!
# Shape rules of operators that rearrange elements

Reshaping, transposition, concatenation, and the operators that read, check or use a shape.
-/

namespace TensorGraph.ShapeRule

/-- The simplified product of sizes. -/
def countOf (drops : DropTest) (dims : List SizeExpr) : SizeExpr :=
  (dims.foldl SizeExpr.mul (.value 1)).simplifyBy drops

/-- Whether two expressions are constants with different values. -/
def knownDifferent (a b : SizeExpr) : Bool :=
  match a.asValue?, b.asValue? with
  | some x, some y => x != y
  | _, _ => false

/-- The size that makes `rest` and it multiply to `total`. -/
def quotientSize (drops : DropTest) (total rest : SizeExpr) : Except ShapeRuleError SizeExpr :=
  match total.asValue?, rest.asValue? with
  | some t, some r =>
    if r = 0 ∨ t % r ≠ 0 then .error .incompatibleShapes
    else .ok ((SizeExpr.div total rest).simplifyBy drops)
  | _, _ => .ok ((SizeExpr.div total rest).simplifyBy drops)

/-- The sizes that a target shape stands for, given the sizes of the data: an entry `-1` is the
size that is left over. -/
def resolveTarget (drops : DropTest) (data? : Option (List SizeExpr)) (target : List SizeExpr) :
    RuleM (List SizeExpr) := do
  let inferred := (List.range target.length).filter fun i =>
    (target[i]?.bind SizeExpr.asValue?) == some (-1)
  let negative := target.any fun e => match e.asValue? with
    | some v => v < -1
    | none => false
  match inferred, negative with
  | _, true | _ :: _ :: _, _ => throw .invalidValue
  | [i], _ => match data? with
    | some dims => do
      let size ← quotientSize drops (countOf drops dims) (countOf drops (target.eraseIdx i))
      pure (target.set i size)
    | none => do pure (target.set i (← freshSize))
  | [], _ => do
    if let some dims := data? then
      if knownDifferent (countOf drops dims) (countOf drops target) then throw .incompatibleShapes
    pure target

/-- Reshaping the first input to the shape that the second holds. The elements of a vector stay
known when the result is a scalar or a vector. -/
def reshapeBy (drops : DropTest) : ShapeRule
  | [data, target] => match target.values? with
    | none => match (target.size? 0).bind SizeExpr.asSize? with
      | some len => do pure [.shape (← freshSizes len)]
      | none => pure [.unknown "unknown target shape"]
    | some target => do
      let dims ← resolveTarget drops data.dims? target
      match data.values?, dims with
      | some [x], [] => pure [.scalar x]
      | some xs, [len] =>
        if len.asValue? = some (Word.ofCount xs.length) then pure [.vector xs]
        else pure [.shape [len]]
      | _, dims => pure [.shape dims]
  | _ => throw .incorrectInputCount

def reshape : ShapeRule := reshapeBy boundsDominate

/-- Whether the list names each of the dimensions below `rank` at most once and no other. -/
def distinctAxes (rank : Nat) (perm : List Nat) : Bool :=
  perm.all (· < rank) && perm.Nodup

/-- Permuting the dimensions; without a permutation they are reversed. -/
def transpose (perm? : Option (List Nat)) : ShapeRule
  | [input] => match input.dims?, perm? with
    | none, some perm => do pure [.shape (← freshSizes perm.length)]
    | none, none => pure unknownInput
    | some dims, none => pure [.shape dims.reverse]
    | some dims, some perm =>
      if perm.length ≠ dims.length then throw .incorrectRank
      else if distinctAxes dims.length perm then pure [.shape (perm.filterMap (dims[·]?))]
      else throw .invalidValue
  | _ => throw .incorrectInputCount

/-- Adds the sizes of a further input to the sizes of a concatenation so far. -/
def appendDims (drops : DropTest) (axis : Nat) (acc dims : List SizeExpr) :
    Except ShapeRuleError (List SizeExpr) :=
  if dims.length ≠ acc.length then .error .incorrectRank
  else (acc.zip dims).zipIdx.mapM fun ((a, d), i) =>
    if i = axis then .ok ((SizeExpr.add a d).simplifyBy drops)
    else if knownDifferent a d then .error .incompatibleShapes else .ok a

/-- Concatenation along an axis. Vectors with known elements give such a vector. -/
def concatBy (drops : DropTest) (axis : Int) : ShapeRule
  | [] => throw .incorrectInputCount
  | first :: rest => match first.dims? with
    | none => pure unknownInput
    | some dims => do
      let axis ← resolveAxis dims.length axis
      match (first :: rest).mapM TensorFacts.asVector? with
      | some vectors => pure [.vector vectors.flatten]
      | none =>
        let out ← rest.foldlM (fun acc t => match t.dims? with
          | some dims => (appendDims drops axis acc dims : RuleM _)
          | none => do
            let extra ← freshSize
            pure (acc.modify axis fun a => (SizeExpr.add a extra).simplifyBy drops)) dims
        pure [.shape out]

def concat : Int → ShapeRule := concatBy boundsDominate

/-- The shape of the input as an integer vector. -/
def shapeOf : ShapeRule
  | [input] => match input.dims? with
    | some dims => pure [.vector dims]
    | none => do pure [.shape [← freshSize]]
  | _ => throw .incorrectInputCount

/-- The size of one dimension as an integer scalar. -/
def sizeOf (index : Nat) : ShapeRule
  | [input] => match input.dims? with
    | some dims => match dims[index]? with
      | some d => pure [.scalar d]
      | none => throw .incorrectRank
    | none => do pure [.scalar (← freshSize)]
  | _ => throw .incorrectInputCount

/-- The size that a size and a required size agree on. -/
def specifyDim (d : SizeExpr) (spec : Option Nat) : Except ShapeRuleError SizeExpr :=
  match d.asValue?, spec with
  | some v, some s => if v = Word.ofCount s then .ok d else .error .incompatibleShapes
  | none, some s => .ok (.ofSize s)
  | _, none => .ok d

/-- Requires the given sizes. Known elements are kept if no size had to be filled in. -/
def specifyShape (spec : List (Option Nat)) : ShapeRule
  | [input] => match input.dims? with
    | none => do
      let sizes ← spec.mapM fun
        | some s => pure (SizeExpr.ofSize s)
        | none => (freshSize : RuleM _)
      pure [.shape sizes]
    | some dims =>
      if dims.length ≠ spec.length then throw .incorrectRank
      else do
        let sizes ← (dims.zip spec).mapM fun (d, s) => (specifyDim d s : RuleM _)
        let refined := (dims.zip spec).any fun (d, s) => d.asValue?.isNone && s.isSome
        pure [if refined then .shape sizes else input]
  | _ => throw .incorrectInputCount

/-- A tensor of one value whose shape is the input's elements. -/
def fill : ShapeRule
  | [shape] =>
    if shape.rank?.any (· ≠ 1) then throw .incorrectRank
    else match shape.values? with
      | some values =>
        if values.any fun e => e.asValue?.any (· < 0) then throw .invalidValue
        else pure [.shape values]
      | none => match (shape.size? 0).bind SizeExpr.asValue? with
        | some len => do pure [.shape (← freshSizes len.toInt.toNat)]
        | none => pure [.unknown "unknown shape length"]
  | _ => throw .incorrectInputCount

end TensorGraph.ShapeRule
