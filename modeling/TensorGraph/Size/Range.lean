import TensorGraph.Size.Basic

/-!
# Ranges of size expressions

`SizeExpr.range` bounds the values that an expression can take, from the assumption that positive
symbols are at least zero.
-/

namespace TensorGraph

/-- The 32-bit integers from `lo` to `hi`, bounds included. -/
structure SizeRange where
  lo : Int32
  hi : Int32
deriving DecidableEq, Repr

namespace SizeRange

/-- The range of which nothing is known. -/
def full : SizeRange := ⟨Int32.minValue, Int32.maxValue⟩

def neg (r : SizeRange) : SizeRange :=
  ⟨Word.saturate (-r.hi.toInt), Word.saturate (-r.lo.toInt)⟩

def add (r s : SizeRange) : SizeRange :=
  ⟨Word.saturate (r.lo.toInt + s.lo.toInt), Word.saturate (r.hi.toInt + s.hi.toInt)⟩

def sub (r s : SizeRange) : SizeRange :=
  ⟨Word.saturate (r.lo.toInt - s.hi.toInt), Word.saturate (r.hi.toInt - s.lo.toInt)⟩

/-- Products are bounded only when both factors are at least zero. -/
def mul (r s : SizeRange) : SizeRange :=
  if 0 ≤ r.lo ∧ 0 ≤ s.lo then
    ⟨Word.saturate (r.lo.toInt * s.lo.toInt), Word.saturate (r.hi.toInt * s.hi.toInt)⟩
  else full

/-- Quotients are bounded only when the dividend is at least zero and the divisor above zero. -/
def div (r s : SizeRange) : SizeRange :=
  if 0 ≤ r.lo ∧ 0 < s.lo then ⟨0, r.hi⟩ else full

def max (r s : SizeRange) : SizeRange :=
  ⟨if r.lo < s.lo then s.lo else r.lo, if r.hi < s.hi then s.hi else r.hi⟩

def min (r s : SizeRange) : SizeRange :=
  ⟨if s.lo < r.lo then s.lo else r.lo, if s.hi < r.hi then s.hi else r.hi⟩

/-- The range of sizes that broadcasting can give: never below zero. -/
def broadcast (r s : SizeRange) : SizeRange :=
  (r.max s).max ⟨0, 0⟩

end SizeRange

namespace SizeExpr

/-- A range that contains the value of the expression. -/
def range : SizeExpr → SizeRange
  | .value v => ⟨v, v⟩
  | .sym s => if s.positive then ⟨0, Int32.maxValue⟩ else .full
  | .neg x => x.range.neg
  | .add a b => a.range.add b.range
  | .sub a b => a.range.sub b.range
  | .mul a b => a.range.mul b.range
  | .div a b => a.range.div b.range
  | .max a b => a.range.max b.range
  | .min a b => a.range.min b.range
  | .broadcast a b => a.range.broadcast b.range

/-- Whether the expression is known to be at least zero. -/
def isPositive (e : SizeExpr) : Bool := 0 ≤ e.range.lo

end SizeExpr

end TensorGraph
