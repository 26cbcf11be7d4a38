import TensorGraph.Operator.ScalarFn
import TensorGraph.Single.Text

/-!
# Scalar expressions

Trees of scalar functions over numbered inputs, which fused operators apply to elements.
-/

namespace TensorGraph

/-- A tree of scalar functions. -/
inductive ScalarExpr where
  /-- The input with the given number. -/
  | input (i : Nat)
  | constant (c : Single)
  | unary (fn : ScalarFn) (x : ScalarExpr)
  | binary (fn : ScalarFn) (a b : ScalarExpr)
deriving DecidableEq, Repr, Inhabited

namespace ScalarExpr

/-- The value for the given inputs. Missing inputs are NaNs. -/
def eval (inputs : List Single) : ScalarExpr → Single
  | .input i => inputs.getD i .nan
  | .constant c => c
  | .unary fn x => fn.unary (x.eval inputs)
  | .binary fn a b => fn.binary (a.eval inputs) (b.eval inputs)

/-- The function that an expression computes, prepared once for many inputs. -/
def compile : ScalarExpr → List Single → Single
  | .input i => fun inputs => inputs.getD i .nan
  | .constant c => fun _ => c
  | .unary fn x =>
    let f := x.compile
    fun inputs => fn.unary (f inputs)
  | .binary .add a b =>
    let f := a.compile
    let g := b.compile
    fun inputs => (f inputs).add (g inputs)
  | .binary .mul a b =>
    let f := a.compile
    let g := b.compile
    fun inputs => (f inputs).mul (g inputs)
  | .binary fn a b =>
    let f := a.compile
    let g := b.compile
    fun inputs => fn.binary (f inputs) (g inputs)

/-- One more than the largest number of an input. -/
def numInputs : ScalarExpr → Nat
  | .input i => i + 1
  | .constant _ => 0
  | .unary _ x => x.numInputs
  | .binary _ a b => max a.numInputs b.numInputs

/-- The number of scalar functions. -/
def opCount : ScalarExpr → Nat
  | .input _ | .constant _ => 0
  | .unary _ x => 1 + x.opCount
  | .binary _ a b => 1 + a.opCount + b.opCount

/-- How often an input appears. -/
def inputUses (index : Nat) : ScalarExpr → Nat
  | .input i => if i = index then 1 else 0
  | .constant _ => 0
  | .unary _ x => x.inputUses index
  | .binary _ a b => a.inputUses index + b.inputUses index

/-- Replaces the inputs by expressions. -/
def mapInputs (f : Nat → ScalarExpr) : ScalarExpr → ScalarExpr
  | .input i => f i
  | .constant c => .constant c
  | .unary fn x => .unary fn (x.mapInputs f)
  | .binary fn a b => .binary fn (a.mapInputs f) (b.mapInputs f)

/-- Equality with constants compared numerically. -/
def eq : ScalarExpr → ScalarExpr → Bool
  | .input i, .input j => i == j
  | .constant c, .constant d => c.eq d
  | .unary f x, .unary g y => f == g && x.eq y
  | .binary f a b, .binary g c d => f == g && a.eq c && b.eq d
  | _, _ => false

def text : ScalarExpr → String
  | .input i => "x" ++ toString i
  | .constant c => c.text
  | .unary fn x => fn.text ++ "(" ++ x.text ++ ")"
  | .binary fn a b => fn.text ++ "(" ++ a.text ++ ", " ++ b.text ++ ")"

instance : ToString ScalarExpr := ⟨text⟩

end ScalarExpr

end TensorGraph
