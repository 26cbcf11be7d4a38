import TensorGraph.Word

/-!
# Size expressions

Integer expressions over named symbols, which describe the sizes of dimensions and the elements of
small integer tensors. Two expressions are `alike` when they are equal up to the order of the
operands of commutative operators.
-/

namespace TensorGraph

/-- A named integer. A `positive` symbol stands for a value that is at least zero. -/
structure Symbol where
  name : String
  positive : Bool
deriving DecidableEq, Repr, Inhabited

/-- An integer expression over symbols. -/
inductive SizeExpr where
  | value (v : Int32)
  | sym (s : Symbol)
  | neg (x : SizeExpr)
  | add (a b : SizeExpr)
  | sub (a b : SizeExpr)
  | mul (a b : SizeExpr)
  /-- Division rounded towards negative infinity. -/
  | div (a b : SizeExpr)
  | max (a b : SizeExpr)
  | min (a b : SizeExpr)
  /-- The size that results from broadcasting two sizes, which are equal or one of which is 1. -/
  | broadcast (a b : SizeExpr)
deriving DecidableEq, Repr

namespace SizeExpr

instance : Inhabited SizeExpr := ⟨.value 0⟩

/-- A symbol about whose value nothing is assumed. -/
def var (name : String) : SizeExpr := .sym ⟨name, false⟩

/-- A symbol whose value is at least zero. -/
def posVar (name : String) : SizeExpr := .sym ⟨name, true⟩

/-- The constant expression of a size, reduced to 32 bits. -/
def ofSize (n : Nat) : SizeExpr := .value (Word.ofCount n)

/-- The value of a constant expression. -/
def asValue? : SizeExpr → Option Int32
  | .value v => some v
  | _ => none

/-- The size that a constant expression stands for. -/
def asSize? (e : SizeExpr) : Option Nat := e.asValue?.bind Word.toCount?

/-- The number of nodes of the tree. -/
def nodes : SizeExpr → Nat
  | .value _ | .sym _ => 1
  | .neg x => x.nodes + 1
  | .add a b | .sub a b | .mul a b | .div a b | .max a b | .min a b | .broadcast a b =>
    a.nodes + b.nodes + 1

/-- The names of the symbols, each once, in order of first appearance. -/
def symbols (e : SizeExpr) : List String :=
  visit e []
where
  visit : SizeExpr → List String → List String
    | .value _, names => names
    | .sym s, names => if names.contains s.name then names else names ++ [s.name]
    | .neg x, names => visit x names
    | .add a b, names | .sub a b, names | .mul a b, names | .div a b, names
    | .max a b, names | .min a b, names | .broadcast a b, names => visit b (visit a names)

/-- Equality up to the order of the operands of commutative operators. Symbols are compared by
name. -/
def alike : SizeExpr → SizeExpr → Bool
  | .value x, .value y => x == y
  | .sym s, .sym t => s.name == t.name
  | .neg x, .neg y => alike x y
  | .add a b, .add c d | .mul a b, .mul c d | .max a b, .max c d | .min a b, .min c d
  | .broadcast a b, .broadcast c d =>
    (alike a c && alike b d) || (alike a d && alike b c)
  | .sub a b, .sub c d | .div a b, .div c d => alike a c && alike b d
  | _, _ => false

/-- Whether some expression of the list is alike to `e`. -/
def memAlike (e : SizeExpr) (es : List SizeExpr) : Bool := es.any (·.alike e)

end SizeExpr

/-! ## Fresh symbols -/

/-- Where the next fresh symbol comes from: its name is the prefix, an underscore and the number
of symbols made so far, counted from 1. -/
structure SymbolSupply where
  stem : String := "unknown"
  count : Nat := 0
deriving Repr, DecidableEq

namespace SymbolSupply

/-- A new symbol for a size, and the supply after it. -/
def next (s : SymbolSupply) : SizeExpr × SymbolSupply :=
  (.posVar (s.stem ++ "_" ++ toString (s.count + 1)), { s with count := s.count + 1 })

end SymbolSupply

end TensorGraph
