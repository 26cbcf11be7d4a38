import TensorGraph.Graph.Infer
import TensorGraph.Program.RunError

/-!
# Checks of running programs

Debugged programs compare the results of kernels with those of the reference implementations, and
every value with what was inferred about it. A symbol gets its value from the first dimension that
consists of it alone; later sizes must agree with it.
-/

namespace TensorGraph

/-! ## Results of kernels -/

namespace Single

def absoluteTolerance : Single := .ofDecimal 1 (-5)

def relativeTolerance : Single := .ofDecimal 1 (-4)

/-- Whether two numbers agree up to rounding. NaNs agree with each other. -/
def isClose (x y : Single) : Bool :=
  (x.isNaN && y.isNaN) || x.eq y ||
    (x.sub y).abs.le (absoluteTolerance.add (relativeTolerance.mul y.abs))

end Single

/-- The first position at which two lists differ, and the elements there. -/
def firstDifference? {α : Type} (agree : α → α → Bool) (xs ys : List α) : Option (Nat × α × α) :=
  ((xs.zip ys).zipIdx.find? fun ((x, y), _) => !agree x y).map fun ((x, y), i) => (i, x, y)

/-- Compares the result of a kernel with the expected one. -/
def checkResult (actual expected : Value) : Except ResultMismatch Unit := do
  if actual.type != expected.type then throw (.type actual.type expected.type)
  if actual.shape != expected.shape then throw (.shape actual.shape expected.shape)
  match actual, expected with
  | .floats a, .floats b =>
    match firstDifference? Single.isClose a.data.toList b.data.toList with
    | some (i, x, y) => throw (.float i x y)
    | none => return
  | .ints a, .ints b =>
    match firstDifference? (· == ·) a.data.toList b.data.toList with
    | some (i, x, y) => throw (.int i x y)
    | none => return
  | _, _ => return

/-! ## Inferred facts -/

namespace SymbolMap

/-- Compares a size with its expression, given the values of the symbols seen before. A symbol that
was not seen before gets its value. The error is the expected size, if there is one. -/
def observeSize (m : SymbolMap) (expr : SizeExpr) (actual : Int32) :
    Except (Option Int32) SymbolMap :=
  let compare := match expr.eval m with
    | .ok expected => if expected = actual then .ok m else .error (some expected)
    | .error (.unknownSymbol _) => .ok m
    | .error _ => .error none
  match expr with
  | .sym s =>
    if (m.get? s.name).isSome then compare
    else if s.positive && actual < 0 then .error none
    else .ok (m.insert s.name actual)
  | _ => compare

/-- Compares the shape of a value with the inferred sizes. -/
def observeShape (m : SymbolMap) (facts : TensorFacts) (shape : List Nat) :
    Except FactMismatch SymbolMap := do
  match facts.dims? with
  | none => return m
  | some dims =>
    if dims.length != shape.length then throw (.rank shape.length facts)
    (dims.zip shape).foldlM (fun m (dim, size) =>
      (observeSize m dim (Word.ofCount size)).mapError fun expected =>
        .shape shape facts (expected.map (·, dim))) m

/-- Compares the elements of an integer value with the inferred ones. -/
def observeElements (m : SymbolMap) (facts : TensorFacts) (v : Value) :
    Except FactMismatch SymbolMap := do
  match facts.values?, v with
  | some exprs, .ints t =>
    let xs := t.data.toList
    if exprs.length != xs.length then return m
    (exprs.zip xs).foldlM (fun m (expr, x) =>
      (observeSize m expr x).mapError fun _ => .elements xs facts) m
  | _, _ => return m

/-- Compares a value with what was inferred about it. -/
def observe (m : SymbolMap) (known : InferredFacts) (id : NodeId) (v : Value) :
    Except FactMismatch SymbolMap := do
  match known.get? id with
  | none => return m
  | some facts =>
    let m ← observeShape m facts v.shape
    observeElements m facts v

end SymbolMap

end TensorGraph
