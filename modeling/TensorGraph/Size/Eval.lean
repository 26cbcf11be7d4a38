import TensorGraph.Size.Basic

/-!
# Values of size expressions

`SizeExpr.eval` computes the value of an expression under concrete values for its symbols, in
32-bit arithmetic that reports overflow.
-/

namespace TensorGraph

/-- Values of named symbols: one per name, in the order in which the names were first given. -/
structure SymbolMap where
  entries : List (String × Int32) := []
deriving Repr, Inhabited, DecidableEq

namespace SymbolMap

def empty : SymbolMap := {}

def get? (m : SymbolMap) (name : String) : Option Int32 := m.entries.lookup name

/-- Sets the value of a symbol. -/
def insert (m : SymbolMap) (name : String) (v : Int32) : SymbolMap :=
  if (m.get? name).isSome then
    { entries := m.entries.map fun e => if e.1 == name then (name, v) else e }
  else { entries := m.entries ++ [(name, v)] }

def size (m : SymbolMap) : Nat := m.entries.length

def isEmpty (m : SymbolMap) : Bool := m.entries.isEmpty

/-- The map with the given pairs; of two pairs with one name the later counts. -/
def ofList (l : List (String × Int32)) : SymbolMap :=
  l.foldl (fun m e => m.insert e.1 e.2) empty

/-- The pairs in the order of their names. -/
def toSortedList (m : SymbolMap) : List (String × Int32) :=
  m.entries.mergeSort fun a b => a.1 ≤ b.1

end SymbolMap

/-- Why an expression has no value. -/
inductive EvalError where
  /-- A symbol has no value. -/
  | unknownSymbol (name : String)
  | divideByZero
  | overflow
  /-- Two sizes were broadcast that differ, and neither is 1. -/
  | incompatibleBroadcast (a b : Int32)
deriving DecidableEq, Repr

/-- A short name for the kind of error. -/
def EvalError.kind : EvalError → String
  | .unknownSymbol _ => "UnknownSymbol"
  | .divideByZero => "DivideByZero"
  | .overflow => "Overflow"
  | .incompatibleBroadcast .. => "IncompatibleBroadcast"

def EvalError.message : EvalError → String
  | .unknownSymbol name => "no value for symbol \"" ++ name ++ "\""
  | .divideByZero => "division by zero"
  | .overflow => "integer overflow"
  | .incompatibleBroadcast a b => s!"sizes {a} and {b} cannot be broadcast"

/-- The size that two sizes broadcast to. -/
def broadcastSize (a b : Int32) : Except EvalError Int32 :=
  if a = b then .ok a else if a = 1 then .ok b else if b = 1 then .ok a
  else .error (.incompatibleBroadcast a b)

/-- The given value, or an overflow. -/
def orOverflow : Option Int32 → Except EvalError Int32
  | some v => .ok v
  | none => .error .overflow

namespace SizeExpr

/-- The value of the expression under `m`. The left operand is evaluated first. -/
def eval (m : SymbolMap) : SizeExpr → Except EvalError Int32
  | .value v => .ok v
  | .sym s => match m.get? s.name with
    | some v => .ok v
    | none => .error (.unknownSymbol s.name)
  | .neg x => do orOverflow (Word.neg? (← x.eval m))
  | .add a b => do
    let x ← a.eval m
    let y ← b.eval m
    orOverflow (Word.add? x y)
  | .sub a b => do
    let x ← a.eval m
    let y ← b.eval m
    orOverflow (Word.sub? x y)
  | .mul a b => do
    let x ← a.eval m
    let y ← b.eval m
    orOverflow (Word.mul? x y)
  | .div a b => do
    let x ← a.eval m
    let y ← b.eval m
    if y = 0 then .error .divideByZero else orOverflow (Word.floorDiv? x y)
  | .max a b => do
    let x ← a.eval m
    let y ← b.eval m
    pure (if x < y then y else x)
  | .min a b => do
    let x ← a.eval m
    let y ← b.eval m
    pure (if y < x then y else x)
  | .broadcast a b => do
    let x ← a.eval m
    let y ← b.eval m
    broadcastSize x y

end SizeExpr

end TensorGraph
