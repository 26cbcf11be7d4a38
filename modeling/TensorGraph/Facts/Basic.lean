import TensorGraph.Size.Eval
import TensorGraph.Size.Simplify
import TensorGraph.Size.Text
import TensorGraph.Text

/-!
# Static facts about tensors

`TensorFacts` says what is known of a tensor without running anything: its sizes as expressions,
and for integer scalars and vectors the elements too, so that computations with shapes can be
followed.
-/

namespace TensorGraph

/-- An integer scalar or vector with known elements. -/
inductive IntConstant where
  | scalar (x : Int32)
  | vector (xs : List Int32)
deriving DecidableEq, Repr

namespace IntConstant

def rank : IntConstant → Nat
  | .scalar _ => 0
  | .vector _ => 1

def toList : IntConstant → List Int32
  | .scalar x => [x]
  | .vector xs => xs

def text : IntConstant → String
  | .scalar x => toString x
  | .vector xs => bracketed (xs.map toString)

end IntConstant

/-- What is known of a tensor. -/
inductive TensorFacts where
  /-- A scalar with a symbolic value. -/
  | scalar (x : SizeExpr)
  /-- A vector with symbolic elements. -/
  | vector (xs : List SizeExpr)
  /-- A tensor of known rank with symbolic sizes. -/
  | shape (dims : List SizeExpr)
  /-- Nothing is known, for the reason given. -/
  | unknown (note : String)
deriving DecidableEq, Repr

namespace TensorFacts

instance : Inhabited TensorFacts := ⟨.unknown ""⟩

/-- A tensor with the given sizes, each reduced to 32 bits. -/
def ofFixedShape (sizes : List Nat) : TensorFacts := .shape (sizes.map SizeExpr.ofSize)

def ofConstant : IntConstant → TensorFacts
  | .scalar x => .scalar (.value x)
  | .vector xs => .vector (xs.map .value)

def isUnknown : TensorFacts → Bool
  | .unknown _ => true
  | _ => false

def note? : TensorFacts → Option String
  | .unknown note => some note
  | _ => none

def asScalar? : TensorFacts → Option SizeExpr
  | .scalar x => some x
  | _ => none

def asVector? : TensorFacts → Option (List SizeExpr)
  | .vector xs => some xs
  | _ => none

/-- The symbolic elements of a scalar or vector. -/
def values? : TensorFacts → Option (List SizeExpr)
  | .scalar x => some [x]
  | .vector xs => some xs
  | _ => none

/-- The elements, if they are all known integers. -/
def toConstant? : TensorFacts → Option IntConstant
  | .scalar x => x.asValue?.map .scalar
  | .vector xs => (xs.mapM SizeExpr.asValue?).map .vector
  | _ => none

/-- The sizes of the dimensions, if the rank is known. -/
def dims? : TensorFacts → Option (List SizeExpr)
  | .scalar _ => some []
  | .vector xs => some [.ofSize xs.length]
  | .shape dims => some dims
  | .unknown _ => none

def rank? (t : TensorFacts) : Option Nat := t.dims?.map List.length

/-- The size of dimension `i`, if the rank is known and `i` is below it. -/
def size? (t : TensorFacts) (i : Nat) : Option SizeExpr := t.dims?.bind (·[i]?)

/-- The sizes, if they are all known. -/
def fixedShape? (t : TensorFacts) : Option (List Nat) := t.dims?.bind (·.mapM SizeExpr.asSize?)

/-- The sizes under the given values of symbols, or `none` if the rank is unknown. -/
def evalShape (t : TensorFacts) (m : SymbolMap) : Except EvalError (Option (List Nat)) :=
  match t.dims? with
  | none => .ok none
  | some dims => do
    let sizes ← dims.mapM fun d => do
      match Word.toCount? (← d.eval m) with
      | some n => pure n
      | none => .error .overflow
    pure (some sizes)

/-- The facts with their expressions simplified. -/
def simplifyBy (drops : DropTest) : TensorFacts → TensorFacts
  | .scalar x => .scalar (x.simplifyBy drops)
  | .vector xs => .vector (xs.map (SizeExpr.simplifyBy drops))
  | .shape dims => .shape (dims.map (SizeExpr.simplifyBy drops))
  | .unknown note => .unknown note

def simplify : TensorFacts → TensorFacts := simplifyBy boundsDominate

/-- Whether two lists have alike expressions at every position. -/
def alikeAll : List SizeExpr → List SizeExpr → Bool
  | [], [] => true
  | a :: as, b :: bs => a.alike b && alikeAll as bs
  | _, _ => false

/-- Equality up to the order of operands in the expressions. -/
def alike : TensorFacts → TensorFacts → Bool
  | .scalar x, .scalar y => x.alike y
  | .vector xs, .vector ys | .shape xs, .shape ys => alikeAll xs ys
  | .unknown m, .unknown n => m == n
  | _, _ => false

/-- Whether both tensors are known to have the same shape. -/
def sameShape (t u : TensorFacts) : Bool :=
  match t.dims?, u.dims? with
  | some a, some b => alikeAll (a.map SizeExpr.simplify) (b.map SizeExpr.simplify)
  | _, _ => false

def text : TensorFacts → String
  | .scalar x => "value " ++ toString x
  | .vector xs => "values " ++ bracketed (xs.map toString)
  | .shape dims => bracketed (dims.map toString)
  | .unknown _ => "?"

instance : ToString TensorFacts := ⟨text⟩

/-- The facts with the structure of their expressions. -/
def tree : TensorFacts → String
  | .scalar x => "scalar " ++ x.tree
  | .vector xs => "vec " ++ bracketed (xs.map SizeExpr.tree)
  | .shape dims => "shape " ++ bracketed (dims.map SizeExpr.tree)
  | .unknown note => "unknown " ++ note

end TensorFacts

end TensorGraph
