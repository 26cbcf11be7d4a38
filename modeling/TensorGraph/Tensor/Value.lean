import TensorGraph.Single.Text
import TensorGraph.Tensor.Basic

/-!
# Values

A value is a tensor of one of the supported element types.
-/

namespace TensorGraph

/-- The type of a tensor's elements. -/
inductive ElementType where
  | int32
  | float32
deriving DecidableEq, Repr

namespace ElementType

def text : ElementType → String
  | .float32 => "f32"
  | .int32 => "i32"

instance : ToString ElementType := ⟨text⟩

/-- The type with a given name. -/
def ofName? : String → Option ElementType
  | "f32" | "float" | "float32" => some .float32
  | "i32" | "int" | "int32" => some .int32
  | _ => none

end ElementType

/-- What a value is, without its elements. -/
structure ValueMeta where
  type : ElementType
  shape : List Nat
deriving DecidableEq, Repr

def ValueMeta.text (m : ValueMeta) : String := m.type.text ++ " " ++ countsText m.shape

/-- A tensor does not have the expected element type. -/
structure TypeMismatch where
  actual : ElementType
  expected : ElementType
deriving DecidableEq, Repr

def TypeMismatch.message (e : TypeMismatch) : String :=
  "expected " ++ e.expected.text ++ " tensor but got " ++ e.actual.text

/-- A tensor of floats or of integers. -/
inductive Value where
  | floats (t : Tensor Single)
  | ints (t : Tensor Int32)
deriving DecidableEq, Inhabited

namespace Value

def type : Value → ElementType
  | .floats _ => .float32
  | .ints _ => .int32

def shape : Value → List Nat
  | .floats t => t.shape
  | .ints t => t.shape

def rank (v : Value) : Nat := v.shape.length

/-- The number of elements. -/
def size : Value → Nat
  | .floats t => t.size
  | .ints t => t.size

def isEmpty (v : Value) : Bool := v.size == 0

def info (v : Value) : ValueMeta := ⟨v.type, v.shape⟩

def asFloats? : Value → Except TypeMismatch (Tensor Single)
  | .floats t => .ok t
  | .ints _ => .error ⟨.int32, .float32⟩

def asInts? : Value → Except TypeMismatch (Tensor Int32)
  | .ints t => .ok t
  | .floats _ => .error ⟨.float32, .int32⟩

/-- The single element of a value of one element, as a float. -/
def asScalar? : Value → Option Single
  | .floats t => t.item?
  | .ints t => t.item?.map .ofWord

/-- The same elements in another shape, if it has as many positions. -/
def reshape? (shape : List Nat) : Value → Option Value
  | .floats t => (t.reshape? shape).map .floats
  | .ints t => (t.reshape? shape).map .ints

def broadcast? (shape : List Nat) : Value → Option Value
  | .floats t => (t.broadcast? shape).map .floats
  | .ints t => (t.broadcast? shape).map .ints

/-- Converts the elements to floats. -/
def toFloats : Value → Tensor Single
  | .floats t => t
  | .ints t => t.map .ofWord

/-- Converts the elements to integers, floats towards zero. -/
def toInts : Value → Tensor Int32
  | .floats t => t.map Single.toWord
  | .ints t => t

/-- Numerical equality: zeros are equal, and a value with a NaN differs from every value. -/
def eq : Value → Value → Bool
  | .floats t, .floats u =>
    t.shape == u.shape && (t.data.zip u.data).all fun (x, y) => x.eq y
  | .ints t, .ints u => t == u
  | _, _ => false

/-- The shape and all elements. -/
def details (v : Value) : String :=
  let text (name : String) (data : List String) :=
    name ++ "(Tensor \x7b shape: " ++ countsText v.shape ++ ", data: " ++ bracketed data ++ " \x7d)"
  match v with
  | .floats t => text "FloatTensor" (t.data.toList.map Single.exactText)
  | .ints t => text "Int32Tensor" (t.data.toList.map toString)

end Value

end TensorGraph
