import TensorGraph.Tensor.Shape
import TensorGraph.Text

/-!
# Tensors

A tensor is a shape and as many elements as the shape has positions, in row-major order.
-/

namespace TensorGraph

/-- The number of elements does not fit the shape. -/
structure DataLengthError where
  shape : List Nat
  length : Nat
deriving DecidableEq, Repr

def DataLengthError.message (e : DataLengthError) : String :=
  "data length " ++ toString e.length ++ " does not match shape " ++ countsText e.shape

/-- An array of elements in row-major order. -/
structure Tensor (α : Type) where
  shape : List Nat
  data : Array α
  /-- There is one element for each position. -/
  size_data : data.size = volume shape
deriving DecidableEq

namespace Tensor

variable {α β : Type}

/-! ## Making tensors -/

def ofData? (shape : List Nat) (data : Array α) : Except DataLengthError (Tensor α) :=
  if h : data.size = volume shape then .ok ⟨shape, data, h⟩ else .error ⟨shape, data.size⟩

/-- The tensor whose elements are given by their offsets. -/
def generate (shape : List Nat) (f : Nat → α) : Tensor α :=
  ⟨shape, .ofFn fun i : Fin (volume shape) => f i, by simp⟩

/-- The tensor of the given elements, of which there should be one for each position. -/
def ofList [Inhabited α] (shape : List Nat) (elements : List α) : Tensor α :=
  let data := elements.toArray
  generate shape fun i => data.getD i default

/-- The tensor whose elements are computed from their offsets, one after the other. -/
def generateM {m : Type → Type} [Monad m] (shape : List Nat) (f : Nat → m α) : m (Tensor α) := do
  let data : Vector α (volume shape) ← Vector.ofFnM fun i => f i
  return ⟨shape, data.toArray, data.size_toArray⟩

/-- A tensor of one value. -/
def full (shape : List Nat) (x : α) : Tensor α :=
  ⟨shape, .replicate (volume shape) x, by simp⟩

def scalar (x : α) : Tensor α := ⟨[], #[x], rfl⟩

def vector (data : Array α) : Tensor α := ⟨[data.size], data, by simp [volume]⟩

instance [Inhabited α] : Inhabited (Tensor α) := ⟨scalar default⟩

/-! ## Reading tensors -/

def rank (t : Tensor α) : Nat := t.shape.length

/-- The number of elements. -/
def size (t : Tensor α) : Nat := t.data.size

def isEmpty (t : Tensor α) : Bool := t.data.isEmpty

/-- The element at an offset. -/
def read [Inhabited α] (t : Tensor α) (offset : Nat) : α := t.data.getD offset default

/-- Some elements that follow each other. -/
def slice [Inhabited α] (t : Tensor α) (start length : Nat) : List α :=
  (List.range length).map fun i => t.read (start + i)

/-- The single element of a tensor of one element. -/
def item? (t : Tensor α) : Option α := if t.data.size = 1 then t.data[0]? else none

/-! ## Transforming tensors -/

def map (f : α → β) (t : Tensor α) : Tensor β :=
  ⟨t.shape, t.data.map f, by simp [t.size_data]⟩

/-- Transforms the elements one after the other. -/
def mapM {m : Type → Type} [Monad m] (f : α → m β) (t : Tensor α) : m (Tensor β) := do
  let data ← Vector.mapM f ⟨t.data, t.size_data⟩
  return ⟨t.shape, data.toArray, data.size_toArray⟩

/-- Replaces the element at an offset. -/
def set (t : Tensor α) (offset : Nat) (x : α) : Tensor α :=
  ⟨t.shape, t.data.setIfInBounds offset x, by simp [t.size_data]⟩

/-- The same elements in another shape, if it has as many positions. -/
def reshape? (t : Tensor α) (shape : List Nat) : Option (Tensor α) :=
  (ofData? shape t.data).toOption

/-- The tensor of the given shape whose elements are read at the given offsets. -/
def gather [Inhabited α] (t : Tensor α) (shape : List Nat) (offsets : List Nat) : Tensor α :=
  let offsets := offsets.toArray
  generate shape fun i => t.read (offsets.getD i 0)

/-- The tensor repeated along missing dimensions and dimensions of size 1 to fill the shape. -/
def broadcast? [Inhabited α] (t : Tensor α) (shape : List Nat) : Option (Tensor α) :=
  if t.shape = shape then some t
  else if Shape.canBroadcast t.shape shape then
    some (t.gather shape (Shape.broadcastOffsets t.shape shape))
  else none

end Tensor

end TensorGraph
