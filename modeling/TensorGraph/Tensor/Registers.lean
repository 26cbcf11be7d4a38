import TensorGraph.Tensor.Value

/-!
# Named values that share their elements

Copying and reshaping a value does not copy its elements: the copies share one buffer until one of
them is changed. `Registers` keeps named values together with the buffers that they use.
-/

namespace TensorGraph

/-- A named value and the number of the buffer that holds its elements. -/
structure Register where
  name : String
  value : Value
  buffer : Nat

/-- Named values. Buffers from `nextBuffer` on are unused. -/
structure Registers where
  entries : List Register := []
  nextBuffer : Nat := 0

namespace Registers

def find? (rs : Registers) (name : String) : Option Register :=
  rs.entries.find? (·.name == name)

def erase (rs : Registers) (name : String) : Registers :=
  { rs with entries := rs.entries.filter (·.name != name) }

/-- Gives a name to a value in a given buffer. -/
def insertShared (rs : Registers) (name : String) (value : Value) (buffer : Nat) : Registers :=
  { rs with entries := (rs.erase name).entries ++ [⟨name, value, buffer⟩] }

/-- Gives a name to a value in a buffer of its own. -/
def insert (rs : Registers) (name : String) (value : Value) : Registers :=
  { rs.insertShared name value rs.nextBuffer with nextBuffer := rs.nextBuffer + 1 }

/-- Whether no other value uses the buffer of `r`. -/
def isUnique (rs : Registers) (r : Register) : Bool :=
  rs.entries.countP (·.buffer == r.buffer) == 1

/-- Changes a value, in its buffer if it is the only one there and otherwise in a new one. -/
def update (rs : Registers) (r : Register) (value : Value) : Registers :=
  if rs.isUnique r then rs.insertShared r.name value r.buffer else rs.insert r.name value

end Registers

end TensorGraph
