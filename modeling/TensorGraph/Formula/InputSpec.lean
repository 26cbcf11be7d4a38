import TensorGraph.Graph.Node
import TensorGraph.Text.CharClass
import TensorGraph.Text.Numeral
import TensorGraph.Text

/-!
# Declarations of inputs and sizes

An input is declared by `name`, `name:type`, `name[dims]` or `name:type[dims]`, where a dimension is
a size or a name; without brackets the shape is unknown, and without a type the elements are floats.
The size of a named dimension is given by `name=size`.
-/

namespace TensorGraph

/-- A declared input. -/
structure InputSpec where
  name : String
  type : ElementType
  shape : Option (List Dimension)
deriving DecidableEq, Repr

/-- What is wrong with a declaration. -/
inductive SpecFault where
  | invalidName
  | invalidType (text : String)
  | invalidDimension (text : String)
  | unclosedShape
  | missingEquals
  | invalidSize
deriving DecidableEq, Repr

/-- A declaration and what is wrong with it. -/
structure SpecError where
  spec : String
  fault : SpecFault
deriving DecidableEq, Repr

def SpecError.message (e : SpecError) : String :=
  let spec := "\"" ++ e.spec ++ "\""
  match e.fault with
  | .invalidName => "invalid name in " ++ spec
  | .invalidType text =>
    "unknown data type \"" ++ text ++ "\" in " ++ spec ++ ". Expected f32 or i32."
  | .invalidDimension text =>
    "invalid dimension \"" ++ text ++ "\" in " ++ spec ++ ". Must be a size or name."
  | .unclosedShape => "shape in " ++ spec ++ " must end with ']'"
  | .missingEquals => "invalid dimension size spec " ++ spec ++ ": expected <name>=<size>"
  | .invalidSize => "invalid dimension size in " ++ spec ++ ". Must be a non-negative integer."

namespace InputSpec

def readDimension (dim : List Char) : Except SpecFault Dimension :=
  let dim := trimmed dim
  match Numeral.count? dim with
  | some size => .ok (.fixed size)
  | none =>
    if isIdentifier dim then .ok (.symbolic (String.ofList dim))
    else .error (.invalidDimension (String.ofList dim))

/-- The dimensions between the brackets. -/
def readDimensions (dims : List Char) : Except SpecFault (List Dimension) :=
  if (trimmed dims).isEmpty then .ok [] else (splitAtChar ',' dims).mapM readDimension

/-- The shape after the opening bracket. -/
def readShape (text : List Char) : Except SpecFault (List Dimension) :=
  match text.reverse with
  | ']' :: dims => readDimensions dims.reverse
  | _ => .error .unclosedShape

def readType (text : List Char) : Except SpecFault ElementType :=
  let text := String.ofList (trimmed text)
  match ElementType.ofName? text with
  | some type => .ok type
  | none => .error (.invalidType text)

def readChars (text : List Char) : Except SpecFault InputSpec := do
  let (head, shape) ← match cutAtChar? '[' text with
    | some (head, rest) => do pure (head, some (← readShape rest))
    | none => pure (text, none)
  let (name, type) ← match cutAtChar? ':' head with
    | some (name, type) => do pure (name, ← readType type)
    | none => pure (head, ElementType.float32)
  let name := trimmed name
  if isIdentifier name then return { name := String.ofList name, type, shape }
  else throw .invalidName

/-- Reads the declaration of an input. -/
def ofString? (spec : String) : Except SpecError InputSpec :=
  (readChars spec.toList).mapError (SpecError.mk spec)

end InputSpec

/-- The size of a named dimension. -/
structure DimSize where
  name : String
  size : Nat
deriving DecidableEq, Repr

namespace DimSize

def readChars (text : List Char) : Except SpecFault DimSize := do
  match cutAtChar? '=' text with
  | none => throw .missingEquals
  | some (name, size) =>
    let name := trimmed name
    if !isIdentifier name then throw .invalidName
    match Numeral.count? (trimmed size) with
    | some size => return { name := String.ofList name, size }
    | none => throw .invalidSize

/-- Reads the size of a dimension. -/
def ofString? (spec : String) : Except SpecError DimSize :=
  (readChars spec.toList).mapError (SpecError.mk spec)

/-- The sizes in the order of their names. Of several sizes for one name the last counts. -/
def sortedByName (sizes : List DimSize) : List DimSize :=
  let last := sizes.foldr (fun d ds => if ds.any (·.name == d.name) then ds else d :: ds) []
  last.mergeSort fun a b => a.name ≤ b.name

end DimSize

end TensorGraph
