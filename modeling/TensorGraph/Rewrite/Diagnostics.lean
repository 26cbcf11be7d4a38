import TensorGraph.Graph.Basic
import TensorGraph.Text.CharClass

/-!
# Diagnostics

Messages about the rewrites of a graph, as far as the user asks for them.
-/

namespace TensorGraph

/-- Which messages are recorded. -/
inductive DiagnosticLevel where
  | off
  /-- Only rewrites that were rejected or failed. -/
  | warn
  /-- All rewrites. -/
  | info
deriving DecidableEq, Repr

namespace DiagnosticLevel

def rank : DiagnosticLevel → Nat
  | .off => 0
  | .warn => 1
  | .info => 2

def all : List DiagnosticLevel := [.off, .warn, .info]

/-- The level with a given name, whatever the case of its ASCII letters. -/
def ofName? (name : String) : Option DiagnosticLevel :=
  match (String.ofList (trimmed name.toList)).toLower with
  | "" | "0" | "off" | "false" => some .off
  | "warn" => some .warn
  | "1" | "info" | "true" => some .info
  | _ => none

/-- Whether messages of level `l` are recorded. -/
def enables (level l : DiagnosticLevel) : Bool := l.rank ≤ level.rank

end DiagnosticLevel

/-- The messages so far. -/
structure Diagnostics where
  level : DiagnosticLevel
  /-- The nodes for which there is a warning already. -/
  warned : List NodeId := []
  lines : List String := []

namespace Diagnostics

def record (d : Diagnostics) (mark : String) (g : Graph) (id : NodeId) (message : String) :
    Diagnostics :=
  { d with lines := d.lines ++ [mark ++ "| " ++ g.nodeName id ++ ": " ++ message] }

def info (d : Diagnostics) (g : Graph) (id : NodeId) (message : String) : Diagnostics :=
  if d.level.enables .info then d.record "I" g id message else d

/-- Records a warning, if it is the first for the node. -/
def warn (d : Diagnostics) (g : Graph) (id : NodeId) (message : String) : Diagnostics :=
  if !d.level.enables .warn || d.warned.contains id then d
  else { d.record "W" g id message with warned := id :: d.warned }

end Diagnostics

end TensorGraph
