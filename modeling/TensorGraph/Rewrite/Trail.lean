import TensorGraph.Rewrite.Pattern

/-!
# Matching on a trail

Patterns can be matched with one list of bindings that is only added to and cut off. Where there are two ways to match,
the length of the list is remembered as a checkpoint, to go back to if the first way fails. A pattern that fails
elsewhere leaves what it has bound, which is cut off at the next checkpoint.
-/

namespace TensorGraph

/-- Bindings, and the lengths to go back to, the last one first. -/
structure Trail where
  bound : Bindings := []
  checkpoints : List Nat := []
deriving DecidableEq, Repr

namespace Trail

/-- Remembers how much is bound. -/
def checkpoint (t : Trail) : Trail := { t with checkpoints := t.bound.length :: t.checkpoints }

/-- Discards what was bound since the last checkpoint. -/
def revert (t : Trail) : Trail :=
  match t.checkpoints with
  | length :: checkpoints => ⟨t.bound.take length, checkpoints⟩
  | [] => t

/-- Drops the last checkpoint and keeps what was bound since. -/
def commit (t : Trail) : Trail := { t with checkpoints := t.checkpoints.tail }

def add (t : Trail) (name : String) (id : NodeId) : Trail := { t with bound := t.bound ++ [(name, id)] }

def find? (t : Trail) (name : String) : Option NodeId := t.bound.lookup name

end Trail

/-- A search says whether it succeeds, and leaves a trail in either case. -/
abbrev Search := Trail → Bool × Trail

namespace Search

/-- A test that binds nothing. -/
def test (b : Bool) : Search := fun t => (b, t)

/-- Searches once more if the first search succeeds. -/
def both (s r : Search) : Search := fun t =>
  match s t with
  | (true, t) => r t
  | (false, t) => (false, t)

/-- Searches once more if the first search fails. -/
def either (s r : Search) : Search := fun t =>
  match s t with
  | (true, t) => (true, t)
  | (false, t) => r t

/-- Takes back what a search binds if it fails. -/
def attempt (s : Search) : Search := fun t =>
  match s t.checkpoint with
  | (true, t) => (true, t.commit)
  | (false, t) => (false, t.revert)

/-- Binds a symbol to a node, unless it is bound. -/
def resolve (name : String) (id : NodeId) : Search := fun t =>
  match t.find? name with
  | some bound => (bound == id, t)
  | none => (true, t.add name id)

/-- Binds the key of an operator, if it has one. -/
def bindKey (key : Option String) (id : NodeId) : Search := fun t =>
  match key with
  | some key => (true, t.add key id)
  | none => (true, t)

end Search

namespace Pattern

mutual

/-- Matches a pattern with a node. -/
def search (g : Graph) (id : NodeId) : Pattern → Search
  | .constant x => .test ((g.constant? id).any (constantMatches x))
  | .symbol name constantOnly =>
    if !g.isReadable id || (constantOnly && (g.constant? id).isNone) then .test false
    else .resolve name id
  | .operator name inputs key =>
    match operatorAt? g id with
    | none => .test false
    | some (opId, op) =>
      if op.op.name != name || inputs.length != op.inputs.length then .test false
      else
        .both
          (if op.op.isCommutative && inputs.length == 2 then
            .either (.attempt (searchForward g op.inputs inputs))
              (.attempt (searchBackward g op.inputs.reverse inputs))
          else searchForward g op.inputs inputs)
          (.bindKey key opId)

/-- Matches patterns with nodes, first to last. -/
def searchForward (g : Graph) : List NodeId → List Pattern → Search
  | id :: ids, p :: ps => .both (p.search g id) (searchForward g ids ps)
  | _, _ => .test true

/-- Matches patterns with nodes, last to first. -/
def searchBackward (g : Graph) : List NodeId → List Pattern → Search
  | id :: ids, p :: ps => .both (searchBackward g ids ps) (p.search g id)
  | _, _ => .test true

end

/-- The bindings that a search on an empty trail leaves if it succeeds. -/
def searched? (p : Pattern) (g : Graph) (id : NodeId) : Option Bindings :=
  match p.search g id {} with
  | (true, t) => some t.bound
  | (false, _) => none

end Pattern

end TensorGraph
