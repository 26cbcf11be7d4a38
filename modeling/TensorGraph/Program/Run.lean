import TensorGraph.Graph.SlotTable
import TensorGraph.Program.Check
import TensorGraph.Program.Linking

/-!
# Running programs

A program runs its steps one after the other. For every value that a step computes it keeps count of
the uses that remain: a value without further uses is freed, and a value whose last use is the next
step may be overwritten by it.
-/

namespace TensorGraph

/-- What a running program remembers. -/
structure Memory where
  /-- The values that steps have computed and that are not freed yet. -/
  computed : IdMap Value := {}
  /-- How often the remaining steps read a value, or the program returns it. -/
  uses : IdMap Nat := {}
  /-- The sizes of symbols, if values are checked. -/
  symbols : SymbolMap := {}

namespace Memory

/-- The number of remaining uses of a value. -/
def usesOf (m : Memory) (id : NodeId) : Nat := (m.uses.get? id).getD 0

def addUse (m : Memory) (id : NodeId) : Memory :=
  { m with uses := m.uses.insert id (m.usesOf id + 1) }

/-- Takes back one use of a value, if its uses are counted. -/
def dropUse (m : Memory) (id : NodeId) : Memory :=
  match m.uses.get? id with
  | some n => { m with uses := m.uses.insert id (n - 1) }
  | none => m

def free (m : Memory) (id : NodeId) : Memory := { m with computed := m.computed.erase id }

/-- Takes the value that a step overwrites out of the memory, with one of its uses. -/
def take (m : Memory) : Option (NodeId × Value) → Memory
  | some (id, _) => (m.free id).dropUse id
  | none => m

/-- Takes back one use of a value that a step has read, and frees the value after the last. -/
def release (frees : Bool) (m : Memory) (id : NodeId) : Memory :=
  let m := m.dropUse id
  if frees && m.uses.get? id == some 0 then m.free id else m

end Memory

namespace Step

/-- The input with the most elements of those in memory; of several the last. -/
def largestInput? (s : Step) (m : Memory) : Option NodeId :=
  let size (id : NodeId) := ((m.computed.get? id).map Value.size).getD 0
  s.node.inputs.foldl (fun best id => match best with
    | some other => if size other ≤ size id then some id else best
    | none => some id) none

/-- The input that the step would overwrite. A step whose inputs can be swapped takes the largest,
which most likely has the shape of the output. -/
def target? (s : Step) (m : Memory) : Option NodeId :=
  if !s.mayRunInPlace then none
  else if s.node.op.isCommutative then s.largestInput? m
  else s.node.inputs.head?

/-- The value that the step overwrites: one that is in memory and has no other uses. -/
def overwritten? (s : Step) (m : Memory) : Option (NodeId × Value) := do
  let id ← s.target? m
  if m.usesOf id = 1 then return (id, ← m.computed.get? id) else none

/-- The inputs that are read and not overwritten. -/
def otherInputs (s : Step) (overwritten : Option NodeId) : List NodeId :=
  match overwritten with
  | some id => s.node.inputs.erase id
  | none => s.node.inputs

/-- Runs the reference implementation and compares its results with those of the kernel, if there
is one. -/
def runChecked (s : Step) (name : String) (kernel : Option Kernel) (inputs : List Value) :
    Except RunError (List Value) := do
  let expected ← (s.node.op.run inputs).mapError fun e =>
    .operator name e (inputs.map Value.info)
  match kernel with
  | none => return expected
  | some k =>
    let actual ← (k.run inputs).mapError fun e => .check name (.kernelFailed e)
    if actual.length != expected.length then
      throw (.check name (.kernelOutputCount actual.length expected.length))
    ((actual.zip expected).zipIdx).forM fun ((a, e), i) =>
      (checkResult a e).mapError fun fault => .check name (.kernelOutput i fault)
    return expected

/-- Runs the step on its inputs. If it overwrites an input, that is given apart from the others. -/
def execute (s : Step) (name : String) (overwritten : Option Value) (others : List Value) :
    Except RunError (List Value) :=
  match overwritten, s.impl with
  | some first, _ => do
    let output ← (s.runInPlace first others).mapError fun e =>
      .operator name e ((first :: others).map Value.info)
    return [output]
  | none, .checked kernel => s.runChecked name kernel others
  | none, _ => (s.run others).mapError fun e => .operator name e (others.map Value.info)

end Step

/-- What happened in a step: the inputs that it found, and its outputs unless it failed. -/
structure StepTrace where
  step : Step
  inputs : List (Option ValueMeta)
  outputs : Option (List ValueMeta)

/-- What happened when a program ran. -/
structure Run where
  trace : List StepTrace
  result : Except RunError (List Value)

namespace Program

/-- A value that was computed, given or is constant. -/
def lookup? (p : Program) (given : IdMap Value) (m : Memory) (id : NodeId) : Option Value :=
  m.computed.get? id <|> given.get? id <|> p.graph.constant? id

/-- The values of inputs. -/
def operands (p : Program) (given : IdMap Value) (m : Memory) (s : Step) (ids : List NodeId) :
    Except RunError (List Value) :=
  ids.mapM fun id => match p.lookup? given m id with
    | some v => .ok v
    | none => .error (.planning (.inputNotComputed (p.graph.nodeName id) (p.graph.nodeName s.id)))

/-- Compares the outputs of a step with what was inferred about them. -/
def checkOutputs (p : Program) (m : Memory) (s : Step) (outputs : List Value) :
    Except RunError Memory := do
  match p.facts with
  | none => return m
  | some known =>
    let symbols ← (s.node.outputs.zip outputs).foldlM (fun symbols (id, v) =>
      (SymbolMap.observe symbols known id v).mapError fun e =>
        .check (p.graph.nodeName s.id) (.facts (p.graph.nodeName id) e)) m.symbols
    return { m with symbols }

/-- Stores the outputs of a step and releases its inputs. -/
def finishStep (p : Program) (m : Memory) (s : Step) (outputs : List Value) :
    Except RunError Memory := do
  if outputs.length != s.node.outputs.length then
    throw (.outputCount (p.graph.nodeName s.id) outputs.length s.node.outputs.length)
  let m ← p.checkOutputs m s outputs
  let computed := m.computed.insertAll (s.node.outputs.zip outputs)
  return s.node.inputs.foldl (Memory.release p.frees) { m with computed }

/-- Runs one step. There is no trace if an input is missing. -/
def runStep (p : Program) (given : IdMap Value) (m : Memory) (s : Step) :
    Option StepTrace × Except RunError Memory :=
  let inputs := s.node.inputs.map fun id => (p.lookup? given m id).map Value.info
  let overwritten := s.overwritten? m
  let m := m.take overwritten
  match p.operands given m s (s.otherInputs (overwritten.map (·.1))) with
  | .error e => (none, .error e)
  | .ok others =>
    let result := s.execute (p.graph.nodeName s.id) (overwritten.map (·.2)) others
    let outputs := result.toOption.map (·.map Value.info)
    (some { step := s, inputs, outputs }, result.bind (p.finishStep m s))

/-- Runs steps one after the other, up to the first that fails. -/
def runSteps (p : Program) (given : IdMap Value) :
    List Step → Memory → List StepTrace × Except RunError Memory
  | [], m => ([], .ok m)
  | s :: rest, m =>
    match p.runStep given m s with
    | (trace, .error e) => (trace.toList, .error e)
    | (trace, .ok m) =>
      let (traces, result) := p.runSteps given rest m
      (trace.toList ++ traces, result)

/-- The memory before the first step: the uses of all values that steps compute, and one more use of
every output. -/
def startMemory (p : Program) : Memory :=
  let computed := p.steps.flatMap (·.node.outputs)
  let reads := (p.steps.flatMap (·.node.inputs)).filter computed.contains
  (reads ++ p.outputs).foldl Memory.addUse {}

/-- The inputs by their nodes. Every value must be for an input, and every input needs a value. -/
def givenValues (p : Program) (inputs : List (NodeId × Value)) :
    Except RunError (IdMap Value) := do
  let given ← inputs.foldlM (fun (given : IdMap Value) (id, v) =>
    if p.inputs.contains id then .ok (given.insert id v) else .error .invalidNode) {}
  match p.inputs.find? fun id => !given.contains id with
  | some id => throw (.input (p.graph.nodeName id) .missing)
  | none => return given

/-- Compares the inputs, visited in the order of `ids`, with what was inferred about them. Of two
inputs that disagree about a symbol the later one is at fault. -/
def checkInputs (p : Program) (ids : List NodeId) (given : IdMap Value) (m : Memory) :
    Except RunError Memory := do
  match p.facts with
  | none => return m
  | some known =>
    let symbols ← ids.foldlM (fun symbols id => match given.get? id with
      | some v => (SymbolMap.observe symbols known id v).mapError fun e =>
          .input (p.graph.nodeName id) (.facts e)
      | none => .ok symbols) m.symbols
    return { m with symbols }

/-- The values that the program returns. -/
def results (p : Program) (given : IdMap Value) (m : Memory) : Except RunError (List Value) :=
  p.outputs.mapM fun id => match p.lookup? given m id with
    | some v => .ok v
    | none => .error (.planning (.outputNotComputed (p.graph.nodeName id)))

/-- The inputs by their nodes, and the memory before the first step. The inputs are checked in the
order of a slot table that they enter as they come. -/
def start (p : Program) (inputs : List (NodeId × Value)) : Except RunError (IdMap Value × Memory) := do
  let given ← p.givenValues inputs
  let ids := (SlotTable.ofList (inputs.map (·.1))).ids
  return (given, ← p.checkInputs ids given p.startMemory)

/-- Runs a program on values for its inputs. -/
def run (p : Program) (inputs : List (NodeId × Value)) : Run :=
  match p.start inputs with
  | .error e => { trace := [], result := .error e }
  | .ok (given, m) =>
    let (trace, finished) := p.runSteps given p.steps m
    { trace, result := finished.bind (p.results given) }

end Program

end TensorGraph
