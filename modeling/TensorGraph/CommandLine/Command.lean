import TensorGraph.CommandLine.Options
import TensorGraph.CommandLine.Sample
import TensorGraph.Formula.Build
import TensorGraph.Formula.Reading
import TensorGraph.Report

/-!
# The command

Compiles a formula over declared inputs, prints a summary of the result or a report about it, and
runs it on sample inputs if asked to.
-/

namespace TensorGraph.CommandLine

/-- A computation that prints lines and may fail with a message. -/
abbrev CommandM := ExceptT String (StateM (List String))

/-- Prints lines. -/
def say (lines : List String) : CommandM Unit := modify (· ++ lines)

/-- The value of a result, or a failure with the message of the error. -/
def orFail {ε α : Type} (message : ε → String) : Except ε α → CommandM α
  | .ok a => pure a
  | .error e => throw (message e)

def helpLines : List String :=
  ["Compile and run tensor expressions.", "", "Usage: sten [OPTIONS] <expr>", "", "Options:",
    "  -i, --input <name[:dtype][dims]>",
    "                    Declare an input, eg. \"x:f32[batch, 3]\". May be repeated.",
    "  -m, --mode <mode> Compilation mode. One of FAST_COMPILE, FAST_RUN,",
    "                    DebugMode or NONE.",
    "  --including <tag> Also apply optimizations with this tag",
    "  --excluding <tag> Skip optimizations with this tag",
    "  -d, --dim <name=size>",
    "                    Size of a symbolic dimension for random inputs",
    "  -p, --print       Print the optimized graph",
    "  -r, --run         Run with random inputs",
    "  -t, --timing      Output timing info",
    "  -v, --verbose     Enable verbose logging",
    "  --json            Print a JSON report",
    "  -h, --help        Print help", "", "Functions:"] ++ Formula.functionsHelp ++ [""]

/-- The mode that is asked for by name, or else the one that the environment describes. -/
def chooseMode (o : Options) (env : Environment) : CommandM Mode := do
  let m ← match o.mode with
    | some name => match Mode.ofName? name with
      | some m => pure m
      | none => throw ("unknown mode \"" ++ name ++ "\"")
    | none => pure (Mode.ofEnvironment env)
  let m := if o.including.isEmpty then m else m.including o.including
  return if o.excluding.isEmpty then m else m.excluding o.excluding

/-- Compiles the formula. -/
def compileFormula (o : Options) (env : Environment) : CommandM CompiledFunction := do
  let formula ← orFail FormulaError.message (Formula.ofString? o.expr)
  let g ← orFail FormulaMeaningError.message (formula.graph o.inputs)
  let mode ← chooseMode o env
  let (log, result) := mode.compile env.diagnosticLevel g
  say log
  orFail CompileError.message result

/-- What was compiled. -/
def summaryLines (o : Options) (f : CompiledFunction) : List String :=
  let shapeText (shape : Option (List Dimension)) := match shape with
    | some dims => bracketed (dims.map Dimension.text)
    | none => "[?]"
  ["Mode: " ++ f.mode,
    "Optimized " ++ toString f.stats.operatorsBefore ++ " operators to " ++
      toString f.stats.operatorsAfter ++ " with " ++ toString f.stats.totalRewrites ++
      " rewrites"] ++
    f.stats.sortedRewrites.map (fun (rule, n) => "  " ++ rule ++ ": " ++ toString n) ++
    (if o.printGraph then "" :: f.outline ++ [""] else []) ++
    (f.program.outputs.zip f.outputShapes).zipIdx.map fun ((id, shape), i) =>
      "Output " ++ toString i ++ " \"" ++ f.graph.nodeName id ++ "\" shape " ++ shapeText shape

/-- The first elements of a value. -/
def elementsText (limit : Nat) (v : Value) : String :=
  let items := match v with
    | .floats t => (t.data.toList.take limit).map fun x => fixedText 4 x.toFloat32.toFloat
    | .ints t => (t.data.toList.take limit).map toString
  bracketed (items ++ if limit < v.size then ["..."] else [])

/-- What a run returned. -/
def resultLines (outputs : List Value) : List String :=
  ("Returned " ++ toString outputs.length ++ " outputs in 0.00ms") ::
    outputs.zipIdx.map fun (v, i) =>
      "Output " ++ toString i ++ " data type " ++ v.type.text ++ " shape " ++
        countsText v.shape ++ " = " ++ elementsText 8 v

def reportLines (r : Report) : List String := (r.toDoc floatDoc).lines

/-- Runs a function on sample inputs. -/
def runSample (o : Options) (seed : Seed) (f : CompiledFunction) : CommandM Unit := do
  let inputs ← orFail id ((sampleInputs o.inputs o.dimSizes).run.run seed).1
  let symbols ← orFail RunError.message (f.bindInputs inputs)
  if !o.json then
    say ((o.inputs.zip inputs).map fun (spec, v) =>
      "Input \"" ++ spec.name ++ "\" resolved shape " ++ countsText v.shape)
  let r := f.call inputs
  if o.verbose then say (r.stepLines f.graph)
  let outputs ← orFail RunError.message r.result
  let timing := r.timing f.graph
  if o.json then
    say (reportLines { f.report o.expr (some symbols) with run := some { outputs, timing } })
  else
    say (resultLines outputs)
    if o.timing then say ("" :: timing.lines .byTime false)

/-- Does what the options ask for. -/
def execute (o : Options) (env : Environment) (seed : Seed) : CommandM Unit := do
  let f ← compileFormula o env
  if !o.json then say (summaryLines o f)
  if o.run then runSample o seed f
  else if o.json then say (reportLines (f.report o.expr none))

/-- What a command prints, and why it fails if it does. -/
structure Outcome where
  lines : List String
  error : Option String
deriving DecidableEq, Repr

/-- The exit code. -/
def Outcome.code (o : Outcome) : Nat := if o.error.isSome then 1 else 0

/-- Runs the command with the given arguments. -/
def run (args : List String) (env : Environment) (seed : Seed) : Outcome :=
  match Options.ofArguments args with
  | .error .help => { lines := helpLines, error := none }
  | .error (.invalid message) => { lines := [], error := some message }
  | .ok o => match (execute o env seed).run.run [] with
    | (.ok _, lines) => { lines, error := none }
    | (.error message, lines) => { lines, error := some message }

end TensorGraph.CommandLine
