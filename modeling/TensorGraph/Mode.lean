import TensorGraph.Environment
import TensorGraph.Rewrite.Optimizer
import TensorGraph.Rewrite.Standard
import TensorGraph.Text.CharClass

/-!
# Compilation modes

A mode says which rules optimize a graph and which linker makes it a program.
-/

namespace TensorGraph

structure Mode where
  name : String
  /-- Selects the rules. Without it graphs are not optimized. -/
  query : Option RuleQuery
  linker : Linker
  /-- The limit of iterations of each phase of optimization. -/
  maxIterations : Nat := 10
deriving DecidableEq, Repr

namespace Mode

/-! ## Predefined modes -/

/-- A query for the rules with one tag. -/
def queryFor (tag : String) : RuleQuery := { anyOf := [tag] }

/-- Cheap optimizations and reference implementations. -/
def fastCompile : Mode := ⟨"FAST_COMPILE", some (queryFor "fast_compile"), .interpreted, 10⟩

/-- All optimizations, and kernels where there are any. -/
def fastRun : Mode := ⟨"FAST_RUN", some (queryFor "fast_run"), .hybrid true, 10⟩

/-- All optimizations, with every step checked. -/
def debug : Mode := ⟨"DebugMode", some (queryFor "fast_run"), .debug, 10⟩

/-- Graphs are run as they are. -/
def plain : Mode := ⟨"NONE", none, .interpreted, 10⟩

/-- The predefined mode with a given name. The case of ASCII letters does not matter. -/
def ofName? (name : String) : Option Mode :=
  match (String.ofList (trimmed name.toList)).toUpper with
  | "FAST_COMPILE" => some fastCompile
  | "FAST_RUN" => some fastRun
  | "DEBUGMODE" => some debug
  | "NONE" => some plain
  | _ => none

/-! ## Changing modes -/

/-- Adds tags to the query. If there is none, only rules with these tags are selected. -/
def including (m : Mode) (tags : List String) : Mode :=
  { m with query := some ((m.query.getD {}).including tags) }

def excluding (m : Mode) (tags : List String) : Mode :=
  { m with query := m.query.map (·.excluding tags) }

def requiring (m : Mode) (tags : List String) : Mode :=
  { m with query := m.query.map (·.requiring tags) }

/-- Sets the limit of iterations, which is at least one. -/
def withMaxIterations (m : Mode) (n : Nat) : Mode := { m with maxIterations := max n 1 }

/-- The mode that environment variables describe. Unknown names are ignored. -/
def ofEnvironment (env : Environment) : Mode :=
  let m := ((env.text? "STEN_MODE").bind ofName?).getD fastRun
  let m := match (env.text? "STEN_LINKER").bind Linker.ofName? with
    | some linker => { m with linker }
    | none => m
  let m := match env.list "STEN_OPTIMIZER_INCLUDING" with
    | [] => m
    | tags => m.including tags
  match env.list "STEN_OPTIMIZER_EXCLUDING" with
  | [] => m
  | tags => m.excluding tags

/-- The optimizer for a mode, if it has one. -/
def optimizer? (m : Mode) (level : DiagnosticLevel) : Option Optimizer :=
  m.query.map fun query =>
    { rules := .standard, query, maxIterations := m.maxIterations, level }

/-! ## Texts -/

def text (m : Mode) : String :=
  let query := match m.query with
    | some q => "optimizer " ++ q.text
    | none => "no optimizer"
  m.name ++ " (linker " ++ m.linker.name ++ ", " ++ query ++ ")"

/-- A list of quoted texts. -/
def quotedList (xs : List String) : String := bracketed (xs.map quoted)

/-- All fields of a mode. -/
def details (m : Mode) : String :=
  let query := match m.query with
    | some q =>
      "Some(Query \x7b include: " ++ quotedList q.anyOf ++ ", require: " ++ quotedList q.allOf ++
        ", exclude: " ++ quotedList q.noneOf ++ " \x7d)"
    | none => "None"
  "Mode \x7b name: " ++ quoted m.name ++ ", optimizer: " ++ query ++ ", linker: " ++
    quoted m.linker.name ++ ", max_iterations: " ++ toString m.maxIterations ++ " \x7d"

end Mode

namespace RewriteRule

/-- The name, tags and phases of a rule. -/
def details (rule : RewriteRule) : String :=
  let phases := rule.phases.map fun
    | .canonicalize => "Canonicalize"
    | .stabilize => "Stabilize"
    | .specialize => "Specialize"
    | .fusion => "Fusion"
    | .inPlace => "Inplace"
  "RuleEntry \x7b name: " ++ quoted rule.name ++ ", tags: " ++ Mode.quotedList rule.tags ++
    ", phases: " ++ bracketed phases ++ " \x7d"

end RewriteRule

end TensorGraph
