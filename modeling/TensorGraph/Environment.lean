import TensorGraph.Rewrite.Diagnostics
import TensorGraph.Program.Log
import TensorGraph.Text

/-!
# Settings from environment variables
-/

namespace TensorGraph

/-- The environment variables that are set. -/
structure Environment where
  entries : List (String × String) := []

namespace Environment

def get? (env : Environment) (name : String) : Option String := env.entries.lookup name

/-- Whether a variable is set to a word for yes. -/
def flag (env : Environment) (name : String) : Bool :=
  (env.get? name).any ["1", "true", "t", "yes", "y"].contains

/-- The value of a variable, unless it is empty. -/
def text? (env : Environment) (name : String) : Option String :=
  (env.get? name).filter (!·.isEmpty)

/-- The entries of a variable between commas, without whitespace around them. Empty ones are left
out. -/
def list (env : Environment) (name : String) : List String :=
  let entries := (splitAtChar ',' ((env.get? name).getD "").toList).map trimmed
  (entries.filter (!·.isEmpty)).map String.ofList

/-- The level of diagnostics. -/
def diagnosticLevel (env : Environment) : DiagnosticLevel :=
  ((env.text? "STEN_OPT_VERBOSE").bind DiagnosticLevel.ofName?).getD .off

def runOptions (env : Environment) : RunOptions :=
  { timing := env.flag "STEN_TIMING", verbose := env.flag "STEN_VERBOSE" }

/-- The names of the variables that are read. -/
def names : List String :=
  ["STEN_MODE", "STEN_LINKER", "STEN_OPTIMIZER_INCLUDING", "STEN_OPTIMIZER_EXCLUDING",
    "STEN_OPT_VERBOSE", "STEN_TIMING", "STEN_VERBOSE"]

end Environment

end TensorGraph
