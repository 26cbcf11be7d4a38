import TensorGraph.Single.Text

/-!
# Formulas

The syntax trees of the language in which computations are written on the command line.
-/

namespace TensorGraph

inductive FormulaOp where
  | add | sub | mul | div | pow
deriving DecidableEq, Repr

def FormulaOp.symbol : FormulaOp → String
  | .add => "+"
  | .sub => "-"
  | .mul => "*"
  | .div => "/"
  | .pow => "^"

/-- A syntax tree. -/
inductive Formula where
  | number (x : Single)
  | name (ident : String)
  /-- A list of integers such as `[0, -1]`. -/
  | list (items : List Int32)
  | neg (x : Formula)
  | binary (op : FormulaOp) (lhs rhs : Formula)
  /-- A function with positional and keyword arguments. -/
  | call (function : String) (args : List Formula) (keywords : List (String × Formula))
deriving Repr, Inhabited

namespace Formula

mutual

/-- The structure of a formula, with operators in front and numbers as their bits. -/
def tree : Formula → String
  | .number x => "#" ++ x.hexText
  | .name ident => ident
  | .list items => "[" ++ ", ".intercalate (items.map toString) ++ "]"
  | .neg x => "(neg " ++ x.tree ++ ")"
  | .binary op a b => "(" ++ op.symbol ++ " " ++ a.tree ++ " " ++ b.tree ++ ")"
  | .call function args keywords =>
    "(call " ++ function ++ argumentTrees args ++ keywordTrees keywords ++ ")"

def argumentTrees : List Formula → String
  | [] => ""
  | x :: xs => " " ++ x.tree ++ argumentTrees xs

def keywordTrees : List (String × Formula) → String
  | [] => ""
  | (key, x) :: xs => " " ++ key ++ "=" ++ x.tree ++ keywordTrees xs

end

end Formula

end TensorGraph
