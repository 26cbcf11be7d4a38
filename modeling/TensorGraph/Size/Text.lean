import TensorGraph.Size.Basic

/-!
# Text of size expressions

Expressions are written with infix operators and the fewest parentheses that keep their meaning:
a right operand of equal precedence is bracketed unless it continues a sum or a product.
-/

namespace TensorGraph.SizeExpr

/-- How tightly the outermost operator binds. -/
def precedence : SizeExpr → Nat
  | .value _ | .sym _ | .max .. | .min .. | .broadcast .. => 5
  | .neg _ => 4
  | .mul .. | .div .. => 3
  | .add .. | .sub .. => 2

/-- Whether `rhs` needs no parentheses as right operand of `e`, because both are sums or both are
products. -/
def continues : SizeExpr → SizeExpr → Bool
  | .add .., .add .. | .mul .., .mul .. => true
  | _, _ => false

/-- Puts a text into parentheses if asked to. -/
def bracketIf (b : Bool) (s : String) : String := if b then "(" ++ s ++ ")" else s

/-- The text of an expression. With `quote`, symbols stand between double quotes. -/
def text (quote : Bool) : SizeExpr → String
  | .value v => toString v
  | .sym s => if quote then "\"" ++ s.name ++ "\"" else s.name
  | .neg x => "-" ++ bracketIf (x.precedence < 4) (x.text quote)
  | .add a b => infixText "+" (.add a b) a (a.text quote) b (b.text quote)
  | .sub a b => infixText "-" (.sub a b) a (a.text quote) b (b.text quote)
  | .mul a b => infixText "*" (.mul a b) a (a.text quote) b (b.text quote)
  | .div a b => infixText "/" (.div a b) a (a.text quote) b (b.text quote)
  | .max a b => "max(" ++ a.text quote ++ ", " ++ b.text quote ++ ")"
  | .min a b => "min(" ++ a.text quote ++ ", " ++ b.text quote ++ ")"
  | .broadcast a b => "broadcast(" ++ a.text quote ++ ", " ++ b.text quote ++ ")"
where
  /-- The text of `e`, an operator between `a` and `b` whose texts are given. -/
  infixText (op : String) (e a : SizeExpr) (aText : String) (b : SizeExpr) (bText : String) :
      String :=
    let p := e.precedence
    bracketIf (a.precedence < p) aText ++ " " ++ op ++ " " ++
      bracketIf (b.precedence < p || (b.precedence == p && !e.continues b)) bText

instance : ToString SizeExpr := ⟨text false⟩

/-- The structure of an expression, with every operator in front of its operands. Symbols that may
be negative are marked. -/
def tree : SizeExpr → String
  | .value v => toString v
  | .sym s => if s.positive then s.name else "?" ++ s.name
  | .neg x => "(neg " ++ x.tree ++ ")"
  | .add a b => node "+" a.tree b.tree
  | .sub a b => node "-" a.tree b.tree
  | .mul a b => node "*" a.tree b.tree
  | .div a b => node "/" a.tree b.tree
  | .max a b => node "max" a.tree b.tree
  | .min a b => node "min" a.tree b.tree
  | .broadcast a b => node "bc" a.tree b.tree
where
  node (op a b : String) : String := "(" ++ op ++ " " ++ a ++ " " ++ b ++ ")"

end TensorGraph.SizeExpr
