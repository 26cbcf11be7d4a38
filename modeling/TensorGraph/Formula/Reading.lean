import TensorGraph.Formula.Basic
import TensorGraph.Formula.Token
import TensorGraph.Text.Numeral

/-!
# Reading formulas

The grammar of formulas is

```
sum       := product (('+' | '-') product)*
product   := unary (('*' | '/') unary)*
unary     := '-' unary | power
power     := primary ('^' unary)?
primary   := number | name | name '(' arguments ')' | '(' sum ')' | list
arguments := (argument (',' argument)*)?
argument  := sum | name '=' sum
list      := '[' (integer (',' integer)*)? ']'
```

where keyword arguments follow positional ones. There is one function for each rule. It returns
what it read and the tokens after it. Each function takes tokens away or calls one that stands
further down in the grammar, so reading ends.
-/

namespace TensorGraph.Formula

/-- The tokens that are left to read. -/
abbrev Rest := List PlacedToken

/-- What was read, and the tokens after it, of which there are fewer than `bound`. -/
structure Read (α : Type) (bound : Nat) where
  value : α
  rest : Rest
  fewer : rest.length < bound

abbrev Reading (α : Type) (bound : Nat) := Except FormulaError (Read α bound)

/-- The offset of the next token, or of the end of the text. -/
def offsetOf (endOffset : Nat) : Rest → Nat
  | [] => endOffset
  | t :: _ => t.offset

/-- The error that the tokens begin with none of the expected ones. -/
def unexpected {α : Type} {bound : Nat} (endOffset : Nat) (expected : String) : Rest → Reading α bound
  | [] => .error ⟨endOffset, .unexpectedEnd expected⟩
  | t :: _ => .error ⟨t.offset, .unexpectedToken expected t.token.text⟩

/-- Skips a token. -/
def expect (endOffset : Nat) (token : Token) (expected : String) : (ts : Rest) → Reading Unit ts.length
  | t :: ts =>
    if t.token = token then .ok ⟨(), ts, Nat.lt_succ_self _⟩ else unexpected endOffset expected (t :: ts)
  | [] => unexpected endOffset expected []

/-! ## Lists -/

/-- The digits of an integer, whose sign is known and whose text begins at `start`. -/
def readDigits (endOffset start : Nat) (negative : Bool) : (ts : Rest) → Reading Int32 ts.length
  | ⟨_, .number chars⟩ :: rest => match Numeral.word? chars with
    | some n => .ok ⟨if negative then -n else n, rest, Nat.lt_succ_self _⟩
    | none => .error ⟨start, .invalidNumber (String.ofList chars)⟩
  | [] => .error ⟨endOffset, .unexpectedEnd "an integer"⟩
  | t :: _ => .error ⟨start, .unexpectedToken "an integer" t.token.text⟩

/-- An integer with an optional minus sign. -/
def readInteger (endOffset : Nat) : (ts : Rest) → Reading Int32 ts.length
  | ⟨start, .minus⟩ :: ts => do
    let ⟨n, rest, h⟩ ← readDigits endOffset start true ts
    return ⟨n, rest, Nat.lt_succ_of_lt h⟩
  | ts => readDigits endOffset (offsetOf endOffset ts) false ts

/-- The items of a list that is not empty, and its closing bracket. -/
def readItems (endOffset : Nat) (ts : Rest) : Reading (List Int32) ts.length := do
  let ⟨item, rest, h⟩ ← readInteger endOffset ts
  match rest, h with
  | ⟨_, .comma⟩ :: ts', h => do
    have h := Nat.lt_of_succ_lt h
    let ⟨items, rest, h'⟩ ← readItems endOffset ts'
    return ⟨item :: items, rest, Nat.lt_trans h' h⟩
  | ts', h => do
    let ⟨(), rest, h'⟩ ← expect endOffset .rightBracket "',' or ']'" ts'
    return ⟨[item], rest, Nat.lt_trans h' h⟩
termination_by ts.length

/-! ## Formulas -/

/-- What a formula can begin with. -/
def primaryStart : String := "a number, name, '(' or '['"

/-- The operator of a sum that a token stands for. -/
def sumOp? : Token → Option FormulaOp
  | .plus => some .add
  | .minus => some .sub
  | _ => none

/-- The operator of a product that a token stands for. -/
def productOp? : Token → Option FormulaOp
  | .star => some .mul
  | .slash => some .div
  | _ => none

/-- The arguments of a call. -/
abbrev Arguments := List Formula × List (String × Formula)

mutual

def readSum (endOffset : Nat) (ts : Rest) : Reading Formula ts.length := do
  let ⟨lhs, rest, h⟩ ← readProduct endOffset ts
  let ⟨sum, rest, h'⟩ ← readSumTail endOffset lhs rest
  return ⟨sum, rest, by omega⟩
termination_by (ts.length, 8)

/-- The rest of a sum that begins with `lhs`. -/
def readSumTail (endOffset : Nat) (lhs : Formula) : (ts : Rest) → Reading Formula (ts.length + 1)
  | [] => .ok ⟨lhs, [], by simp⟩
  | t :: ts => match sumOp? t.token with
    | some op => do
      let ⟨rhs, rest, h⟩ ← readProduct endOffset ts
      let ⟨sum, rest, h'⟩ ← readSumTail endOffset (.binary op lhs rhs) rest
      return ⟨sum, rest, by grind⟩
    | none => .ok ⟨lhs, t :: ts, by simp⟩
termination_by ts => (ts.length, 9)

def readProduct (endOffset : Nat) (ts : Rest) : Reading Formula ts.length := do
  let ⟨lhs, rest, h⟩ ← readUnary endOffset ts
  let ⟨product, rest, h'⟩ ← readProductTail endOffset lhs rest
  return ⟨product, rest, by omega⟩
termination_by (ts.length, 6)

/-- The rest of a product that begins with `lhs`. -/
def readProductTail (endOffset : Nat) (lhs : Formula) : (ts : Rest) → Reading Formula (ts.length + 1)
  | [] => .ok ⟨lhs, [], by simp⟩
  | t :: ts => match productOp? t.token with
    | some op => do
      let ⟨rhs, rest, h⟩ ← readUnary endOffset ts
      let ⟨product, rest, h'⟩ ← readProductTail endOffset (.binary op lhs rhs) rest
      return ⟨product, rest, by grind⟩
    | none => .ok ⟨lhs, t :: ts, by simp⟩
termination_by ts => (ts.length, 7)

def readUnary (endOffset : Nat) : (ts : Rest) → Reading Formula ts.length
  | ⟨_, .minus⟩ :: ts => do
    let ⟨x, rest, h⟩ ← readUnary endOffset ts
    return ⟨.neg x, rest, Nat.lt_succ_of_lt h⟩
  | ts => readPower endOffset ts
termination_by ts => (ts.length, 5)

def readPower (endOffset : Nat) (ts : Rest) : Reading Formula ts.length := do
  let ⟨base, rest, h⟩ ← readPrimary endOffset ts
  match rest, h with
  | ⟨_, .caret⟩ :: ts', h => do
    have h := Nat.lt_of_succ_lt h
    let ⟨exponent, rest, h'⟩ ← readUnary endOffset ts'
    return ⟨.binary .pow base exponent, rest, Nat.lt_trans h' h⟩
  | rest, h => return ⟨base, rest, h⟩
termination_by (ts.length, 4)

def readPrimary (endOffset : Nat) : (ts : Rest) → Reading Formula ts.length
  | ⟨offset, .number chars⟩ :: ts => match Numeral.single? chars with
    | some x => .ok ⟨.number x, ts, Nat.lt_succ_self _⟩
    | none => .error ⟨offset, .invalidNumber (String.ofList chars)⟩
  | ⟨_, .name function⟩ :: ⟨_, .leftParen⟩ :: ts => do
    let ⟨(args, keywords), rest, h⟩ ← readArguments endOffset ts
    return ⟨.call function args keywords, rest, Nat.lt_succ_of_lt (Nat.lt_succ_of_lt h)⟩
  | ⟨_, .name ident⟩ :: ts => .ok ⟨.name ident, ts, Nat.lt_succ_self _⟩
  | ⟨_, .leftParen⟩ :: ts => do
    let ⟨inner, rest, h⟩ ← readSum endOffset ts
    let ⟨(), rest, h'⟩ ← expect endOffset .rightParen "')'" rest
    return ⟨inner, rest, Nat.lt_succ_of_lt (Nat.lt_trans h' h)⟩
  | ⟨_, .leftBracket⟩ :: ⟨_, .rightBracket⟩ :: ts => .ok ⟨.list [], ts, Nat.lt_succ_of_lt (Nat.lt_succ_self _)⟩
  | ⟨_, .leftBracket⟩ :: ts => do
    let ⟨items, rest, h⟩ ← readItems endOffset ts
    return ⟨.list items, rest, Nat.lt_succ_of_lt h⟩
  | ts => unexpected endOffset primaryStart ts
termination_by ts => (ts.length, 3)

/-- The arguments of a call, and its closing parenthesis. -/
def readArguments (endOffset : Nat) : (ts : Rest) → Reading Arguments ts.length
  | ⟨_, .rightParen⟩ :: ts => .ok ⟨([], []), ts, Nat.lt_succ_self _⟩
  | ts => readArgument endOffset false ts
termination_by ts => (ts.length, 11)

/-- An argument and those after it. Once a keyword was seen, no positional argument may follow. -/
def readArgument (endOffset : Nat) (seenKeyword : Bool) : (ts : Rest) → Reading Arguments ts.length
  | ⟨_, .name key⟩ :: ⟨_, .equals⟩ :: ts => do
    let ⟨x, rest, h⟩ ← readSum endOffset ts
    let ⟨(args, keywords), rest, h'⟩ ← readMoreArguments endOffset true rest
    return ⟨(args, (key, x) :: keywords), rest, by grind⟩
  | ts =>
    if seenKeyword then .error ⟨offsetOf endOffset ts, .positionalAfterKeyword⟩
    else do
      let ⟨x, rest, h⟩ ← readSum endOffset ts
      let ⟨(args, keywords), rest, h'⟩ ← readMoreArguments endOffset false rest
      return ⟨(x :: args, keywords), rest, Nat.lt_trans h' h⟩
termination_by ts => (ts.length, 10)

/-- The arguments after a comma, if there is one, and the closing parenthesis. -/
def readMoreArguments (endOffset : Nat) (seenKeyword : Bool) :
    (ts : Rest) → Reading Arguments ts.length
  | ⟨_, .comma⟩ :: ts => do
    let ⟨arguments, rest, h⟩ ← readArgument endOffset seenKeyword ts
    return ⟨arguments, rest, Nat.lt_succ_of_lt h⟩
  | ts => do
    let ⟨(), rest, h⟩ ← expect endOffset .rightParen "',' or ')'" ts
    return ⟨([], []), rest, h⟩
termination_by ts => (ts.length, 0)

end

/-- Reads a formula that takes up the whole text. -/
def ofString? (text : String) : Except FormulaError Formula := do
  let endOffset := text.utf8ByteSize
  let tokens ← PlacedToken.scan 0 text.toList
  let ⟨formula, rest, _⟩ ← readSum endOffset tokens
  match rest with
  | [] => return formula
  | t :: _ =>
    .error ⟨t.offset, .unexpectedToken "an operator or the end of the expression" t.token.text⟩

end TensorGraph.Formula
