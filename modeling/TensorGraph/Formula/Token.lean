import TensorGraph.Count
import TensorGraph.Text.CharClass

/-!
# Tokens of formulas

A formula is cut into tokens from left to right, each as long as possible, with whitespace between
them ignored.
-/

namespace TensorGraph

inductive Token where
  /-- Characters that look like a number; whether they are one is decided later. -/
  | number (chars : List Char)
  | name (text : String)
  | plus | minus | star | slash | caret
  | leftParen | rightParen | leftBracket | rightBracket
  | comma | equals
deriving DecidableEq, Repr

/-- The token as it is called in messages. -/
def Token.text : Token → String
  | .number chars => "number " ++ String.ofList chars
  | .name text => "name \"" ++ text ++ "\""
  | .plus => "'+'"
  | .minus => "'-'"
  | .star => "'*'"
  | .slash => "'/'"
  | .caret => "'^'"
  | .leftParen => "'('"
  | .rightParen => "')'"
  | .leftBracket => "'['"
  | .rightBracket => "']'"
  | .comma => "','"
  | .equals => "'='"

/-- The token that consists of one character. -/
def Token.ofChar? : Char → Option Token
  | '+' => some .plus
  | '-' => some .minus
  | '*' => some .star
  | '/' => some .slash
  | '^' => some .caret
  | '(' => some .leftParen
  | ')' => some .rightParen
  | '[' => some .leftBracket
  | ']' => some .rightBracket
  | ',' => some .comma
  | '=' => some .equals
  | _ => none

/-- What is wrong with a formula. -/
inductive FormulaFault where
  | unexpectedChar (c : Char)
  | unexpectedToken (expected found : String)
  | unexpectedEnd (expected : String)
  | invalidNumber (text : String)
  | positionalAfterKeyword
deriving DecidableEq, Repr

/-- A fault and where it was found, counted in bytes. -/
structure FormulaError where
  offset : Nat
  fault : FormulaFault
deriving DecidableEq, Repr

/-- A short name for the kind of error. -/
def FormulaError.kind (e : FormulaError) : String :=
  match e.fault with
  | .unexpectedChar _ => "UnexpectedChar"
  | .unexpectedToken .. => "UnexpectedToken"
  | .unexpectedEnd _ => "UnexpectedEnd"
  | .invalidNumber _ => "InvalidNumber"
  | .positionalAfterKeyword => "PositionalAfterKeyword"

def FormulaError.message (e : FormulaError) : String :=
  "syntax error at offset " ++ toString e.offset ++ ": " ++
    match e.fault with
    | .unexpectedChar c => "unexpected character '" ++ c.toString ++ "'"
    | .unexpectedToken expected found => "expected " ++ expected ++ " but found " ++ found
    | .unexpectedEnd expected => "expected " ++ expected ++ " but reached the end"
    | .invalidNumber text => "invalid number \"" ++ text ++ "\""
    | .positionalAfterKeyword => "positional argument follows keyword argument"

/-- A token and the offset of its first byte. -/
structure PlacedToken where
  offset : Nat
  token : Token
deriving DecidableEq, Repr

namespace PlacedToken

/-- Whether a number continues with `c` after the character `last`. A sign continues it after the
mark of an exponent. -/
def continuesNumber (last c : Char) : Bool :=
  c.isDigit || c == '.' || c == 'e' || c == 'E' ||
    ((c == '-' || c == '+') && (last == 'e' || last == 'E'))

/-- Splits off the characters that continue a number whose last character is given. -/
def splitNumber (last : Char) : List Char → List Char × List Char
  | [] => ([], [])
  | c :: cs =>
    if continuesNumber last c then
      let (taken, rest) := splitNumber c cs
      (c :: taken, rest)
    else ([], c :: cs)

/-- Splits off the characters that continue a name. -/
def splitName (cs : List Char) : List Char × List Char :=
  (cs.takeWhile CharClass.continuesName, cs.dropWhile CharClass.continuesName)

def utf8Length (cs : List Char) : Nat := total (cs.map Char.utf8Size)

theorem length_splitNumber_le (last : Char) (cs : List Char) :
    (splitNumber last cs).2.length ≤ cs.length := by
  induction cs generalizing last with
  | nil => simp [splitNumber]
  | cons c cs ih =>
    simp only [splitNumber]
    split
    · exact Nat.le_succ_of_le (ih c)
    · simp

theorem length_splitName_le (cs : List Char) : (splitName cs).2.length ≤ cs.length :=
  (List.dropWhile_sublist _).length_le

/-- The tokens of a text that begins at the given offset. -/
def scan (offset : Nat) : List Char → Except FormulaError (List PlacedToken)
  | [] => .ok []
  | c :: cs =>
    let next := offset + c.utf8Size
    if CharClass.isWhitespace c then scan next cs
    else if let some token := Token.ofChar? c then do
      return ⟨offset, token⟩ :: (← scan next cs)
    else if c.isDigit || c == '.' then do
      let split := splitNumber c cs
      return ⟨offset, .number (c :: split.1)⟩ :: (← scan (next + utf8Length split.1) split.2)
    else if CharClass.startsName c then do
      let split := splitName cs
      let token := Token.name (String.ofList (c :: split.1))
      return ⟨offset, token⟩ :: (← scan (next + utf8Length split.1) split.2)
    else .error ⟨offset, .unexpectedChar c⟩
termination_by cs => cs.length
decreasing_by
  all_goals simp only [List.length_cons]
  all_goals first
    | omega
    | exact Nat.lt_succ_of_le (length_splitNumber_le c cs)
    | exact Nat.lt_succ_of_le (length_splitName_le cs)

end PlacedToken

end TensorGraph
