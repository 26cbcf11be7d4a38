import TensorGraph.Single.Basic

/-!
# Numerals

Reading of decimal numerals. All characters of a text must belong to the numeral.
-/

namespace TensorGraph.Numeral

/-- The number that a list of digits stands for. -/
def ofDigits (digits : List Char) : Nat :=
  digits.foldl (fun n c => 10 * n + (c.toNat - '0'.toNat)) 0

/-- Reads a non-empty list of digits. -/
def digits? (cs : List Char) : Option Nat :=
  if !cs.isEmpty && cs.all Char.isDigit then some (ofDigits cs) else none

/-- Reads digits for a word. -/
def word? (cs : List Char) : Option Int32 := (digits? cs).bind fun n => Word.ofInt? n

/-- Reads a count below `2 ^ 64`, which may follow a plus sign. -/
def count? (cs : List Char) : Option Nat :=
  let digits := match cs with
    | '+' :: rest => rest
    | _ => cs
  (digits? digits).filter (· < Nat.pow 2 64)

/-- Reads an integer with an optional sign. -/
def signed? : List Char → Option Int
  | '-' :: cs => (digits? cs).map fun n => -n
  | '+' :: cs => (digits? cs).map fun n => n
  | cs => (digits? cs).map fun n => n

/-- Reads a number without a sign: digits with an optional point, at least one digit, and an
optional exponent. The result is the nearest number. -/
def single? (cs : List Char) : Option Single :=
  let isMark (c : Char) := c == 'e' || c == 'E'
  let mantissa := cs.takeWhile (!isMark ·)
  let exponent? := match cs.dropWhile (!isMark ·) with
    | [] => some 0
    | _ :: exponent => signed? exponent
  let whole := mantissa.takeWhile Char.isDigit
  let fraction? := match mantissa.dropWhile Char.isDigit with
    | [] => some []
    | '.' :: rest => if rest.all Char.isDigit then some rest else none
    | _ => none
  match exponent?, fraction? with
  | some exponent, some fraction =>
    if whole.isEmpty && fraction.isEmpty then none
    else some (.ofDecimal (ofDigits (whole ++ fraction)) (exponent - fraction.length))
  | _, _ => none

end TensorGraph.Numeral
