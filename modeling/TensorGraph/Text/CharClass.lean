import TensorGraph.Text.CharTable
import TensorGraph.Text.InvisibleTable

/-!
# Classes of characters

Whitespace, letters, digits and invisible characters in the sense of the Unicode standard,
identifiers, and text between quotes, in which characters that are not seen by themselves are
written as codes.
-/

namespace TensorGraph

namespace CharClass

/-- Whether a code point lies in one of the runs. -/
def inRanges (ranges : Array (Nat × Nat)) (c : Char) : Bool :=
  ranges.any fun (first, last) => first ≤ c.toNat && c.toNat ≤ last

def isWhitespace (c : Char) : Bool :=
  let n := c.toNat
  (9 ≤ n && n ≤ 13) || n == 0x20 || n == 0x85 || n == 0xa0 || n == 0x1680 ||
    (0x2000 ≤ n && n ≤ 0x200a) || n == 0x2028 || n == 0x2029 || n == 0x202f || n == 0x205f ||
    n == 0x3000

def isAlphabetic (c : Char) : Bool :=
  if c.toNat < 0x80 then c.isAlpha else inRanges alphabeticRanges c

def isAlphanumeric (c : Char) : Bool :=
  if c.toNat < 0x80 then c.isAlphanum
  else inRanges alphabeticRanges c || inRanges numericRanges c

/-- Whether a character is not seen by itself: control characters and the like, separators other
than the blank, marks that extend the character before them, and letters that are fillers. -/
def isInvisible (c : Char) : Bool :=
  if c.toNat < 0x80 then c.toNat < 0x20 || c.toNat == 0x7f
  else inRanges extendingRanges c || inRanges shapelessRanges c || inRanges fillerRanges c

/-- Whether an identifier can start with the character. -/
def startsName (c : Char) : Bool := isAlphabetic c || c == '_'

/-- Whether an identifier can continue with the character. -/
def continuesName (c : Char) : Bool := isAlphanumeric c || c == '_'

end CharClass

/-- Whether the characters form an identifier. -/
def isIdentifier : List Char → Bool
  | [] => false
  | c :: cs => CharClass.startsName c && cs.all CharClass.continuesName

/-- Drops whitespace at both ends. -/
def trimmed (cs : List Char) : List Char :=
  ((cs.dropWhile CharClass.isWhitespace).reverse.dropWhile CharClass.isWhitespace).reverse

/-! ## Quoted text -/

/-- The code of a character in hexadecimal digits. -/
def hexCode (c : Char) : String := String.ofList (Nat.toDigits 16 c.toNat)

/-- How a character is written between quotes. -/
def escaped (c : Char) : String :=
  match c with
  | '"' => "\\\""
  | '\\' => "\\\\"
  | '\n' => "\\n"
  | '\r' => "\\r"
  | '\t' => "\\t"
  | c =>
    if c.toNat = 0 then "\\0"
    else if CharClass.isInvisible c then "\\u\x7b" ++ hexCode c ++ "\x7d"
    else c.toString

/-- A text between quotes. -/
def quoted (s : String) : String := "\"" ++ String.join (s.toList.map escaped) ++ "\""

end TensorGraph
