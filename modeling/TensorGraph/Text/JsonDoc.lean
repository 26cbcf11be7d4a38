/-!
# JSON documents

Documents as trees, and their text with one line for each item.
-/

namespace TensorGraph

inductive JsonDoc where
  | null
  /-- A number, given by its text. -/
  | number (text : String)
  | string (s : String)
  | array (items : List JsonDoc)
  | object (fields : List (String × JsonDoc))
deriving Repr, Inhabited

namespace JsonDoc

def count (n : Nat) : JsonDoc := .number (toString n)

/-- A code of four hexadecimal digits. -/
def hex4 (n : Nat) : String :=
  let digits := Nat.toDigits 16 n
  String.ofList (List.replicate (4 - digits.length) '0' ++ digits)

def escaped (c : Char) : String :=
  match c with
  | '"' => "\\\""
  | '\\' => "\\\\"
  | '\n' => "\\n"
  | '\r' => "\\r"
  | '\t' => "\\t"
  | '\x08' => "\\b"
  | '\x0c' => "\\f"
  | c => if c.toNat < 32 then "\\u" ++ hex4 c.toNat else c.toString

def stringText (s : String) : String := "\"" ++ String.join (s.toList.map escaped) ++ "\""

/-- The lines of items between brackets. Each item is given by its lines; the last line of every
item but the last ends with a comma. -/
def enclosed (left right : String) (items : List (List String)) : List String :=
  let comma (item : List String) := item.dropLast ++ (item.getLast?.map (· ++ ",")).toList
  let items := items.dropLast.map comma ++ items.getLast?.toList
  if items.isEmpty then [left ++ right]
  else left :: items.flatten.map ("  " ++ ·) ++ [right]

/-- Puts a key in front of the first line of a value. -/
def keyed (key : String) : List String → List String
  | first :: rest => (stringText key ++ ": " ++ first) :: rest
  | [] => []

mutual

/-- The text as lines, with items on lines of their own. -/
def lines : JsonDoc → List String
  | .null => ["null"]
  | .number text => [text]
  | .string s => [stringText s]
  | .array items => enclosed "[" "]" (itemLines items)
  | .object fields => enclosed "\x7b" "\x7d" (fieldLines fields)

def itemLines : List JsonDoc → List (List String)
  | [] => []
  | item :: items => item.lines :: itemLines items

def fieldLines : List (String × JsonDoc) → List (List String)
  | [] => []
  | (key, value) :: fields => keyed key value.lines :: fieldLines fields

end

end JsonDoc

end TensorGraph
