/-!
# Pieces of text

Lists between brackets, parts of a text, and numbers with a fixed number of decimals.
-/

namespace TensorGraph

/-- The items between square brackets, separated by commas. -/
def bracketed (items : List String) : String := "[" ++ ", ".intercalate items ++ "]"

/-- A list of counts between square brackets. -/
def countsText (counts : List Nat) : String := bracketed (counts.map toString)

/-! ## Cutting text -/

/-- The parts of a text between occurrences of a character. -/
def splitAtChar (c : Char) : List Char → List (List Char)
  | [] => [[]]
  | d :: ds => match splitAtChar c ds with
    | [] => [[d]]
    | part :: parts => if d = c then [] :: part :: parts else (d :: part) :: parts

/-- The text before the first occurrence of a character, and the text after it. -/
def cutAtChar? (c : Char) : List Char → Option (List Char × List Char)
  | [] => none
  | d :: ds =>
    if d = c then some ([], ds)
    else (cutAtChar? c ds).map fun (before, after) => (d :: before, after)

/-! ## Numbers with a fixed number of decimals -/

/-- The integer nearest to `n / d`; of two the even one. -/
def roundedQuotient (n d : Nat) : Nat :=
  let q := n / d
  let twice := 2 * (n % d)
  if d < twice || (twice == d && q % 2 == 1) then q + 1 else q

/-- The number `n / 10 ^ places`. -/
def pointText (places n : Nat) : String :=
  if places = 0 then toString n
  else
    let digits := (toString n).toList
    let digits := List.replicate (places + 1 - digits.length) '0' ++ digits
    let whole := digits.length - places
    String.ofList (digits.take whole ++ '.' :: digits.drop whole)

/-- A double with the given number of decimals, rounded from its exact value. -/
def fixedText (places : Nat) (x : Float) : String :=
  if x.isNaN then "NaN"
  else
    let bits := x.toBits
    let sign := if bits >>> 63 = 1 then "-" else ""
    if x.isInf then sign ++ "inf"
    else
      let biased := ((bits >>> 52) &&& 0x7ff).toNat
      let fraction := (bits &&& 0xfffffffffffff).toNat
      let m := if biased = 0 then fraction else fraction + 0x10000000000000
      let exponent := max biased 1
      -- The magnitude is `m * 2 ^ (exponent - 1075)`.
      sign ++ pointText places
        (roundedQuotient (m * Nat.pow 10 places * Nat.pow 2 (exponent - 1075))
          (Nat.pow 2 (1075 - exponent)))

end TensorGraph
