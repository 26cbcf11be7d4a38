import TensorGraph.Single.Basic

/-!
# Text of single-precision numbers

A number is written with the fewest digits that read back as it, and among those with the digits
nearest to it. `Single.text` is always positional; `Single.exactText` shows that the number is not
an integer, and changes to an exponent for very large and very small numbers.
-/

namespace TensorGraph

/-- A positive decimal number, `0.d₁d₂… * 10 ^ exponent`. -/
structure Decimal where
  digits : List Char
  exponent : Int
deriving Repr, DecidableEq

namespace Decimal

/-- Drops zeros at the end of a digit string. -/
def dropTrailingZeros (digits : List Char) : List Char :=
  (digits.reverse.dropWhile (· == '0')).reverse

/-- The decimal number `n * 10 ^ scale`. -/
def ofScaled (n : Nat) (scale : Int) : Decimal :=
  let digits := (toString n).toList
  ⟨dropTrailingZeros digits, digits.length + scale⟩

/-- Writes the number without an exponent. With `point`, integers end in `.0`. -/
def positional (point : Bool) (d : Decimal) : String :=
  let len := d.digits.length
  let zeros (n : Nat) := List.replicate n '0'
  let chars :=
    if d.exponent ≤ 0 then '0' :: '.' :: zeros d.exponent.natAbs ++ d.digits
    else
      let whole := d.exponent.toNat
      if whole < len then d.digits.take whole ++ '.' :: d.digits.drop whole
      else d.digits ++ zeros (whole - len) ++ if point then ['.', '0'] else []
  String.ofList chars

/-- Writes the number with one digit before the point and an exponent. With `plus`, an exponent that
is not negative has a sign, too. -/
def scientific (plus : Bool) (d : Decimal) : String :=
  let fraction := match d.digits.drop 1 with
    | [] => []
    | rest => '.' :: rest
  let sign := if plus && 1 ≤ d.exponent then "+" else ""
  String.ofList (d.digits.take 1 ++ fraction) ++ "e" ++ sign ++ toString (d.exponent - 1)

end Decimal

/-- The numbers that round to a binary number, and that number: `low`, `value` and `high` stand
over `den`. The ends belong to it if `closed` holds. -/
structure RoundingInterval where
  low : Nat
  value : Nat
  high : Nat
  den : Nat
  closed : Bool

namespace RoundingInterval

/-- Whether `n / d` rounds to the number. -/
def contains (r : RoundingInterval) (n d : Nat) : Bool :=
  let below := if r.closed then r.low * d ≤ n * r.den else r.low * d < n * r.den
  let above := if r.closed then n * r.den ≤ r.high * d else n * r.den < r.high * d
  below && above

/-- The least `e` from -45 on with `value / den < 10 ^ e`. -/
def decimalExponent (r : RoundingInterval) : Int :=
  let isAbove (e : Int) := r.value * Nat.pow 10 (-e).toNat < r.den * Nat.pow 10 e.toNat
  (((List.range 90).map fun (i : Nat) => (i : Int) - 45).find? isAbove).getD 45

/-- The nearest multiple of `10 ^ scale` that rounds to the number, if one of the two around it
does. Of two equally near ones it is the larger. -/
def nearestMultiple? (r : RoundingInterval) (scale : Int) : Option Decimal :=
  let up := Nat.pow 10 scale.toNat
  let down := Nat.pow 10 (-scale).toNat
  let below := r.value * down / (r.den * up)
  let above := below + 1
  let candidate (n : Nat) := some (Decimal.ofScaled n scale)
  match r.contains (below * up) down, r.contains (above * up) down with
  | false, false => none
  | true, false => candidate below
  | false, true => candidate above
  | true, true =>
    if 2 * r.value * down < (below + above) * up * r.den then candidate below else candidate above

/-- The shortest decimal number that rounds to the number. -/
def shortest (r : RoundingInterval) : Decimal :=
  let e := r.decimalExponent
  ((List.range 20).findSome? fun (n : Nat) => r.nearestMultiple? (e - (n + 1))).getD ⟨['0'], 1⟩

end RoundingInterval

namespace Single

/-- The numbers that round to a finite number other than zero, without its sign. -/
def roundingInterval (x : Single) : RoundingInterval :=
  let biased := (x.magnitude >>> 23).toNat
  let fraction := (x.magnitude &&& 0x7fffff).toNat
  let m := if biased = 0 then fraction else fraction + 0x800000
  -- In units of a quarter of the last place, `value` is `4 * m` and a unit is `2 ^ (e - 152)`.
  let e := Nat.max biased 1
  let scale := Nat.pow 2 (e - 152)
  let gap := if fraction = 0 && 1 < biased then 1 else 2
  { low := (4 * m - gap) * scale, value := 4 * m * scale, high := (4 * m + 2) * scale,
    den := Nat.pow 2 (152 - e), closed := m % 2 == 0 }

/-- Writes the sign of a number, and its magnitude with the given function. -/
def textWith (zeroText : String) (write : Decimal → String) (x : Single) : String :=
  if x.isNaN then "NaN"
  else (if x.isNegative then "-" else "") ++
    if x.isZero then zeroText
    else if x.isFinite then write x.roundingInterval.shortest
    else "inf"

/-- The number in positional notation. -/
def text : Single → String := textWith "0" (Decimal.positional false)

/-- The number with a point or an exponent. The notation is positional from one ten-thousandth up
to ten to the sixteenth. -/
def exactText (x : Single) : String :=
  let isPositional := 0x38d1b717 ≤ x.magnitude && x.magnitude < 0x5a0e1bca
  textWith "0.0" (if isPositional then Decimal.positional true else Decimal.scientific false) x

/-- A finite number as it is written in JSON: with a point or a signed exponent, and positional from
one millionth up to ten to the thirteenth. -/
def jsonText : Single → String := textWith "0.0" fun d =>
  if -6 < d.exponent ∧ d.exponent ≤ 13 then d.positional true else d.scientific true

instance : ToString Single := ⟨text⟩

/-- The bits as eight hexadecimal digits. -/
def hexText (x : Single) : String :=
  String.ofList <| (List.range 8).reverse.map fun i =>
    Nat.digitChar ((x.bits >>> (4 * i).toUInt32).toNat % 16)

end Single

end TensorGraph
