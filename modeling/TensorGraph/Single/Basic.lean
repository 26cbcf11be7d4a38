import TensorGraph.Word

/-!
# Single-precision numbers

A `Single` is a 32-bit floating-point number. It is held as its bits, so that `=` compares bits;
the numerical comparison, for which zeros are equal and a NaN differs from itself, is `Single.eq`.

Sums, products, quotients and square roots are rounded to the nearest number. The transcendental
functions are evaluated in double precision and then rounded.
-/

namespace TensorGraph

/-- A 32-bit floating-point number. -/
structure Single where
  bits : UInt32
deriving DecidableEq, Repr, Hashable

namespace Single

/-! ## Special numbers -/

def zero : Single := ⟨0x00000000⟩
def negZero : Single := ⟨0x80000000⟩
def one : Single := ⟨0x3f800000⟩
def nan : Single := ⟨0x7fc00000⟩
def infinity : Single := ⟨0x7f800000⟩
def negInfinity : Single := ⟨0xff800000⟩

instance : Inhabited Single := ⟨zero⟩

/-- The bits without the sign. -/
def magnitude (x : Single) : UInt32 := x.bits &&& 0x7fffffff

def isNegative (x : Single) : Bool := x.bits &&& 0x80000000 != 0
def isNaN (x : Single) : Bool := 0x7f800000 < x.magnitude
def isFinite (x : Single) : Bool := x.magnitude < 0x7f800000
def isZero (x : Single) : Bool := x.magnitude == 0

/-! ## Arithmetic -/

def ofFloat32 (x : Float32) : Single := ⟨x.toBits⟩
def toFloat32 (x : Single) : Float32 := .ofBits x.bits

/-- Numerical equality: a NaN differs from every number, and zeros are equal. -/
def eq (x y : Single) : Bool := !x.isNaN && !y.isNaN && (x == y || x.isZero && y.isZero)

def lt (x y : Single) : Bool := x.toFloat32 < y.toFloat32
def le (x y : Single) : Bool := x.toFloat32 ≤ y.toFloat32

/-- The sum. A zero leaves the other number as it is, and the sum of two zeros is negative if both are. -/
def add (x y : Single) : Single :=
  if x.isZero && y.isZero then ⟨x.bits &&& y.bits⟩
  else if x.isZero then y
  else if y.isZero then x
  else ofFloat32 (x.toFloat32 + y.toFloat32)

def sub (x y : Single) : Single := ofFloat32 (x.toFloat32 - y.toFloat32)
def mul (x y : Single) : Single := ofFloat32 (x.toFloat32 * y.toFloat32)
def div (x y : Single) : Single := ofFloat32 (x.toFloat32 / y.toFloat32)
def sqrt (x : Single) : Single := ofFloat32 x.toFloat32.sqrt

/-- Flips the sign, of a NaN too. -/
def neg (x : Single) : Single := ⟨x.bits ^^^ 0x80000000⟩

def abs (x : Single) : Single := ⟨x.magnitude⟩

theorem neg_neg (x : Single) : x.neg.neg = x := by
  simp only [neg, UInt32.xor_assoc, UInt32.xor_self, UInt32.xor_zero]

/-- The larger number, or the other one if one is a NaN. Of two zeros it is the first. -/
def max (x y : Single) : Single := if x.isNaN || x.lt y then y else x

/-- The smaller number, or the other one if one is a NaN. Of two zeros it is the first. -/
def min (x y : Single) : Single := if x.isNaN || y.lt x then y else x

/-- The larger number, or a NaN if one is a NaN. -/
def maximum (x y : Single) : Single := if x.isNaN || y.isNaN then nan else x.max y

/-- The smaller number, or a NaN if one is a NaN. -/
def minimum (x y : Single) : Single := if x.isNaN || y.isNaN then nan else x.min y

/-! ## Transcendental functions -/

/-- Applies a function of double-precision numbers. -/
def lift (f : Float → Float) (x : Single) : Single := ofFloat32 (f x.toFloat32.toFloat).toFloat32

def exp : Single → Single := lift Float.exp
def log : Single → Single := lift Float.log
def tanh : Single → Single := lift Float.tanh

def pow (x y : Single) : Single :=
  ofFloat32 (x.toFloat32.toFloat ^ y.toFloat32.toFloat).toFloat32

/-- The logarithm of `1 + x`. The quotient makes up for the digits of `x` that are lost in the
sum. -/
def log1p : Single → Single := lift fun x =>
  let sum := 1 + x
  if sum == 1 || (0 < sum && sum.isInf) then x else sum.log * (x / (sum - 1))

/-! ## Conversions -/

/-- The integer nearest to `x` on the side of zero; a NaN gives zero and numbers beyond the range
of words give its ends. -/
def toWord (x : Single) : Int32 :=
  if x.isNaN then 0
  else
    let exponent := (x.magnitude >>> 23).toNat
    let fraction := (x.magnitude &&& 0x7fffff).toNat + 0x800000
    let size : Nat :=
      if exponent < 127 then 0
      else if exponent < 150 then fraction >>> (150 - exponent)
      else fraction <<< (exponent - 150)
    Word.saturate (if x.isNegative then -size else size)

/-- The number nearest to an integer. -/
def ofInt (x : Int) : Single := ofFloat32 (.ofInt x)

def ofWord (x : Int32) : Single := ofInt x.toInt

/-- Whether the number is an integer. From `2 ^ 23` on all numbers are. -/
def isInteger (x : Single) : Bool :=
  x.isFinite && (0x4b000000 ≤ x.magnitude || (ofWord x.toWord).eq x)

/-- The number nearest to a count. -/
def ofCount (n : Nat) : Single := ofFloat32 (.ofNat n)

/-- The number nearest to `digits * 10 ^ exponent`. -/
def ofDecimal (digits : Nat) (exponent : Int) : Single :=
  if digits = 0 ∨ exponent + digits.log2 < -100 then zero
  else if 400 < exponent then infinity
  else ofFloat32 (.ofScientific digits (exponent < 0) exponent.natAbs)

end Single

end TensorGraph
