/-!
# Exact arithmetic on 32-bit integers

Operations on `Int32` that say when the exact result leaves the 32-bit range: `ofInt?` gives the
word with a given integer value if there is one, and `saturate` the nearest word.
-/

namespace TensorGraph.Word

/-- The word whose value is `x`, if `x` fits in 32 signed bits. -/
def ofInt? (x : Int) : Option Int32 :=
  if -2147483648 ≤ x ∧ x ≤ 2147483647 then some (Int32.ofInt x) else none

/-- The word nearest to `x`. -/
def saturate (x : Int) : Int32 :=
  Int32.ofInt (max (-2147483648) (min 2147483647 x))

/-- The word with the value of a count, reduced modulo `2 ^ 32`. -/
def ofCount (n : Nat) : Int32 := Int32.ofInt n

/-- The count that `x` stands for, if it is not negative. -/
def toCount? (x : Int32) : Option Nat :=
  if 0 ≤ x.toInt then some x.toInt.toNat else none

def add? (x y : Int32) : Option Int32 := ofInt? (x.toInt + y.toInt)
def sub? (x y : Int32) : Option Int32 := ofInt? (x.toInt - y.toInt)
def mul? (x y : Int32) : Option Int32 := ofInt? (x.toInt * y.toInt)
def neg? (x : Int32) : Option Int32 := ofInt? (-x.toInt)

/-- The quotient rounded towards negative infinity, unless `y` is zero or the quotient does not
fit. -/
def floorDiv? (x y : Int32) : Option Int32 :=
  if y = 0 then none else ofInt? (x.toInt.fdiv y.toInt)

theorem ofInt?_eq_some_iff {x : Int} {w : Int32} : ofInt? x = some w ↔ w.toInt = x := by
  unfold ofInt?
  constructor
  · intro h
    split at h
    · next hx =>
      cases h
      exact Int32.toInt_ofInt_of_le (by omega) (by omega)
    · cases h
  · rintro rfl
    have h1 := w.le_toInt
    have h2 := w.toInt_lt
    rw [if_pos (by constructor <;> omega), Int32.ofInt_toInt]

end TensorGraph.Word
