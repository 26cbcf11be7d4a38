/-!
# Sums and products of counts
-/

namespace TensorGraph

/-- The sum of some counts. -/
def total : List Nat → Nat
  | [] => 0
  | n :: ns => n + total ns

/-- The number of elements of a tensor with the given sizes, which is their product. -/
def volume : List Nat → Nat
  | [] => 1
  | n :: ns => n * volume ns

end TensorGraph
