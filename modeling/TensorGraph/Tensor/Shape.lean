import TensorGraph.Count

/-!
# Shapes and offsets

A shape is the list of a tensor's sizes, and its elements are numbered in row-major order, the last
dimension fastest. This file says which shapes broadcast to which, and lists the offsets of the
elements that are read when a tensor is broadcast or its dimensions are permuted.
-/

namespace TensorGraph

namespace Shape

/-! ## Broadcasting -/

/-- The size that two sizes broadcast to, if they are equal or one of them is 1. -/
def broadcastSize? (a b : Nat) : Option Nat :=
  if a = b then some a else if a = 1 then some b else if b = 1 then some a else none

/-- The shape that two shapes broadcast to, all with the last dimension first. -/
def broadcastReversed? : List Nat → List Nat → Option (List Nat)
  | [], bs => some bs
  | as, [] => some as
  | a :: as, b :: bs => do
    let size ← broadcastSize? a b
    return size :: (← broadcastReversed? as bs)

/-- The shape that two shapes broadcast to. They are aligned at their last dimensions, and missing
dimensions have size 1. -/
def broadcast? (a b : List Nat) : Option (List Nat) :=
  (broadcastReversed? a.reverse b.reverse).map List.reverse

/-- The shape that all given shapes broadcast to. -/
def broadcastAll? (shapes : List (List Nat)) : Option (List Nat) := shapes.foldlM broadcast? []

/-- Whether a tensor of shape `source` can be broadcast to shape `target`. -/
def canBroadcast (source target : List Nat) : Bool :=
  source.length ≤ target.length &&
    (source.zip (target.drop (target.length - source.length))).all fun (s, t) => s == t || s == 1

/-! ## Offsets -/

/-- For each dimension, the distance between elements that are neighbours along it. -/
def strides : List Nat → List Nat
  | [] => []
  | _ :: rest => volume rest :: strides rest

/-- Where a walk through dimensions is: the index in each dimension, and the offset that is read there. -/
structure Odometer where
  index : List Nat
  offset : Nat

namespace Odometer

/-- Moves on by one position in dimensions that are given by their sizes and strides, the last one
fastest. A dimension that is at its end goes back to its start and lets the dimension before it move
on. The flag says whether all of them have gone back. -/
def advance : List (Nat × Nat) → Odometer → Bool × Odometer
  | (size, stride) :: dims, ⟨i :: index, offset⟩ =>
    match advance dims ⟨index, offset⟩ with
    | (false, o) => (false, ⟨i :: o.index, o.offset⟩)
    | (true, o) =>
      let offset := o.offset + stride
      if i + 1 < size then (false, ⟨(i + 1) :: o.index, offset⟩)
      else (true, ⟨0 :: o.index, offset - stride * (i + 1)⟩)
  | _, o => (true, o)

/-- Adds the offsets at the next `count` positions to those found so far. -/
def run (dims : List (Nat × Nat)) : Nat → Odometer → Array Nat → Array Nat
  | 0, _, found => found
  | count + 1, o, found => run dims count (advance dims o).2 (found.push o.offset)

end Odometer

/-- The offsets that are read at the first `count` positions when each dimension, given by its size
and its stride, is walked through, the last one fastest. -/
def offsets (count : Nat) (dims : List (Nat × Nat)) : List Nat :=
  (Odometer.run dims count ⟨List.replicate dims.length 0, 0⟩ #[]).toList

/-- The strides with which a tensor of shape `source` is read when it is broadcast to a shape of
rank `rank`: zero where its size is 1 or the dimension is missing. -/
def broadcastStrides (source : List Nat) (rank : Nat) : List Nat :=
  List.replicate (rank - source.length) 0 ++
    (source.zip (strides source)).map fun (size, stride) => if size = 1 then 0 else stride

/-- The offsets of the elements that are read when a tensor of shape `source` is broadcast to
`target`, in row-major order of `target`. -/
def broadcastOffsets (source target : List Nat) : List Nat :=
  offsets (volume target) (target.zip (broadcastStrides source target.length))

end Shape

end TensorGraph
