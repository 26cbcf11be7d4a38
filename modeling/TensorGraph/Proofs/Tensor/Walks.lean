import Mathlib.Data.List.Forall2
import TensorGraph.Tensor.Shape

/-!
# Walks through dimensions

An odometer reads the elements of a tensor one after the other, by adding strides to an offset and taking them away
again at the end of each dimension. After any number of steps it is at the index of the position that it has reached, and
its offset is that of this index (`Shape.Odometer.advance_along`, `Shape.Odometer.toList_run`). The offsets that it reads
are those of a walk, dimension by dimension (`Shape.offsets_eq_walk`).
-/

namespace TensorGraph

variable {α : Type}

/-! ## Rows -/

theorem div_of_row {n r i : Nat} (hi : i < n) : (r * n + i) / n = r := by
  rw [Nat.mul_comm, Nat.mul_add_div (Nat.zero_lt_of_lt hi), Nat.div_eq_of_lt hi, Nat.add_zero]

theorem mod_of_row {n r i : Nat} (hi : i < n) : (r * n + i) % n = i := by
  rw [Nat.mul_comm, Nat.mul_add_mod, Nat.mod_eq_of_lt hi]

/-- A position in one of the rows is before their end. -/
theorem lt_of_row {count n r i : Nat} (hr : r < count) (hi : i < n) : r * n + i < count * n :=
  calc r * n + i < r * n + n := Nat.add_lt_add_left hi _
    _ = (r + 1) * n := (Nat.succ_mul ..).symm
    _ ≤ count * n := Nat.mul_le_mul_right _ hr

/-- Rows of equal length, one after the other. -/
theorem flatMap_range_map (count length : Nat) (g : Nat → α) :
    ((List.range count).flatMap fun c => (List.range length).map fun i => g (c * length + i)) =
      (List.range (count * length)).map g := by
  induction count with
  | zero => simp
  | succ count ih =>
    rw [List.range_succ, List.flatMap_append, ih, Nat.succ_mul, List.range_add, List.map_append]
    simp

namespace Shape

/-! ## Indices -/

/-- An index into a shape has an entry for each dimension, which is below its size. -/
def Indexes (index shape : List Nat) : Prop := List.Forall₂ (· < ·) index shape

/-- The number of the element at an index, in row-major order. -/
def position : List Nat → List Nat → Nat
  | _ :: shape, i :: index => i * volume shape + position shape index
  | _, _ => 0

/-- The index of the element with a number. -/
def indexAt : List Nat → Nat → List Nat
  | [], _ => []
  | _ :: shape, p => (p / volume shape) :: indexAt shape (p % volume shape)

variable {shape index : List Nat}

theorem position_lt (h : Indexes index shape) : position shape index < volume shape := by
  induction h with
  | nil => exact Nat.zero_lt_one
  | cons hi _ ih => exact lt_of_row hi ih

theorem indexAt_position (h : Indexes index shape) : indexAt shape (position shape index) = index := by
  induction h with
  | nil => rfl
  | cons _ hrest ih =>
    have hlt := position_lt hrest
    rw [position, indexAt, div_of_row hlt, mod_of_row hlt, ih]

theorem indexes_indexAt {p : Nat} (h : p < volume shape) :
    Indexes (indexAt shape p) shape ∧ position shape (indexAt shape p) = p := by
  induction shape generalizing p with
  | nil => exact ⟨.nil, (Nat.lt_one_iff.1 h).symm⟩
  | cons n shape ih =>
    have hpos : 0 < volume shape := Nat.pos_of_mul_pos_left (Nat.zero_lt_of_lt h)
    obtain ⟨hrest, hposition⟩ := ih (Nat.mod_lt p hpos)
    refine ⟨.cons ((Nat.div_lt_iff_lt_mul hpos).2 h) hrest, ?_⟩
    rw [indexAt, position, hposition, Nat.div_add_mod']

/-- The first index, if there is any. -/
theorem indexes_zeros (h : 0 < volume shape) : Indexes (List.replicate shape.length 0) shape ∧
    position shape (List.replicate shape.length 0) = 0 := by
  induction shape with
  | nil => exact ⟨.nil, rfl⟩
  | cons n shape ih =>
    obtain ⟨hrest, hposition⟩ := ih (Nat.pos_of_mul_pos_left h)
    rw [List.length_cons, List.replicate_succ]
    exact ⟨.cons (Nat.pos_of_mul_pos_right h) hrest, by rw [position, hposition, Nat.zero_mul]⟩

/-- The offset of an index into dimensions that are given by their sizes and strides. -/
def along : List (Nat × Nat) → List Nat → Nat
  | (_, stride) :: dims, i :: index => i * stride + along dims index
  | _, _ => 0

theorem along_strides (shape index : List Nat) : along (shape.zip (strides shape)) index = position shape index := by
  induction shape generalizing index with
  | nil => rfl
  | cons n shape ih =>
    cases index with
    | nil => rfl
    | cons i index => rw [strides, List.zip_cons_cons, along, position, ih]

theorem along_zeros (dims : List (Nat × Nat)) : along dims (List.replicate dims.length 0) = 0 := by
  induction dims with
  | nil => rfl
  | cons d dims ih => rw [List.length_cons, List.replicate_succ, along, ih, Nat.zero_mul]

/-! ## Odometers -/

namespace Odometer

variable {dims : List (Nat × Nat)}

/-- A step leads to the next index and to its offset, or from the last index back to the first one. What is added and
taken away on the way does not touch the offset `base` of the dimensions before. -/
theorem advance_along (h : Indexes index (dims.map (·.1))) (base : Nat) :
    ∃ carry next, advance dims ⟨index, base + along dims index⟩ = (carry, ⟨next, base + along dims next⟩) ∧
      Indexes next (dims.map (·.1)) ∧
      position (dims.map (·.1)) index + 1 =
        position (dims.map (·.1)) next + if carry then volume (dims.map (·.1)) else 0 := by
  induction dims generalizing index base with
  | nil =>
    cases h
    exact ⟨true, [], rfl, .nil, rfl⟩
  | cons d dims ih =>
    obtain ⟨size, stride⟩ := d
    rw [List.map_cons] at h ⊢
    cases h with
    | @cons i _ index _ hi hrest =>
      obtain ⟨carry, next, hadvance, hnext, hposition⟩ := ih hrest (base + i * stride)
      simp only [position, volume, along, advance, ← Nat.add_assoc, hadvance]
      cases carry with
      | false =>
        refine ⟨false, i :: next, ?_, .cons hi hnext, ?_⟩
        · simp only [along, Nat.add_assoc]
        · simp only [position, Bool.false_eq_true, if_false] at hposition ⊢
          omega
      | true =>
        have hoffset : base + i * stride + along dims next + stride = base + along dims next + stride * (i + 1) := by
          rw [Nat.mul_succ, Nat.mul_comm stride]
          omega
        simp only [if_true] at hposition
        by_cases hlt : i + 1 < size
        · refine ⟨false, (i + 1) :: next, ?_, .cons hlt hnext, ?_⟩
          · simp only [if_pos hlt, along, hoffset, Nat.mul_comm stride]
            congr 2
            omega
          · simp only [position, Bool.false_eq_true, if_false, Nat.succ_mul]
            omega
        · obtain rfl : size = i + 1 := by omega
          refine ⟨true, 0 :: next, ?_, .cons (Nat.succ_pos i) hnext, ?_⟩
          · simp only [Nat.lt_irrefl, if_false, hoffset, Nat.add_sub_cancel, along, Nat.zero_mul, Nat.zero_add]
          · simp only [position, if_true, Nat.succ_mul, Nat.zero_mul]
            omega

/-- What is taken away at the end of a dimension with index `i` has been added before, so that an offset does not get
below zero. -/
theorem le_of_advance (h : Indexes index (dims.map (·.1))) {base stride i : Nat} {o : Odometer}
    (hadvance : advance dims ⟨index, base + i * stride + along dims index⟩ = (true, o)) :
    stride * (i + 1) ≤ o.offset + stride := by
  obtain ⟨carry, next, hnext, -⟩ := advance_along h (base + i * stride)
  cases hadvance.symm.trans hnext
  rw [Nat.mul_succ, Nat.mul_comm stride, Nat.add_le_add_iff_right]
  calc i * stride ≤ base + i * stride := Nat.le_add_left ..
    _ ≤ base + i * stride + along dims next := Nat.le_add_right ..

theorem size_run (dims : List (Nat × Nat)) (count : Nat) (o : Odometer) (found : Array Nat) :
    (run dims count o found).size = found.size + count := by
  induction count generalizing o found with
  | zero => rfl
  | succ count ih => rw [run, ih, Array.size_push, Nat.add_assoc, Nat.add_comm 1]

/-- The offsets that are read at a number of positions. -/
theorem toList_run (h : Indexes index (dims.map (·.1))) {count : Nat}
    (hcount : position (dims.map (·.1)) index + count ≤ volume (dims.map (·.1))) (found : Array Nat) :
    (run dims count ⟨index, along dims index⟩ found).toList = found.toList ++
      (List.range' (position (dims.map (·.1)) index) count).map fun p => along dims (indexAt (dims.map (·.1)) p) := by
  induction count generalizing index found with
  | zero => simp [run]
  | succ count ih =>
    obtain ⟨carry, next, hadvance, hnext, hposition⟩ := advance_along h 0
    simp only [Nat.zero_add] at hadvance
    rw [run, hadvance, List.range'_succ, List.map_cons, indexAt_position h]
    cases carry with
    | false =>
      simp only [Bool.false_eq_true, if_false, Nat.add_zero] at hposition
      rw [ih hnext (by omega), hposition]
      simp
    | true =>
      -- The odometer is back at its start only after the last position.
      obtain rfl : count = 0 := by
        simp only [if_true] at hposition
        omega
      simp [run]

end Odometer

variable {dims : List (Nat × Nat)}

theorem length_offsets (count : Nat) (dims : List (Nat × Nat)) : (offsets count dims).length = count := by
  rw [offsets, Array.length_toList, Odometer.size_run]
  exact Nat.zero_add count

theorem offsets_eq (dims : List (Nat × Nat)) : offsets (volume (dims.map (·.1))) dims =
    (List.range (volume (dims.map (·.1)))).map fun p => along dims (indexAt (dims.map (·.1)) p) := by
  rcases Nat.eq_zero_or_pos (volume (dims.map (·.1))) with hzero | hpos
  · rw [hzero]
    rfl
  · obtain ⟨hindex, hposition⟩ := indexes_zeros hpos
    have hrun := Odometer.toList_run hindex (Nat.le_of_eq (by rw [hposition, Nat.zero_add])) #[]
    rw [hposition, List.length_map, along_zeros, ← List.range_eq_range'] at hrun
    exact hrun

/-- The offset that is read at the position of an index is that of the index. -/
theorem getElem?_offsets (h : Indexes index (dims.map (·.1))) :
    (offsets (volume (dims.map (·.1))) dims)[position (dims.map (·.1)) index]? = some (along dims index) := by
  rw [offsets_eq, List.getElem?_map, List.getElem?_range (position_lt h), Option.map_some, indexAt_position h]

/-! ## Walks -/

/-- The offsets that are read when dimensions are walked through one after the other. -/
def walk : List (Nat × Nat) → List Nat
  | [] => [0]
  | (size, stride) :: dims => (List.range size).flatMap fun i => (walk dims).map (i * stride + ·)

theorem walk_eq (dims : List (Nat × Nat)) : walk dims =
    (List.range (volume (dims.map (·.1)))).map fun p => along dims (indexAt (dims.map (·.1)) p) := by
  induction dims with
  | nil => rfl
  | cons d dims ih =>
    obtain ⟨size, stride⟩ := d
    rw [walk, ih, List.map_cons, volume, ← flatMap_range_map]
    refine List.flatMap_congr fun i _ => ?_
    rw [List.map_map]
    refine List.map_congr_left fun p hp => ?_
    have hlt := List.mem_range.1 hp
    simp only [Function.comp_apply, indexAt, along, div_of_row hlt, mod_of_row hlt]

theorem offsets_eq_walk (dims : List (Nat × Nat)) : offsets (volume (dims.map (·.1))) dims = walk dims := by
  rw [offsets_eq, walk_eq]

theorem walk_singleton (n stride : Nat) : walk [(n, stride)] = (List.range n).map (· * stride) := by
  simp [walk, List.map_eq_flatMap]

/-- A walk through one more dimension, which is the fastest. -/
theorem walk_concat (dims : List (Nat × Nat)) (size stride : Nat) :
    walk (dims ++ [(size, stride)]) = (walk dims).flatMap fun o => (List.range size).map fun j => o + j * stride := by
  induction dims with
  | nil =>
    rw [List.nil_append, walk]
    simp [walk, List.map_eq_flatMap]
  | cons d dims ih =>
    obtain ⟨n, s⟩ := d
    rw [List.cons_append, walk, walk, ih, List.flatMap_assoc]
    simp only [List.map_flatMap, List.flatMap_map, List.map_map, Function.comp_def, Nat.add_assoc]

theorem length_strides (shape : List Nat) : (strides shape).length = shape.length := by
  induction shape with
  | nil => rfl
  | cons n shape ih => simp [strides, ih]

theorem map_fst_broadcastDims (source target : List Nat) :
    (target.zip (broadcastStrides source target.length)).map (·.1) = target := by
  apply List.map_fst_zip
  simp only [broadcastStrides, List.length_append, List.length_replicate, List.length_map, List.length_zip,
    length_strides, Nat.min_self]
  omega

theorem broadcastOffsets_eq_walk (source target : List Nat) :
    broadcastOffsets source target = walk (target.zip (broadcastStrides source target.length)) := by
  rw [← offsets_eq_walk, map_fst_broadcastDims, broadcastOffsets]

theorem length_broadcastOffsets (source target : List Nat) :
    (broadcastOffsets source target).length = volume target :=
  length_offsets _ _

end Shape

end TensorGraph
