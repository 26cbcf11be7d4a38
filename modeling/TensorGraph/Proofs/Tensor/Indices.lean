import TensorGraph.Proofs.Tensor.Offsets

/-!
# Indices

The number of an element, in row-major order, is composed of the numbers that the parts of its index have in the parts
of the shape (`Shape.position_append`, `Shape.position_around`). All indices into a shape are listed in this order
(`Shape.indices_eq`). A tensor that is broadcast is read at the projection of an index onto its shape
(`Shape.along_broadcast`).

`Odometer.advanceWithin?` is a step in numbers that have a limit, which fails where a sum or product reaches the limit and
where more is taken away than there is. From the first index on, no step fails if the limit is above the reach of the
dimensions (`Odometer.runWithin?_eq`), and to find the offsets of a tensor that is broadcast takes no number above the
number of its elements (`Shape.broadcastOffsets_exact`).
-/

namespace TensorGraph

namespace Shape

variable {s t index before after : List Nat} {n : Nat}

/-! ## Parts of indices -/

theorem position_append {i : List Nat} (h : i.length = s.length) (j : List Nat) :
    position (s ++ t) (i ++ j) = position s i * volume t + position t j := by
  induction s generalizing i with
  | nil =>
    obtain rfl := List.length_eq_zero_iff.1 h
    simp [position]
  | cons n s ih =>
    cases i with
    | nil => simp at h
    | cons k i =>
      rw [List.cons_append, List.cons_append, position, position, ih (Nat.succ.inj h), volume_append, Nat.add_mul,
        Nat.mul_assoc, Nat.add_assoc]

/-- The number of an element, by the parts of its index before and after an axis. -/
theorem position_around {i : List Nat} (h : i.length = before.length) (k : Nat) (j : List Nat) :
    position (before ++ n :: after) (i ++ k :: j) =
      (position before i * n + k) * volume after + position after j := by
  rw [position_append h, position, volume, Nat.add_mul, Nat.mul_assoc, Nat.add_assoc]

theorem indexes_append_iff : Indexes index (s ++ t) ↔ ∃ i j, index = i ++ j ∧ Indexes i s ∧ Indexes j t := by
  constructor
  · intro h
    refine ⟨index.take s.length, index.drop s.length, (List.take_append_drop ..).symm, ?_, ?_⟩
    · exact List.forall₂_take_append _ _ _ h
    · exact List.forall₂_drop_append _ _ _ h
  · rintro ⟨i, j, rfl, hi, hj⟩
    exact List.rel_append hi hj

theorem indexes_cons_iff : Indexes index (n :: t) ↔ ∃ k j, index = k :: j ∧ k < n ∧ Indexes j t := by
  rw [Indexes, List.forall₂_cons_right_iff]
  constructor
  · rintro ⟨k, j, hk, hj, rfl⟩
    exact ⟨k, j, rfl, hk, hj⟩
  · rintro ⟨k, j, rfl, hk, hj⟩
    exact ⟨k, j, hk, hj, rfl⟩

theorem indexes_around_iff : Indexes index (before ++ n :: after) ↔
    ∃ i k j, index = i ++ k :: j ∧ Indexes i before ∧ k < n ∧ Indexes j after := by
  rw [indexes_append_iff]
  constructor
  · rintro ⟨i, j, rfl, hi, hj⟩
    obtain ⟨k, j, rfl, hk, hj⟩ := indexes_cons_iff.1 hj
    exact ⟨i, k, j, rfl, hi, hk, hj⟩
  · rintro ⟨i, k, j, rfl, hi, hk, hj⟩
    exact ⟨i, k :: j, rfl, hi, indexes_cons_iff.2 ⟨k, j, rfl, hk, hj⟩⟩

/-- A shape, split at an axis. -/
theorem eq_around {d : Nat} (h : d < s.length) : s = s.take d ++ s.getD d 0 :: s.drop (d + 1) := by
  rw [List.getD_eq_getElem _ _ h, List.getElem_cons_drop, List.take_append_drop]

/-- A shape with another size along an axis, split there. -/
theorem set_eq_around {d : Nat} (h : d < s.length) (k : Nat) : s.set d k = s.take d ++ k :: s.drop (d + 1) := by
  rw [List.set_eq_take_append_cons_drop, if_pos h]

theorem getD_around {i : List Nat} {d : Nat} (h : i.length = d) (k : Nat) (j : List Nat) :
    (i ++ k :: j).getD d 0 = k := by
  rw [List.getD_append_right _ _ _ _ (Nat.le_of_eq h), h, Nat.sub_self, List.getD_cons_zero]

theorem set_around {i : List Nat} {d : Nat} (h : i.length = d) (k k' : Nat) (j : List Nat) :
    (i ++ k :: j).set d k' = i ++ k' :: j := by
  rw [List.set_append_right _ _ (Nat.le_of_eq h), h, Nat.sub_self, List.set_cons_zero]

/-- Different indices have different numbers. -/
theorem position_inj {i j : List Nat} (hi : Indexes i s) (hj : Indexes j s) :
    position s i = position s j ↔ i = j := by
  refine ⟨fun h => ?_, fun h => by rw [h]⟩
  rw [← indexAt_position hi, h, indexAt_position hj]

/-! ## All indices -/

/-- All indices into a shape, in row-major order: the last entry changes fastest. -/
def indices : List Nat → List (List Nat)
  | [] => [[]]
  | n :: shape => (List.range n).flatMap fun i => (indices shape).map (i :: ·)

theorem indices_eq (shape : List Nat) : indices shape = (List.range (volume shape)).map (indexAt shape) := by
  induction shape with
  | nil => rfl
  | cons n shape ih =>
    rw [indices, ih, volume, ← flatMap_range_map]
    refine List.flatMap_congr fun i _ => ?_
    rw [List.map_map]
    refine List.map_congr_left fun p hp => ?_
    have hlt := List.mem_range.1 hp
    simp only [Function.comp_apply, indexAt, div_of_row hlt, mod_of_row hlt]

theorem mem_indices : index ∈ indices s ↔ Indexes index s := by
  rw [indices_eq, List.mem_map]
  constructor
  · rintro ⟨p, hp, rfl⟩
    exact (indexes_indexAt (List.mem_range.1 hp)).1
  · intro h
    exact ⟨position s index, List.mem_range.2 (position_lt h), indexAt_position h⟩

/-! ## Projections -/

/-- The index into a shape that is broadcast, for an index into the shape that it is broadcast to: its last entries,
with zeros where the size is 1. -/
def project (source index : List Nat) : List Nat :=
  List.zipWith (fun n i => if n = 1 then 0 else i) source (index.drop (index.length - source.length))

theorem project_eq (h : index.length = s.length) :
    project s index = List.zipWith (fun n i => if n = 1 then 0 else i) s index := by
  rw [project, h, Nat.sub_self, List.drop_zero]

theorem indexes_zeroed {u j : List Nat} (hlen : s.length = u.length) (hsizes : ∀ d ∈ s.zip u, d.1 = d.2 ∨ d.1 = 1)
    (h : Indexes j u) : Indexes (List.zipWith (fun n i => if n = 1 then 0 else i) s j) s := by
  induction h generalizing s with
  | nil =>
    obtain rfl := List.length_eq_zero_iff.1 hlen
    exact .nil
  | @cons i m j u hi _ ih =>
    cases s with
    | nil => cases hlen
    | cons n s =>
      rw [List.zip_cons_cons, List.forall_mem_cons] at hsizes
      obtain ⟨hn, hsizes⟩ := hsizes
      refine .cons ?_ (ih (Nat.succ.inj hlen) hsizes)
      change (if n = 1 then 0 else i) < n
      split <;> omega

/-- The projection of an index is an index. -/
theorem Indexes.project (hcan : canBroadcast s t = true) (h : Indexes index t) : Indexes (project s index) s := by
  rw [canBroadcast, Bool.and_eq_true, decide_eq_true_eq, List.all_eq_true] at hcan
  obtain ⟨hlen, hsizes⟩ := hcan
  rw [Shape.project, h.length_eq]
  refine indexes_zeroed ?_ (fun d hd => ?_) (List.forall₂_drop (t.length - s.length) h)
  · rw [List.length_drop]
    omega
  · simpa using hsizes d hd

theorem along_replicate_zero (j : List Nat) (u : List Nat) (dims : List (Nat × Nat)) :
    along (u.zip (List.replicate u.length 0) ++ dims) j = along dims (j.drop u.length) := by
  induction u generalizing j with
  | nil => rfl
  | cons m u ih =>
    cases j with
    | nil => cases dims <;> rfl
    | cons i j =>
      rw [List.length_cons, List.replicate_succ, List.zip_cons_cons, List.cons_append, along, ih, Nat.mul_zero,
        Nat.zero_add, List.drop_succ_cons]

theorem along_zip_ones {u : List Nat} (hlen : u.length = s.length) (j : List Nat) :
    along (u.zip ((s.zip (strides s)).map fun d => if d.1 = 1 then 0 else d.2)) j =
      position s (List.zipWith (fun n i => if n = 1 then 0 else i) s j) := by
  induction s generalizing u j with
  | nil =>
    obtain rfl := List.length_eq_zero_iff.1 hlen
    rfl
  | cons n s ih =>
    cases u with
    | nil => cases hlen
    | cons m u =>
      cases j with
      | nil => rfl
      | cons i j =>
        rw [strides, List.zip_cons_cons, List.map_cons, List.zip_cons_cons, along, ih (Nat.succ.inj hlen),
          List.zipWith_cons_cons, position]
        split <;> simp

/-- The dimensions that the tensor does not have come first. -/
theorem zip_broadcastStrides (s t : List Nat) : t.zip (broadcastStrides s t.length) =
    (t.take (t.length - s.length)).zip (List.replicate (t.take (t.length - s.length)).length 0) ++
      (t.drop (t.length - s.length)).zip ((s.zip (strides s)).map fun d => if d.1 = 1 then 0 else d.2) := by
  rw [← List.zip_append (by simp), List.take_append_drop, broadcastStrides, List.length_take,
    Nat.min_eq_left (Nat.sub_le ..)]

/-- The offset that is read at an index into a shape is that of its projection. -/
theorem along_broadcast (hlen : s.length ≤ t.length) (hindex : index.length = t.length) :
    along (t.zip (broadcastStrides s t.length)) index = position s (project s index) := by
  rw [zip_broadcastStrides, along_replicate_zero, along_zip_ones (by rw [List.length_drop]; omega), project, hindex,
    List.length_take, Nat.min_eq_left (Nat.sub_le ..)]

/-- The offset that is read at the position of an index into a shape is that of its projection. -/
theorem getElem?_broadcastOffsets (hlen : s.length ≤ t.length) (h : Indexes index t) :
    (broadcastOffsets s t)[position t index]? = some (position s (project s index)) := by
  have hdims := map_fst_broadcastDims s t
  have hindex : Indexes index ((t.zip (broadcastStrides s t.length)).map (·.1)) := hdims.symm ▸ h
  have hread := getElem?_offsets hindex
  rw [hdims, along_broadcast hlen h.length_eq] at hread
  exact hread

/-- The offsets that are read, in the order of the indices. -/
theorem broadcastOffsets_eq_map (hlen : s.length ≤ t.length) :
    broadcastOffsets s t = (indices t).map fun index => position s (project s index) := by
  refine List.ext_getElem? fun p => ?_
  rw [indices_eq, List.map_map]
  by_cases hp : p < volume t
  · obtain ⟨hindex, hposition⟩ := indexes_indexAt hp
    have hread := getElem?_broadcastOffsets hlen hindex
    rw [hposition] at hread
    rw [hread, List.getElem?_map, List.getElem?_range hp]
    rfl
  · rw [broadcastOffsets_eq hlen]
    simp [hp]

/-! ## Offsets in numbers with a limit -/

variable {dims : List (Nat × Nat)} {limit : Nat}

def addWithin? (limit x y : Nat) : Option Nat := if x + y < limit then some (x + y) else none

def multiplyWithin? (limit x y : Nat) : Option Nat := if x * y < limit then some (x * y) else none

def subtract? (x y : Nat) : Option Nat := if y ≤ x then some (x - y) else none

namespace Odometer

/-- `advance` in numbers below a limit. -/
def advanceWithin? (limit : Nat) : List (Nat × Nat) → Odometer → Option (Bool × Odometer)
  | (size, stride) :: dims, ⟨i :: index, offset⟩ => do
    match ← advanceWithin? limit dims ⟨index, offset⟩ with
    | (false, o) => return (false, ⟨i :: o.index, o.offset⟩)
    | (true, o) =>
      let offset ← addWithin? limit o.offset stride
      if i + 1 < size then return (false, ⟨(i + 1) :: o.index, offset⟩)
      else
        let back ← multiplyWithin? limit stride (i + 1)
        let offset ← subtract? offset back
        return (true, ⟨0 :: o.index, offset⟩)
  | _, o => some (true, o)

/-- `run` in numbers below a limit. -/
def runWithin? (limit : Nat) (dims : List (Nat × Nat)) : Nat → Odometer → Array Nat → Option (Array Nat)
  | 0, _, found => some found
  | count + 1, o, found => do
    let (_, next) ← advanceWithin? limit dims o
    runWithin? limit dims count next (found.push o.offset)

/-- The largest number that an offset is on the way through dimensions: at the end of a dimension its stride is added
once more before all of them are taken away. -/
def reach : List (Nat × Nat) → Nat
  | [] => 0
  | (size, stride) :: dims => max (size * stride) ((size - 1) * stride + reach dims)

theorem eq_zeros_of_position (h : Indexes index s) (hzero : position s index = 0) :
    index = List.replicate s.length 0 := by
  obtain ⟨hzeros, hposition⟩ := indexes_zeros (Nat.zero_lt_of_lt (position_lt h))
  rw [← position_inj h hzeros, hzero, hposition]

/-- After the last index the odometer is at offset `base` again. -/
theorem offset_of_carry (h : Indexes index (dims.map (·.1))) (base : Nat) {o : Odometer}
    (hadvance : advance dims ⟨index, base + along dims index⟩ = (true, o)) : o.offset = base := by
  obtain ⟨carry, next, hnext, hindexes, hposition⟩ := advance_along h base
  cases hadvance.symm.trans hnext
  have hlt := position_lt h
  have hzero : position (dims.map (·.1)) next = 0 := by
    simp only [if_true] at hposition
    omega
  have hzeros := eq_zeros_of_position hindexes hzero
  rw [List.length_map] at hzeros
  simp [hzeros, along_zeros]

/-- A step does not fail if the limit is above what can be reached from the offset `base` of the dimensions before. -/
theorem advanceWithin?_eq (h : Indexes index (dims.map (·.1))) (base : Nat) (hlimit : base + reach dims < limit) :
    advanceWithin? limit dims ⟨index, base + along dims index⟩ =
      some (advance dims ⟨index, base + along dims index⟩) := by
  induction dims generalizing index base with
  | nil =>
    cases h
    rfl
  | cons d dims ih =>
    obtain ⟨size, stride⟩ := d
    rw [List.map_cons] at h
    cases h with
    | @cons i _ index _ hi hrest =>
      have hi : i < size := hi
      have hbase : i * stride ≤ (size - 1) * stride := Nat.mul_le_mul_right _ (by omega)
      have hsize : (i + 1) * stride ≤ size * stride := Nat.mul_le_mul_right _ hi
      simp only [reach] at hlimit
      have hstep := ih hrest (base + i * stride) (by omega)
      have hcarry := fun o => @offset_of_carry index dims hrest (base + i * stride) o
      simp only [along, ← Nat.add_assoc, advanceWithin?, advance] at hstep hcarry ⊢
      rw [hstep]
      generalize advance dims ⟨index, base + i * stride + along dims index⟩ = result at hcarry
      obtain ⟨carry, o⟩ := result
      cases carry with
      | false => rfl
      | true =>
        have ho := hcarry o rfl
        rw [Nat.succ_mul] at hsize
        have hback : stride * (i + 1) = i * stride + stride := by rw [Nat.mul_comm, Nat.succ_mul]
        have hadd : addWithin? limit o.offset stride = some (o.offset + stride) := if_pos (by omega)
        have hmul : multiplyWithin? limit stride (i + 1) = some (stride * (i + 1)) := if_pos (by omega)
        have hsub : subtract? (o.offset + stride) (stride * (i + 1)) = some (o.offset + stride - stride * (i + 1)) :=
          if_pos (by omega)
        simp only [Option.bind_eq_bind, Option.bind_some, hadd, hmul, hsub]
        split <;> rfl

/-- No step of a run fails if the limit is above the reach of the dimensions. -/
theorem runWithin?_eq (h : Indexes index (dims.map (·.1))) (hlimit : reach dims < limit) (count : Nat)
    (found : Array Nat) : runWithin? limit dims count ⟨index, along dims index⟩ found =
      some (run dims count ⟨index, along dims index⟩ found) := by
  induction count generalizing index found with
  | zero => rfl
  | succ count ih =>
    have hstep := advanceWithin?_eq h 0 (by rwa [Nat.zero_add])
    obtain ⟨carry, next, hadvance, hnext, -⟩ := advance_along h 0
    simp only [Nat.zero_add] at hstep hadvance
    rw [runWithin?, hstep, run, hadvance]
    exact ih hnext _

end Odometer

/-! ## Bounds of offsets -/

/-- `broadcastOffsets` in numbers below a limit. -/
def broadcastOffsetsWithin? (limit : Nat) (source target : List Nat) : Option (List Nat) :=
  let dims := target.zip (broadcastStrides source target.length)
  (Odometer.runWithin? limit dims (volume target) ⟨List.replicate dims.length 0, 0⟩ #[]).map Array.toList

theorem reach_zeros (u : List Nat) (dims : List (Nat × Nat)) :
    Odometer.reach (u.zip (List.replicate u.length 0) ++ dims) = Odometer.reach dims := by
  induction u with
  | nil => rfl
  | cons n u ih =>
    rw [List.length_cons, List.replicate_succ, List.zip_cons_cons, List.cons_append, Odometer.reach, ih]
    simp

/-- Along dimensions that are as large as those of a tensor or that it does not have, the reach is the number of its
elements. -/
theorem reach_strides_le {u : List Nat} (hlen : u.length = s.length) (hsizes : ∀ d ∈ s.zip u, d.1 = d.2 ∨ d.1 = 1)
    (hpos : 0 < volume u) :
    Odometer.reach (u.zip ((s.zip (strides s)).map fun d => if d.1 = 1 then 0 else d.2)) ≤ volume s := by
  induction s generalizing u with
  | nil =>
    obtain rfl := List.length_eq_zero_iff.1 hlen
    exact Nat.zero_le _
  | cons n s ih =>
    cases u with
    | nil => cases hlen
    | cons m u =>
      rw [List.zip_cons_cons, List.forall_mem_cons] at hsizes
      obtain ⟨hn, hsizes⟩ := hsizes
      have hm : 0 < m := Nat.pos_of_mul_pos_right hpos
      have hrest := ih (Nat.succ.inj hlen) hsizes (Nat.pos_of_mul_pos_left hpos)
      rw [strides, List.zip_cons_cons, List.map_cons, List.zip_cons_cons, Odometer.reach, volume]
      by_cases hone : n = 1
      · simpa [hone] using hrest
      · obtain rfl : n = m := hn.resolve_right hone
        obtain ⟨k, rfl⟩ := Nat.exists_eq_succ_of_ne_zero (Nat.ne_of_gt hm)
        rw [if_neg hone]
        apply Nat.max_le.2 ⟨Nat.le_refl _, ?_⟩
        rw [Nat.succ_mul, Nat.succ_eq_add_one, Nat.add_sub_cancel]
        exact Nat.add_le_add_left hrest _

theorem reach_broadcast_le (hcan : canBroadcast s t = true) (hpos : 0 < volume t) :
    Odometer.reach (t.zip (broadcastStrides s t.length)) ≤ volume s := by
  rw [canBroadcast, Bool.and_eq_true, decide_eq_true_eq, List.all_eq_true] at hcan
  obtain ⟨hlen, hsizes⟩ := hcan
  have hvolume : volume t = volume (t.take (t.length - s.length)) * volume (t.drop (t.length - s.length)) := by
    rw [← volume_append, List.take_append_drop]
  rw [zip_broadcastStrides, reach_zeros]
  apply reach_strides_le
  · rw [List.length_drop]
    omega
  · intro d hd
    simpa using hsizes d hd
  · rw [hvolume] at hpos
    exact Nat.pos_of_mul_pos_left hpos

theorem broadcastOffsetsWithin?_eq (hcan : canBroadcast s t = true) (hlimit : volume s < limit) :
    broadcastOffsetsWithin? limit s t = some (broadcastOffsets s t) := by
  have hdims := map_fst_broadcastDims s t
  unfold broadcastOffsetsWithin? broadcastOffsets offsets
  rcases Nat.eq_zero_or_pos (volume t) with hzero | hpos
  · rw [hzero]
    rfl
  · have hzeros := (indexes_zeros hpos).1
    rw [← hdims, List.length_map] at hzeros
    have hrun := Odometer.runWithin?_eq hzeros (Nat.lt_of_le_of_lt (reach_broadcast_le hcan hpos) hlimit) (volume t) #[]
    rw [along_zeros] at hrun
    simp only [hrun, Option.map_some]

/-- The offsets at which a tensor is read when it is broadcast: one for each element of the target, that of the index
which is projected onto the tensor's shape. All of them are offsets of elements. They are found in numbers below any
limit above the number of elements, and nothing is taken away that was not added before. -/
theorem broadcastOffsets_exact (hcan : canBroadcast s t = true) :
    (broadcastOffsets s t).length = volume t ∧
    (∀ index, Indexes index t →
      (broadcastOffsets s t)[position t index]? = some (position s (project s index))) ∧
    (∀ o ∈ broadcastOffsets s t, o < volume s) ∧
    ∀ limit, volume s < limit → broadcastOffsetsWithin? limit s t = some (broadcastOffsets s t) := by
  have hlen : s.length ≤ t.length := (canBroadcast_iff.1 hcan).1
  refine ⟨length_broadcastOffsets s t, ?_, ?_, ?_⟩
  · intro index hindex
    exact getElem?_broadcastOffsets hlen hindex
  · intro o ho
    rw [broadcastOffsets_eq_map hlen] at ho
    obtain ⟨index, hindex, rfl⟩ := List.mem_map.1 ho
    exact position_lt ((mem_indices.1 hindex).project hcan)
  · intro limit hlimit
    exact broadcastOffsetsWithin?_eq hcan hlimit

/-- Two rows of one element each, read as two blocks of two rows and three columns. -/
theorem broadcastOffsets_exact_rows : canBroadcast [2, 1] [2, 2, 3] = true ∧ Indexes [1, 1, 2] [2, 2, 3] ∧
    (broadcastOffsets [2, 1] [2, 2, 3])[position [2, 2, 3] [1, 1, 2]]? = some 1 ∧
    broadcastOffsetsWithin? 3 [2, 1] [2, 2, 3] = some [0, 0, 0, 1, 1, 1, 0, 0, 0, 1, 1, 1] := by
  have hcan : canBroadcast [2, 1] [2, 2, 3] = true := by decide
  have hindex : Indexes [1, 1, 2] [2, 2, 3] := by simp [Indexes]
  obtain ⟨-, hread, -, hwithin⟩ := broadcastOffsets_exact hcan
  exact ⟨hcan, hindex, hread _ hindex, hwithin 3 (by decide)⟩

end Shape

/-! ## Elements at indices -/

namespace Tensor

variable {α : Type} {index shape : List Nat}

theorem at?_eq_read [Inhabited α] {t : Tensor α} (h : Shape.Indexes index t.shape) :
    t.at? index = some (t.read (Shape.position t.shape index)) := by
  have hlt : Shape.position t.shape index < t.data.size := t.size_data ▸ Shape.position_lt h
  rw [at?, read, Array.getD_eq_getD_getElem?, Array.getElem?_eq_getElem hlt, Option.getD_some]

/-- The elements, in the order of the indices. -/
theorem toList_eq_map [Inhabited α] (t : Tensor α) :
    t.data.toList = (Shape.indices t.shape).map fun index => t.read (Shape.position t.shape index) := by
  rw [← map_read_range, t.size_data, Shape.indices_eq, List.map_map]
  refine List.map_congr_left fun p hp => ?_
  rw [Function.comp_apply, (Shape.indexes_indexAt (List.mem_range.1 hp)).2]

theorem at?_generate (f : Nat → α) (h : Shape.Indexes index shape) :
    (generate shape f).at? index = some (f (Shape.position shape index)) := by
  have hlt := Shape.position_lt h
  simp [at?, generate, hlt]

end Tensor

end TensorGraph
