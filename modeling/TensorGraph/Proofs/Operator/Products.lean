import TensorGraph.Proofs.Operator.Results
import TensorGraph.Proofs.Tensor.Elements
import TensorGraph.Proofs.Tensor.Indices

/-!
# Matrix products

Rows of a product are sums of rows of the right matrix, and the product is computed in chunks, matrix by matrix and row
by row. Each of its elements is the sum, from left to right, of the products of the elements of a row and a column
(`MatMul.Plan.row_eq_map`, `MatMul.Plan.multiply_eq`). By indices, the matrices are those at the projections of the index
into the broadcast batch (`MatMul.run_exact`).
-/

namespace TensorGraph.MatMul

/-! ## Plans -/

/-- The sizes of two operands that can be multiplied. -/
structure Sizes where
  leftBatch : List Nat
  rightBatch : List Nat
  /-- The shape that the batches broadcast to. -/
  batch : List Nat
  m : Nat
  k : Nat
  n : Nat

/-- Whether operands have the sizes: both have at least two dimensions, as many columns on the left as rows on the right,
and batches that broadcast. -/
structure Sizes.Fit (z : Sizes) (a b : List Nat) : Prop where
  left : a = z.leftBatch ++ [z.m, z.k]
  right : b = z.rightBatch ++ [z.k, z.n]
  batch : Shape.broadcast? z.leftBatch z.rightBatch = some z.batch

/-- The plan for operands of the given sizes. -/
def Sizes.plan (z : Sizes) : Plan where
  outShape := z.batch ++ [z.m, z.n]
  m := z.m
  k := z.k
  n := z.n
  batches := ((Shape.broadcastOffsets z.leftBatch z.batch).zip (Shape.broadcastOffsets z.rightBatch z.batch)).toArray

theorem splitShape?_eq_some {shape batch : List Nat} {rows columns : Nat} :
    splitShape? shape = some (batch, rows, columns) ↔ shape = batch ++ [rows, columns] := by
  rw [← List.reverse_inj, List.reverse_append]
  unfold splitShape?
  split
  · next columns' rows' batch' heq => simp [heq, and_comm, and_assoc, List.reverse_eq_iff]
  · next hshort =>
    refine ⟨nofun, fun h => ?_⟩
    exact absurd h (hshort _ _ _)

theorem plan_eq_ok {a b : List Nat} {p : Plan} : plan a b = .ok p ↔ ∃ z : Sizes, z.Fit a b ∧ p = z.plan := by
  constructor
  · intro h
    unfold plan at h
    split at h
    · next batchA m k batchB k' n ha hb =>
      split at h
      · cases h
      · next hk =>
        obtain rfl := Decidable.not_not.1 hk
        split at h
        · cases h
        · next batch hbatch =>
          cases h
          exact ⟨⟨batchA, batchB, batch, m, k, n⟩,
            ⟨splitShape?_eq_some.1 ha, splitShape?_eq_some.1 hb, hbatch⟩, rfl⟩
    · cases h
  · rintro ⟨z, hz, rfl⟩
    rw [plan, splitShape?_eq_some.2 hz.left, splitShape?_eq_some.2 hz.right]
    simp only [ne_eq, not_true_eq_false, if_false, hz.batch]
    rfl

/-- There is a matrix of the result for each pair of matrices. -/
theorem size_of_plan {a b : List Nat} {p : Plan} (h : plan a b = .ok p) :
    p.batches.size * (p.m * p.n) = volume p.outShape := by
  obtain ⟨z, -, rfl⟩ := plan_eq_ok.1 h
  simp [Sizes.plan, Shape.length_broadcastOffsets, volume_append, volume]

/-! ## Rows and elements -/

namespace Plan

/-- The element in row `i` and column `j` of the product of matrix `s` of `a` and matrix `t` of
`b`: a sum from left to right. -/
def element (p : Plan) (a b : Tensor Single) (s t i j : Nat) : Single :=
  (List.range p.k).foldl
    (fun acc l => acc.add ((a.read (p.leftRow s i + l)).mul (b.read (p.rightRow t l + j)))) .zero

variable {p : Plan}

theorem zipWith_slice (f : Single → Single → Single) (sums : Nat → Single) (b : Tensor Single) (start : Nat)
    {width length : Nat} (h : width ≤ length) : List.zipWith f ((List.range width).map sums) (b.slice start length) =
      (List.range width).map fun j => f (sums j) (b.read (start + j)) := by
  refine List.ext_getElem (by simp [Tensor.slice, h]) fun j h₁ h₂ => ?_
  simp [Tensor.slice]

/-- Adding up rows adds up each column. -/
theorem foldl_rows (b : Tensor Single) (x : Nat → Single) (start : Nat → Nat) (ls : List Nat) (sums : Nat → Single)
    {width length : Nat} (h : width ≤ length) :
    ls.foldl (fun sums l => List.zipWith (fun sum y => sum.add ((x l).mul y)) sums (b.slice (start l) length))
      ((List.range width).map sums) =
      (List.range width).map fun j =>
        ls.foldl (fun acc l => acc.add ((x l).mul (b.read (start l + j)))) (sums j) := by
  induction ls generalizing sums with
  | nil => rfl
  | cons l ls ih =>
    rw [List.foldl_cons, zipWith_slice _ _ _ _ h, ih]
    rfl

theorem row_eq_map (a b : Tensor Single) (s t i : Nat) {width : Nat} (hwidth : width ≤ p.n) :
    p.row a b s t i width = (List.range width).map (p.element a b s t i) := by
  have hleft : (a.slice (p.leftRow s i) p.k).zipIdx =
      (List.range p.k).map fun l => (a.read (p.leftRow s i + l), l) := by
    refine List.ext_getElem (by simp [Tensor.slice]) fun l h₁ h₂ => ?_
    simp [Tensor.slice]
  have hzeros : List.replicate width Single.zero = (List.range width).map fun _ => .zero := by simp
  rw [row, hleft, List.foldl_map, hzeros]
  exact foldl_rows b _ _ _ _ hwidth

/-- The element of the product at an offset. -/
def elementAt (p : Plan) (a b : Tensor Single) (offset : Nat) : Single :=
  let (s, t) := p.batches.getD (offset / p.n / p.m) (0, 0)
  p.element a b s t (offset / p.n % p.m) (offset % p.n)

/-- A row of the product, where the rows of all matrices are numbered. -/
theorem row_eq (a b : Tensor Single) {r width : Nat} (hwidth : width ≤ p.n) {s t : Nat}
    (hbatch : p.batches.getD (r / p.m) (0, 0) = (s, t)) :
    p.row a b s t (r % p.m) width = (List.range width).map fun i => p.elementAt a b (r * p.n + i) := by
  rw [row_eq_map a b s t _ hwidth]
  refine List.map_congr_left fun i hi => ?_
  have hi : i < p.n := Nat.lt_of_lt_of_le (List.mem_range.1 hi) hwidth
  simp only [elementAt, div_of_row hi, mod_of_row hi, hbatch]

theorem multiply_eq (hsize : p.batches.size * (p.m * p.n) = volume p.outShape) (a b : Tensor Single) (hn : 0 < p.n)
    (hm : 0 < p.m) :
    p.multiply a b = Tensor.ofList p.outShape ((List.range (volume p.outShape)).map (p.elementAt a b)) := by
  have hmn : 0 < p.m * p.n := Nat.mul_pos hm hn
  rw [multiply, if_pos ⟨hn, hm⟩]
  refine congrArg (Tensor.ofList p.outShape) (chunks_eq_map hmn fun c hc length hlength _ => ?_)
  have hlt : c < p.batches.size := by
    rw [← hsize] at hc
    exact Nat.lt_of_mul_lt_mul_right hc
  rw [Array.getElem?_eq_getElem hlt]
  refine chunks_eq_map hn fun i hi width hwidth _ => ?_
  have hi : i < p.m := Nat.lt_of_mul_lt_mul_right (Nat.lt_of_lt_of_le hi hlength)
  -- Row `i` of matrix `c` is row `c * m + i` of all.
  have hrow := row_eq a b (r := c * p.m + i) hwidth (s := p.batches[c].1) (t := p.batches[c].2)
    (by simp [div_of_row hi, Array.getD, hlt])
  rw [mod_of_row hi] at hrow
  refine hrow.trans (List.map_congr_left fun j _ => congrArg (p.elementAt a b) ?_)
  rw [Nat.add_mul, Nat.mul_assoc, Nat.add_assoc]

/-- Whether only elements of the operands are read, in slices that lie in the operands as a whole. -/
structure InBounds (p : Plan) (a b : Tensor Single) : Prop where
  leftRow : ∀ s t, (s, t) ∈ p.batches → ∀ i < p.m, p.leftRow s i + p.k ≤ a.size
  /-- The right matrix is in bounds, and so are its rows. -/
  rightMatrix : ∀ s t, (s, t) ∈ p.batches → p.rightRow t 0 + p.k * p.n ≤ b.size
  rightRow : ∀ s t, (s, t) ∈ p.batches → ∀ l < p.k, p.rightRow t l + p.n ≤ p.rightRow t 0 + p.k * p.n
  /-- There is a pair of matrices for each matrix of the result. -/
  batches : p.batches.size * (p.m * p.n) = volume p.outShape

end Plan

/-! ## Products -/

/-- Whether the matrices of `out` are the products of the matrices of `a` and `b` that its batch index projects to. -/
structure Sizes.Product (z : Sizes) (a b out : Tensor Single) : Prop where
  shape_eq : out.shape = z.batch ++ [z.m, z.n]
  element : ∀ t i j, Shape.Indexes t z.batch → i < z.m → j < z.n → ∃ left right : Nat → Single,
    (∀ l < z.k, a.at? (Shape.project z.leftBatch t ++ [i, l]) = some (left l)) ∧
      (∀ l < z.k, b.at? (Shape.project z.rightBatch t ++ [l, j]) = some (right l)) ∧
      out.at? (t ++ [i, j]) = some ((List.range z.k).foldl (fun acc l => acc.add ((left l).mul (right l))) .zero)

theorem indexes_matrix {batch t : List Nat} {rows columns i j : Nat} (ht : Shape.Indexes t batch) (hi : i < rows)
    (hj : j < columns) : Shape.Indexes (t ++ [i, j]) (batch ++ [rows, columns]) :=
  Shape.indexes_append_iff.2 ⟨t, [i, j], rfl, ht, .cons hi (.cons hj .nil)⟩

theorem position_matrix {batch t : List Nat} (rows columns : Nat) (ht : t.length = batch.length) (i j : Nat) :
    Shape.position (batch ++ [rows, columns]) (t ++ [i, j]) = (Shape.position batch t * rows + i) * columns + j := by
  rw [Shape.position_around ht]
  simp [Shape.position, volume]

/-- A slice of `length` elements that is number `i` of some in a block. -/
theorem slice_le {count i : Nat} (length : Nat) (h : i < count) : i * length + length ≤ count * length := by
  rw [← Nat.succ_mul]
  exact Nat.mul_le_mul_right length h

namespace Sizes

variable {z : Sizes} {a b : Tensor Single}

theorem Fit.canBroadcast (hz : z.Fit a.shape b.shape) :
    Shape.canBroadcast z.leftBatch z.batch = true ∧ Shape.canBroadcast z.rightBatch z.batch = true := by
  have hjoins := Shape.joins_of_broadcast? hz.batch
  exact ⟨hjoins.canBroadcast (by simp), hjoins.canBroadcast (by simp)⟩

theorem Fit.size_eq (hz : z.Fit a.shape b.shape) :
    a.size = volume z.leftBatch * (z.m * z.k) ∧ b.size = volume z.rightBatch * (z.k * z.n) := by
  rw [Tensor.size, Tensor.size, a.size_data, b.size_data, hz.left, hz.right, volume_append, volume_append]
  simp [volume]

/-- The numbers of the matrices that a matrix of the result is the product of. -/
theorem Fit.getD_batches (hz : z.Fit a.shape b.shape) {t : List Nat} (ht : Shape.Indexes t z.batch) :
    z.plan.batches.getD (Shape.position z.batch t) (0, 0) =
      (Shape.position z.leftBatch (Shape.project z.leftBatch t),
        Shape.position z.rightBatch (Shape.project z.rightBatch t)) := by
  obtain ⟨hleft, hright⟩ := hz.canBroadcast
  have hleft := Shape.getElem?_broadcastOffsets (Shape.canBroadcast_iff.1 hleft).1 ht
  have hright := Shape.getElem?_broadcastOffsets (Shape.canBroadcast_iff.1 hright).1 ht
  rw [Array.getD_eq_getD_getElem?, plan, List.getElem?_toArray,
    List.getElem?_zip_eq_some (z := (_, _)).2 ⟨hleft, hright⟩, Option.getD_some]

theorem Fit.inBounds (hz : z.Fit a.shape b.shape) : z.plan.InBounds a b := by
  obtain ⟨hleft, hright⟩ := hz.canBroadcast
  obtain ⟨ha, hb⟩ := hz.size_eq
  have hlt {source : List Nat} (hcan : Shape.canBroadcast source z.batch = true) {s : Nat}
      (hs : s ∈ Shape.broadcastOffsets source z.batch) : s < volume source := by
    rw [Shape.broadcastOffsets_eq (Shape.canBroadcast_iff.1 hcan).1] at hs
    obtain ⟨i, hi, rfl⟩ := List.mem_map.1 hs
    exact Shape.offsetIn_lt hcan (List.mem_range.1 hi)
  have hbatches {s t : Nat} (h : (s, t) ∈ z.plan.batches) : s < volume z.leftBatch ∧ t < volume z.rightBatch := by
    obtain ⟨hs, ht⟩ := List.of_mem_zip (List.mem_toArray.1 h)
    exact ⟨hlt hleft hs, hlt hright ht⟩
  refine ⟨fun s t h i hi => ?_, fun s t h => ?_, fun s t h l hl => ?_, ?_⟩
  · have hmatrix := slice_le (z.m * z.k) (hbatches h).1
    have hrow : i * z.k + z.k ≤ z.m * z.k := slice_le _ hi
    rw [ha]
    change s * (z.m * z.k) + i * z.k + z.k ≤ _
    omega
  · have hmatrix := slice_le (z.k * z.n) (hbatches h).2
    rw [hb]
    change t * (z.k * z.n) + 0 * z.n + z.k * z.n ≤ _
    omega
  · have hrow : l * z.n + z.n ≤ z.k * z.n := slice_le _ hl
    change t * (z.k * z.n) + l * z.n + z.n ≤ t * (z.k * z.n) + 0 * z.n + z.k * z.n
    omega
  · exact size_of_plan (plan_eq_ok.2 ⟨z, hz, rfl⟩)

theorem Fit.product (hz : z.Fit a.shape b.shape) : z.Product a b (z.plan.multiply a b) where
  shape_eq := rfl
  element := by
    intro t i j ht hi hj
    obtain ⟨hleft, hright⟩ := hz.canBroadcast
    have hs := ht.project hleft
    have hu := ht.project hright
    refine ⟨fun l => a.read (z.plan.leftRow (Shape.position z.leftBatch (Shape.project z.leftBatch t)) i + l),
      fun l => b.read (z.plan.rightRow (Shape.position z.rightBatch (Shape.project z.rightBatch t)) l + j),
      fun l hl => ?_, fun l hl => ?_, ?_⟩
    · rw [Tensor.at?_eq_read (hz.left ▸ indexes_matrix hs hi hl), hz.left, position_matrix _ _ hs.length_eq]
      simp only [Plan.leftRow, plan, Nat.add_mul, Nat.mul_assoc]
    · rw [Tensor.at?_eq_read (hz.right ▸ indexes_matrix hu hl hj), hz.right, position_matrix _ _ hu.length_eq]
      simp only [Plan.rightRow, plan, Nat.add_mul, Nat.mul_assoc]
    · have hmultiply := Plan.multiply_eq hz.inBounds.batches a b (Nat.zero_lt_of_lt hj) (Nat.zero_lt_of_lt hi)
      have hindex : Shape.Indexes (t ++ [i, j]) z.plan.outShape := indexes_matrix ht hi hj
      rw [hmultiply, Tensor.ofList_map_range, Tensor.at?_generate _ hindex]
      have hposition : Shape.position z.plan.outShape (t ++ [i, j]) =
          (Shape.position z.batch t * z.m + i) * z.n + j := position_matrix _ _ ht.length_eq i j
      have hbatch := hz.getD_batches ht
      simp only [Plan.elementAt, hposition, show z.plan.n = z.n from rfl, show z.plan.m = z.m from rfl, div_of_row hj,
        mod_of_row hj, div_of_row hi, mod_of_row hi, hbatch]
      rfl

end Sizes

/-- What a matrix multiplication of floats gives: it succeeds if and only if the operands fit, takes only slices that are
in bounds, and returns the products of the matrices, with the batch broadcast. -/
theorem run_exact (a b : Tensor Single) :
    ((∃ v, run [.floats a, .floats b] = .ok v) ↔ ∃ z : Sizes, z.Fit a.shape b.shape) ∧
      ∀ z : Sizes, z.Fit a.shape b.shape → ∃ p out, plan a.shape b.shape = .ok p ∧ p.InBounds a b ∧
        run [.floats a, .floats b] = .ok (.floats out) ∧ z.Product a b out := by
  have hrun : run [.floats a, .floats b] =
      (plan a.shape b.shape).bind fun p => .ok (.floats (p.multiply a b)) := rfl
  refine ⟨⟨?_, ?_⟩, fun z hz => ?_⟩
  · rintro ⟨v, hv⟩
    rw [hrun] at hv
    obtain ⟨p, hp, -⟩ := bind_eq_ok.1 hv
    obtain ⟨z, hz, -⟩ := plan_eq_ok.1 hp
    exact ⟨z, hz⟩
  · rintro ⟨z, hz⟩
    rw [hrun, plan_eq_ok.2 ⟨z, hz, rfl⟩]
    exact ⟨_, rfl⟩
  · have hplan := plan_eq_ok.2 ⟨z, hz, rfl⟩
    refine ⟨z.plan, _, hplan, hz.inBounds, ?_, hz.product⟩
    rw [hrun, hplan]
    rfl

/-- Two rows, each in a matrix of its own, and one column. -/
theorem run_exact_broadcast :
    let a : Tensor Single := ⟨[2, 1, 2], #[.zero, .one, .one, .one], rfl⟩
    let b : Tensor Single := ⟨[2, 1], #[.one, .one], rfl⟩
    let z : Sizes := { leftBatch := [2], rightBatch := [], batch := [2], m := 1, k := 2, n := 1 }
    z.Fit a.shape b.shape ∧ ∃ p out, plan a.shape b.shape = .ok p ∧ p.InBounds a b ∧
      run [.floats a, .floats b] = .ok (.floats out) ∧ z.Product a b out := by
  intro a b z
  have hz : z.Fit a.shape b.shape := ⟨rfl, rfl, rfl⟩
  exact ⟨hz, (run_exact a b).2 z hz⟩

end TensorGraph.MatMul
