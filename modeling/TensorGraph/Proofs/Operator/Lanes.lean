import Mathlib.Data.List.ProdSigma
import TensorGraph.Proofs.Operator.Results
import TensorGraph.Proofs.Tensor.Elements
import TensorGraph.Proofs.Tensor.Indices

/-!
# Lanes along an axis

The lanes of a tensor along an axis share no element, and each element is in one of them (`LaneSizes.offset_inj`,
`LaneSizes.exists_offset`). So overwriting them one after the other applies the function to each lane as it was at the
start (`LaneSizes.lane_overwriteAll`). For softmax, that is what it does along its axis, whatever normalizes one lane
(`Softmax.runWith_exact`).
-/

namespace TensorGraph

namespace LaneSizes

variable {s : LaneSizes} {o k i o' k' i' : Nat}

/-! ## Offsets -/

theorem offset_eq : s.offset o k i = (o * s.length + k) * s.inner + i := by
  rw [offset, Nat.add_mul, Nat.mul_assoc]

theorem offset_lt (ho : o < s.outer) (hk : k < s.length) (hi : i < s.inner) :
    s.offset o k i < s.outer * s.length * s.inner := by
  rw [offset_eq]
  exact lt_of_row (lt_of_row ho hk) hi

/-- Different lanes have different offsets. -/
theorem offset_inj (hk : k < s.length) (hi : i < s.inner) (hk' : k' < s.length) (hi' : i' < s.inner) :
    s.offset o k i = s.offset o' k' i' ↔ o = o' ∧ k = k' ∧ i = i' := by
  refine ⟨fun h => ?_, fun ⟨ho, hk, hi⟩ => by rw [ho, hk, hi]⟩
  rw [offset_eq, offset_eq] at h
  have hinner := congrArg (· % s.inner) h
  have hrow := congrArg (· / s.inner) h
  simp only [mod_of_row hi, mod_of_row hi', div_of_row hi, div_of_row hi'] at hinner hrow
  have hposition := congrArg (· % s.length) hrow
  have houter := congrArg (· / s.length) hrow
  simp only [mod_of_row hk, mod_of_row hk', div_of_row hk, div_of_row hk'] at hposition houter
  exact ⟨houter, hposition, hinner⟩

theorem offset_ne (hi : i < s.inner) (hk : k ≠ k') : s.offset o k i ≠ s.offset o k' i := by
  intro h
  have hrow := congrArg (· / s.inner) h
  simp only [offset_eq, div_of_row hi] at hrow
  exact hk (Nat.add_left_cancel hrow)

/-- Every offset is in a lane. -/
theorem exists_offset {p : Nat} (hp : p < s.outer * s.length * s.inner) :
    ∃ o k i, o < s.outer ∧ k < s.length ∧ i < s.inner ∧ s.offset o k i = p := by
  have hinner : 0 < s.inner := Nat.pos_of_mul_pos_left (Nat.zero_lt_of_lt hp)
  have hrow : p / s.inner < s.outer * s.length := (Nat.div_lt_iff_lt_mul hinner).2 hp
  have hlength : 0 < s.length := Nat.pos_of_mul_pos_left (Nat.zero_lt_of_lt hrow)
  refine ⟨p / s.inner / s.length, p / s.inner % s.length, p % s.inner, ?_, Nat.mod_lt _ hlength, Nat.mod_lt _ hinner, ?_⟩
  · exact (Nat.div_lt_iff_lt_mul hlength).2 hrow
  · rw [offset_eq, Nat.div_add_mod', Nat.div_add_mod']

/-! ## Overwriting -/

section Overwriting

variable {α : Type} [Inhabited α] {f : List α → List α} {x : Tensor α}

theorem length_lane (s : LaneSizes) (x : Tensor α) (o i : Nat) : (s.lane x o i).length = s.length := by
  simp [lane]

theorem getElem?_lane (x : Tensor α) (o i : Nat) (hk : k < s.length) :
    (s.lane x o i)[k]? = some (x.read (s.offset o k i)) := by
  simp [lane, hk]

/-- The elements at other offsets stay when a lane is written. -/
theorem read_write_other (l : List α) (m : Nat) (x : Tensor α) {q : Nat}
    (hq : ∀ k < l.length, q ≠ s.offset o (m + k) i) :
    ((l.zipIdx m).foldl (fun x (y, k) => x.set (s.offset o k i) y) x).read q = x.read q := by
  induction l generalizing m x with
  | nil => rfl
  | cons y l ih =>
    rw [List.zipIdx_cons, List.foldl_cons, ih (m + 1) _ fun k hk => ?_]
    · exact Tensor.read_set_of_ne x (hq 0 (Nat.zero_lt_succ _)) y
    · rw [Nat.add_right_comm]
      exact hq (k + 1) (Nat.succ_lt_succ hk)

theorem read_write_self (hi : i < s.inner) (l : List α) (m : Nat) (x : Tensor α)
    (hsize : ∀ k < l.length, s.offset o (m + k) i < x.size) {k : Nat} (hk : k < l.length) :
    ((l.zipIdx m).foldl (fun x (y, k) => x.set (s.offset o k i) y) x).read (s.offset o (m + k) i) = l[k] := by
  induction l generalizing m x k with
  | nil => cases hk
  | cons y l ih =>
    rw [List.zipIdx_cons, List.foldl_cons]
    cases k with
    | zero =>
      rw [read_write_other l (m + 1) _ fun k _ => offset_ne hi (by omega)]
      exact Tensor.read_set_self (hsize 0 hk) y
    | succ k =>
      have hrest := ih (m + 1) (x.set (s.offset o m i) y) (fun k hk => ?_) (Nat.lt_of_succ_lt_succ hk)
      · rwa [Nat.add_right_comm] at hrest
      · rw [Tensor.size_set, Nat.add_right_comm]
        exact hsize (k + 1) (Nat.succ_lt_succ hk)

theorem size_overwrite (f : List α → List α) (s : LaneSizes) (x : Tensor α) (o i : Nat) :
    (s.overwrite f x o i).size = x.size := by
  rw [Tensor.size, Tensor.size, Tensor.size_data, Tensor.size_data, shape_overwrite]

variable (hf : ∀ l, (f l).length = l.length)
include hf

section Lane

variable (hsize : x.size = s.outer * s.length * s.inner) (ho : o < s.outer) (hi : i < s.inner)
include hsize ho hi

theorem lane_overwrite_self : s.lane (s.overwrite f x o i) o i = f (s.lane x o i) := by
  have hlength : (f (s.lane x o i)).length = s.length := by rw [hf, length_lane]
  refine List.ext_getElem (by rw [length_lane, hlength]) fun k hk hk' => ?_
  have hread := read_write_self (o := o) hi (f (s.lane x o i)) 0 x (fun k hk => ?_) hk'
  · rw [Nat.zero_add] at hread
    rw [← hread]
    simp [lane, overwrite]
  · rw [hsize, Nat.zero_add]
    exact offset_lt ho (hlength ▸ hk) hi

omit hsize ho in
/-- Other lanes stay when a lane is overwritten. -/
theorem lane_overwrite_other (hi' : i' < s.inner) (hne : (o', i') ≠ (o, i)) :
    s.lane (s.overwrite f x o i) o' i' = s.lane x o' i' := by
  refine List.map_congr_left fun k hk => ?_
  refine read_write_other _ 0 x fun k' hk' heq => ?_
  rw [hf, length_lane] at hk'
  obtain ⟨rfl, -, rfl⟩ := (offset_inj (List.mem_range.1 hk) hi' (by rwa [Nat.zero_add]) hi).1 heq
  exact hne rfl

end Lane

/-- Overwriting some lanes, one after the other, applies the function to each of them once. -/
theorem lane_foldl {ls : List (Nat × Nat)} (hls : ls.Nodup) (hbounds : ∀ l ∈ ls, l.1 < s.outer ∧ l.2 < s.inner)
    (hsize : x.size = s.outer * s.length * s.inner) (hi : i < s.inner) :
    s.lane (ls.foldl (fun x l => s.overwrite f x l.1 l.2) x) o i =
      if (o, i) ∈ ls then f (s.lane x o i) else s.lane x o i := by
  induction ls generalizing x with
  | nil => rfl
  | cons l ls ih =>
    obtain ⟨hnot, hls⟩ := List.nodup_cons.1 hls
    obtain ⟨⟨ho', hi'⟩, hbounds⟩ := List.forall_mem_cons.1 hbounds
    rw [List.foldl_cons, ih hls hbounds ((size_overwrite ..).trans hsize)]
    by_cases heq : (o, i) = l
    · subst heq
      rw [if_neg hnot, if_pos List.mem_cons_self, lane_overwrite_self hf hsize ho' hi']
    · simp only [List.mem_cons, heq, false_or]
      rw [lane_overwrite_other hf hi' hi heq]

/-- The function is applied to every lane. -/
theorem lane_overwriteAll (hsize : x.size = s.outer * s.length * s.inner) (ho : o < s.outer) (hi : i < s.inner) :
    s.lane (s.overwriteAll f x) o i = f (s.lane x o i) := by
  have hlanes : s.overwriteAll f x =
      (List.range s.outer ×ˢ List.range s.inner).foldl (fun x l => s.overwrite f x l.1 l.2) x := by
    simp only [overwriteAll, SProd.sprod, List.product, List.foldl_flatMap, List.foldl_map]
  rw [hlanes, lane_foldl hf (List.nodup_range.product List.nodup_range) (fun l hl => ?_) hsize hi, if_pos]
  · exact List.mem_product.2 ⟨List.mem_range.2 ho, List.mem_range.2 hi⟩
  · exact (List.mem_product.1 hl).imp List.mem_range.1 List.mem_range.1

end Overwriting

/-! ## Lanes of an axis -/

section OfAxis

variable {α : Type} {x : Tensor α} {d : Nat}

theorem size_of_axis (hd : d < x.rank) : x.size = (ofAxis x.shape d).outer * (ofAxis x.shape d).length *
    (ofAxis x.shape d).inner := by
  rw [Tensor.size, x.size_data]
  conv_lhs => rw [Shape.eq_around hd, volume_append, volume, ← Nat.mul_assoc]
  rfl

/-- The number of an element is an offset into the lane that its other coordinates choose. -/
theorem position_eq_offset {shape index : List Nat} (hd : d < shape.length) (h : Shape.Indexes index shape) :
    ∃ o < (ofAxis shape d).outer, ∃ i < (ofAxis shape d).inner, ∀ k < (ofAxis shape d).length,
      Shape.Indexes (index.set d k) shape ∧ Shape.position shape (index.set d k) = (ofAxis shape d).offset o k i := by
  have hsplit := Shape.eq_around hd
  have hbefore : (shape.take d).length = d := by
    rw [List.length_take]
    omega
  rw [hsplit] at h
  obtain ⟨i, k', j, rfl, hi, -, hj⟩ := Shape.indexes_around_iff.1 h
  refine ⟨_, Shape.position_lt hi, _, Shape.position_lt hj, fun k hk => ?_⟩
  rw [Shape.set_around (hi.length_eq.trans hbefore), offset_eq]
  constructor
  · rw [hsplit]
    exact Shape.indexes_around_iff.2 ⟨i, k, j, rfl, hi, hk, hj⟩
  · conv_lhs => rw [hsplit]
    exact Shape.position_around hi.length_eq k j

end OfAxis

end LaneSizes

/-! ## Softmax -/

namespace Softmax

theorem length_normalizeLane (l : List Single) : (normalizeLane l).length = l.length := by
  simp [normalizeLane]

/-- Whether each element is in one lane along dimension `d`, and only elements are in lanes. -/
structure Partitioned (d : Nat) (x : Tensor Single) : Prop where
  inBounds : ∀ o < (LaneSizes.ofAxis x.shape d).outer, ∀ k < (LaneSizes.ofAxis x.shape d).length,
    ∀ i < (LaneSizes.ofAxis x.shape d).inner, (LaneSizes.ofAxis x.shape d).offset o k i < x.size
  covers : ∀ p < x.size, ∃ o < (LaneSizes.ofAxis x.shape d).outer, ∃ k < (LaneSizes.ofAxis x.shape d).length,
    ∃ i < (LaneSizes.ofAxis x.shape d).inner, (LaneSizes.ofAxis x.shape d).offset o k i = p
  disjoint : ∀ o k i o' k' i', k < (LaneSizes.ofAxis x.shape d).length → i < (LaneSizes.ofAxis x.shape d).inner →
    k' < (LaneSizes.ofAxis x.shape d).length → i' < (LaneSizes.ofAxis x.shape d).inner →
    (LaneSizes.ofAxis x.shape d).offset o k i = (LaneSizes.ofAxis x.shape d).offset o' k' i' →
    o = o' ∧ k = k' ∧ i = i'

/-- Whether `f` makes the elements of `out` along dimension `d` from those of `x`, at any other coordinates. -/
structure AppliedAlong (f : List Single → List Single) (d : Nat) (x out : Tensor Single) : Prop where
  shape_eq : out.shape = x.shape
  lane : ∀ index, Shape.Indexes index x.shape → ∃ lane : List Single, x.shape[d]? = some lane.length ∧
    ∀ k < lane.length, x.at? (index.set d k) = lane[k]? ∧ out.at? (index.set d k) = (f lane)[k]?

variable {f : List Single → List Single} {x : Tensor Single} {d : Nat}

theorem partitioned (hd : d < x.rank) : Partitioned d x where
  inBounds o ho k hk i hi := by
    rw [LaneSizes.size_of_axis hd]
    exact LaneSizes.offset_lt ho hk hi
  covers p hp := by
    rw [LaneSizes.size_of_axis hd] at hp
    obtain ⟨o, k, i, ho, hk, hi, hp⟩ := LaneSizes.exists_offset hp
    exact ⟨o, ho, k, hk, i, hi, hp⟩
  disjoint _ _ _ _ _ _ hk hi hk' hi' := (LaneSizes.offset_inj hk hi hk' hi').1

theorem appliedAlong_overwriteAll (hf : ∀ l, (f l).length = l.length) (hd : d < x.rank) :
    AppliedAlong f d x ((LaneSizes.ofAxis x.shape d).overwriteAll f x) where
  shape_eq := LaneSizes.shape_overwriteAll f _ x
  lane := by
    intro index hindex
    obtain ⟨o, ho, i, hi, hposition⟩ := LaneSizes.position_eq_offset hd hindex
    have hlane := LaneSizes.lane_overwriteAll hf (LaneSizes.size_of_axis hd) ho hi
    have hlength := LaneSizes.length_lane (LaneSizes.ofAxis x.shape d) x o i
    have hsize : (LaneSizes.ofAxis x.shape d).length = x.shape[d] := List.getD_eq_getElem _ _ hd
    refine ⟨(LaneSizes.ofAxis x.shape d).lane x o i, ?_, fun k hk => ?_⟩
    · rw [hlength, hsize]
      exact List.getElem?_eq_getElem hd
    · rw [hlength] at hk
      obtain ⟨hk', hoffset⟩ := hposition k hk
      constructor
      · rw [Tensor.at?_eq_read hk', hoffset, LaneSizes.getElem?_lane x o i hk]
      · have hout : Shape.Indexes (index.set d k) ((LaneSizes.ofAxis x.shape d).overwriteAll f x).shape := by
          rwa [LaneSizes.shape_overwriteAll]
        rw [Tensor.at?_eq_read hout, LaneSizes.shape_overwriteAll, hoffset, ← hlane,
          LaneSizes.getElem?_lane _ o i hk]

/-- Whatever a function makes of one lane, if only it keeps the length, it is applied to each lane along the axis, and
to nothing else. -/
theorem runWith_exact (hf : ∀ l, (f l).length = l.length) (op : Softmax) (x : Tensor Single)
    (haxis : AxisOf x.rank op.axis d) : Partitioned d x ∧
      ∃ out, op.runWith f [.floats x] = .ok (.floats out) ∧ AppliedAlong f d x out := by
  refine ⟨partitioned haxis.1, _, ?_, appliedAlong_overwriteAll hf haxis.1⟩
  have hlanes : op.lanes x.shape = .ok (.ofAxis x.shape d) := by
    have hresolve := resolveAxis_eq_ok.2 haxis
    rw [Tensor.rank] at hresolve
    rw [lanes, hresolve]
    rfl
  change (op.lanes x.shape).bind (fun s => Except.ok (Value.floats (s.overwriteAll f x))) = _
  rw [hlanes]
  rfl

theorem runWith_exact_columns : (∀ l, (normalizeLane l).length = l.length) ∧ AxisOf 2 (-2) 0 ∧
    ∃ out : Tensor Single,
      ({ axis := -2 } : Softmax).run [.floats ⟨[2, 2], #[.zero, .one, .zero, .one], rfl⟩] = .ok (.floats out) ∧
        AppliedAlong normalizeLane 0 ⟨[2, 2], #[.zero, .one, .zero, .one], rfl⟩ out := by
  have haxis : AxisOf 2 (-2) 0 := by decide
  refine ⟨length_normalizeLane, haxis, ?_⟩
  exact (runWith_exact length_normalizeLane { axis := -2 } ⟨[2, 2], #[.zero, .one, .zero, .one], rfl⟩ haxis).2

end Softmax

end TensorGraph
