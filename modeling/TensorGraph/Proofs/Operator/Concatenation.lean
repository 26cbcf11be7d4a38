import Mathlib.Algebra.GroupWithZero.Nat
import Mathlib.Data.Set.List
import TensorGraph.Proofs.Operator.Results
import TensorGraph.Proofs.Tensor.Elements
import TensorGraph.Proofs.Tensor.Indices

/-!
# Concatenation

Joined tensors share the positions along an axis in segments, one for each tensor (`InSegment`). The elements are copied
in blocks: for each position in the dimensions before the axis, one block of each tensor. So the element of the result at
an index is that of the tensor whose segment the index falls into (`Layout.at?_joined`), none is lost and none occurs
twice (`Layout.concat_exact`).
-/

namespace TensorGraph

theorem total_eq_sum (l : List Nat) : total l = l.sum := by
  induction l with
  | nil => rfl
  | cons n l ih => rw [total, ih, List.sum_cons]

/-! ## Segments -/

/-- Position `p` falls into segment `i`, `k` after its start, if segments of the given sizes follow each other. -/
def InSegment (sizes : List Nat) (p i k : Nat) : Prop :=
  ∃ n, sizes[i]? = some n ∧ k < n ∧ p = total (sizes.take i) + k

theorem inSegment_cons {n p k : Nat} {sizes : List Nat} : ∀ {i : Nat}, InSegment (n :: sizes) p i k ↔
    i = 0 ∧ p = k ∧ p < n ∨ ∃ i', i = i' + 1 ∧ n ≤ p ∧ InSegment sizes (p - n) i' k
  | 0 => by
    simp only [InSegment, List.getElem?_cons_zero, Option.some.injEq, List.take_zero, total]
    constructor
    · rintro ⟨_, rfl, hk, rfl⟩
      exact .inl ⟨trivial, Nat.zero_add k, by omega⟩
    · rintro (⟨-, rfl, hp⟩ | ⟨i', hi, -⟩)
      · exact ⟨n, rfl, hp, (Nat.zero_add p).symm⟩
      · omega
  | i + 1 => by
    simp only [InSegment, List.getElem?_cons_succ, List.take_succ_cons, total, Nat.add_right_cancel_iff]
    constructor
    · rintro ⟨m, hm, hk, rfl⟩
      exact .inr ⟨i, rfl, by omega, m, hm, hk, by omega⟩
    · rintro (⟨hi, -⟩ | ⟨i', rfl, hle, m, hm, hk, hp⟩)
      · omega
      · exact ⟨m, hm, hk, by omega⟩

/-- Every position falls into one segment. -/
theorem existsUnique_inSegment {sizes : List Nat} {p : Nat} (h : p < total sizes) :
    ∃! place : Nat × Nat, InSegment sizes p place.1 place.2 := by
  induction sizes generalizing p with
  | nil => cases h
  | cons n sizes ih =>
    simp only [inSegment_cons]
    by_cases hp : p < n
    · refine ⟨(0, p), .inl ⟨rfl, rfl, hp⟩, ?_⟩
      rintro ⟨i, k⟩ (⟨hi, hk, -⟩ | ⟨_, _, hle, -⟩)
      · exact Prod.ext hi hk.symm
      · omega
    · rw [total] at h
      obtain ⟨⟨i, k⟩, hsegment, hunique⟩ := ih (p := p - n) (by omega)
      refine ⟨(i + 1, k), .inr ⟨i, rfl, by omega, hsegment⟩, ?_⟩
      rintro ⟨_, k'⟩ (⟨-, -, hlt⟩ | ⟨i', rfl, -, hsegment'⟩)
      · omega
      · obtain ⟨rfl, rfl⟩ := Prod.mk.inj (hunique (i', k') hsegment')
        rfl

theorem InSegment.lt_total {sizes : List Nat} {p i k : Nat} (h : InSegment sizes p i k) : p < total sizes := by
  induction sizes generalizing p i with
  | nil =>
    obtain ⟨n, hn, -⟩ := h
    simp at hn
  | cons n sizes ih =>
    rw [total]
    rcases inSegment_cons.1 h with ⟨-, -, hp⟩ | ⟨i', -, hle, hrest⟩
    · omega
    · have := ih hrest
      omega

/-- An index falls into a segment, with a given position in it, in one place only. -/
theorem existsUnique_index {before after sizes i j : List Nat} {d number n k : Nat} (hd : before.length = d)
    (hi : Shape.Indexes i before) (hj : Shape.Indexes j after) (hn : sizes[number]? = some n) (hk : k < n) :
    ∃! index, Shape.Indexes index (before ++ total sizes :: after) ∧ index.set d k = i ++ k :: j ∧
      InSegment sizes (index.getD d 0) number k := by
  have hsegment : InSegment sizes (total (sizes.take number) + k) number k := ⟨n, hn, hk, rfl⟩
  have hilen := hi.length_eq.trans hd
  refine ⟨i ++ (total (sizes.take number) + k) :: j, ⟨?_, Shape.set_around hilen .., ?_⟩, ?_⟩
  · exact Shape.indexes_around_iff.2 ⟨i, _, j, rfl, hi, hsegment.lt_total, hj⟩
  · rwa [Shape.getD_around hilen]
  · rintro index ⟨hindex, hset, _, -, -, hp⟩
    obtain ⟨i', p', j', rfl, hi', -, -⟩ := Shape.indexes_around_iff.1 hindex
    have hilen' := hi'.length_eq.trans hd
    rw [Shape.getD_around hilen'] at hp
    rw [Shape.set_around hilen'] at hset
    obtain ⟨rfl, htail⟩ := List.append_inj hset (hilen'.trans hilen.symm)
    rw [hp, (List.cons.inj htail).2]

/-! ## Blocks -/

section Blocks

variable {α β : Type} {f : β → List α} {l : List β}

/-- What follows the blocks before a block. -/
theorem getElem?_flatMap {b : β} {i r : Nat} (hb : l[i]? = some b) (hr : r < (f b).length) :
    (l.flatMap f)[((l.take i).flatMap f).length + r]? = (f b)[r]? := by
  obtain ⟨hi, rfl⟩ := List.getElem?_eq_some_iff.1 hb
  have hsplit : l.flatMap f = (l.take i).flatMap f ++ (f l[i] ++ (l.drop (i + 1)).flatMap f) := by
    rw [← List.flatMap_cons, ← List.flatMap_append, List.getElem_cons_drop, List.take_append_drop]
  rw [hsplit, List.getElem?_append_right (Nat.le_add_right ..), Nat.add_sub_cancel_left, List.getElem?_append_left hr]

theorem length_flatMap {size : β → Nat} {length : Nat} (h : ∀ b ∈ l, (f b).length = size b * length) :
    (l.flatMap f).length = total (l.map size) * length := by
  induction l with
  | nil => simp [total]
  | cons b l ih =>
    obtain ⟨hb, hl⟩ := List.forall_mem_cons.1 h
    rw [List.flatMap_cons, List.length_append, hb, ih hl, List.map_cons, total, Nat.add_mul]

theorem getElem?_flatMap_range {f : Nat → List α} {count length c r : Nat}
    (h : ∀ c < count, (f c).length = length) (hc : c < count) (hr : r < length) :
    ((List.range count).flatMap f)[c * length + r]? = (f c)[r]? := by
  have hbefore : (((List.range count).take c).flatMap f).length = c * length := by
    rw [List.take_range, Nat.min_eq_left (Nat.le_of_lt hc), List.length_flatMap,
      List.map_congr_left fun i hi => h i (Nat.lt_trans (List.mem_range.1 hi) hc)]
    simp
  rw [← hbefore]
  exact getElem?_flatMap (List.getElem?_range hc) (by rwa [h c hc])

end Blocks

namespace Layout

/-! ## Shapes that agree -/

/-- Whether two shapes have the same rank and the same sizes, except in one dimension. -/
def AgreeExcept (d : Nat) (a b : List Nat) : Prop := a.length = b.length ∧ ∀ e, e ≠ d → a[e]? = b[e]?

theorem eq_set_of_eraseIdx {l base : List Nat} {i : Nat} (hlen : l.length = base.length)
    (h : l.eraseIdx i = base.eraseIdx i) : l = base.set i (l.getD i 0) := by
  induction l generalizing base i with
  | nil =>
    obtain rfl : base = [] := List.length_eq_zero_iff.1 hlen.symm
    rfl
  | cons n l ih =>
    cases base with
    | nil => cases hlen
    | cons m base =>
      cases i with
      | zero =>
        obtain rfl : l = base := h
        rfl
      | succ i =>
        obtain ⟨rfl, hrest⟩ := List.cons.inj h
        exact congrArg (n :: ·) (ih (Nat.succ.inj hlen) hrest)

theorem AgreeExcept.eq_set {d : Nat} {a b : List Nat} (h : AgreeExcept d a b) : a = b.set d (a.getD d 0) := by
  refine List.ext_getElem? fun e => ?_
  rw [List.getElem?_set]
  split
  · next hde =>
    subst hde
    by_cases hd : d < a.length
    · simp [hd, ← h.1]
    · simp [← h.1, hd]
  · next hde => exact h.2 e (Ne.symm hde)

theorem AgreeExcept.symm {d : Nat} {a b : List Nat} (h : AgreeExcept d a b) : AgreeExcept d b a :=
  ⟨h.1.symm, fun e he => (h.2 e he).symm⟩

theorem AgreeExcept.trans {d : Nat} {a b c : List Nat} (h : AgreeExcept d a b) (h' : AgreeExcept d b c) :
    AgreeExcept d a c :=
  ⟨h.1.trans h'.1, fun e he => (h.2 e he).trans (h'.2 e he)⟩

theorem agreeExcept_set (d n : Nat) (l : List Nat) : AgreeExcept d (l.set d n) l :=
  ⟨by simp, fun e he => by rw [List.getElem?_set_ne (Ne.symm he)]⟩

theorem agreeExcept_sets (d m n : Nat) (l : List Nat) : AgreeExcept d (l.set d m) (l.set d n) :=
  ⟨by simp, fun e he => by rw [List.getElem?_set_ne (Ne.symm he), List.getElem?_set_ne (Ne.symm he)]⟩

theorem sameExcept_iff {d : Nat} {a b : List Nat} : sameExcept d a b = true ↔ AgreeExcept d a b := by
  rw [sameExcept, Bool.and_eq_true, beq_iff_eq, beq_iff_eq]
  constructor
  · rintro ⟨hlen, herase⟩
    rw [eq_set_of_eraseIdx hlen herase]
    exact agreeExcept_set ..
  · intro h
    refine ⟨h.1, ?_⟩
    rw [h.eq_set, List.eraseIdx_set_eq]

/-- The sizes along a dimension. -/
def sizesAlong (d : Nat) (shapes : List (List Nat)) : List Nat := shapes.map (·.getD d 0)

theorem volume_set {d : Nat} {l : List Nat} (hd : d < l.length) (n : Nat) :
    volume (l.set d n) = volume (l.take d) * (n * volume (l.drop (d + 1))) := by
  rw [Shape.set_eq_around hd, volume_append, volume]

/-! ## Blocks of tensors -/

section TensorBlocks

variable {α : Type} {d : Nat} {base : List Nat} {all : List (Tensor α)}

/-- The block of a tensor for one position in the dimensions before dimension `d`. -/
def block (d : Nat) (base : List Nat) (o : Nat) (t : Tensor α) : List α :=
  let length := t.shape.getD d 0 * volume (base.drop (d + 1))
  (t.data.extract (o * length) ((o + 1) * length)).toList

/-- The elements of the tensors, in the order in which they are joined. -/
def elements (d : Nat) (base : List Nat) (all : List (Tensor α)) : List α :=
  (List.range (volume (base.take d))).flatMap fun o => all.flatMap (block d base o)

theorem getElem?_block {t : Tensor α} {o r : Nat} (hr : r < (block d base o t).length) :
    (block d base o t)[r]? = t.data[o * (t.shape.getD d 0 * volume (base.drop (d + 1))) + r]? := by
  rw [block, Array.length_toList, Array.size_extract] at hr
  rw [block, Array.getElem?_toList, Array.getElem?_extract, if_pos hr]

section Elements

variable (hd : d < base.length) (hall : ∀ t ∈ all, t.shape = base.set d (t.shape.getD d 0))
include hd hall

/-- The blocks of a tensor are within the tensor. -/
theorem block_le_size {t : Tensor α} (ht : t ∈ all) {o : Nat} (ho : o < volume (base.take d)) :
    (o + 1) * (t.shape.getD d 0 * volume (base.drop (d + 1))) ≤ t.size := by
  have hsize : t.size = volume (base.take d) * (t.shape.getD d 0 * volume (base.drop (d + 1))) := by
    rw [Tensor.size, t.size_data]
    conv_lhs => rw [hall t ht, volume_set hd]
  exact hsize ▸ Nat.mul_le_mul_right _ ho

theorem length_block {t : Tensor α} (ht : t ∈ all) {o : Nat} (ho : o < volume (base.take d)) :
    (block d base o t).length = t.shape.getD d 0 * volume (base.drop (d + 1)) := by
  have hle := block_le_size hd hall ht ho
  rw [Tensor.size] at hle
  rw [block, Array.length_toList, Array.size_extract, Nat.min_eq_left hle, Nat.succ_mul, Nat.add_sub_cancel_left]

theorem length_blocks {o : Nat} (ho : o < volume (base.take d)) : (all.flatMap (block d base o)).length =
    total (sizesAlong d (all.map (·.shape))) * volume (base.drop (d + 1)) := by
  rw [sizesAlong, List.map_map]
  exact length_flatMap fun t ht => length_block hd hall ht ho

/-- As many elements are joined as the result has. -/
theorem length_elements :
    (elements d base all).length = volume (base.set d (total (sizesAlong d (all.map (·.shape))))) := by
  refine Eq.trans ?_ (volume_set hd _).symm
  rw [elements, List.length_flatMap, List.map_congr_left fun o ho => length_blocks hd hall (List.mem_range.1 ho)]
  simp

/-- An element of a block is found after the blocks for the outer positions before, and those of the tensors before. -/
theorem getElem?_elements {o : Nat} (ho : o < volume (base.take d)) {number r : Nat} {t : Tensor α}
    (ht : all[number]? = some t) (hr : r < t.shape.getD d 0 * volume (base.drop (d + 1)))
    (hlt : total ((sizesAlong d (all.map (·.shape))).take number) * volume (base.drop (d + 1)) + r <
      total (sizesAlong d (all.map (·.shape))) * volume (base.drop (d + 1))) :
    (elements d base all)[o * (total (sizesAlong d (all.map (·.shape))) * volume (base.drop (d + 1))) +
        (total ((sizesAlong d (all.map (·.shape))).take number) * volume (base.drop (d + 1)) + r)]? =
      t.data[o * (t.shape.getD d 0 * volume (base.drop (d + 1))) + r]? := by
  have hblock : r < (block d base o t).length := by
    rwa [length_block hd hall (List.mem_of_getElem? ht) ho]
  have hbefore : ((all.take number).flatMap (block d base o)).length =
      total ((sizesAlong d (all.map (·.shape))).take number) * volume (base.drop (d + 1)) := by
    rw [sizesAlong, List.map_map, ← List.map_take]
    exact length_flatMap fun u hu => length_block hd hall (List.mem_of_mem_take hu) ho
  rw [elements, getElem?_flatMap_range (fun o ho => length_blocks hd hall ho) ho hlt, ← hbefore,
    getElem?_flatMap ht hblock, getElem?_block hblock]

end Elements

end TensorBlocks

/-! ## Joined tensors -/

variable {α : Type} [Inhabited α] {d : Nat} {base : List Nat} {all : List (Tensor α)}

/-- Tensors joined along dimension `d`. Their shapes are `base` in the other dimensions. -/
def joined (d : Nat) (base : List Nat) (all : List (Tensor α)) : Tensor α :=
  Tensor.generate (base.set d (total (sizesAlong d (all.map (·.shape))))) fun i =>
    (elements d base all).toArray.getD i default

theorem join_eq_ok_iff {axis : Int} {first t : Tensor α} {rest : List (Tensor α)} :
    join axis (first :: rest) = .ok t ↔ ∃ d, AxisOf first.rank axis d ∧
      (∀ u ∈ first :: rest, AgreeExcept d u.shape first.shape) ∧ t = joined d first.shape (first :: rest) := by
  have hall (d : Nat) : ((first :: rest).all fun u => sameExcept d u.shape first.shape) = true ↔
      ∀ u ∈ first :: rest, AgreeExcept d u.shape first.shape := by
    simp only [List.all_eq_true, sameExcept_iff]
  have hsizes (d : Nat) : (first :: rest).map (fun u => u.shape.getD d 0) =
      sizesAlong d ((first :: rest).map (·.shape)) := by rw [sizesAlong, List.map_map]; rfl
  have hjoin : join axis (first :: rest) = (resolveAxis first.rank axis).bind fun d =>
      if !(first :: rest).all fun u => sameExcept d u.shape first.shape then
        .error (.incompatibleShapes "Inputs must have the same shape except along the concat axis")
      else .ok (joined d first.shape (first :: rest)) := by
    simp only [joined, elements, ← hsizes]
    rfl
  rw [hjoin, bind_eq_ok]
  refine exists_congr fun d => ?_
  rw [resolveAxis_eq_ok, ← hall]
  refine and_congr_right fun _ => ?_
  cases (first :: rest).all fun u => sameExcept d u.shape first.shape with
  | false => simp
  | true => simp [eq_comm]

theorem join_eq_ok {axis : Int} {first t : Tensor α} {rest : List (Tensor α)} (h : join axis (first :: rest) = .ok t) :
    ∃ i, resolveAxis first.rank axis = .ok i ∧
      (∀ u ∈ first :: rest, u.shape = first.shape.set i (u.shape.getD i 0)) ∧
      t.shape = first.shape.set i (total ((first :: rest).map fun u => u.shape.getD i 0)) := by
  obtain ⟨i, hi, hagree, rfl⟩ := join_eq_ok_iff.1 h
  refine ⟨i, resolveAxis_eq_ok.2 hi, fun u hu => (hagree u hu).eq_set, ?_⟩
  rw [joined, sizesAlong, List.map_map]
  rfl

theorem toList_joined (hd : d < base.length) (hall : ∀ t ∈ all, t.shape = base.set d (t.shape.getD d 0)) :
    (joined d base all).data.toList = elements d base all := by
  have hlen : (joined d base all).data.toList.length = (elements d base all).length := by
    rw [Array.length_toList, Tensor.size_data, length_elements hd hall]
    rfl
  refine List.ext_getElem hlen fun k h₁ h₂ => ?_
  simp [joined, Tensor.generate, h₂]

/-- Vectors are strung together: there is one position before the axis, and the block of a vector is all of it. -/
theorem join_vectors {axis : Int} {first t : Tensor α} {rest : List (Tensor α)} (hrank : first.rank = 1)
    (h : join axis (first :: rest) = .ok t) : t.data.toList = (first :: rest).flatMap (·.data.toList) := by
  obtain ⟨n, hn⟩ := List.length_eq_one_iff.1 hrank
  obtain ⟨d, hd, hagree, rfl⟩ := join_eq_ok_iff.1 h
  obtain rfl : d = 0 := by
    have := hd.1
    omega
  have hall : ∀ u ∈ first :: rest, u.shape = first.shape.set 0 (u.shape.getD 0 0) := fun u hu => (hagree u hu).eq_set
  have hblock : ∀ u ∈ first :: rest, block 0 first.shape 0 u = u.data.toList := by
    intro u hu
    have hsize : u.shape.getD 0 0 = u.data.size := by
      rw [u.size_data, hall u hu, hn]
      exact (Nat.mul_one _).symm
    simp only [block, hsize, hn]
    simp [volume]
  rw [toList_joined hd.1 hall, elements, hn]
  exact (List.flatMap_singleton ..).trans (List.flatMap_congr fun u hu => hn ▸ hblock u hu)

/-- The element at an index is that of the tensor into whose segment it falls, at the same index but for the start of the
segment. -/
theorem at?_joined (hd : d < base.length) (hall : ∀ t ∈ all, t.shape = base.set d (t.shape.getD d 0)) {i j : List Nat}
    (hi : Shape.Indexes i (base.take d)) (hj : Shape.Indexes j (base.drop (d + 1))) {p number k : Nat}
    (hp : InSegment (sizesAlong d (all.map (·.shape))) p number k) :
    ∃ t a, all[number]? = some t ∧ Shape.Indexes (i ++ k :: j) t.shape ∧ t.at? (i ++ k :: j) = some a ∧
      (joined d base all).at? (i ++ p :: j) = some a := by
  have hlt := hp.lt_total
  obtain ⟨n, hn, hk, hp⟩ := hp
  simp only [sizesAlong, List.map_map, List.getElem?_map, Option.map_eq_some_iff, Function.comp_apply] at hn
  obtain ⟨t, ht, rfl⟩ := hn
  have hshape : t.shape = base.take d ++ t.shape.getD d 0 :: base.drop (d + 1) :=
    (hall t (List.mem_of_getElem? ht)).trans (Shape.set_eq_around hd _)
  have hindex : Shape.Indexes (i ++ k :: j) t.shape :=
    hshape ▸ Shape.indexes_around_iff.2 ⟨i, k, j, rfl, hi, hk, hj⟩
  obtain ⟨a, ha⟩ := Tensor.exists_at? hindex
  refine ⟨t, a, ht, hindex, ha, ?_⟩
  have hout : (joined d base all).shape =
      base.take d ++ total (sizesAlong d (all.map (·.shape))) :: base.drop (d + 1) := Shape.set_eq_around hd _
  have hoindex : Shape.Indexes (i ++ p :: j) (joined d base all).shape :=
    hout ▸ Shape.indexes_around_iff.2 ⟨i, p, j, rfl, hi, hlt, hj⟩
  -- The place of the element in its block, and in the blocks for one outer position.
  have hblock := Shape.position_lt (Shape.indexes_cons_iff.2 ⟨k, j, rfl, hk, hj⟩)
  have hblocks := Shape.position_lt (Shape.indexes_cons_iff.2 ⟨p, j, rfl, hlt, hj⟩)
  rw [Shape.position, volume] at hblock hblocks
  have hread : (elements d base all)[Shape.position (joined d base all).shape (i ++ p :: j)]? = some a := by
    rw [hp, Nat.add_mul, Nat.add_assoc] at hblocks
    rw [hout, Shape.position_append hi.length_eq, Shape.position, volume, hp, Nat.add_mul, Nat.add_assoc,
      getElem?_elements hd hall (Shape.position_lt hi) ht hblock hblocks, ← ha, Tensor.at?]
    conv_rhs => rw [hshape, Shape.position_append hi.length_eq, Shape.position, volume]
  refine (Tensor.at?_generate _ hoindex).trans ?_
  simpa [Array.getD_eq_getD_getElem?] using congrArg (Option.getD · default) hread

/-- The result does not depend on the size of the shape along the axis. -/
theorem joined_set (n : Nat) : joined d (base.set d n) all = joined d base all := by
  have hblock : block d (base.set d n) = (block d base : Nat → Tensor α → List α) := by
    funext o t
    rw [block, block, List.drop_set_of_lt (Nat.lt_succ_self d)]
  rw [joined, joined, elements, elements, hblock, List.set_set, List.take_set_of_le (Nat.le_refl d)]

/-- A tensor of size zero along the axis can be left out. -/
theorem joined_of_zero {before after : List (Tensor α)} {t : Tensor α} (h : t.shape.getD d 0 = 0) :
    joined d base (before ++ t :: after) = joined d base (before ++ after) := by
  have hblock (o : Nat) : block d base o t = [] := by
    rw [block, h]
    simp
  have hsizes : total (sizesAlong d ((before ++ t :: after).map (·.shape))) =
      total (sizesAlong d ((before ++ after).map (·.shape))) := by
    simp only [total_eq_sum, sizesAlong, List.map_append, List.map_cons, List.sum_append, List.sum_cons, h,
      Nat.zero_add]
  simp only [joined, elements, hsizes, List.flatMap_append, List.flatMap_cons, hblock, List.nil_append]

/-! ## Joined values -/

/-- What values that are joined along dimension `d` give. -/
structure Joined (d : Nat) (vs : List Value) (out : Value) : Prop where
  type_eq : ∀ v ∈ vs, out.type = v.type
  agree : ∀ v ∈ vs, AgreeExcept d out.shape v.shape
  size : out.shape[d]? = some (total (sizesAlong d (vs.map (·.shape))))
  /-- The blocks that are copied are within the values. -/
  inBounds : ∀ v ∈ vs, ∀ o < volume (out.shape.take d),
    (o + 1) * (v.shape.getD d 0 * volume (out.shape.drop (d + 1))) ≤ v.size
  /-- An index falls into the segment of one value. -/
  segment : ∀ index, Shape.Indexes index out.shape →
    ∃! place : Nat × Nat, InSegment (sizesAlong d (vs.map (·.shape))) (index.getD d 0) place.1 place.2
  /-- The element at the index is that of this value, at the index but for the start of the segment. -/
  element : ∀ index i k, Shape.Indexes index out.shape →
    InSegment (sizesAlong d (vs.map (·.shape))) (index.getD d 0) i k →
    ∃ v a, vs[i]? = some v ∧ Shape.Indexes (index.set d k) v.shape ∧ v.at? (index.set d k) = some a ∧
      out.at? index = some a
  /-- An index into one of the values is that of one element of the result. -/
  kept : ∀ i v source, vs[i]? = some v → Shape.Indexes source v.shape →
    ∃! index, Shape.Indexes index out.shape ∧ index.set d (source.getD d 0) = source ∧
      InSegment (sizesAlong d (vs.map (·.shape))) (index.getD d 0) i (source.getD d 0)

/-- Tensors of one type of elements, as values. -/
structure Wraps (wrap : Tensor α → Value) : Prop where
  shape_eq : ∀ t, (wrap t).shape = t.shape
  size_eq : ∀ t, (wrap t).size = t.size
  type_eq : ∀ t u, (wrap t).type = (wrap u).type
  at?_eq : ∀ t index, (wrap t).at? index = (t.at? index).map fun a => wrap (.scalar a)
  concat_eq_ok : ∀ axis ts out, concat axis (ts.map wrap) = .ok out ↔ ∃ t, join axis ts = .ok t ∧ out = wrap t

/-- Reading the inputs, which are all of one type, and joining them. -/
theorem bind_join_eq_ok {wrap : Tensor α → Value} {ts : List (Tensor α)} {read : Nat → OpResult (Tensor α)} {axis : Int}
    {out : Value} (hread : ∀ i t, read i = .ok t ↔ (ts.map wrap)[i]? = some (wrap t)) :
    (((List.range (ts.map wrap).length).mapM read).bind fun us => (join axis us).bind fun t => .ok (wrap t)) =
      .ok out ↔ ∃ t, join axis ts = .ok t ∧ out = wrap t := by
  have hinputs : (List.range (ts.map wrap).length).mapM read = .ok ts :=
    (Inputs.mapM_range_eq_ok hread).2 ⟨(List.length_map _).symm, List.take_length⟩
  rw [hinputs]
  change (join axis ts).bind _ = _ ↔ _
  rw [bind_eq_ok]
  simp only [Except.ok.injEq, @eq_comm _ out]

theorem wraps_floats : Wraps Value.floats where
  shape_eq _ := rfl
  size_eq _ := rfl
  type_eq _ _ := rfl
  at?_eq _ _ := rfl
  concat_eq_ok axis ts out := by
    cases ts with
    | nil => exact ⟨nofun, nofun⟩
    | cons t ts => exact bind_join_eq_ok fun _ _ => Inputs.requireFloats_eq_ok

theorem wraps_ints : Wraps Value.ints where
  shape_eq _ := rfl
  size_eq _ := rfl
  type_eq _ _ := rfl
  at?_eq _ _ := rfl
  concat_eq_ok axis ts out := by
    cases ts with
    | nil => exact ⟨nofun, nofun⟩
    | cons t ts => exact bind_join_eq_ok fun _ _ => Inputs.requireInts_eq_ok

omit [Inhabited α] in
theorem exists_map_of_forall {wrap : Tensor α → Value} {type : ElementType} {vs : List Value}
    (hwrap : ∀ v : Value, v.type = type → ∃ t, wrap t = v) (h : ∀ v ∈ vs, v.type = type) :
    ∃ ts, vs = List.map wrap ts := by
  have hrange : vs ∈ Set.range (List.map wrap) := by
    rw [Set.range_list_map]
    exact fun v hv => hwrap v (h v hv)
  obtain ⟨ts, rfl⟩ := hrange
  exact ⟨ts, rfl⟩

theorem exists_map_floats {vs : List Value} : (∀ v ∈ vs, v.type = .float32) → ∃ ts, vs = List.map Value.floats ts := by
  refine exists_map_of_forall fun v hv => ?_
  cases v with
  | floats t => exact ⟨t, rfl⟩
  | ints t => cases hv

theorem exists_map_ints {vs : List Value} : (∀ v ∈ vs, v.type = .int32) → ∃ ts, vs = List.map Value.ints ts := by
  refine exists_map_of_forall fun v hv => ?_
  cases v with
  | floats t => cases hv
  | ints t => exact ⟨t, rfl⟩

section Wrapped

variable {wrap : Tensor α → Value}

theorem map_shape_wrap (hwrap : Wraps wrap) (all : List (Tensor α)) :
    (all.map wrap).map (·.shape) = all.map (·.shape) := by
  rw [List.map_map]
  exact List.map_congr_left fun t _ => hwrap.shape_eq t

/-- Joined tensors are joined values. -/
theorem joined_wrap (hwrap : Wraps wrap) (hd : d < base.length)
    (hall : ∀ t ∈ all, t.shape = base.set d (t.shape.getD d 0)) :
    Joined d (all.map wrap) (wrap (joined d base all)) := by
  have hout : (wrap (joined d base all)).shape =
      base.take d ++ total (sizesAlong d (all.map (·.shape))) :: base.drop (d + 1) := by
    rw [hwrap.shape_eq]
    exact Shape.set_eq_around hd _
  have hin {t : Tensor α} (ht : t ∈ all) : t.shape = base.take d ++ t.shape.getD d 0 :: base.drop (d + 1) :=
    (hall t ht).trans (Shape.set_eq_around hd _)
  have hlen : (base.take d).length = d := by
    rw [List.length_take, Nat.min_eq_left (Nat.le_of_lt hd)]
  have hsizes := map_shape_wrap hwrap all
  constructor
  case type_eq =>
    intro v hv
    obtain ⟨t, -, rfl⟩ := List.mem_map.1 hv
    exact hwrap.type_eq _ _
  case agree =>
    intro v hv
    obtain ⟨t, ht, rfl⟩ := List.mem_map.1 hv
    rw [hwrap.shape_eq, hwrap.shape_eq, hall t ht]
    exact agreeExcept_sets ..
  case size =>
    rw [hsizes, hout, List.getElem?_append_right (Nat.le_of_eq hlen), hlen, Nat.sub_self, List.getElem?_cons_zero]
  case inBounds =>
    intro v hv o ho
    obtain ⟨t, ht, rfl⟩ := List.mem_map.1 hv
    rw [hwrap.shape_eq, joined, Tensor.generate, List.take_set_of_le (Nat.le_refl d)] at ho
    rw [hwrap.shape_eq, hwrap.shape_eq, hwrap.size_eq, joined, Tensor.generate, List.drop_set_of_lt (Nat.lt_succ_self d)]
    exact block_le_size hd hall ht ho
  case segment =>
    intro index hindex
    obtain ⟨i, p, j, rfl, hi, hp, -⟩ := Shape.indexes_around_iff.1 (hout ▸ hindex)
    rw [hsizes, Shape.getD_around (hi.length_eq.trans hlen)]
    exact existsUnique_inSegment hp
  case element =>
    intro index number k hindex hsegment
    obtain ⟨i, p, j, rfl, hi, -, hj⟩ := Shape.indexes_around_iff.1 (hout ▸ hindex)
    have hilen := hi.length_eq.trans hlen
    rw [hsizes, Shape.getD_around hilen] at hsegment
    obtain ⟨t, a, ht, hsource, ha, haout⟩ := at?_joined hd hall hi hj hsegment
    refine ⟨wrap t, wrap (.scalar a), ?_, ?_, ?_, ?_⟩
    · rw [List.getElem?_map, ht, Option.map_some]
    · rwa [Shape.set_around hilen, hwrap.shape_eq]
    · rw [Shape.set_around hilen, hwrap.at?_eq, ha, Option.map_some]
    · rw [hwrap.at?_eq, haout, Option.map_some]
  case kept =>
    intro number v source hv hsource
    rw [List.getElem?_map, Option.map_eq_some_iff] at hv
    obtain ⟨t, ht, rfl⟩ := hv
    rw [hwrap.shape_eq, hin (List.mem_of_getElem? ht)] at hsource
    obtain ⟨i, k, j, rfl, hi, hk, hj⟩ := Shape.indexes_around_iff.1 hsource
    rw [hsizes, hout, Shape.getD_around (hi.length_eq.trans hlen)]
    exact existsUnique_index hlen hi hj (by simp [sizesAlong, ht]) hk

theorem concat_wrap_eq_ok (hwrap : Wraps wrap) {axis : Int} {first : Tensor α} {rest : List (Tensor α)} {out : Value} :
    concat axis ((first :: rest).map wrap) = .ok out ↔ ∃ d, AxisOf first.rank axis d ∧
      (∀ t ∈ first :: rest, AgreeExcept d t.shape first.shape) ∧ out = wrap (joined d first.shape (first :: rest)) := by
  rw [hwrap.concat_eq_ok]
  constructor
  · rintro ⟨t, ht, rfl⟩
    obtain ⟨d, hd, hagree, rfl⟩ := join_eq_ok_iff.1 ht
    exact ⟨d, hd, hagree, rfl⟩
  · rintro ⟨d, hd, hagree, rfl⟩
    exact ⟨_, join_eq_ok_iff.2 ⟨d, hd, hagree, rfl⟩, rfl⟩

/-- A tensor without elements along the axis is left out of the result; if it has none for another reason, then neither
has the result. -/
theorem joined_without (hd : d < base.length) {before after : List (Tensor α)} {t : Tensor α}
    (hshape : t.shape = base.set d (t.shape.getD d 0)) (hsize : t.size = 0) :
    joined d base (before ++ after) = joined d base (before ++ t :: after) ∨
      (joined d base (before ++ t :: after)).size = 0 ∧ (joined d base (before ++ after)).size = 0 := by
  rw [Tensor.size, t.size_data, hshape, volume_set hd] at hsize
  by_cases hzero : t.shape.getD d 0 = 0
  · exact .inl (joined_of_zero hzero).symm
  · have hother : volume (base.take d) = 0 ∨ volume (base.drop (d + 1)) = 0 :=
      (Nat.mul_eq_zero.1 hsize).imp_right fun h => (Nat.mul_eq_zero.1 h).resolve_left hzero
    have hempty (all : List (Tensor α)) : (joined d base all).size = 0 := by
      refine ((joined d base all).size_data.trans (volume_set hd _)).trans ?_
      rcases hother with h | h <;> simp [h]
    exact .inr ⟨hempty _, hempty _⟩

theorem concat_without (hwrap : Wraps wrap) {axis : Int} {first t : Tensor α} {rest before after : List (Tensor α)}
    {out : Value} (h : concat axis ((first :: rest).map wrap) = .ok out) (hall : first :: rest = before ++ t :: after)
    (hsize : t.size = 0) (hne : before ++ after ≠ []) : ∃ out', concat axis ((before ++ after).map wrap) = .ok out' ∧
      (out' = out ∨ out.size = 0 ∧ out'.size = 0) := by
  obtain ⟨d, hd, hagree, rfl⟩ := (concat_wrap_eq_ok hwrap).1 h
  obtain ⟨first', rest', hothers⟩ := List.exists_cons_of_ne_nil hne
  have hagree' {u : Tensor α} (hu : u ∈ first' :: rest') : AgreeExcept d u.shape first.shape := by
    refine hagree u ?_
    rw [← hothers, List.mem_append] at hu
    rw [hall, List.mem_append, List.mem_cons]
    tauto
  have hfirst' := hagree' (List.mem_cons_self ..)
  have hrun : concat axis ((first' :: rest').map wrap) = .ok (wrap (joined d first'.shape (first' :: rest'))) := by
    refine (concat_wrap_eq_ok hwrap).2 ⟨d, ?_, fun u hu => (hagree' hu).trans hfirst'.symm, rfl⟩
    rwa [Tensor.rank, hfirst'.1]
  have hsame : joined d first'.shape (first' :: rest') = joined d first.shape (before ++ after) := by
    rw [hfirst'.eq_set, joined_set, hothers]
  rw [hsame, ← hothers] at hrun
  refine ⟨_, hrun, ?_⟩
  rw [hwrap.size_eq, hwrap.size_eq, hall]
  have ht : AgreeExcept d t.shape first.shape := hagree t (hall ▸ by simp)
  refine (joined_without hd.1 ht.eq_set hsize).imp_left fun hjoined => ?_
  rw [hjoined]

/-- Values of one type are joined as their tensors are. -/
theorem concat_exact_of_wraps (hwrap : Wraps wrap) (axis : Int) {vs : List Value} {first : Value} {rest : List Value}
    (hvs : vs = first :: rest) (hmap : ∃ ts, vs = List.map wrap ts) :
    ((∃ out, concat axis vs = .ok out) ↔
      ∃ d, AxisOf first.rank axis d ∧ ∀ v ∈ rest, AgreeExcept d v.shape first.shape) ∧
    ∀ d out, AxisOf first.rank axis d → concat axis vs = .ok out → Joined d vs out ∧
      ∀ before v after, vs = before ++ v :: after → v.size = 0 → before ++ after ≠ [] →
        ∃ out', concat axis (before ++ after) = .ok out' ∧ (out' = out ∨ out.size = 0 ∧ out'.size = 0) := by
  obtain ⟨ts, rfl⟩ := hmap
  obtain ⟨t, ts, rfl⟩ : ∃ t ts', ts = t :: ts' := List.exists_cons_of_ne_nil (by rintro rfl; cases hvs)
  obtain ⟨rfl, rfl⟩ := List.cons.inj hvs
  have hrank : (wrap t).rank = t.rank := congrArg List.length (hwrap.shape_eq t)
  have hagree (d : Nat) : (∀ v ∈ ts.map wrap, AgreeExcept d v.shape (wrap t).shape) ↔
      ∀ u ∈ t :: ts, AgreeExcept d u.shape t.shape := by
    simp [hwrap.shape_eq, AgreeExcept]
  rw [hrank]
  simp only [hagree]
  refine ⟨⟨?_, ?_⟩, ?_⟩
  · rintro ⟨out, hout⟩
    obtain ⟨d, hd, hall, -⟩ := (concat_wrap_eq_ok hwrap).1 hout
    exact ⟨d, hd, hall⟩
  · rintro ⟨d, hd, hall⟩
    exact ⟨_, (concat_wrap_eq_ok hwrap).2 ⟨d, hd, hall, rfl⟩⟩
  · intro d out hd hout
    obtain ⟨d', hd', hall, hjoined⟩ := (concat_wrap_eq_ok hwrap).1 hout
    obtain rfl := hd.unique hd'
    refine ⟨hjoined ▸ joined_wrap hwrap hd.1 fun u hu => (hall u hu).eq_set, ?_⟩
    intro before v after hvs hsize hne
    obtain ⟨before, rest', hts, rfl, hrest'⟩ := List.map_eq_append_iff.1 hvs
    obtain ⟨u, after, rfl, rfl, rfl⟩ := List.map_eq_cons_iff.1 hrest'
    rw [← List.map_append] at hne ⊢
    exact concat_without hwrap hout hts (hwrap.size_eq u ▸ hsize) (mt List.map_eq_nil_iff.2 hne)

end Wrapped

/-- Tensors of one type can be joined along an axis in range if they agree in all other dimensions. Each element of the
result is then that of the tensor into whose segment its index falls, and each element of the tensors occurs once. A
tensor without elements can be left out. -/
theorem concat_exact (axis : Int) {first : Value} {rest : List Value} (htype : ∀ v ∈ rest, v.type = first.type) :
    ((∃ out, concat axis (first :: rest) = .ok out) ↔
      ∃ d, AxisOf first.rank axis d ∧ ∀ v ∈ rest, AgreeExcept d v.shape first.shape) ∧
    ∀ d out, AxisOf first.rank axis d → concat axis (first :: rest) = .ok out → Joined d (first :: rest) out ∧
      ∀ before v after, first :: rest = before ++ v :: after → v.size = 0 → before ++ after ≠ [] →
        ∃ out', concat axis (before ++ after) = .ok out' ∧ (out' = out ∨ out.size = 0 ∧ out'.size = 0) := by
  have htypes : ∀ v ∈ first :: rest, v.type = first.type := List.forall_mem_cons.2 ⟨rfl, htype⟩
  cases first with
  | floats t => exact concat_exact_of_wraps wraps_floats axis rfl (exists_map_floats htypes)
  | ints t => exact concat_exact_of_wraps wraps_ints axis rfl (exists_map_ints htypes)

/-- A matrix without columns, between two others. -/
theorem concat_exact_columns :
    let a := Value.ints ⟨[2, 1], #[1, 2], rfl⟩
    let b := Value.ints ⟨[2, 0], #[], rfl⟩
    let c := Value.ints ⟨[2, 2], #[3, 4, 5, 6], rfl⟩
    let out := Value.ints ⟨[2, 3], #[1, 3, 4, 2, 5, 6], rfl⟩
    (∀ v ∈ [b, c], v.type = a.type) ∧ AxisOf 2 (-1) 1 ∧ concat (-1) [a, b, c] = .ok out ∧
      Joined 1 [a, b, c] out := by
  intro a b c out
  have htype : ∀ v ∈ [b, c], v.type = a.type := by decide
  have hout : concat (-1) [a, b, c] = .ok out := by decide
  exact ⟨htype, by decide, hout, ((concat_exact (-1) htype).2 1 out (by decide) hout).1⟩

end Layout

end TensorGraph
