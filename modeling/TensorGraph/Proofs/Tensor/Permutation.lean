import Mathlib.Data.List.Perm.Basic
import TensorGraph.Operator.Layout
import TensorGraph.Proofs.Tensor.Elements

/-!
# Permuted dimensions

A tensor whose dimensions are permuted reads the elements at the offsets of an odometer. Its element at an index is that
of the tensor at the index whose entries are permuted into it (`Layout.at?_permute`), so that two permutations, one
after the other, are one (`Layout.permute_permute`).
-/

namespace TensorGraph

namespace Shape

/-! ## Chosen dimensions -/

/-- The entries of a list at the given positions. -/
def pick {α : Type} (positions : List Nat) (l : List α) : List α := positions.filterMap (l[·]?)

variable {α β : Type} {positions : List Nat} {l : List α}

theorem map_pick (f : α → β) (positions : List Nat) (l : List α) :
    (pick positions l).map f = pick positions (l.map f) := by
  simp only [pick, List.map_filterMap, List.getElem?_map]

theorem pick_range (l : List α) : pick (List.range l.length) l = l := by
  induction l with
  | nil => rfl
  | cons a l ih =>
    rw [pick, List.length_cons, List.range_succ_eq_map, List.filterMap_cons, List.filterMap_map]
    exact congrArg (a :: ·) ih

theorem pick_perm (h : positions.Perm (List.range l.length)) : (pick positions l).Perm l := by
  have hpick := h.filterMap (l[·]?)
  change (pick positions l).Perm (pick (List.range l.length) l) at hpick
  rwa [pick_range] at hpick

theorem getElem?_pick (h : ∀ a ∈ positions, a < l.length) (i : Nat) :
    (pick positions l)[i]? = positions[i]?.bind (l[·]?) := by
  induction positions generalizing i with
  | nil => rfl
  | cons a positions ih =>
    obtain ⟨ha, hrest⟩ := List.forall_mem_cons.1 h
    rw [pick, List.filterMap_cons, List.getElem?_eq_getElem ha]
    cases i with
    | zero => simp [List.getElem?_eq_getElem ha]
    | succ i => exact ih hrest i

theorem pick_pick {outer : List Nat} (h : ∀ a ∈ positions, a < l.length) :
    pick outer (pick positions l) = pick (pick outer positions) l := by
  unfold pick
  rw [List.filterMap_filterMap]
  refine List.filterMap_congr fun i _ => ?_
  exact getElem?_pick h i

/-- A permutation can be undone. -/
theorem exists_inverse {perm : List Nat} {n : Nat} (h : perm.Perm (List.range n)) :
    ∃ inverse : List Nat, inverse.Perm (List.range n) ∧ pick inverse perm = List.range n ∧
      pick perm inverse = List.range n := by
  have hlen : perm.length = n := by simpa using h.length_eq
  have hnodup : perm.Nodup := h.nodup_iff.2 List.nodup_range
  have hmem (a : Nat) (ha : a ∈ List.range n) : perm[perm.idxOf a]? = some a :=
    List.getElem?_idxOf (h.mem_iff.2 ha)
  have hundo : pick ((List.range n).map perm.idxOf) perm = List.range n := by
    rw [pick, List.filterMap_map]
    exact (List.filterMap_congr hmem).trans (List.filterMap_some ..)
  have hindex : perm.map perm.idxOf = List.range n := by
    refine List.ext_getElem (by simp [hlen]) fun i hi _ => ?_
    rw [List.length_map] at hi
    rw [List.getElem_map, List.getElem_range, hnodup.idxOf_getElem i hi]
  refine ⟨(List.range n).map perm.idxOf, hindex ▸ (h.map perm.idxOf).symm, hundo, ?_⟩
  have hentry (a : Nat) (ha : a ∈ perm) : ((List.range n).map perm.idxOf)[a]? = some (perm.idxOf a) := by
    rw [List.getElem?_map, List.getElem?_range (List.mem_range.1 (h.mem_iff.1 ha)), Option.map_some]
  exact (List.filterMap_congr hentry).trans ((congrFun List.filterMap_eq_map perm).trans hindex)

section Pairs

variable {l' : List β} (h : l.length = l'.length)
include h

theorem pick_fst_zip : (pick positions (l.zip l')).map (·.1) = pick positions l := by
  rw [map_pick, List.map_fst_zip (Nat.le_of_eq h)]

theorem pick_snd_zip : (pick positions (l.zip l')).map (·.2) = pick positions l' := by
  rw [map_pick, List.map_snd_zip (Nat.le_of_eq h.symm)]

end Pairs

/-! ## Permuted indices -/

variable {shape index perm : List Nat}

theorem Indexes.length_eq (h : Indexes index shape) : index.length = shape.length := List.Forall₂.length_eq h

theorem Indexes.pick (h : Indexes index shape) (positions : List Nat) :
    Indexes (pick positions index) (pick positions shape) := by
  obtain ⟨hlen, hlt⟩ := List.forall₂_iff_zip.1 h
  rw [Indexes, ← pick_fst_zip hlen, ← pick_snd_zip hlen, List.forall₂_map_left_iff, List.forall₂_map_right_iff,
    List.forall₂_same]
  intro d hd
  obtain ⟨_, _, hentry⟩ := List.mem_filterMap.1 hd
  exact hlt (List.mem_of_getElem? hentry)

/-- Every index into permuted dimensions is a permuted index. -/
theorem Indexes.exists_pick (hperm : perm.Perm (List.range shape.length)) (h : Indexes index (Shape.pick perm shape)) :
    ∃ source, Indexes source shape ∧ Shape.pick perm source = index := by
  obtain ⟨inverse, hinverse, hleft, hright⟩ := exists_inverse hperm
  have hlt {l : List Nat} (hl : l.Perm (List.range shape.length)) (a : Nat) (ha : a ∈ l) : a < shape.length :=
    List.mem_range.1 (hl.mem_iff.1 ha)
  have hlen : index.length = shape.length := h.length_eq.trans (pick_perm hperm).length_eq
  refine ⟨Shape.pick inverse index, ?_, ?_⟩
  · have hpick := h.pick inverse
    rwa [pick_pick (hlt hperm), hleft, pick_range] at hpick
  · rw [pick_pick (hlen ▸ hlt hinverse), hright, ← hlen, pick_range]

/-- The offset of an index does not depend on the order of the dimensions. -/
theorem along_perm {pairs pairs' : List ((Nat × Nat) × Nat)} (h : pairs.Perm pairs') :
    along (pairs.map (·.1)) (pairs.map (·.2)) = along (pairs'.map (·.1)) (pairs'.map (·.2)) := by
  induction h with
  | nil => rfl
  | cons d _ ih => simp only [List.map_cons, along, ih]
  | swap d e pairs => simp only [List.map_cons, along, Nat.add_left_comm]
  | trans _ _ ih ih' => exact ih.trans ih'

theorem along_pick {dims : List (Nat × Nat)} (hperm : perm.Perm (List.range dims.length))
    (hlen : index.length = dims.length) : along (pick perm dims) (pick perm index) = along dims index := by
  have hzip : (dims.zip index).length = dims.length := by simp [hlen]
  rw [← pick_fst_zip hlen.symm, ← pick_snd_zip hlen.symm, along_perm (pick_perm (hzip ▸ hperm)),
    List.map_fst_zip (Nat.le_of_eq hlen.symm), List.map_snd_zip (Nat.le_of_eq hlen)]

theorem volume_perm {shape shape' : List Nat} (h : shape.Perm shape') : volume shape = volume shape' := by
  induction h with
  | nil => rfl
  | cons n _ ih => rw [volume, volume, ih]
  | swap m n shape => rw [volume, volume, volume, volume, Nat.mul_left_comm]
  | trans _ _ ih ih' => exact ih.trans ih'

end Shape

/-! ## Elements at indices -/

namespace Tensor

variable {α : Type} {t u : Tensor α} {index : List Nat}

/-- The element at an index. -/
def at? (t : Tensor α) (index : List Nat) : Option α := t.data[Shape.position t.shape index]?

theorem exists_at? (h : Shape.Indexes index t.shape) : ∃ x, t.at? index = some x := by
  have hlt : Shape.position t.shape index < t.data.size := t.size_data ▸ Shape.position_lt h
  exact ⟨_, Array.getElem?_eq_getElem hlt⟩

/-- Tensors of one shape are equal if they have the same elements. -/
theorem eq_of_at? (hshape : t.shape = u.shape) (h : ∀ index, Shape.Indexes index t.shape → t.at? index = u.at? index) :
    t = u := by
  refine eq_of_data hshape (List.ext_getElem? fun offset => ?_)
  rw [Array.getElem?_toList, Array.getElem?_toList]
  by_cases hoffset : offset < volume t.shape
  · obtain ⟨hindex, hposition⟩ := Shape.indexes_indexAt hoffset
    have hat := h _ hindex
    rwa [at?, at?, ← hshape, hposition] at hat
  · rw [Array.getElem?_eq_none (by rw [t.size_data]; omega), Array.getElem?_eq_none (by rw [u.size_data, ← hshape]; omega)]

end Tensor

/-- The element at an index, as a scalar. -/
def Value.at? (v : Value) (index : List Nat) : Option Value :=
  match v with
  | .floats x => (x.at? index).map fun a => .floats (.scalar a)
  | .ints x => (x.at? index).map fun a => .ints (.scalar a)

/-! ## Permuted tensors -/

namespace Layout

open Shape (pick)

variable {α : Type} [Inhabited α] {perm inner outer index : List Nat}

theorem resolvePermutation_eq_ok {perm? : Option (List Nat)} {rank : Nat} {perm : List Nat} :
    resolvePermutation perm? rank = .ok perm ↔
      perm = perm?.getD (List.range rank).reverse ∧ perm.Perm (List.range rank) := by
  unfold resolvePermutation
  dsimp only
  constructor
  · intro h
    split at h
    · next hvalid =>
      cases h
      obtain ⟨hlen, hlt, hnodup⟩ := hvalid
      refine ⟨rfl, ?_⟩
      apply (List.subperm_of_subset hnodup fun axis haxis => List.mem_range.2 (hlt axis haxis)).perm_of_length_le
      rw [List.length_range, hlen]
    · cases h
  · rintro ⟨rfl, hperm⟩
    refine if_pos ⟨?_, fun axis haxis => ?_, ?_⟩
    · simpa using hperm.length_eq
    · exact List.mem_range.1 (hperm.mem_iff.1 haxis)
    · exact hperm.nodup_iff.2 List.nodup_range

theorem read_eq (x : Tensor α) (offset : Nat) : x.read offset = (x.data.toList[offset]?).getD default := by
  simp [Tensor.read, Array.getD_eq_getD_getElem?]

theorem toList_gather (x : Tensor α) {shape offsets : List Nat} (h : offsets.length = volume shape) :
    (x.gather shape offsets).data.toList = offsets.map x.read := by
  refine List.ext_getElem (by simp [Tensor.gather, Tensor.generate, h]) fun i hi hi' => ?_
  have hlt : i < offsets.length := by simpa using hi'
  simp [Tensor.gather, Tensor.generate, hlt]

theorem map_fst_dims (shape : List Nat) : (shape.zip (Shape.strides shape)).map (·.1) = shape :=
  List.map_fst_zip (Nat.le_of_eq (Shape.length_strides shape).symm)

theorem length_dims (shape : List Nat) : (shape.zip (Shape.strides shape)).length = shape.length := by
  simp [Shape.length_strides]

theorem map_fst_permutedDims (perm shape : List Nat) : (permutedDims perm shape).map (·.1) = pick perm shape := by
  change (pick perm (shape.zip (Shape.strides shape))).map (·.1) = _
  rw [Shape.map_pick, map_fst_dims]

theorem shape_permute (perm : List Nat) (x : Tensor α) : (permute perm x).shape = pick perm x.shape :=
  map_fst_permutedDims perm x.shape

/-- The offset that is read at a permuted index is that of the index. -/
theorem getElem?_permutedOffsets {shape : List Nat} (hperm : perm.Perm (List.range shape.length))
    (hindex : Shape.Indexes index shape) :
    (Shape.offsets (volume shape) (permutedDims perm shape))[Shape.position (pick perm shape) (pick perm index)]? =
      some (Shape.position shape index) := by
  have hpicked : Shape.Indexes (pick perm index) ((permutedDims perm shape).map (·.1)) :=
    (map_fst_permutedDims perm shape).symm ▸ hindex.pick perm
  have hpick := Shape.getElem?_offsets hpicked
  have halong : Shape.along (permutedDims perm shape) (pick perm index) = Shape.position shape index := by
    rw [← Shape.along_strides]
    exact Shape.along_pick ((length_dims shape).symm ▸ hperm) (hindex.length_eq.trans (length_dims shape).symm)
  rwa [map_fst_permutedDims, Shape.volume_perm (Shape.pick_perm hperm), halong] at hpick

/-- Only elements of the tensor are read. -/
theorem lt_of_mem_permutedOffsets {shape : List Nat} (hperm : perm.Perm (List.range shape.length)) {offset : Nat}
    (h : offset ∈ Shape.offsets (volume shape) (permutedDims perm shape)) : offset < volume shape := by
  obtain ⟨i, hi⟩ := List.mem_iff_getElem?.1 h
  have hlt : i < volume (pick perm shape) := by
    obtain ⟨hlt, -⟩ := List.getElem?_eq_some_iff.1 hi
    rwa [Shape.length_offsets, ← Shape.volume_perm (Shape.pick_perm hperm)] at hlt
  obtain ⟨hindex, hposition⟩ := Shape.indexes_indexAt hlt
  obtain ⟨source, hsource, hpick⟩ := hindex.exists_pick hperm
  have hread := getElem?_permutedOffsets hperm hsource
  rw [hpick, hposition, hi] at hread
  rw [Option.some.inj hread]
  exact Shape.position_lt hsource

theorem toList_permute (x : Tensor α) (hperm : perm.Perm (List.range x.shape.length)) :
    (permute perm x).data.toList = (Shape.offsets (volume x.shape) (permutedDims perm x.shape)).map x.read := by
  rw [← x.size_data]
  apply toList_gather
  rw [Shape.length_offsets, map_fst_permutedDims, Shape.volume_perm (Shape.pick_perm hperm)]
  exact x.size_data

/-- The element at a permuted index is that at the index. -/
theorem at?_permute (x : Tensor α) (hperm : perm.Perm (List.range x.shape.length))
    (hindex : Shape.Indexes index x.shape) : (permute perm x).at? (pick perm index) = x.at? index := by
  obtain ⟨a, ha⟩ := Tensor.exists_at? hindex
  have hread : x.read (Shape.position x.shape index) = a := by
    rw [read_eq, Array.getElem?_toList]
    exact congrArg (Option.getD · default) ha
  rw [ha, Tensor.at?, ← Array.getElem?_toList, toList_permute x hperm, shape_permute, List.getElem?_map,
    getElem?_permutedOffsets hperm hindex, Option.map_some, hread]

example : (permute [2, 0, 1] ⟨[2, 1, 3], #[1, 2, 3, 4, 5, 6], rfl⟩ : Tensor Nat) =
    ⟨[3, 2, 1], #[1, 4, 2, 5, 3, 6], rfl⟩ := by decide

/-- Dimensions that stay in order. -/
theorem permute_range (x : Tensor α) : permute (List.range x.shape.length) x = x := by
  have hshape : (permute (List.range x.shape.length) x).shape = x.shape := by rw [shape_permute, Shape.pick_range]
  refine Tensor.eq_of_at? hshape fun index hindex => ?_
  rw [hshape] at hindex
  have hat := at?_permute x (.refl _) hindex
  rw [← hindex.length_eq] at hat ⊢
  rwa [Shape.pick_range] at hat

/-- Two permutations, one after the other, are one. -/
theorem permute_permute (x : Tensor α) (hinner : inner.Perm (List.range x.shape.length))
    (houter : outer.Perm (List.range x.shape.length)) :
    permute outer (permute inner x) = permute (pick outer inner) x := by
  have hlt (axis : Nat) (haxis : axis ∈ inner) : axis < x.shape.length := List.mem_range.1 (hinner.mem_iff.1 haxis)
  have hrank : (permute inner x).shape.length = x.shape.length := by
    rw [shape_permute, (Shape.pick_perm hinner).length_eq]
  have hboth : (pick outer inner).Perm (List.range x.shape.length) := by
    have hlen : inner.length = x.shape.length := by simpa using hinner.length_eq
    exact (Shape.pick_perm (hlen.symm ▸ houter)).trans hinner
  refine Tensor.eq_of_at? (by rw [shape_permute, shape_permute, shape_permute, Shape.pick_pick hlt]) fun index hindex => ?_
  -- The index into the result is that into the tensor between them, permuted, and that one is permuted as well.
  rw [shape_permute] at hindex
  obtain ⟨middle, hmiddle, rfl⟩ := Shape.Indexes.exists_pick (hrank.symm ▸ houter) hindex
  rw [at?_permute _ (hrank.symm ▸ houter) hmiddle]
  rw [shape_permute] at hmiddle
  obtain ⟨source, hsource, rfl⟩ := Shape.Indexes.exists_pick hinner hmiddle
  have hlt' (axis : Nat) (haxis : axis ∈ inner) : axis < source.length := hsource.length_eq ▸ hlt axis haxis
  rw [at?_permute x hinner hsource, Shape.pick_pick hlt', at?_permute x hboth hsource]

end Layout

end TensorGraph
