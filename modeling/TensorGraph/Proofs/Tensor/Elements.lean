import Mathlib.Data.List.FinRange
import TensorGraph.Operator.Elementwise
import TensorGraph.Operator.Kernel
import TensorGraph.Proofs.Sequence
import TensorGraph.Proofs.Tensor.Walks

/-!
# Elements of computed tensors

What the elements of a tensor are that is computed element by element, and the offsets that are read when
scalars and vectors are broadcast. However large the chunks are in which elements are computed, they are those that are
computed one after the other (`chunks_eq_map`).
-/

namespace TensorGraph

variable {α β ε : Type}

theorem ofFnM_eq_mapM {m : Type → Type} [Monad m] [LawfulMonad m] {n : Nat} (f : Fin n → m α) :
    List.ofFnM f = (List.finRange n).mapM f := by
  induction n with
  | zero => simp
  | succ n ih =>
    rw [List.ofFnM_succ, List.finRange_succ, List.mapM_cons, ih, List.mapM_map]
    rfl

theorem volume_append (as bs : List Nat) : volume (as ++ bs) = volume as * volume bs := by
  induction as with
  | nil => simp [volume]
  | cons a as ih => simp [volume, ih, Nat.mul_assoc]

namespace Tensor

theorem eq_of_data {t u : Tensor α} (hshape : t.shape = u.shape) (hdata : t.data.toList = u.data.toList) : t = u := by
  cases t
  cases u
  cases hshape
  cases Array.toList_inj.1 hdata
  rfl

theorem generateM_eq_ok {shape : List Nat} {f : Nat → Except ε α} {t : Tensor α}
    (h : Tensor.generateM shape f = .ok t) :
    t.shape = shape ∧ (List.range (volume shape)).mapM f = .ok t.data.toList := by
  obtain ⟨data, hdata, ht⟩ := bind_eq_ok.1 h
  cases ht
  refine ⟨rfl, ?_⟩
  have hlist : Vector.toList <$> Vector.ofFnM (fun i : Fin (volume shape) => f i) = .ok data.toList := by
    rw [hdata]
    rfl
  rw [Vector.toList_ofFnM, ofFnM_eq_mapM] at hlist
  rw [← List.map_coe_finRange_eq_range, List.mapM_map]
  exact hlist

theorem mapM_eq_ok {f : α → Except ε β} {t : Tensor α} {u : Tensor β} (h : t.mapM f = .ok u) :
    u.shape = t.shape ∧ t.data.toList.mapM f = .ok u.data.toList := by
  obtain ⟨data, hdata, hu⟩ := bind_eq_ok.1 h
  cases hu
  refine ⟨rfl, ?_⟩
  have harray : Vector.toArray <$> Vector.mapM f ⟨t.data, t.size_data⟩ = .ok data.toArray := by
    rw [hdata]
    rfl
  have hlist : Array.toList <$> t.data.mapM f = .ok data.toList := by
    rw [Vector.toArray_mapM] at harray
    rw [harray]
    rfl
  rw [Array.toList_mapM] at hlist
  exact hlist

/-! ## Broadcast scalars and vectors -/

/-- The elements that are read when a tensor is broadcast to a shape. -/
def spread [Inhabited α] (t : Tensor α) (shape : List Nat) : List α :=
  (List.range (volume shape)).map fun i => t.read ((Shape.broadcastOffsets t.shape shape).toArray.getD i 0)

theorem zipBroadcast_eq_ok [Inhabited α] {f : α → α → OpResult β} {a b : Tensor α} {t : Tensor β}
    (h : a.zipBroadcast f b = .ok t) : Shape.broadcast? a.shape b.shape = some t.shape ∧
      ((a.spread t.shape).zip (b.spread t.shape)).mapM (fun p => f p.1 p.2) = .ok t.data.toList := by
  unfold Tensor.zipBroadcast at h
  split at h
  · cases h
  · next shape hshape =>
    obtain ⟨rfl, hdata⟩ := generateM_eq_ok h
    refine ⟨hshape, ?_⟩
    rw [spread, spread, List.zip_map', List.mapM_map]
    exact hdata

theorem read_zero [Inhabited α] {t : Tensor α} {x : α} (h : t.data.toList = [x]) : t.read 0 = x := by
  have hdata : t.data = #[x] := by
    rw [← Array.toList_inj, h]
  rw [Tensor.read, hdata]
  rfl

theorem map_read_range [Inhabited α] (t : Tensor α) : (List.range t.data.size).map t.read = t.data.toList := by
  refine List.ext_getElem (by simp) fun i h₁ h₂ => ?_
  have hi : i < t.data.size := by simpa using h₂
  simp [Tensor.read, Array.getD, hi]

/-- The only element of a tensor is read everywhere. -/
theorem spread_of_single [Inhabited α] {t : Tensor α} {x : α} (hx : t.data.toList = [x])
    (hsource : t.shape = [] ∨ t.shape = [1]) (n : Nat) : t.spread [n] = List.replicate n x := by
  have hoffsets : Shape.broadcastOffsets t.shape [n] = (List.range n).map (· * 0) := by
    rw [Shape.broadcastOffsets_eq_walk]
    rcases hsource with h | h <;> rw [h] <;> exact Shape.walk_singleton n 0
  have hvolume : volume [n] = n := Nat.mul_one n
  rw [spread, hoffsets, hvolume]
  refine List.eq_replicate_iff.2 ⟨by simp, fun y hy => ?_⟩
  obtain ⟨i, hi, rfl⟩ := List.mem_map.1 hy
  have hlt : i < n := List.mem_range.1 hi
  simp [Array.getD, hlt, read_zero hx]

theorem spread_scalar [Inhabited α] {t : Tensor α} (h : t.shape = []) : t.spread [] = t.data.toList := by
  have hsize : t.data.size = 1 := by rw [t.size_data, h]; rfl
  rw [← map_read_range, hsize, spread, h]
  rfl

/-- A vector that is broadcast to its own shape is read from left to right. -/
theorem spread_vector [Inhabited α] {t : Tensor α} {n : Nat} (h : t.shape = [n]) :
    t.spread [n] = t.data.toList := by
  have hvolume : volume [n] = n := Nat.mul_one n
  have hsize : t.data.size = n := by rw [t.size_data, h, hvolume]
  have hoffsets : Shape.broadcastOffsets [n] [n] = List.range n := by
    have hwalk : Shape.broadcastOffsets [n] [n] = Shape.walk [(n, if n = 1 then 0 else 1)] := by
      simp [Shape.broadcastOffsets_eq_walk, Shape.broadcastStrides, Shape.strides, volume]
    rw [hwalk, Shape.walk_singleton]
    refine (List.map_congr_left fun i hi => ?_).trans (List.map_id _)
    have := List.mem_range.1 hi
    split
    · simp only [id]
      omega
    · simp
  rw [← map_read_range, hsize, spread, h, hoffsets, hvolume]
  refine List.map_congr_left fun i hi => ?_
  have hlt : i < n := List.mem_range.1 hi
  simp [Array.getD, hlt]

end Tensor

/-! ## Chunks -/

section Chunks

variable {size chunk : Nat} (hchunk : 0 < chunk)
include hchunk

theorem lt_chunkCount {c : Nat} : c < (size + chunk - 1) / chunk ↔ c * chunk < size := by
  rw [Nat.lt_div_iff_mul_lt hchunk]
  omega

/-- The first chunks. -/
theorem flatMap_chunks {f : Nat → Nat → List α} {g : Nat → α} (hf : ∀ c, c * chunk < size →
    ∀ n ≤ chunk, c * chunk + n ≤ size → f c n = (List.range n).map fun i => g (c * chunk + i)) {count : Nat}
    (hcount : count ≤ (size + chunk - 1) / chunk) :
    ((List.range count).flatMap fun c => f c (Nat.min chunk (size - c * chunk))) =
      (List.range (Nat.min (count * chunk) size)).map g := by
  induction count with
  | zero => simp
  | succ count ih =>
    have hlt := (lt_chunkCount hchunk).1 hcount
    have hle : count * chunk + Nat.min chunk (size - count * chunk) ≤ size := by
      have hrest : Nat.min chunk (size - count * chunk) ≤ size - count * chunk := Nat.min_le_right ..
      omega
    have hmin : Nat.min (count * chunk) size = count * chunk := Nat.min_eq_left (Nat.le_of_lt hlt)
    have hnext : Nat.min ((count + 1) * chunk) size = count * chunk + Nat.min chunk (size - count * chunk) := by
      change min ((count + 1) * chunk) size = count * chunk + min chunk (size - count * chunk)
      rw [Nat.succ_mul]
      omega
    rw [List.range_succ, List.flatMap_append, ih (Nat.le_of_succ_le hcount), List.flatMap_singleton,
      hf count hlt _ (Nat.min_le_left ..) hle, hnext, hmin, List.range_add, List.map_append, List.map_map]
    rfl

/-- Elements that are computed in chunks do not depend on the size of the chunks. -/
theorem chunks_eq_map {f : Nat → Nat → List α} {g : Nat → α} (hf : ∀ c, c * chunk < size →
    ∀ n ≤ chunk, c * chunk + n ≤ size → f c n = (List.range n).map fun i => g (c * chunk + i)) :
    chunks size chunk f = (List.range size).map g := by
  have hall : size ≤ (size + chunk - 1) / chunk * chunk :=
    Nat.le_of_not_lt fun hlt => Nat.lt_irrefl _ ((lt_chunkCount hchunk).2 hlt)
  rw [chunks, flatMap_chunks hchunk hf (Nat.le_refl _)]
  exact congrArg (fun n => (List.range n).map g) (Nat.min_eq_right hall)

/-- Chunks that fill the positions. -/
theorem chunks_mul (count : Nat) (f : Nat → Nat → List α) :
    chunks (count * chunk) chunk f = (List.range count).flatMap fun c => f c chunk := by
  have hcount : (count * chunk + chunk - 1) / chunk = count := by
    refine Nat.le_antisymm (Nat.le_of_not_lt fun hlt => ?_) (Nat.le_of_not_lt fun hlt => ?_)
    · exact Nat.lt_irrefl _ ((lt_chunkCount hchunk).1 hlt)
    · have := (lt_chunkCount hchunk).2 (Nat.mul_lt_mul_of_pos_right hlt hchunk)
      exact Nat.lt_irrefl _ this
  rw [chunks, hcount]
  refine List.flatMap_congr fun c hc => ?_
  have hle : chunk ≤ count * chunk - c * chunk := by
    rw [← Nat.sub_mul]
    exact Nat.le_mul_of_pos_left _ (Nat.sub_pos_of_lt (List.mem_range.1 hc))
  rw [show Nat.min chunk (count * chunk - c * chunk) = chunk from Nat.min_eq_left hle]

end Chunks

/-! ## Tensors of given elements -/

namespace Tensor

theorem toList_generate (shape : List Nat) (f : Nat → α) :
    (generate shape f).data.toList = (List.range (volume shape)).map f := by
  refine List.ext_getElem (by simp [generate]) fun i h₁ h₂ => ?_
  simp [generate]

theorem size_set (t : Tensor α) (offset : Nat) (y : α) : (t.set offset y).size = t.size := by
  simp [size, set]

variable [Inhabited α] {shape : List Nat}

theorem toList_ofList {l : List α} (h : l.length = volume shape) : (ofList shape l).data.toList = l := by
  rw [ofList, toList_generate]
  refine List.ext_getElem (by simp [h]) fun i h₁ h₂ => ?_
  simp [Array.getD, h₂]

theorem ofList_map_range (shape : List Nat) (f : Nat → α) :
    ofList shape ((List.range (volume shape)).map f) = generate shape f :=
  eq_of_data rfl ((toList_ofList (by simp)).trans (toList_generate shape f).symm)

/-- A tensor is that of its elements. -/
theorem ofList_toList (t : Tensor α) : ofList t.shape t.data.toList = t :=
  eq_of_data rfl (toList_ofList t.size_data)

theorem read_set_self {t : Tensor α} {offset : Nat} (h : offset < t.size) (y : α) :
    (t.set offset y).read offset = y := by
  have hlt : offset < t.data.size := h
  simp [read, set, Array.getD, hlt]

theorem read_set_of_ne (t : Tensor α) {offset p : Nat} (h : p ≠ offset) (y : α) :
    (t.set offset y).read p = t.read p := by
  by_cases hlt : p < t.data.size
  · simp [read, set, Array.getD, hlt, Ne.symm h]
  · simp [read, set, Array.getD, hlt]

end Tensor

end TensorGraph
