import TensorGraph.Proofs.Tensor.Offsets

/-!
# Overwritten tensors

Overwriting a tensor replaces its elements one after the other. Each element is read before it is replaced, so that
the tensor that results is the one that is computed from the old elements: whether elements are overwritten, computed
from their offsets or transformed, the result is `u` if and only if each computation succeeds with the element of `u`
(`overwrite_eq_ok_iff`, `generateM_eq_ok_iff`, `mapM_eq_ok_iff`), and likewise for two tensors that are combined
(`zipOverwrite_eq_ok_iff`).
-/

namespace TensorGraph.Tensor

variable {α β ε : Type}

/-! ## Tensors computed element by element -/

theorem toList_generateM (shape : List Nat) (f : Nat → Except ε α) :
    (generateM shape f).map (·.data.toList) = (List.range (volume shape)).mapM f := by
  have hlist : (generateM shape f).map (·.data.toList) =
      Vector.toList <$> Vector.ofFnM fun i : Fin (volume shape) => f i := by
    unfold generateM
    cases Vector.ofFnM fun i : Fin (volume shape) => f i <;> rfl
  rw [hlist, Vector.toList_ofFnM, ofFnM_eq_mapM, ← List.map_coe_finRange_eq_range, List.mapM_map]
  rfl

theorem toList_mapM (f : α → Except ε β) (t : Tensor α) :
    (t.mapM f).map (·.data.toList) = t.data.toList.mapM f := by
  have harray : Vector.toArray <$> Vector.mapM f ⟨t.data, t.size_data⟩ = t.data.mapM f := Vector.toArray_mapM
  rw [← Array.toList_mapM, ← harray]
  unfold mapM
  cases Vector.mapM f ⟨t.data, t.size_data⟩ <;> rfl

variable [Inhabited α] {t u : Tensor α} {n i : Nat}

theorem mapM_range_eq_ok {f : Nat → Except ε α} :
    (List.range (volume t.shape)).mapM f = .ok t.data.toList ↔ ∀ i < volume t.shape, f i = .ok (t.read i) := by
  rw [TensorGraph.mapM_eq_ok, ← map_read_range, t.size_data, List.map_map, List.map_inj_left]
  simp only [List.mem_range, Function.comp_apply, toOption_eq_some]

/-- A tensor is computed from offsets if and only if each of its elements is. -/
theorem generateM_eq_ok_iff {shape : List Nat} {f : Nat → Except ε α} :
    generateM shape f = .ok t ↔ t.shape = shape ∧ ∀ i < volume shape, f i = .ok (t.read i) := by
  constructor
  · intro h
    obtain ⟨rfl, hdata⟩ := generateM_eq_ok h
    exact ⟨rfl, mapM_range_eq_ok.1 hdata⟩
  · rintro ⟨rfl, h⟩
    have hdata := (toList_generateM t.shape f).trans (mapM_range_eq_ok.2 h)
    obtain ⟨u, hu, hlist⟩ := map_eq_ok.1 hdata
    rw [hu, eq_of_data (generateM_eq_ok hu).1 hlist]

/-- A tensor is transformed to another if and only if each element is. -/
theorem mapM_eq_ok_iff [Inhabited β] {f : α → Except ε β} {u : Tensor β} :
    t.mapM f = .ok u ↔ u.shape = t.shape ∧ ∀ i < volume t.shape, f (t.read i) = .ok (u.read i) := by
  have hlist (hshape : u.shape = t.shape) :
      t.data.toList.mapM f = .ok u.data.toList ↔ ∀ i < volume t.shape, f (t.read i) = .ok (u.read i) := by
    rw [← hshape, ← mapM_range_eq_ok, hshape, ← t.size_data, ← map_read_range, List.mapM_map]
    rfl
  constructor
  · intro h
    obtain ⟨hshape, hdata⟩ := Tensor.mapM_eq_ok h
    exact ⟨hshape, (hlist hshape).1 hdata⟩
  · rintro ⟨hshape, h⟩
    obtain ⟨v, hv, hdata⟩ := map_eq_ok.1 ((toList_mapM f t).trans ((hlist hshape).2 h))
    rw [hv, eq_of_data ((Tensor.mapM_eq_ok hv).1.trans hshape.symm) hdata]

/-! ## Overwriting -/

variable {f : Nat → α → OpResult α}

/-- One step of overwriting: replaces the element at an offset by what is computed from it. -/
def overwriteAt (f : Nat → α → OpResult α) (t : Tensor α) (i : Nat) : OpResult (Tensor α) := do
  let x ← f i (t.read i)
  pure (t.set i x)

/-- Whether `u` is `t` with the first `n` elements replaced by what is computed from them. -/
structure Overwritten (f : Nat → α → OpResult α) (n : Nat) (t u : Tensor α) : Prop where
  shape : u.shape = t.shape
  done : ∀ i < n, f i (t.read i) = .ok (u.read i)
  kept : ∀ i, n ≤ i → u.read i = t.read i

theorem overwriteAt_eq_ok_iff (hi : i < volume t.shape) : overwriteAt f t i = .ok u ↔
    u.shape = t.shape ∧ f i (t.read i) = .ok (u.read i) ∧ ∀ j, j ≠ i → u.read j = t.read j := by
  have hsize : i < t.size := by rwa [size, t.size_data]
  constructor
  · intro h
    obtain ⟨x, hx, hu⟩ := bind_eq_ok.1 h
    cases hu
    exact ⟨rfl, hx.trans (congrArg Except.ok (read_set_self hsize x).symm), fun j hj => read_set_of_ne t hj x⟩
  · rintro ⟨hshape, hx, hother⟩
    refine bind_eq_ok.2 ⟨_, hx, congrArg Except.ok (eq_of_read hshape.symm fun j _ => ?_)⟩
    by_cases hj : j = i
    · rw [hj, read_set_self hsize]
    · rw [read_set_of_ne t hj, hother j hj]

/-- A step replaces the first of the elements that are left, which is still the old one. -/
theorem Overwritten.succ_iff (hn : n < volume t.shape) :
    Overwritten f (n + 1) t u ↔ ∃ v, Overwritten f n t v ∧ overwriteAt f v n = .ok u := by
  constructor
  · intro h
    have hsize : n < u.size := by rwa [size, u.size_data, h.shape]
    -- The tensor before the step has the old element back.
    have hbefore : Overwritten f n t (u.set n (t.read n)) := by
      refine ⟨h.shape, fun i hi => ?_, fun i hi => ?_⟩
      · rw [read_set_of_ne u (Nat.ne_of_lt hi), h.done i (Nat.lt_succ_of_lt hi)]
      · rcases Nat.eq_or_lt_of_le hi with rfl | hi
        · exact read_set_self hsize _
        · rw [read_set_of_ne u (Nat.ne_of_gt hi), h.kept i hi]
    refine ⟨_, hbefore, (overwriteAt_eq_ok_iff (h.shape ▸ hn)).2 ⟨rfl, ?_, fun j hj => (read_set_of_ne u hj _).symm⟩⟩
    rw [read_set_self hsize]
    exact h.done n (Nat.lt_succ_self n)
  · rintro ⟨v, hv, hstep⟩
    obtain ⟨hshape, hx, hother⟩ := (overwriteAt_eq_ok_iff (hv.shape ▸ hn)).1 hstep
    refine ⟨hshape.trans hv.shape, fun i hi => ?_, fun i hi => ?_⟩
    · rcases Nat.eq_or_lt_of_le (Nat.le_of_lt_succ hi) with rfl | hi
      · rw [← hv.kept i (Nat.le_refl i), hx]
      · rw [hother i (Nat.ne_of_lt hi), hv.done i hi]
    · rw [hother i (Nat.ne_of_gt hi), hv.kept i (Nat.le_of_succ_le hi)]

theorem overwritten_zero_iff : Overwritten f 0 t u ↔ t = u :=
  ⟨fun h => eq_of_read h.shape.symm fun i _ => (h.kept i (Nat.zero_le i)).symm,
    fun h => h ▸ ⟨rfl, fun _ hi => absurd hi (Nat.not_lt_zero _), fun _ _ => rfl⟩⟩

theorem foldlM_overwriteAt_eq_ok_iff (hn : n ≤ volume t.shape) :
    (List.range n).foldlM (overwriteAt f) t = .ok u ↔ Overwritten f n t u := by
  induction n generalizing u with
  | zero => exact (Except.ok.injEq t u).to_iff.trans overwritten_zero_iff.symm
  | succ n ih =>
    rw [List.range_succ, List.foldlM_append, Overwritten.succ_iff hn]
    refine bind_eq_ok.trans (exists_congr fun v => and_congr (ih (Nat.le_of_succ_le hn)) ?_)
    simp only [List.foldlM_cons, List.foldlM_nil, bind_pure]

theorem read_of_volume_le (h : volume t.shape ≤ i) : t.read i = default := by
  rw [← t.size_data] at h
  simp [read, Array.getD, Nat.not_lt.2 h]

/-- A tensor is overwritten by another if and only if each element is. -/
theorem overwrite_eq_ok_iff :
    t.overwrite f = .ok u ↔ u.shape = t.shape ∧ ∀ i < volume t.shape, f i (t.read i) = .ok (u.read i) := by
  have hrun : t.overwrite f = (List.range (volume t.shape)).foldlM (overwriteAt f) t := by
    rw [← t.size_data]
    rfl
  rw [hrun, foldlM_overwriteAt_eq_ok_iff (Nat.le_refl _)]
  refine ⟨fun h => ⟨h.shape, h.done⟩, fun ⟨hshape, hdone⟩ => ⟨hshape, hdone, fun i hi => ?_⟩⟩
  rw [read_of_volume_le hi, read_of_volume_le (hshape ▸ hi)]

/-- Overwriting gives what is computed from the old elements into a new tensor. -/
theorem overwrite_eq_ok_iff_generateM :
    t.overwrite f = .ok u ↔ generateM t.shape (fun i => f i (t.read i)) = .ok u :=
  overwrite_eq_ok_iff.trans generateM_eq_ok_iff.symm

theorem overwrite_eq_ok_iff_mapM {g : α → OpResult α} : (t.overwrite fun _ x => g x) = .ok u ↔ t.mapM g = .ok u :=
  overwrite_eq_ok_iff.trans mapM_eq_ok_iff.symm

/-- Without failures, overwriting gives the tensor that is computed from the old elements. -/
theorem overwrite_pure (g : Nat → α → α) (t : Tensor α) :
    (t.overwrite fun i x => pure (g i x)) = .ok (generate t.shape fun i => g i (t.read i)) :=
  overwrite_eq_ok_iff_generateM.2 (generateM_pure _)

/-- Overwriting a tensor by its combination with one that broadcasts to its shape gives the combination of both. -/
theorem zipOverwrite_eq_ok_iff {g : α → α → OpResult α} {a b : Tensor α}
    (h : Shape.canBroadcast b.shape a.shape = true) : a.zipOverwrite g b = .ok u ↔ a.zipBroadcast g b = .ok u := by
  unfold zipOverwrite zipBroadcast
  rw [Shape.broadcast?_of_canBroadcast h]
  dsimp only
  rw [overwrite_eq_ok_iff, generateM_eq_ok_iff]
  refine and_congr_right fun _ => forall₂_congr fun i hi => ?_
  rw [getD_broadcastOffsets (Shape.canBroadcast_refl a.shape) hi, Shape.offsetIn_self hi]

end TensorGraph.Tensor
