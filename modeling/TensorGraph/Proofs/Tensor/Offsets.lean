import Mathlib.Data.List.Induction
import TensorGraph.Proofs.Tensor.Joins
import TensorGraph.Proofs.Tensor.Permutation

/-!
# Offsets into broadcast tensors

Which element of a tensor is read at an offset into a shape that the tensor broadcasts to (`Shape.offsetIn`). The walk
that lists these offsets visits them in order (`Shape.broadcastOffsets_eq`). Broadcasting twice reads the elements that
broadcasting once reads (`Shape.offsetIn_trans`), so that what a chain of operators reads does not depend on the shapes
of the values between them.
-/

namespace TensorGraph

namespace Shape

/-! ## One offset -/

/-- The offset into a shape for an offset into a shape that it broadcasts to, both with the last dimension first. -/
def offsetReversed : List Nat → List Nat → Nat → Nat
  | s :: ss, t :: ts, i => (if s = 1 then 0 else i % t) + s * offsetReversed ss ts (i / t)
  | _, _, _ => 0

/-- The offset of the element of a tensor of shape `source` that is read at an offset into `target`. -/
def offsetIn (source target : List Nat) (i : Nat) : Nat := offsetReversed source.reverse target.reverse i

/-- Whether sizes broadcast to others, both with the last dimension first. -/
inductive Stretches : List Nat → List Nat → Prop
  | nil (ts : List Nat) : Stretches [] ts
  | cons {s t : Nat} {ss ts : List Nat} (h : s = t ∨ s = 1) (hrest : Stretches ss ts) : Stretches (s :: ss) (t :: ts)

theorem stretches_iff {ss ts : List Nat} :
    Stretches ss ts ↔ ss.length ≤ ts.length ∧ ∀ k, ss.getD k 1 = ts.getD k 1 ∨ ss.getD k 1 = 1 := by
  constructor
  · intro h
    induction h with
    | nil ts => simp
    | cons h _ ih =>
      refine ⟨Nat.succ_le_succ ih.1, fun k => ?_⟩
      cases k with
      | zero => exact h
      | succ k => exact ih.2 k
  · rintro ⟨hlen, h⟩
    induction ss generalizing ts with
    | nil => exact .nil ts
    | cons s ss ih =>
      cases ts with
      | nil => simp at hlen
      | cons t ts => exact .cons (h 0) (ih (Nat.le_of_succ_le_succ hlen) fun k => h (k + 1))

theorem canBroadcast_iff_stretches {s t : List Nat} : canBroadcast s t = true ↔ Stretches s.reverse t.reverse := by
  rw [stretches_iff, canBroadcast_iff, List.length_reverse, List.length_reverse]
  rfl

theorem volume_reverse (shape : List Nat) : volume shape.reverse = volume shape := by
  induction shape with
  | nil => rfl
  | cons n shape ih => rw [List.reverse_cons, volume_append, ih, volume, volume, volume, Nat.mul_one, Nat.mul_comm]

section Reversed

variable {ss ms ts : List Nat} {i : Nat}

theorem offsetReversed_lt (h : Stretches ss ts) (hi : i < volume ts) : offsetReversed ss ts i < volume ss := by
  induction h generalizing i with
  | nil ts => simp [offsetReversed, volume]
  | @cons s t ss ts h _ ih =>
    have ht : 0 < t := Nat.pos_of_mul_pos_right (Nat.zero_lt_of_lt hi)
    have hrest := ih (Nat.div_lt_of_lt_mul hi)
    have hmod : (if s = 1 then 0 else i % t) < s := by
      have := Nat.mod_lt i ht
      split <;> omega
    calc (if s = 1 then 0 else i % t) + s * offsetReversed ss ts (i / t)
        < s + s * offsetReversed ss ts (i / t) := Nat.add_lt_add_right hmod _
      _ = s * (offsetReversed ss ts (i / t) + 1) := by rw [Nat.mul_succ, Nat.add_comm]
      _ ≤ s * volume ss := Nat.mul_le_mul_left s hrest

/-- A tensor is read in order if it has the shape that it broadcasts to. -/
theorem offsetReversed_self (hi : i < volume ts) : offsetReversed ts ts i = i := by
  induction ts generalizing i with
  | nil =>
    simp only [volume, Nat.lt_one_iff] at hi
    simp [offsetReversed, hi]
  | cons t ts ih =>
    rw [offsetReversed, ih (Nat.div_lt_of_lt_mul hi)]
    split
    · next h => simp [h]
    · exact Nat.mod_add_div i t

theorem offsetReversed_trans (hsm : Stretches ss ms) (hmt : Stretches ms ts) (hi : i < volume ts) :
    offsetReversed ss ms (offsetReversed ms ts i) = offsetReversed ss ts i := by
  induction hmt generalizing ss i with
  | nil ts =>
    cases hsm
    rfl
  | @cons m t ms ts h _ ih =>
    cases hsm with
    | nil => rfl
    | @cons s _ ss _ h' hrest =>
      have ht : 0 < t := Nat.pos_of_mul_pos_right (Nat.zero_lt_of_lt hi)
      have hmod : (if m = 1 then 0 else i % t) < m := by
        have := Nat.mod_lt i ht
        split <;> omega
      have hm : 0 < m := Nat.zero_lt_of_lt hmod
      -- The position along the last dimension of `ms`, and the rest of the offset.
      rw [offsetReversed, offsetReversed, offsetReversed, Nat.add_mul_mod_self_left, Nat.mod_eq_of_lt hmod,
        Nat.add_mul_div_left _ _ hm, Nat.div_eq_of_lt hmod, Nat.zero_add, ih hrest (Nat.div_lt_of_lt_mul hi)]
      split
      · rfl
      · next hs => rw [if_neg (by omega)]

theorem offsetReversed_of_single (h : volume ss = 1) (ts : List Nat) (i : Nat) : offsetReversed ss ts i = 0 := by
  induction ss generalizing ts i with
  | nil => rfl
  | cons s ss ih =>
    obtain rfl := Nat.eq_one_of_mul_eq_one_right h
    have hss := Nat.eq_one_of_mul_eq_one_left h
    cases ts with
    | nil => rfl
    | cons t ts => simp [offsetReversed, ih hss]

end Reversed

section

variable {s m t : List Nat} {i : Nat}

theorem offsetIn_lt (h : canBroadcast s t = true) (hi : i < volume t) : offsetIn s t i < volume s := by
  rw [← volume_reverse s]
  exact offsetReversed_lt (canBroadcast_iff_stretches.1 h) (by rwa [volume_reverse])

theorem offsetIn_self (hi : i < volume t) : offsetIn t t i = i := offsetReversed_self (by rwa [volume_reverse])

theorem offsetIn_trans (hsm : canBroadcast s m = true) (hmt : canBroadcast m t = true) (hi : i < volume t) :
    offsetIn s m (offsetIn m t i) = offsetIn s t i :=
  offsetReversed_trans (canBroadcast_iff_stretches.1 hsm) (canBroadcast_iff_stretches.1 hmt) (by rwa [volume_reverse])

theorem offsetIn_of_single (h : volume s = 1) (t : List Nat) (i : Nat) : offsetIn s t i = 0 :=
  offsetReversed_of_single (by rwa [volume_reverse]) _ _

end

/-! ## All offsets -/

theorem walk_scale (c : Nat) (dims : List (Nat × Nat)) :
    walk (dims.map (Prod.map id (c * ·))) = (walk dims).map (c * ·) := by
  induction dims with
  | nil => rfl
  | cons d dims ih =>
    obtain ⟨n, s⟩ := d
    rw [List.map_cons, Prod.map_apply, walk, walk, ih, List.map_flatMap]
    simp only [List.map_map, Function.comp_def, Nat.mul_add, Nat.mul_left_comm, id]

theorem strides_concat (s : List Nat) (n : Nat) : strides (s ++ [n]) = (strides s).map (n * ·) ++ [1] := by
  induction s with
  | nil => rfl
  | cons m s ih =>
    rw [List.cons_append, strides, strides, ih, volume_append, List.map_cons, List.cons_append, volume, volume,
      Nat.mul_one, Nat.mul_comm]

theorem broadcastStrides_concat (s : List Nat) (n rank : Nat) : broadcastStrides (s ++ [n]) (rank + 1) =
    (broadcastStrides s rank).map (n * ·) ++ [if n = 1 then 0 else 1] := by
  have hrank : rank + 1 - (s ++ [n]).length = rank - s.length := by
    rw [List.length_append, List.length_singleton]
    omega
  rw [broadcastStrides, broadcastStrides, hrank, strides_concat, List.zip_append (by simp [length_strides])]
  simp [List.map_append, List.zip_map_right, Function.comp_def]

theorem broadcastStrides_nil (rank : Nat) :
    broadcastStrides [] (rank + 1) = (broadcastStrides [] rank).map (1 * ·) ++ [0] := by
  simp [broadcastStrides, List.replicate_succ']

theorem length_broadcastStrides {s : List Nat} {rank : Nat} (h : s.length ≤ rank) :
    (broadcastStrides s rank).length = rank := by
  simp only [broadcastStrides, List.length_append, List.length_replicate, List.length_map, List.length_zip,
    length_strides]
  omega

/-- The offsets for one more dimension, the last. -/
theorem broadcastOffsets_concat {s s' t : List Nat} {n c stride : Nat} (hlen : s'.length ≤ t.length)
    (h : broadcastStrides s (t.length + 1) = (broadcastStrides s' t.length).map (c * ·) ++ [stride]) :
    broadcastOffsets s (t ++ [n]) =
      (broadcastOffsets s' t).flatMap fun o => (List.range n).map fun j => c * o + j * stride := by
  rw [broadcastOffsets_eq_walk, broadcastOffsets_eq_walk, List.length_append, List.length_singleton, h,
    List.zip_append (by simp [length_broadcastStrides hlen]), List.zip_cons_cons, List.zip_nil_left, walk_concat,
    List.zip_map_right]
  rw [walk_scale, List.flatMap_map]

theorem broadcastOffsets_eq {s t : List Nat} (h : s.length ≤ t.length) :
    broadcastOffsets s t = (List.range (volume t)).map (offsetIn s t) := by
  induction t using List.reverseRecOn generalizing s with
  | nil =>
    obtain rfl := List.length_eq_zero_iff.1 (Nat.le_zero.1 h)
    rfl
  | append_singleton t n ih =>
    have hstep : ∃ s' c stride, s'.length ≤ t.length ∧
        broadcastStrides s (t.length + 1) = (broadcastStrides s' t.length).map (c * ·) ++ [stride] ∧
        ∀ i, offsetIn s (t ++ [n]) i = c * offsetIn s' t (i / n) + i % n * stride := by
      rcases List.eq_nil_or_concat s with rfl | ⟨s', k, rfl⟩
      · exact ⟨[], 1, 0, Nat.zero_le _, broadcastStrides_nil _, fun i => by simp [offsetIn, offsetReversed]⟩
      · rw [List.concat_eq_append] at h ⊢
        refine ⟨s', k, if k = 1 then 0 else 1, by simpa using h, broadcastStrides_concat s' k _, fun i => ?_⟩
        simp only [offsetIn, List.reverse_append, List.reverse_singleton, List.singleton_append, offsetReversed]
        split <;> omega
    obtain ⟨s', c, stride, hlen, hstrides, hoffset⟩ := hstep
    rw [broadcastOffsets_concat hlen hstrides, ih hlen, List.flatMap_map, volume_append, volume, volume, Nat.mul_one,
      ← flatMap_range_map]
    refine List.flatMap_congr fun q _ => List.map_congr_left fun j hj => ?_
    rw [hoffset, div_of_row (List.mem_range.1 hj), mod_of_row (List.mem_range.1 hj)]

end Shape

/-! ## Elements of broadcast tensors -/

namespace Tensor

variable {α β ε : Type} [Inhabited α] {shape target : List Nat} {i : Nat}

/-- The element that is read at an offset into a shape that a tensor broadcasts to. -/
def readIn (t : Tensor α) (target : List Nat) (i : Nat) : α := t.read (Shape.offsetIn t.shape target i)

theorem readIn_shape (t : Tensor α) (hi : i < volume t.shape) : t.readIn t.shape i = t.read i := by
  rw [readIn, Shape.offsetIn_self hi]

theorem readIn_of_offset (t : Tensor α) (h : Shape.canBroadcast t.shape shape = true)
    (h' : Shape.canBroadcast shape target = true) (hi : i < volume target) :
    t.readIn shape (Shape.offsetIn shape target i) = t.readIn target i := by
  rw [readIn, readIn, Shape.offsetIn_trans h h' hi]

theorem read_generate [Inhabited β] (f : Nat → β) (hi : i < volume shape) : (generate shape f).read i = f i := by
  simp [generate, read, hi]

/-- Tensors of one shape are equal if they have the same elements. -/
theorem eq_of_read {t u : Tensor α} (hshape : t.shape = u.shape) (h : ∀ i < volume t.shape, t.read i = u.read i) :
    t = u := by
  refine eq_of_data hshape ?_
  rw [← map_read_range, ← map_read_range, t.size_data, u.size_data, ← hshape]
  exact List.map_congr_left fun i hi => h i (List.mem_range.1 hi)

theorem read_map [Inhabited β] (f : α → β) (t : Tensor α) (hi : i < volume t.shape) :
    (t.map f).read i = f (t.read i) := by
  rw [← t.size_data] at hi
  simp [map, read, Array.getD, hi]

theorem getD_broadcastOffsets {s : List Nat} (h : Shape.canBroadcast s target = true) (hi : i < volume target) :
    (Shape.broadcastOffsets s target).toArray.getD i 0 = Shape.offsetIn s target i := by
  rw [Shape.broadcastOffsets_eq (Shape.canBroadcast_iff.1 h).1]
  simp [Array.getD, hi]

theorem readIn_of_item? {t : Tensor α} {x : α} (h : t.item? = some x) (target : List Nat) (i : Nat) :
    t.readIn target i = x := by
  unfold item? at h
  split at h
  · next hsize =>
    rw [readIn, Shape.offsetIn_of_single (t.size_data ▸ hsize)]
    simpa [read, hsize] using h
  · cases h

theorem read_of_broadcast? {t u : Tensor α} (h : t.broadcast? target = some u) (hi : i < volume target) :
    u.read i = t.readIn target i := by
  unfold broadcast? at h
  split at h
  · next hshape =>
    cases h
    rw [readIn, hshape, Shape.offsetIn_self hi]
  · split at h
    · next hcan =>
      cases h
      rw [gather, read_generate _ hi, getD_broadcastOffsets hcan hi]
      rfl
    · cases h

theorem generate_congr {f g : Nat → β} (h : ∀ i < volume shape, f i = g i) : generate shape f = generate shape g := by
  simp only [generate, mk.injEq, true_and]
  congr 1
  funext i
  exact h i i.isLt

theorem generateM_pure (f : Nat → β) :
    generateM (m := Except ε) shape (fun i => pure (f i)) = .ok (generate shape f) := by
  rw [generateM, Vector.ofFnM_pure]
  rfl

/-- What combining the elements of two tensors gives. -/
theorem zipBroadcast_pure (f : α → α → β) (a b : Tensor α) :
    a.zipBroadcast (fun x y => pure (f x y)) b = match Shape.broadcast? a.shape b.shape with
      | none => .error .notBroadcastable
      | some shape => .ok (generate shape fun i => f (a.readIn shape i) (b.readIn shape i)) := by
  unfold zipBroadcast
  cases h : Shape.broadcast? a.shape b.shape with
  | none => rfl
  | some shape =>
    have hjoins := Shape.joins_of_broadcast? h
    have ha : Shape.canBroadcast a.shape shape = true := hjoins.canBroadcast (by simp)
    have hb : Shape.canBroadcast b.shape shape = true := hjoins.canBroadcast (by simp)
    refine (generateM_pure _).trans (congrArg Except.ok (generate_congr fun i hi => ?_))
    rw [getD_broadcastOffsets ha hi, getD_broadcastOffsets hb hi]
    rfl

end Tensor

end TensorGraph
