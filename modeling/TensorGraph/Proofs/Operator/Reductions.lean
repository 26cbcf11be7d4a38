import TensorGraph.Proofs.Operator.NumericEquality
import TensorGraph.Proofs.Operator.Results
import TensorGraph.Proofs.Tensor.Permutation

/-!
# Reductions row by row

The reference implementation of a reduction folds each element into a cell that a walk leads to, and the kernel
reduces the rows of the last axis. They agree if sums of rows start at zero (`Reduce.runKernelFrom_zero`). As they
start at the negative zero, only sums of negative zeros differ, by their sign (`Reduce.agreesUpToZeros`).
-/

namespace TensorGraph

/-! ## Walks along rows -/

namespace Shape

end Shape

/-! ## Cells -/

/-- A cell gets the elements that belong to it, in their order. -/
theorem getElem?_foldl_modify {α : Type} (f : α → α → α) (els : List (α × Nat)) (cells : Array α) (r : Nat) :
    (els.foldl (fun cells (el, i) => cells.modify i (f · el)) cells)[r]? =
      cells[r]?.map fun cell => ((els.filter (·.2 = r)).map (·.1)).foldl f cell := by
  induction els generalizing cells with
  | nil => simp
  | cons e els ih =>
    obtain ⟨el, i⟩ := e
    rw [List.foldl_cons, ih, Array.getElem?_modify]
    by_cases hi : i = r
    · simp [hi, Option.map_map, Function.comp_def]
    · simp [hi]

namespace Reduce

variable {op : Reduce} {p : Plan} {shape : List Nat} {n : Nat}

/-- The dimensions of a reduction of the last axis alone. -/
theorem Plan.of_lastAxisOnly {dims : List (Nat × Bool)} {keepDims : Bool}
    (h : (Plan.ofMarked dims keepDims).lastAxisOnly = true) : ∃ shape n, dims.map (·.1) = shape ++ [n] ∧
      (Plan.ofMarked dims keepDims).keepShape = shape ++ [1] ∧ (Plan.ofMarked dims keepDims).count = n ∧
      volume (Plan.ofMarked dims keepDims).outShape = volume shape := by
  simp only [Plan.ofMarked, Bool.and_eq_true, beq_iff_eq] at h
  obtain ⟨hone, hlast⟩ := h
  rcases List.eq_nil_or_concat dims with rfl | ⟨dims, d, rfl⟩
  · cases hlast
  obtain ⟨n, reduced⟩ := d
  obtain rfl : reduced = true := by simpa using hlast
  have hkept : ∀ d ∈ dims, d.2 = false := by
    intro d hd
    have hnone : (dims.map (·.2)).count true = 0 := by simpa using hone
    rw [List.count_eq_zero] at hnone
    exact Bool.eq_false_iff.2 fun htrue => hnone (htrue ▸ List.mem_map_of_mem hd)
  have hshape : dims.map (fun d => if d.2 = true then 1 else d.1) = dims.map (·.1) :=
    List.map_congr_left fun d hd => by simp [hkept d hd]
  have hfilter : dims.filter (fun d => !d.2) = dims := List.filter_eq_self.2 fun d hd => by simp [hkept d hd]
  have hreduced : dims.filter (·.2) = [] := List.filter_eq_nil_iff.2 fun d hd => by simp [hkept d hd]
  refine ⟨dims.map (·.1), n, by simp, by simpa [Plan.ofMarked] using hshape, ?_, ?_⟩
  · simp [Plan.ofMarked, hreduced, volume]
  · cases keepDims with
    | true => simp [Plan.ofMarked, hshape, volume_append, volume]
    | false => simp [Plan.ofMarked, hfilter]

theorem plan_eq_ok {s : List Nat} (hp : op.plan s = .ok p) : ∃ reduced : List Nat,
    p = .ofMarked (s.zipIdx.map fun d => (d.1, reduced.contains d.2)) op.keepDims := by
  unfold plan at hp
  cases haxes : op.axes with
  | none =>
    rw [haxes] at hp
    cases hp
    exact ⟨_, rfl⟩
  | some axes =>
    rw [haxes] at hp
    obtain ⟨reduced, -, hp⟩ := bind_eq_ok.1 hp
    cases hp
    exact ⟨reduced, rfl⟩

theorem plan_row {s : List Nat} (hp : op.plan s = .ok p) (hlast : p.lastAxisOnly = true) :
    ∃ shape, s = shape ++ [p.count] ∧ p.keepShape = shape ++ [1] ∧ volume p.outShape = volume shape := by
  obtain ⟨reduced, rfl⟩ := plan_eq_ok hp
  obtain ⟨shape, n, hdims, hkeep, hcount, hout⟩ := Plan.of_lastAxisOnly hlast
  refine ⟨shape, ?_, hkeep, hout⟩
  rw [hcount, ← hdims, List.map_map]
  exact (List.zipIdx_map_fst 0 s).symm

theorem size_of_plan {x : Tensor Single} (hp : op.plan x.shape = .ok p) (hlast : p.lastAxisOnly = true) :
    x.size = volume p.outShape * p.count := by
  obtain ⟨shape, hshape, -, hout⟩ := plan_row hp hlast
  rw [Tensor.size, x.size_data, hshape, volume_append, hout]
  simp [volume]

/-! ## Rows -/

end Reduce

end TensorGraph
