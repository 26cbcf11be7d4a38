import Mathlib.Algebra.Group.Nat.Defs
import Mathlib.Algebra.Ring.Int.Defs
import TensorGraph.Proofs.Operator.Reductions
import TensorGraph.Proofs.Tensor.Indices

/-!
# Cells of reductions

A reduction folds each element into the cell at its index without the reduced dimensions (`Reduce.contract`). The cells
are found by the walk that broadcasts the shape of the result back to the shape of the input, so each is the fold, in
row-major order, of exactly the elements that belong to it (`Reduce.folds_fold`).
-/

namespace TensorGraph

namespace Reduce

/-! ## Marked dimensions -/

/-- Sizes or positions without those of the marked dimensions, or with a number in their place. -/
def squeeze (keepDims : Bool) (filler : Nat) (dims : List (Nat × Bool)) : List Nat :=
  if keepDims then dims.map fun (n, marked) => if marked then filler else n
  else (dims.filter fun d => !d.2).map (·.1)

/-- A position in a dimension, where both are marked or neither is. -/
def Within (entry dim : Nat × Bool) : Prop := entry.1 < dim.1 ∧ entry.2 = dim.2

section Squeeze

variable {keepDims : Bool} {filler n : Nat} {dims entries : List (Nat × Bool)} {index : List Nat}

@[simp] theorem squeeze_nil : squeeze keepDims filler [] = [] := by cases keepDims <;> rfl

@[simp] theorem squeeze_kept : squeeze keepDims filler ((n, false) :: dims) = n :: squeeze keepDims filler dims := by
  cases keepDims <;> rfl

@[simp] theorem squeeze_true_marked : squeeze true filler ((n, true) :: dims) = filler :: squeeze true filler dims :=
  rfl

@[simp] theorem squeeze_false_marked : squeeze false filler ((n, true) :: dims) = squeeze false filler dims := rfl

theorem volume_squeeze (keepDims : Bool) (dims : List (Nat × Bool)) :
    volume (squeeze keepDims 1 dims) = volume (squeeze true 1 dims) := by
  cases keepDims with
  | true => rfl
  | false =>
    induction dims with
    | nil => rfl
    | cons d dims ih =>
      obtain ⟨n, _ | _⟩ := d <;> simp [volume, ih]

theorem indexes_squeeze (h : List.Forall₂ Within entries dims) :
    Shape.Indexes (squeeze keepDims 0 entries) (squeeze keepDims 1 dims) := by
  induction h with
  | nil =>
    rw [squeeze_nil, squeeze_nil]
    exact .nil
  | @cons entry dim entries dims hentry _ ih =>
    obtain ⟨k, marked⟩ := entry
    obtain ⟨n, marked'⟩ := dim
    obtain ⟨hk, hmarked⟩ := hentry
    obtain rfl : marked = marked' := hmarked
    cases marked with
    | false =>
      rw [squeeze_kept, squeeze_kept]
      exact .cons hk ih
    | true =>
      cases keepDims with
      | true => exact .cons Nat.one_pos ih
      | false => exact ih

/-- Whether the marked dimensions are dropped or replaced does not change the number of an element. -/
theorem position_squeeze (h : List.Forall₂ Within entries dims) :
    Shape.position (squeeze keepDims 1 dims) (squeeze keepDims 0 entries) =
      Shape.position (squeeze true 1 dims) (squeeze true 0 entries) := by
  cases keepDims with
  | true => rfl
  | false =>
    induction h with
    | nil => rfl
    | @cons entry dim entries dims hentry _ ih =>
      obtain ⟨k, marked⟩ := entry
      obtain ⟨n, _⟩ := dim
      obtain ⟨-, rfl⟩ := hentry
      cases marked with
      | false => simp [Shape.position, volume_squeeze, ih]
      | true => simp [Shape.position, ih]

/-- Broadcasting from the shape with ones leads from an index to that without the marked dimensions. -/
theorem project_squeeze (h : List.Forall₂ Within entries dims) :
    Shape.project (squeeze true 1 dims) (entries.map (·.1)) = squeeze true 0 entries := by
  have hlen : (entries.map (·.1)).length = (squeeze true 1 dims).length := by
    simp [squeeze, h.length_eq]
  rw [Shape.project_eq hlen]
  clear hlen
  induction h with
  | nil => rfl
  | @cons entry dim entries dims hentry _ ih =>
    obtain ⟨k, marked⟩ := entry
    obtain ⟨n, _⟩ := dim
    obtain ⟨hk, rfl⟩ := hentry
    cases marked with
    | true => simp [ih]
    | false =>
      have hentry : (if n = 1 then 0 else k) = k := by
        have := hk
        split <;> omega
      simp [ih, hentry]

/-- Every index of the result comes from an index of the input, if there is a position in each marked dimension. -/
theorem exists_squeeze (hindex : Shape.Indexes index (squeeze keepDims 1 dims))
    (hdims : ∀ d ∈ dims, d.2 = true → 0 < d.1) :
    ∃ entries, List.Forall₂ Within entries dims ∧ squeeze keepDims 0 entries = index := by
  induction dims generalizing index with
  | nil =>
    rw [squeeze_nil] at hindex
    cases hindex
    exact ⟨[], .nil, squeeze_nil⟩
  | cons dim dims ih =>
    obtain ⟨n, marked⟩ := dim
    obtain ⟨hdim, hrest⟩ := List.forall_mem_cons.1 hdims
    cases marked with
    | false =>
      rw [squeeze_kept] at hindex
      obtain ⟨k, tail, rfl, hk, htail⟩ := Shape.indexes_cons_iff.1 hindex
      obtain ⟨entries, hentries, rfl⟩ := ih htail hrest
      exact ⟨(k, false) :: entries, .cons ⟨hk, rfl⟩ hentries, squeeze_kept⟩
    | true =>
      have hn : 0 < n := hdim rfl
      cases keepDims with
      | true =>
        rw [squeeze_true_marked] at hindex
        obtain ⟨k, tail, rfl, hk, htail⟩ := Shape.indexes_cons_iff.1 hindex
        obtain rfl : k = 0 := by omega
        obtain ⟨entries, hentries, rfl⟩ := ih htail hrest
        exact ⟨(0, true) :: entries, .cons ⟨hn, rfl⟩ hentries, rfl⟩
      | false =>
        obtain ⟨entries, hentries, rfl⟩ := ih hindex hrest
        exact ⟨(0, true) :: entries, .cons ⟨hn, rfl⟩ hentries, rfl⟩

end Squeeze

/-! ## Reduced dimensions -/

/-- Whether dimension `d` of a tensor is reduced: all are if there are no axes. -/
def Reduces (op : Reduce) (rank d : Nat) : Prop := ∀ axes ∈ op.axes, ∃ axis ∈ axes, AxisOf rank axis d

instance (op : Reduce) (rank d : Nat) : Decidable (op.Reduces rank d) :=
  inferInstanceAs (Decidable (∀ axes ∈ op.axes, ∃ axis ∈ axes, AxisOf rank axis d))

/-- Whether all axes are in range. -/
def InRange (op : Reduce) (rank : Nat) : Prop := ∀ axes ∈ op.axes, ∀ axis ∈ axes, ∃ d, AxisOf rank axis d

/-- The entries for the dimensions, each marked if the dimension is reduced. -/
def mark (op : Reduce) (entries : List Nat) : List (Nat × Bool) :=
  entries.zipIdx.map fun (n, d) => (n, decide (op.Reduces entries.length d))

/-- The entries for the dimensions of the result. Those of reduced dimensions are dropped, or replaced if the dimensions
are kept. -/
def contract (op : Reduce) (filler : Nat) (entries : List Nat) : List Nat :=
  squeeze op.keepDims filler (op.mark entries)

/-- The shape of the result if reduced dimensions are kept. -/
def keptShape (op : Reduce) (s : List Nat) : List Nat := squeeze true 1 (op.mark s)

variable {op : Reduce} {s index source : List Nat}

theorem map_fst_mark (op : Reduce) (entries : List Nat) : (op.mark entries).map (·.1) = entries := by
  rw [mark, List.map_map]
  exact List.zipIdx_map_fst 0 entries

theorem length_keptShape (op : Reduce) (s : List Nat) : (op.keptShape s).length = s.length := by
  simp [keptShape, squeeze, mark]

theorem volume_contract (op : Reduce) (s : List Nat) : volume (op.contract 1 s) = volume (op.keptShape s) :=
  volume_squeeze ..

theorem within_mark (op : Reduce) (h : Shape.Indexes index s) : List.Forall₂ Within (op.mark index) (op.mark s) := by
  refine List.forall₂_iff_get.2 ⟨by simp [mark, h.length_eq], fun d hd hd' => ?_⟩
  have hlt : d < index.length := by simpa [mark] using hd
  have hlt' : d < s.length := by simpa [mark] using hd'
  have hentry : index[d] < s[d] := List.Forall₂.get h hlt hlt'
  simpa [mark, Within, h.length_eq] using hentry

theorem eq_mark {entries : List (Nat × Bool)} (h : List.Forall₂ Within entries (op.mark s)) :
    Shape.Indexes (entries.map (·.1)) s ∧ entries = op.mark (entries.map (·.1)) := by
  have hlen : entries.length = s.length := by simpa [mark] using h.length_eq
  have hentry (d : Nat) (hd : d < entries.length) :
      entries[d].1 < s[d] ∧ entries[d].2 = decide (op.Reduces s.length d) := by
    simpa [mark, Within] using List.Forall₂.get h hd (by simpa [mark] using hlen ▸ hd)
  constructor
  · refine List.forall₂_iff_get.2 ⟨by simpa using hlen, fun d hd hd' => ?_⟩
    simpa using (hentry d (hlen ▸ hd')).1
  · refine List.ext_getElem (by simp [mark]) fun d hd _ => Prod.ext (by simp [mark]) ?_
    simpa [mark, hlen] using (hentry d hd).2

theorem mapM_resolveAxis {rank : Nat} {axes : List Int} (h : ∀ axis ∈ axes, ∃ d, AxisOf rank axis d) :
    ∃ reduced, axes.mapM (resolveAxis rank) = .ok reduced ∧ ∀ d, d ∈ reduced ↔ ∃ axis ∈ axes, AxisOf rank axis d := by
  obtain ⟨reduced, hreduced, hall⟩ := exists_mapM (f := resolveAxis rank) (R := AxisOf rank) fun axis haxis => by
    obtain ⟨d, hd⟩ := h axis haxis
    exact ⟨d, resolveAxis_eq_ok.2 hd, hd⟩
  refine ⟨reduced, hreduced, fun d => ⟨exists_of_forall₂ hall, ?_⟩⟩
  rintro ⟨axis, haxis, hd⟩
  obtain ⟨e, he, hunique⟩ := exists_of_forall₂ hall.flip haxis
  exact hd.unique hunique ▸ he

theorem plan_of_inRange (h : op.InRange s.length) : op.plan s = .ok (.ofMarked (op.mark s) op.keepDims) := by
  have hmark (reduced : List Nat) (hreduced : ∀ d < s.length, d ∈ reduced ↔ op.Reduces s.length d) :
      s.zipIdx.map (fun (n, d) => (n, reduced.contains d)) = op.mark s := by
    refine List.map_congr_left fun e he => ?_
    have hd : e.2 < s.length := by simpa using (List.mem_zipIdx he).2.1
    simp [hreduced e.2 hd]
  unfold plan
  cases haxes : op.axes with
  | none =>
    refine congrArg (fun dims => Except.ok (Plan.ofMarked dims op.keepDims)) (hmark _ fun d hd => ?_)
    simp [hd, Reduces, haxes]
  | some axes =>
    obtain ⟨reduced, hreduced, hmem⟩ := mapM_resolveAxis (h axes haxes)
    change (axes.mapM (resolveAxis s.length)).bind _ = _
    rw [hreduced]
    refine congrArg (fun dims => Except.ok (Plan.ofMarked dims op.keepDims)) (hmark _ fun d _ => ?_)
    simp [hmem, Reduces, haxes]

theorem plan_of_not_inRange (h : ¬op.InRange s.length) : op.plan s = .error (.invalidValue "Axis is invalid") := by
  have hplan : ∃ axes, op.axes = some axes ∧ ∃ axis ∈ axes, ¬∃ d, AxisOf s.length axis d := by
    simpa [InRange] using h
  obtain ⟨axes, haxes, axis, haxis, hout⟩ := hplan
  unfold plan
  rw [haxes]
  change (axes.mapM (resolveAxis s.length)).bind _ = _
  cases hreduced : axes.mapM (resolveAxis s.length) with
  | ok reduced =>
    have hmem : (resolveAxis s.length axis).toOption ∈ reduced.map some :=
      mapM_eq_ok.1 hreduced ▸ List.mem_map_of_mem haxis
    rw [resolveAxis_eq_error hout] at hmem
    simp [Except.toOption] at hmem
  | error e =>
    obtain ⟨axis', -, herror⟩ := mapM_eq_error hreduced
    have hout' : ¬∃ d, AxisOf s.length axis' d := by
      rintro ⟨d, hd⟩
      cases herror.symm.trans (resolveAxis_eq_ok.2 hd)
    cases herror.symm.trans (resolveAxis_eq_error hout')
    rfl

/-! ## Elements of cells -/

section Fold

variable {α : Type} [Inhabited α] {f : α → α → α} {start : α} {x : Tensor α}

/-- The elements whose index is that of a cell but for the reduced dimensions, in row-major order. -/
def members (op : Reduce) (x : Tensor α) (cell : List Nat) : List α :=
  ((Shape.indices x.shape).filter fun source => op.contract 0 source = cell).filterMap x.at?

/-- Whether a tensor has, in each cell, the fold of the elements that belong to it. -/
structure Folds (op : Reduce) (f : α → α → α) (start : α) (x out : Tensor α) : Prop where
  shape_eq : out.shape = op.contract 1 x.shape
  element : ∀ index, Shape.Indexes index out.shape → out.at? index = some ((op.members x index).foldl f start)

theorem members_eq_map (op : Reduce) (x : Tensor α) (cell : List Nat) : op.members x cell =
    ((Shape.indices x.shape).filter fun source => op.contract 0 source = cell).map fun source =>
      x.read (Shape.position x.shape source) := by
  rw [members, ← List.filterMap_eq_map]
  refine List.filterMap_congr fun source hsource => ?_
  exact Tensor.at?_eq_read (Shape.mem_indices.1 (List.mem_of_mem_filter hsource))

/-- The number of a cell, found in the shape that keeps the reduced dimensions, is that of its index. -/
theorem position_project (hsource : Shape.Indexes source s) :
    Shape.position (op.keptShape s) (Shape.project (op.keptShape s) source) =
      Shape.position (op.contract 1 s) (op.contract 0 source) := by
  have hwithin := within_mark op hsource
  have hproject := project_squeeze hwithin
  rw [map_fst_mark] at hproject
  rw [keptShape, hproject]
  exact (position_squeeze hwithin).symm

/-- Each element is folded into the cell with the number of its index. -/
theorem zip_offsets (op : Reduce) (x : Tensor α) :
    x.data.toList.zip (Shape.broadcastOffsets (op.keptShape x.shape) x.shape) =
      (Shape.indices x.shape).map fun source => (x.read (Shape.position x.shape source),
        Shape.position (op.contract 1 x.shape) (op.contract 0 source)) := by
  have hkeep := Nat.le_of_eq (length_keptShape op x.shape)
  rw [x.toList_eq_map, Shape.broadcastOffsets_eq_map hkeep, List.zip_map']
  refine List.map_congr_left fun source hsource => ?_
  rw [position_project (Shape.mem_indices.1 hsource)]

theorem indexes_contract (op : Reduce) (h : Shape.Indexes source s) :
    Shape.Indexes (op.contract 0 source) (op.contract 1 s) :=
  indexes_squeeze (within_mark op h)

/-- The cells are as many as the elements of the result, and each element is folded into one of them. -/
theorem offset_lt {p : Plan} (hp : p = .ofMarked (op.mark s) op.keepDims) : volume p.outShape = volume p.keepShape ∧
    ∀ offset ∈ Shape.broadcastOffsets p.keepShape s, offset < volume p.keepShape := by
  subst hp
  have hvolume := volume_contract op s
  have hkeep := Nat.le_of_eq (length_keptShape op s)
  refine ⟨hvolume, fun offset hoffset => ?_⟩
  change offset ∈ Shape.broadcastOffsets (op.keptShape s) s at hoffset
  rw [Shape.broadcastOffsets_eq_map hkeep, List.mem_map] at hoffset
  obtain ⟨source, hmem, rfl⟩ := hoffset
  have hsource := Shape.mem_indices.1 hmem
  rw [position_project hsource]
  exact Nat.lt_of_lt_of_eq (Shape.position_lt (indexes_contract op hsource)) hvolume

theorem folds_fold (op : Reduce) (f : α → α → α) (start : α) (x : Tensor α) :
    op.Folds f start x (fold x (.ofMarked (op.mark x.shape) op.keepDims) start f) := by
  refine ⟨rfl, fun index hindex => ?_⟩
  have hindex : Shape.Indexes index (op.contract 1 x.shape) := hindex
  have hlt : Shape.position (op.contract 1 x.shape) index < volume (op.keptShape x.shape) :=
    Nat.lt_of_lt_of_eq (Shape.position_lt hindex) (volume_contract op x.shape)
  -- The elements that are folded into the cell are found by its number, the members by its index.
  have hmembers : op.members x index = (((Shape.indices x.shape).map fun source =>
      (x.read (Shape.position x.shape source), Shape.position (op.contract 1 x.shape) (op.contract 0 source))).filter
        fun e => e.2 = Shape.position (op.contract 1 x.shape) index).map (·.1) := by
    rw [members_eq_map, List.filter_map, List.map_map]
    refine congrArg (List.map _) (List.filter_congr fun source hsource => decide_eq_decide.2 ?_)
    exact (Shape.position_inj (indexes_contract op (Shape.mem_indices.1 hsource)) hindex).symm
  have hkeep : (Plan.ofMarked (op.mark x.shape) op.keepDims).keepShape = op.keptShape x.shape := rfl
  rw [fold, hkeep]
  refine (Tensor.at?_generate _ hindex).trans (congrArg some ?_)
  rw [Array.getD_eq_getD_getElem?, getElem?_foldl_modify, zip_offsets, hmembers]
  simp [hlt]

end Fold

/-! ## Cells without elements -/

/-- Whether there is a cell to which no element belongs. -/
def Starves (op : Reduce) (s : List Nat) : Prop :=
  ∃ index, Shape.Indexes index (op.contract 1 s) ∧ ∀ source, Shape.Indexes source s → op.contract 0 source ≠ index

theorem pos_of_marked {dims entries : List (Nat × Bool)} (h : List.Forall₂ Within entries dims) :
    ∀ d ∈ dims, 0 < d.1 := by
  intro d hd
  obtain ⟨entry, -, hentry⟩ := exists_of_forall₂ h hd
  exact Nat.zero_lt_of_lt hentry.1

theorem volume_pos_iff {s : List Nat} : 0 < volume s ↔ ∀ n ∈ s, 0 < n := by
  induction s with
  | nil => simp [volume]
  | cons n s ih =>
    rw [volume, List.forall_mem_cons, ← ih]
    exact ⟨fun h => ⟨Nat.pos_of_mul_pos_right h, Nat.pos_of_mul_pos_left h⟩, fun h => Nat.mul_pos h.1 h.2⟩

/-- A cell gets no elements if and only if some reduced dimension has size zero and there are cells. -/
theorem starves_iff : op.Starves s ↔
    (Plan.ofMarked (op.mark s) op.keepDims).count = 0 ∧ 0 < volume (op.contract 1 s) := by
  have hcount : 0 < (Plan.ofMarked (op.mark s) op.keepDims).count ↔ ∀ d ∈ op.mark s, d.2 = true → 0 < d.1 := by
    rw [Plan.ofMarked, volume_pos_iff, List.forall_mem_map]
    simp only [List.mem_filter, and_imp]
  constructor
  · rintro ⟨index, hindex, hnone⟩
    -- With a position in every reduced dimension, the index of the cell would come from an index of the input.
    refine ⟨Nat.eq_zero_of_not_pos fun hpos => ?_, Nat.zero_lt_of_lt (Shape.position_lt hindex)⟩
    obtain ⟨entries, hentries, hsqueeze⟩ := exists_squeeze hindex (hcount.1 hpos)
    obtain ⟨hsource, hmark⟩ := eq_mark hentries
    refine hnone _ hsource ?_
    rw [contract, ← hmark, hsqueeze]
  · rintro ⟨hzero, hpos⟩
    refine ⟨_, (Shape.indexes_zeros hpos).1, fun source hsource => ?_⟩
    have hsizes := pos_of_marked (within_mark op hsource)
    exact absurd hzero (Nat.ne_of_gt (hcount.2 fun d hd _ => hsizes d hd))

/-! ## Sums of integers -/

theorem toInt_foldl_add (l : List Int32) (start : Int32) :
    (l.foldl (· + ·) start).toInt = (start.toInt + (l.map Int32.toInt).sum).bmod (2 ^ 32) := by
  induction l generalizing start with
  | nil => simp
  | cons x l ih =>
    rw [List.foldl_cons, ih, Int32.toInt_add, List.map_cons, List.sum_cons, Int.bmod_add_bmod, Int.add_assoc]

/-! ## Results -/

section Run

variable {v : Value}

theorem run_of_not_inRange (h : ¬op.InRange v.rank) : op.run [v] = .error (.invalidValue "Axis is invalid") := by
  change (op.plan v.shape).bind _ = _
  rw [plan_of_not_inRange h]
  rfl

theorem run_of_inRange (h : op.InRange v.rank) : op.run [v] =
    (op.checkNonEmpty (.ofMarked (op.mark v.shape) op.keepDims)).bind fun _ =>
      op.reduceValue (.ofMarked (op.mark v.shape) op.keepDims) v := by
  change (op.plan v.shape).bind _ = _
  rw [plan_of_inRange h]
  rfl

/-- Nothing but the axes is checked, unless a maximum would be that of no elements. -/
theorem run_of_not_starves (h : op.InRange v.rank) (hstarves : op.fn = .max → ¬op.Starves v.shape) :
    op.run [v] = op.reduceValue (.ofMarked (op.mark v.shape) op.keepDims) v := by
  rw [run_of_inRange h, checkNonEmpty, if_neg]
  · rfl
  · rintro ⟨hfn, hempty⟩
    exact hstarves hfn (starves_iff.2 hempty)

theorem max_eq_error_iff (h : op.InRange v.rank) (hfn : op.fn = .max) :
    (∃ e, op.run [v] = .error e) ↔ op.Starves v.shape := by
  constructor
  · rintro ⟨e, he⟩
    by_contra hstarves
    rw [run_of_not_starves h fun _ => hstarves] at he
    cases v <;> simp only [reduceValue, hfn, reduceCtorEq] at he
  · intro hstarves
    rw [run_of_inRange h, checkNonEmpty, if_pos ⟨hfn, starves_iff.1 hstarves⟩]
    exact ⟨_, rfl⟩

theorem inBounds_of_plan {p : Plan} (hp : op.plan s = .ok p) : volume p.outShape = volume p.keepShape ∧
    ∀ offset ∈ Shape.broadcastOffsets p.keepShape s, offset < volume p.keepShape := by
  by_cases h : op.InRange s.length
  · rw [plan_of_inRange h] at hp
    exact offset_lt (Except.ok.inj hp).symm
  · rw [plan_of_not_inRange h] at hp
    cases hp

end Run

/-- What a reduction of a tensor gives. -/
structure Exact (op : Reduce) (v : Value) : Prop where
  outOfRange : ¬op.InRange v.rank → op.run [v] = .error (.invalidValue "Axis is invalid")
  sumFloats : op.InRange v.rank → op.fn = .sum → ∀ x, v = .floats x →
    ∃ out, op.run [v] = .ok (.floats out) ∧ op.Folds .add .zero x out
  /-- Every element is folded into a cell, and the cells are as many as the elements of the result. -/
  inBounds : ∀ p, op.plan v.shape = .ok p → volume p.outShape = volume p.keepShape ∧
    ∀ offset ∈ Shape.broadcastOffsets p.keepShape v.shape, offset < volume p.keepShape
  /-- Sums of integers are exact, but for multiples of `2 ^ 32`. -/
  sumInts : op.InRange v.rank → op.fn = .sum → ∀ x, v = .ints x →
    ∃ out, op.run [v] = .ok (.ints out) ∧ op.Folds (· + ·) 0 x out ∧
      ∀ index, Shape.Indexes index out.shape → ∃ sum, out.at? index = some sum ∧
        sum.toInt = ((op.members x index).map Int32.toInt).sum.bmod (2 ^ 32)
  maxStarved : op.InRange v.rank → op.fn = .max → ((∃ e, op.run [v] = .error e) ↔ op.Starves v.shape)
  maxFloats : op.InRange v.rank → op.fn = .max → ¬op.Starves v.shape → ∀ x, v = .floats x →
    ∃ out, op.run [v] = .ok (.floats out) ∧ op.Folds .maximum .negInfinity x out
  maxInts : op.InRange v.rank → op.fn = .max → ¬op.Starves v.shape → ∀ x, v = .ints x →
    ∃ out, op.run [v] = .ok (.ints out) ∧ op.Folds (fun a b => if a < b then b else a) Int32.minValue x out

/-- Reductions over axes in range fold into each cell exactly the elements that belong to it. Maxima fail if there is a
cell to which none belongs. -/
theorem cells_exact (op : Reduce) (v : Value) : op.Exact v := by
  have hsum (h : op.InRange v.rank) (hfn : op.fn = .sum) := run_of_not_starves h (by simp [hfn])
  constructor
  case outOfRange => exact run_of_not_inRange
  case inBounds =>
    intro p hp
    exact inBounds_of_plan hp
  case sumFloats =>
    rintro h hfn x rfl
    refine ⟨_, ?_, folds_fold op .add .zero x⟩
    rw [hsum h hfn, reduceValue, hfn]
    rfl
  case sumInts =>
    rintro h hfn x rfl
    have hfolds := folds_fold op (· + ·) (0 : Int32) x
    refine ⟨_, ?_, hfolds, fun index hindex => ⟨_, hfolds.element index hindex, ?_⟩⟩
    · rw [hsum h hfn, reduceValue, hfn]
      rfl
    · rw [toInt_foldl_add, Int32.toInt_zero, Int.zero_add]
  case maxStarved => exact max_eq_error_iff
  case maxFloats =>
    rintro h hfn hstarves x rfl
    refine ⟨_, ?_, folds_fold op .maximum .negInfinity x⟩
    rw [run_of_not_starves h fun _ => hstarves, reduceValue, hfn]
    rfl
  case maxInts =>
    rintro h hfn hstarves x rfl
    refine ⟨_, ?_, folds_fold op (fun a b => if a < b then b else a) Int32.minValue x⟩
    rw [run_of_not_starves h fun _ => hstarves, reduceValue, hfn]
    rfl

/-- The sums of two rows, with the columns given twice. -/
theorem cells_exact_rows :
    let op : Reduce := { fn := .sum, axes := some [-1, 1], keepDims := true }
    let x : Tensor Int32 := ⟨[2, 3], #[1, 2, 3, 4, 5, 6], rfl⟩
    op.InRange 2 ∧ op.members x [1, 0] = [4, 5, 6] ∧
      ∃ out, op.run [.ints x] = .ok (.ints out) ∧ op.Folds (· + ·) 0 x out := by
  intro op x
  have hrange : op.InRange 2 := by
    rintro axes haxes axis haxis
    obtain rfl : [-1, 1] = axes := Option.some.inj haxes
    rw [exists_axisOf]
    have := List.mem_pair.1 haxis
    omega
  obtain ⟨out, hrun, hfolds, -⟩ := (cells_exact op (.ints x)).sumInts hrange rfl x rfl
  exact ⟨hrange, by decide, out, hrun, hfolds⟩

end Reduce

end TensorGraph
