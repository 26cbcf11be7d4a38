import TensorGraph.Proofs.Rewrite.ExactRules

/-!
# Transposition

A transpose gives each index the element at the index whose entries the permutation moves there, and reads only elements
of its input (`Transposed`). Of two transposes, one after the other, the result is that of one, by the permutation that
the rewrite rule for chains of transposes puts in their place (`Operator.transpose_exact`).
-/

namespace TensorGraph

/-! ## Transposed values -/

/-- Entry `i` of `target` is entry `perm[i]` of `source`. -/
def Permutes (perm source target : List Nat) : Prop :=
  ∀ i axis : Nat, perm[i]? = some axis → target[i]? = source[axis]?

/-- What a transpose by a permutation makes of a value. -/
structure Transposed (perm : List Nat) (v out : Value) : Prop where
  type_eq : out.type = v.type
  rank_eq : out.rank = v.rank
  shape : Permutes perm v.shape out.shape
  /-- The offsets that are read are those of elements. -/
  inBounds : ∀ offset ∈ Shape.offsets v.size (Layout.permutedDims perm v.shape), offset < v.size
  /-- There is one index that is permuted into an index, and the elements are the same. -/
  element : ∀ index, Shape.Indexes index out.shape → ∃ source a, Shape.Indexes source v.shape ∧
    Permutes perm source index ∧ (∀ other, other.length = v.rank → Permutes perm other index → other = source) ∧
    v.at? source = some a ∧ out.at? index = some a

theorem permutes_pick {perm source : List Nat} (h : perm.Perm (List.range source.length)) :
    Permutes perm source (Shape.pick perm source) := by
  intro i axis haxis
  rw [Shape.getElem?_pick (fun a ha => List.mem_range.1 (h.mem_iff.1 ha)), haxis]
  rfl

/-- An index is known from the entries that a permutation moves. -/
theorem Permutes.unique {perm source other target : List Nat} (hperm : perm.Perm (List.range source.length))
    (hlen : other.length = source.length) (h : Permutes perm source target) (h' : Permutes perm other target) :
    other = source := by
  refine List.ext_getElem? fun axis => ?_
  by_cases haxis : axis < source.length
  · obtain ⟨i, hi⟩ := List.mem_iff_getElem?.1 (hperm.mem_iff.2 (List.mem_range.2 haxis))
    rw [← h i axis hi, ← h' i axis hi]
  · rw [List.getElem?_eq_none (Nat.le_of_not_lt haxis), List.getElem?_eq_none (by omega)]

namespace Layout

variable {α : Type} [Inhabited α] {perm index : List Nat}

theorem exists_source {x : Tensor α} (hperm : perm.Perm (List.range x.shape.length))
    (h : Shape.Indexes index (permute perm x).shape) : ∃ source a, Shape.Indexes source x.shape ∧
      Permutes perm source index ∧ (∀ other, other.length = x.shape.length → Permutes perm other index → other = source) ∧
      x.at? source = some a ∧ (permute perm x).at? index = some a := by
  rw [shape_permute] at h
  obtain ⟨source, hsource, rfl⟩ := h.exists_pick hperm
  obtain ⟨a, ha⟩ := Tensor.exists_at? hsource
  have hperm' : perm.Perm (List.range source.length) := hsource.length_eq.symm ▸ hperm
  refine ⟨source, a, hsource, permutes_pick hperm', fun other hlen hother => ?_, ha, ?_⟩
  · exact (permutes_pick hperm').unique hperm' (hlen.trans hsource.length_eq.symm) hother
  · rw [at?_permute x hperm hsource, ha]

theorem transposed_permuteValue {v : Value} (hperm : perm.Perm (List.range v.rank)) :
    Transposed perm v (permuteValue perm v) where
  type_eq := by cases v <;> rfl
  rank_eq := rank_permuteValue hperm
  shape := by
    rw [shape_permuteValue]
    exact permutes_pick hperm
  inBounds := by
    rw [v.size_eq]
    exact fun offset => lt_of_mem_permutedOffsets hperm
  element := by
    intro index hindex
    cases v with
    | floats x =>
      obtain ⟨source, a, hsource, hpermutes, hunique, ha, hout⟩ := exists_source hperm hindex
      refine ⟨source, .floats (.scalar a), hsource, hpermutes, hunique, ?_, ?_⟩
      · rw [Value.at?, ha, Option.map_some]
      · rw [permuteValue, Value.at?, hout, Option.map_some]
    | ints x =>
      obtain ⟨source, a, hsource, hpermutes, hunique, ha, hout⟩ := exists_source hperm hindex
      refine ⟨source, .ints (.scalar a), hsource, hpermutes, hunique, ?_, ?_⟩
      · rw [Value.at?, ha, Option.map_some]
      · rw [permuteValue, Value.at?, hout, Option.map_some]

end Layout

/-! ## Transposes in a chain -/

theorem Rules.composePermutations?_eq_some {inner outer : List Nat} (hlen : outer.length = inner.length)
    (hlt : ∀ axis ∈ outer, axis < inner.length) :
    Rules.composePermutations? inner outer = some (Shape.pick outer inner) := by
  rw [Rules.composePermutations?, if_pos hlen, mapM_eq_some]
  refine List.ext_getElem? fun i => ?_
  rw [List.getElem?_map, List.getElem?_map, Shape.getElem?_pick hlt]
  cases hi : outer[i]? with
  | none => rfl
  | some axis =>
    have haxis : axis < inner.length := hlt axis (List.mem_of_getElem? hi)
    simp [haxis]

theorem Rules.resolvePermutation?_of_rank (perm? : Option (List Nat)) (rank : Nat) :
    Rules.resolvePermutation? perm? (some rank) = some (perm?.getD (List.range rank).reverse) := by
  cases perm? <;> rfl

namespace Operator

/-- What a transpose gives. -/
theorem run_transpose {perm? : Option (List Nat)} {perm : List Nat} {v : Value}
    (h : perm = perm?.getD (List.range v.rank).reverse) (hperm : perm.Perm (List.range v.rank)) :
    (transpose perm?).run [v] = .ok [Layout.permuteValue perm v] :=
  singleton_eq_ok.2 (Layout.transpose_iff.2 ⟨v, perm, rfl, Layout.resolvePermutation_eq_ok.2 ⟨h, hperm⟩, rfl⟩)

/-- Transposes by any permutations give each index its element. The transpose that is put in place of two, one after the
other, computes what they compute, and its input is returned if it leaves the dimensions in order. -/
theorem transpose_exact (v : Value) {inner? outer? : Option (List Nat)} {inner outer : List Nat}
    (hinner? : Rules.resolvePermutation? inner? (some v.rank) = some inner)
    (houter? : Rules.resolvePermutation? outer? (some inner.length) = some outer)
    (hinner : inner.Perm (List.range v.rank)) (houter : outer.Perm (List.range v.rank)) :
    ∃ y z perm, (transpose inner?).run [v] = .ok [y] ∧ Transposed inner v y ∧
      (transpose outer?).run [y] = .ok [z] ∧ Transposed outer y z ∧
      Rules.composePermutations? inner outer = some perm ∧ (∀ i : Nat, perm[i]? = outer[i]?.bind (inner[·]?)) ∧
      (transpose (some perm)).run [v] = .ok [z] ∧ Transposed perm v z ∧
      (Rules.isIdentityPermutation perm = true → z = v) := by
  have hlen : inner.length = v.rank := by simpa using hinner.length_eq
  have hlen' : outer.length = v.rank := by simpa using houter.length_eq
  have hlt (axis : Nat) (haxis : axis ∈ outer) : axis < inner.length :=
    hlen ▸ List.mem_range.1 (houter.mem_iff.1 haxis)
  have hdefault : inner = inner?.getD (List.range v.rank).reverse :=
    Option.some.inj (hinner?.symm.trans (Rules.resolvePermutation?_of_rank inner? v.rank))
  have hrank : (Layout.permuteValue inner v).rank = v.rank := Layout.rank_permuteValue hinner
  have hdefault' : outer = outer?.getD (List.range (Layout.permuteValue inner v).rank).reverse := by
    rw [hrank, ← hlen]
    exact Option.some.inj (houter?.symm.trans (Rules.resolvePermutation?_of_rank outer? inner.length))
  have houter' : outer.Perm (List.range (Layout.permuteValue inner v).rank) := hrank.symm ▸ houter
  have hperm : (Shape.pick outer inner).Perm (List.range v.rank) :=
    (Shape.pick_perm (hlen.symm ▸ houter)).trans hinner
  have hboth := Layout.permuteValue_permuteValue v hinner houter
  refine ⟨_, _, Shape.pick outer inner, run_transpose hdefault hinner, Layout.transposed_permuteValue hinner,
    run_transpose hdefault' houter', Layout.transposed_permuteValue houter',
    Rules.composePermutations?_eq_some (hlen'.trans hlen.symm) hlt, Shape.getElem?_pick hlt, ?_, ?_, ?_⟩
  · rw [hboth]
    exact run_transpose rfl hperm
  · rw [hboth]
    exact Layout.transposed_permuteValue hperm
  · intro hidentity
    have hrange : Shape.pick outer inner = List.range v.rank := by
      have hlen'' : (Shape.pick outer inner).length = v.rank := by simpa using hperm.length_eq
      exact hlen'' ▸ eq_of_beq hidentity
    rw [hboth, hrange, Layout.permuteValue_range]

theorem transpose_rotated : ∃ y z, (transpose (some [2, 0, 1])).run [.ints ⟨[2, 1, 3], #[1, 2, 3, 4, 5, 6], rfl⟩] =
      .ok [y] ∧ Transposed [2, 0, 1] (.ints ⟨[2, 1, 3], #[1, 2, 3, 4, 5, 6], rfl⟩) y ∧
    (transpose none).run [y] = .ok [z] ∧ Transposed [2, 1, 0] y z ∧
    (transpose (some [1, 0, 2])).run [.ints ⟨[2, 1, 3], #[1, 2, 3, 4, 5, 6], rfl⟩] = .ok [z] := by
  have hinner? : Rules.resolvePermutation? (some [2, 0, 1]) (some 3) = some [2, 0, 1] := rfl
  have houter? : Rules.resolvePermutation? none (some 3) = some [2, 1, 0] := rfl
  obtain ⟨y, z, perm, hinner, hy, houter, hz, hperm, -, hrun, -⟩ :=
    transpose_exact (.ints ⟨[2, 1, 3], #[1, 2, 3, 4, 5, 6], rfl⟩) hinner? houter? (by decide) (by decide)
  obtain rfl : [1, 0, 2] = perm := Option.some.inj hperm
  exact ⟨y, z, hinner, hy, houter, hz, hrun⟩

end Operator

end TensorGraph
