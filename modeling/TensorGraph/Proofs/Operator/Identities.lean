import TensorGraph.Proofs.Facts.Operators
import TensorGraph.Proofs.Operator.NumericEquality
import TensorGraph.Proofs.Tensor.Permutation

/-!
# Equal computations

When operators that are written differently compute the same: operators that compare equal, two that undo each other,
two reshapes or transposes one after the other, and those that return an input. Floats are compared numerically, so
that the two zeros count as equal. Values and operators without a negative zero that compare equal are equal.
-/

namespace TensorGraph

/-! ## Values that compare equal -/

namespace Value

/-- Whether an element is the negative zero. -/
def hasNegZero : Value → Bool
  | .floats t => t.data.any (· == .negZero)
  | .ints _ => false

theorem sameZeros_of_hasNegZero {v w : Value} (hv : v.hasNegZero = false) (hw : w.hasNegZero = false) :
    v.sameZeros w = true := by
  match v, w with
  | .floats t, .floats u =>
    simp only [hasNegZero, Array.any_eq_false, beq_iff_eq] at hv hw
    rw [sameZeros, Array.all_eq_true]
    intro i hi
    rw [Array.size_zip] at hi
    simp only [Array.getElem_zip]
    exact Single.sameZero_of_ne (hv i (by omega)) (hw i (by omega))
  | .floats _, .ints _ => rfl
  | .ints _, _ => rfl

theorem eq_of_eq {v w : Value} (h : v.eq w = true) (hv : v.hasNegZero = false) (hw : w.hasNegZero = false) : v = w :=
  (eq_iff_sameZeros h).2 (sameZeros_of_hasNegZero hv hw)

end Value

/-! ## Operators that compare equal -/

namespace ScalarExpr

/-- Whether a constant is the negative zero. -/
def hasNegZero : ScalarExpr → Bool
  | .input _ => false
  | .constant c => c == .negZero
  | .unary _ x => x.hasNegZero
  | .binary _ a b => a.hasNegZero || b.hasNegZero

theorem sameZeros_of_hasNegZero {a b : ScalarExpr} (ha : a.hasNegZero = false) (hb : b.hasNegZero = false) :
    a.sameZeros b = true := by
  fun_induction sameZeros a b with
  | case1 c d => exact Single.sameZero_of_ne (by simpa [hasNegZero] using ha) (by simpa [hasNegZero] using hb)
  | case2 f x g y ih => exact ih ha hb
  | case3 f a b g c d ih₁ ih₂ =>
    simp only [hasNegZero, Bool.or_eq_false_iff] at ha hb
    rw [ih₁ ha.1 hb.1, ih₂ ha.2 hb.2, Bool.and_self]
  | case4 => rfl

end ScalarExpr

namespace Operator

/-- Whether a float attribute is the negative zero. -/
def hasNegZero : Operator → Bool
  | .fused op => op.expr.hasNegZero
  | .fill x => x == .negZero
  | _ => false

theorem sameZeros_of_hasNegZero {a b : Operator} (ha : a.hasNegZero = false) (hb : b.hasNegZero = false) :
    a.sameZeros b = true := by
  unfold sameZeros
  split
  · exact ScalarExpr.sameZeros_of_hasNegZero ha hb
  · exact Single.sameZero_of_ne (by simpa [hasNegZero] using ha) (by simpa [hasNegZero] using hb)
  · rfl

theorem eq_of_sameAs {a b : Operator} (h : a.sameAs b = true) (ha : a.hasNegZero = false)
    (hb : b.hasNegZero = false) : a = b :=
  (eq_iff_sameZeros h).2 (sameZeros_of_hasNegZero ha hb)

/-- A built-in operator computes one value. -/
theorem run_eq_singleton {op : Operator} {xs ys : List Value} (hbuiltin : op.IsBuiltin) (h : op.run xs = .ok ys) :
    ∃ y, ys = [y] := by
  have hone {result : OpResult Value} (h : (do return [← result]) = Except.ok ys) : ∃ y, ys = [y] := by
    obtain ⟨y, hy, -⟩ := eq_ok_singleton.1 h
    exact ⟨y, hy⟩
  cases op with
  | custom op => exact hbuiltin.elim
  | _ => exact hone h

end Operator

/-! ## Negation -/

namespace Elementwise

theorem mapM_eq_map {α β : Type} {f : α → OpResult β} {f' : α → β} (hf : ∀ a, f a = .ok (f' a)) {t : Tensor α}
    {u : Tensor β} (h : t.mapM f = .ok u) : u = t.map f' := by
  obtain ⟨hshape, hdata⟩ := Tensor.mapM_eq_ok h
  apply Tensor.eq_of_data hshape
  rw [funext hf] at hdata
  have hmap : t.data.toList.mapM (fun a => (Except.ok (f' a) : OpResult β)) = .ok (t.data.toList.map f') :=
    List.mapM_pure
  rw [hmap] at hdata
  rw [← Except.ok.inj hdata]
  simp [Tensor.map]

theorem map_neg_neg {α : Type} {f : α → α} (hf : ∀ a, f (f a) = a) (t : Tensor α) : (t.map f).map f = t := by
  have hshape : ((t.map f).map f).shape = t.shape := rfl
  apply Tensor.eq_of_data hshape
  simp [Tensor.map, Function.comp_def, hf]

/-- Two negations undo each other. -/
theorem runUnary_neg_neg {v w u : Value} (h : runUnary .neg v = .ok w) (h' : runUnary .neg w = .ok u) : u = v := by
  cases v with
  | floats x =>
    cases h
    cases h'
    exact congrArg Value.floats (map_neg_neg Single.neg_neg x)
  | ints x =>
    obtain ⟨y, hy, h⟩ := bind_eq_ok.1 h
    cases h
    obtain ⟨z, hz, h'⟩ := bind_eq_ok.1 h'
    cases h'
    rw [mapM_eq_map (fun a => rfl) hy] at hz
    rw [mapM_eq_map (fun a => rfl) hz]
    exact congrArg Value.ints (map_neg_neg (fun _ => Int32.neg_neg) x)

end Elementwise

namespace Operator

/-- The name of a scalar function is that of no other built-in operator. -/
theorem eq_elementwise_of_name {op : Operator} (fn : ScalarFn) (hbuiltin : op.IsBuiltin) (h : op.name = fn.name) :
    ∃ inPlace, op = .elementwise { fn, inPlace } := by
  cases op with
  | elementwise op =>
    obtain ⟨other, inPlace⟩ := op
    have heq : other = fn := by
      have hname : other.name = fn.name := h
      clear h
      revert hname
      cases other <;> cases fn <;> decide
    exact ⟨inPlace, by rw [heq]⟩
  | reduce op =>
    obtain ⟨reduction, axes, keepDims⟩ := op
    revert h
    cases reduction <;> cases fn <;> simp [name, Reduce.name, ScalarFn.name]
  | custom op => exact hbuiltin.elim
  | _ => cases fn <;> simp [name, ScalarFn.name] at h

theorem run_neg_neg {a b : Operator} (ha : a.IsBuiltin) (hb : b.IsBuiltin) (hname : a.name = "Neg")
    (hname' : b.name = "Neg") {v w u : Value} (h : a.run [v] = .ok [w]) (h' : b.run [w] = .ok [u]) : u = v := by
  obtain ⟨inPlace, rfl⟩ := eq_elementwise_of_name .neg ha hname
  obtain ⟨inPlace', rfl⟩ := eq_elementwise_of_name .neg hb hname'
  exact Elementwise.runUnary_neg_neg (singleton_eq_ok.1 h) (singleton_eq_ok.1 h')

end Operator

/-! ## Reshaping -/

namespace Value

theorem reshape?_reshape? {v w : Value} {shape : List Nat} (h : v.reshape? shape = some w) (shape' : List Nat) :
    w.reshape? shape' = v.reshape? shape' := by
  cases v with
  | floats t =>
    obtain ⟨u, hu, rfl⟩ := Option.map_eq_some_iff.1 h
    simp only [reshape?, Tensor.reshape?, (Tensor.reshape?_eq_some.1 hu).2]
  | ints t =>
    obtain ⟨u, hu, rfl⟩ := Option.map_eq_some_iff.1 h
    simp only [reshape?, Tensor.reshape?, (Tensor.reshape?_eq_some.1 hu).2]

theorem eq_of_reshape? {v w : Value} (h : v.reshape? v.shape = some w) : w = v := by
  cases v with
  | floats t =>
    obtain ⟨u, hu, rfl⟩ := Option.map_eq_some_iff.1 h
    obtain ⟨hshape, hdata⟩ := Tensor.reshape?_eq_some.1 hu
    exact congrArg Value.floats (Tensor.eq_of_data hshape (congrArg Array.toList hdata))
  | ints t =>
    obtain ⟨u, hu, rfl⟩ := Option.map_eq_some_iff.1 h
    obtain ⟨hshape, hdata⟩ := Tensor.reshape?_eq_some.1 hu
    exact congrArg Value.ints (Tensor.eq_of_data hshape (congrArg Array.toList hdata))

end Value

namespace Layout

theorem reshape_iff {vs : List Value} {out : Value} : reshape vs = .ok out ↔ ∃ v target shape,
    vs[0]? = some v ∧ requireVector vs 1 = .ok target ∧ resolveTarget v.size target = .ok shape ∧
      v.reshape? shape = some out := by
  constructor
  · intro h
    obtain ⟨v, hv, h⟩ := bind_eq_ok.1 h
    obtain ⟨target, htarget, h⟩ := bind_eq_ok.1 h
    obtain ⟨shape, hshape, h⟩ := bind_eq_ok.1 h
    split at h
    · next u hu =>
      cases h
      exact ⟨v, target, shape, Inputs.require_eq_ok.1 hv, htarget, hshape, hu⟩
    · cases h
  · rintro ⟨v, target, shape, hv, htarget, hshape, hout⟩
    unfold reshape
    rw [Inputs.require_eq_ok.2 hv, htarget]
    simp only [bind, Except.bind, hshape, hout]
    rfl

/-- The last of two reshapes counts. -/
theorem reshape_reshape {x y z : Value} {rest : List Value} {target : Value} (h : reshape (x :: rest) = .ok y)
    (h' : reshape [y, target] = .ok z) : reshape [x, target] = .ok z := by
  obtain ⟨v, _, shape, hv, -, -, hy⟩ := reshape_iff.1 h
  obtain ⟨w, words, shape', hw, hwords, hshape, hz⟩ := reshape_iff.1 h'
  cases hv
  cases hw
  rw [Value.size_of_reshape? hy] at hshape
  rw [Value.reshape?_reshape? hy] at hz
  exact reshape_iff.2 ⟨x, words, shape', rfl, hwords, hshape, hz⟩

/-- A reshape to the shape that the input has. -/
theorem reshape_same {x y : Value} {rest : List Value} (h : reshape (x :: rest) = .ok y) (hshape : y.shape = x.shape) :
    y = x := by
  obtain ⟨v, _, shape, hv, -, -, hy⟩ := reshape_iff.1 h
  cases hv
  rw [← (Value.reshape?_eq_some hy).1, hshape] at hy
  exact Value.eq_of_reshape? hy

/-! ## Transposition -/

/-- The value with its dimensions in another order. -/
def permuteValue (perm : List Nat) : Value → Value
  | .floats x => .floats (permute perm x)
  | .ints x => .ints (permute perm x)

theorem transpose_iff {perm? : Option (List Nat)} {vs : List Value} {out : Value} : transpose perm? vs = .ok out ↔
    ∃ v perm, vs[0]? = some v ∧ resolvePermutation perm? v.rank = .ok perm ∧ permuteValue perm v = out := by
  constructor
  · intro h
    obtain ⟨v, hv, h⟩ := bind_eq_ok.1 h
    obtain ⟨perm, hperm, h⟩ := bind_eq_ok.1 h
    cases h
    refine ⟨v, perm, Inputs.require_eq_ok.1 hv, hperm, ?_⟩
    cases v <;> rfl
  · rintro ⟨v, perm, hv, hperm, rfl⟩
    unfold transpose
    rw [Inputs.require_eq_ok.2 hv]
    simp only [bind, Except.bind, hperm]
    cases v <;> rfl

theorem permuteValue_range (v : Value) : permuteValue (List.range v.rank) v = v := by
  cases v with
  | floats x => exact congrArg Value.floats (permute_range x)
  | ints x => exact congrArg Value.ints (permute_range x)

theorem permuteValue_permuteValue {inner outer : List Nat} (v : Value) (hinner : inner.Perm (List.range v.rank))
    (houter : outer.Perm (List.range v.rank)) :
    permuteValue outer (permuteValue inner v) = permuteValue (Shape.pick outer inner) v := by
  cases v with
  | floats x => exact congrArg Value.floats (permute_permute x hinner houter)
  | ints x => exact congrArg Value.ints (permute_permute x hinner houter)

theorem shape_permuteValue (perm : List Nat) (v : Value) :
    (permuteValue perm v).shape = Shape.pick perm v.shape := by
  cases v with
  | floats x => exact shape_permute perm x
  | ints x => exact shape_permute perm x

theorem rank_permuteValue {perm : List Nat} {v : Value} (h : perm.Perm (List.range v.rank)) :
    (permuteValue perm v).rank = v.rank := by
  rw [Value.rank, shape_permuteValue]
  exact (Shape.pick_perm h).length_eq

/-- The default order of at most one dimension. -/
theorem reverse_range_of_le {rank : Nat} (h : rank ≤ 1) : (List.range rank).reverse = List.range rank := by
  obtain rfl | rfl : rank = 0 ∨ rank = 1 := by omega
  · rfl
  · rfl

/-- A transpose that leaves dimensions in order. -/
theorem transpose_same {perm? : Option (List Nat)} {v out : Value} {rest : List Value}
    (h : transpose perm? (v :: rest) = .ok out) (hperm : perm?.getD (List.range v.rank).reverse = List.range v.rank) :
    out = v := by
  obtain ⟨v', perm, hv, hresolved, hout⟩ := transpose_iff.1 h
  cases hv
  rw [(resolvePermutation_eq_ok.1 hresolved).1, hperm, permuteValue_range] at hout
  exact hout.symm

/-- Two transposes, one after the other, are one. -/
theorem transpose_transpose {inner? outer? : Option (List Nat)} {x y z : Value} {rest rest' : List Value}
    (h : transpose inner? (x :: rest) = .ok y) (h' : transpose outer? (y :: rest') = .ok z) :
    ∃ inner outer, resolvePermutation inner? x.rank = .ok inner ∧ resolvePermutation outer? x.rank = .ok outer ∧
      (Shape.pick outer inner).Perm (List.range x.rank) ∧ permuteValue (Shape.pick outer inner) x = z := by
  obtain ⟨v, inner, hv, hinner, hy⟩ := transpose_iff.1 h
  obtain ⟨w, outer, hw, houter, hz⟩ := transpose_iff.1 h'
  cases hv
  cases hw
  have hperm := (resolvePermutation_eq_ok.1 hinner).2
  subst hy
  rw [rank_permuteValue hperm] at houter
  have hperm' := (resolvePermutation_eq_ok.1 houter).2
  refine ⟨inner, outer, hinner, houter, ?_, ?_⟩
  · have hlen : inner.length = x.rank := by simpa using hperm.length_eq
    exact (Shape.pick_perm (hlen.symm ▸ hperm')).trans hperm
  · rw [← hz, permuteValue_permuteValue x hperm hperm']

/-! ## Conversion -/

theorem cast_same {type : ElementType} {v out : Value} {rest : List Value} (h : cast type (v :: rest) = .ok out)
    (htype : type = v.type) : out = v := by
  cases h
  subst htype
  cases v <;> rfl

end Layout

/-! ## Shapes and conditions -/

namespace ShapeAccess

theorem shape_congr {v w : Value} (h : v.shape = w.shape) : shape [v] = shape [w] := by
  simp only [shape, Inputs.require, List.getElem?_cons_zero, bind, Except.bind, h]

theorem size_congr {v w : Value} (h : v.shape = w.shape) (index : Nat) : size index [v] = size index [w] := by
  simp only [size, Inputs.require, List.getElem?_cons_zero, bind, Except.bind, h]

theorem assertAll_iff {message : String} {v out : Value} {conditions : List Value} :
    assertAll message (v :: conditions) = .ok out ↔ out = v ∧ ∀ c ∈ conditions, allNonZero c = true := by
  simp only [assertAll, Inputs.require, List.getElem?_cons_zero, bind, Except.bind, List.drop_succ_cons, List.drop_zero,
    List.all_eq_true]
  constructor
  · intro h
    split at h
    · next hall =>
      cases h
      exact ⟨rfl, hall⟩
    · cases h
  · rintro ⟨rfl, hall⟩
    exact if_pos hall

end ShapeAccess

end TensorGraph
