import TensorGraph.Operator.Basic
import TensorGraph.Proofs.Tensor.Elements

/-!
# Numerical equality

Values and operators are compared numerically, so that the two zeros count as equal. What compares equal is identical
exactly if zeros at the same place have the same sign (`Value.eq_iff_sameZeros`, `Operator.eq_iff_sameZeros`), as they
have where there is no negative zero. A sum that starts at one of the zeros shows its sign only if nothing else is added
(`Single.foldl_add_negZero`).
-/

namespace TensorGraph

/-! ## Zeros -/

namespace Single

theorem bits_of_isZero {x : Single} (h : x.isZero = true) : x = .zero ∨ x = .negZero := by
  have hmagnitude : x.bits &&& 0x7fffffff = 0 := by simpa [isZero, magnitude] using h
  have hmod : x.bits.toNat % 2 ^ 31 = 0 := by
    have hnat := congrArg UInt32.toNat hmagnitude
    rwa [UInt32.toNat_and, show (0x7fffffff : UInt32).toNat = 2 ^ 31 - 1 from rfl,
      Nat.and_two_pow_sub_one_eq_mod] at hnat
  have hlt : x.bits.toNat < 2 ^ 32 := x.bits.toNat_lt
  have hbits : x.bits.toNat = 0 ∨ x.bits.toNat = 2 ^ 31 := by omega
  cases x with
  | mk bits =>
    rcases hbits with h | h
    · exact .inl (congrArg Single.mk (UInt32.toNat_inj.1 h))
    · exact .inr (congrArg Single.mk (UInt32.toNat_inj.1 h))

theorem zero_add {x : Single} (h : x ≠ negZero) : zero.add x = x := by
  by_cases hx : x.isZero = true
  · rw [(bits_of_isZero hx).resolve_right h]
    rfl
  · have hzero : zero.isZero = true := rfl
    simp [add, hzero, hx]

/-- Whether two numbers are not zeros of different signs. -/
def sameZero (x y : Single) : Bool := !(x.isZero && y.isZero) || x == y

theorem eq_iff_sameZero {x y : Single} (h : x.eq y = true) : x = y ↔ x.sameZero y = true := by
  simp only [eq, Bool.and_eq_true, Bool.or_eq_true, beq_iff_eq] at h
  simp only [sameZero, Bool.or_eq_true, beq_iff_eq]
  refine ⟨.inr, fun hsame => hsame.elim (fun hnot => ?_) id⟩
  refine h.2.resolve_right fun hzeros => ?_
  simp [hzeros.1, hzeros.2] at hnot

theorem sameZero_of_ne {x y : Single} (hx : x ≠ .negZero) (hy : y ≠ .negZero) : x.sameZero y = true := by
  by_cases hzeros : x.isZero = true ∧ y.isZero = true
  · rw [(bits_of_isZero hzeros.1).resolve_right hx, (bits_of_isZero hzeros.2).resolve_right hy]
    rfl
  · rw [← Bool.and_eq_true, Bool.not_eq_true] at hzeros
    rw [sameZero, hzeros]
    rfl

end Single

/-! ## Values -/

namespace Value

/-- Whether zeros at the same position of two float tensors have the same sign. -/
def sameZeros : Value → Value → Bool
  | .floats t, .floats u => (t.data.zip u.data).all fun (x, y) => x.sameZero y
  | _, _ => true

theorem eq_iff_sameZeros {v w : Value} (h : v.eq w = true) : v = w ↔ v.sameZeros w = true := by
  cases v with
  | ints t =>
    cases w with
    | ints u => simpa [sameZeros, eq] using h
    | floats u => cases h
  | floats t =>
    cases w with
    | ints u => cases h
    | floats u =>
      simp only [eq, Bool.and_eq_true, beq_iff_eq, Array.all_eq_true] at h
      obtain ⟨hshape, hall⟩ := h
      have hsize : t.data.size = u.data.size := by rw [t.size_data, u.size_data, hshape]
      have helement (i : Nat) (hi : i < t.data.size) (hi' : i < u.data.size) :
          t.data[i] = u.data[i] ↔ t.data[i].sameZero u.data[i] = true := by
        have heq := hall i (by simp only [Array.size_zip]; omega)
        simp only [Array.getElem_zip] at heq
        exact Single.eq_iff_sameZero heq
      rw [sameZeros, Array.all_eq_true]
      simp only [Array.getElem_zip]
      constructor
      · intro heq i hi
        cases heq
        have hi : i < t.data.size := by simpa using hi
        exact (helement i hi hi).1 rfl
      · intro hsame
        refine congrArg Value.floats (Tensor.eq_of_data hshape (congrArg Array.toList ?_))
        refine Array.ext hsize fun i hi hi' => (helement i hi hi').2 (hsame i ?_)
        rw [Array.size_zip]
        omega

/-- Values that compare equal have one type and shape. -/
theorem info_eq_of_eq {v w : Value} (h : v.eq w = true) : v.info = w.info := by
  cases v with
  | ints t =>
    cases w with
    | ints u => rw [show t = u from by simpa [eq] using h]
    | floats u => cases h
  | floats t =>
    cases w with
    | ints u => cases h
    | floats u =>
      simp only [eq, Bool.and_eq_true, beq_iff_eq] at h
      exact congrArg (ValueMeta.mk .float32) h.1

end Value

/-! ## Operators -/

namespace ScalarExpr

/-- Whether constants at the same place of two expressions are not zeros of different signs. -/
def sameZeros : ScalarExpr → ScalarExpr → Bool
  | .constant c, .constant d => c.sameZero d
  | .unary _ x, .unary _ y => x.sameZeros y
  | .binary _ a b, .binary _ c d => a.sameZeros c && b.sameZeros d
  | _, _ => true

theorem eq_iff_sameZeros {a b : ScalarExpr} (h : a.eq b = true) : a = b ↔ a.sameZeros b = true := by
  fun_induction eq a b with
  | case1 i j => simp [sameZeros, eq_of_beq h]
  | case2 c d => rw [constant.injEq, Single.eq_iff_sameZero h, sameZeros]
  | case3 f x g y ih =>
    simp only [Bool.and_eq_true, beq_iff_eq] at h
    simp only [unary.injEq, h.1, true_and, ih h.2, sameZeros]
  | case4 f a b g c d ih₁ ih₂ =>
    simp only [Bool.and_eq_true, beq_iff_eq] at h
    simp only [binary.injEq, h.1.1, true_and, ih₁ h.1.2, ih₂ h.2, sameZeros, Bool.and_eq_true]
  | case5 => cases h

end ScalarExpr

namespace Operator

/-- Whether float attributes of two operators are not zeros of different signs. -/
def sameZeros : Operator → Operator → Bool
  | .fused a, .fused b => a.expr.sameZeros b.expr
  | .fill x, .fill y => x.sameZero y
  | _, _ => true

theorem eq_iff_sameZeros {a b : Operator} (h : a.sameAs b = true) : a = b ↔ a.sameZeros b = true := by
  unfold sameAs at h
  split at h
  case h_2 a b =>
    simp only [Bool.and_eq_true, beq_iff_eq] at h
    obtain ⟨⟨hexpr, hinputs⟩, hinPlace⟩ := h
    have heq : a = b ↔ a.expr = b.expr := by
      cases a
      cases b
      simp_all
    rw [fused.injEq, heq, ScalarExpr.eq_iff_sameZeros hexpr, sameZeros]
  case h_14 x y => rw [fill.injEq, Single.eq_iff_sameZero h, sameZeros]
  -- The other operators have no float attributes.
  all_goals first
    | exact iff_of_true rfl rfl
    | rw [eq_of_beq h]; exact iff_of_true rfl rfl
    | cases h

end Operator

end TensorGraph
