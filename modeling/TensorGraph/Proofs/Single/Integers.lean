import TensorGraph.Proofs.Single.Values

/-!
# Integers in single precision

An integer other than 0, 1 and -1 becomes a number that is at least 2 away from zero, whether it is rounded or not
(`two_le_of_isFinite_ofInt`). Short ones are converted exactly and multiplied by one, long ones are rounded at once.
-/

namespace TensorGraph.Single

open Float.Model (Format UnpackedFloat totalExponent)
open Float.Model.UnpackedFloat

/-! ## Conversion -/

/-- A count with at most 23 digits is converted and multiplied by one. -/
theorem unpacked_ofNat_short {n : Nat} (hn : n < 2 ^ 23) : (Float32.ofNat n).toModel.unpack =
    unpack .binary32 (pack .binary32 (UnpackedFloat.mul .binary32
      (unpack .binary32 (pack .binary32 (normalize .binary32 n 0 .positive))) one.unpacked)) := by
  have hshort : n < 2 ^ 23 ∧ 0 ≤ 10 := ⟨hn, by decide⟩
  have hcast : (n.toUInt64.toNat : Int) = n := by
    simp
    omega
  have hof : Float32.ofNat n = n.toUInt64.toFloat32 * Float32.ofBits 0x3f800000 := by
    change Float32.ofScientific n false 0 = _
    rw [Float32.ofScientific, dif_pos hshort]
    rfl
  rw [hof, ← hcast]
  rfl

/-- A larger count is rounded at once. -/
theorem unpacked_ofNat_long {n : Nat} (hn : 2 ^ 23 ≤ n) : (Float32.ofNat n).toModel.unpack =
    unpack .binary32 (pack .binary32 (roundWithAccuracy .binary32 .positive (n * 2 ^ 24) (-24) .exact)) := by
  have hlong : ¬(n < 2 ^ 23 ∧ 0 ≤ 10) := by omega
  have hof : Float32.ofNat n = .ofModel (.ofScientific n 0) := by
    change Float32.ofScientific n false 0 = _
    rw [Float32.ofScientific, dif_neg hlong]
    rfl
  have hmul : UnpackedFloat.ofScientific .binary32 n 0 =
      roundWithAccuracy .binary32 .positive (n * 2 ^ 24) (-24) .exact := by
    have hlimit : ¬(0 : Int) < -((2 ^ 8 : Int) + n.log2) := by omega
    rw [UnpackedFloat.ofScientific, dif_neg (by omega), if_neg (by decide), if_neg hlimit, if_pos (by decide)]
    simp [UnpackedFloat.mul, Nat.shiftLeft_eq, Format.mantissaBits]
    rfl
  rw [hof, ← hmul]
  rfl

/-! ## Sizes -/

theorem two_le_of_isFinite_long {n : Nat} (hn : 2 ^ 23 ≤ n)
    (hfinite : (Float32.ofNat n).toModel.unpack.isFinite = true) : 2 ≤ |number (Float32.ofNat n).toModel.unpack| := by
  have hround := isRounding_roundWithAccuracy (s := .positive) (m := n * 2 ^ 24) (e := -24) (by omega) (by decide)
    (.inr (by omega))
  have hpacks := hround.packsTo (by decide)
  rw [← unpacked_ofNat_long hn] at hpacks
  have hlow := hpacks.2 25 (by rw [natAbs_apply]; omega) hfinite
  norm_num at hlow
  exact hlow

theorem two_le_of_isFinite_short {n : Nat} (hn : 2 ≤ n) (hn' : n < 2 ^ 23)
    (hfinite : (Float32.ofNat n).toModel.unpack.isFinite = true) : 2 ≤ |number (Float32.ofNat n).toModel.unpack| := by
  have hpacks := packsTo_normalize n (e := 0) (by decide) (by decide)
  obtain ⟨hconverted, hvalue⟩ := hpacks.1 (by omega)
  rw [unpacked_ofNat_short hn'] at hfinite ⊢
  generalize hv : unpack .binary32 (pack .binary32 (normalize .binary32 n 0 .positive)) = v at *
  have hrepresented : Represented v := hv ▸ represented_unpack _
  cases hrepresented with
  | notANumber | infinity s => cases hconverted
  | zero s =>
    have hzero : (n : ℚ) = 0 := by simpa using hvalue.symm
    exact absurd (Nat.cast_eq_zero.1 hzero) (by omega)
  | @finite s m e h he =>
    -- The number has 24 digits, and so has its product with one.
    have hn : (2 : ℚ) ≤ n := by exact_mod_cast hn
    have hn' : (n : ℚ) < 2 ^ 23 := by exact_mod_cast hn'
    have hsize : (m : ℚ) * 2 ^ e = n := by
      rw [← abs_apply s, ← number_finite s m e h.pos, hvalue]
      simp
    have hm : (m : ℚ) < 2 ^ 24 := by exact_mod_cast h.lt
    have hlow : -22 ≤ e := by
      have hpow : (2 : ℚ) ^ (1 : Int) < 2 ^ (24 + e) := by
        calc (2 : ℚ) ^ (1 : Int) ≤ m * 2 ^ e := by rw [hsize]; exact_mod_cast hn
          _ < 2 ^ 24 * 2 ^ e := by gcongr
          _ = 2 ^ (24 + e) := by rw [zpow_add₀ two_ne_zero]; norm_num
      have := (zpow_lt_zpow_iff_right₀ one_lt_two).1 hpow
      omega
    have hdigits : 2 ^ 23 ≤ m := h.normal.resolve_left (by omega)
    have hhigh : e ≤ 0 := by
      by_contra hnot
      have hone : (1 : ℚ) ≤ 2 ^ e := one_le_zpow₀ one_le_two (by omega)
      have hm : (2 : ℚ) ^ 23 ≤ m := by exact_mod_cast hdigits
      nlinarith
    have hround := isRounding_roundWithAccuracy (s := s * .positive) (m := m * 2 ^ 23) (e := e + -23) (by omega)
      (by omega) (.inr (by omega))
    have hmul : UnpackedFloat.mul .binary32 (.finite s m e h.pos) one.unpacked =
        roundWithAccuracy .binary32 (s * .positive) (m * 2 ^ 23) (e + -23) .exact := rfl
    rw [hmul] at hfinite ⊢
    have hlarge := (hround.packsTo (by omega)).2 46 (by rw [natAbs_apply]; omega) hfinite
    have hpow : (2 : ℚ) ^ (1 : Int) ≤ 2 ^ (46 : Nat) * 2 ^ (e + -23) := by
      rw [← zpow_natCast, ← zpow_add₀ two_ne_zero]
      exact zpow_le_zpow_right₀ one_le_two (by omega)
    rw [zpow_one] at hpow
    exact hpow.trans hlarge

theorem Represented.neg {u : UnpackedFloat} (h : Represented u) : Represented u.neg := by
  cases h with
  | notANumber => exact .notANumber
  | infinity s => exact .infinity _
  | zero s => exact .zero _
  | finite s h he => exact .finite _ h he

theorem isFinite_neg (u : UnpackedFloat) : u.neg.isFinite = u.isFinite := by
  cases u <;> rfl

theorem apply_neg (s : Sign) (n : Int) : (-s).apply n = -s.apply n := by
  cases s with
  | negative => exact (Int.neg_neg n).symm
  | positive => rfl

theorem number_neg (u : UnpackedFloat) : number u.neg = -number u := by
  cases u with
  | finite s m e h => rw [UnpackedFloat.neg, number_finite, number_finite, apply_neg, Int.cast_neg, neg_mul]
  | _ => simp [UnpackedFloat.neg, number]

/-- An integer other than 0, 1 and -1 becomes at least 2 or at most -2, if it does not become infinite. -/
theorem two_le_of_isFinite_ofInt {z : Int} (hz : 2 ≤ z.natAbs) (hfinite : (ofInt z).isFinite = true) :
    2 ≤ |(ofInt z).toRat| := by
  have hnat {n : Nat} (hn : 2 ≤ n) (hfinite : (Float32.ofNat n).toModel.unpack.isFinite = true) :
      2 ≤ |number (Float32.ofNat n).toModel.unpack| := by
    by_cases hshort : n < 2 ^ 23
    · exact two_le_of_isFinite_short hn hshort hfinite
    · exact two_le_of_isFinite_long (Nat.le_of_not_lt hshort) hfinite
  rw [isFinite_eq_unpacked] at hfinite
  cases z with
  | ofNat n => exact hnat hz hfinite
  | negSucc n =>
    have hrepresented : Represented (Float32.ofNat (n + 1)).toModel.unpack := represented_unpack _
    have hneg : (ofInt (.negSucc n)).unpacked = (Float32.ofNat (n + 1)).toModel.unpack.neg :=
      hrepresented.neg.unpack_pack
    rw [hneg, isFinite_neg] at hfinite
    rw [toRat, hneg, number_neg, abs_neg]
    exact hnat hz hfinite

end TensorGraph.Single
