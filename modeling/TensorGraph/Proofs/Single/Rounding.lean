import Mathlib
import TensorGraph.Single.Basic

/-!
# Rounding to single precision

A significand with at most 24 binary digits is kept, and a longer one is not rounded below its highest digit
(`round_spec`). The rounded number is `Canonical`, and is found again in the bits it is packed into, unless it is
too large for them (`unpack_pack_finite`).
-/

namespace TensorGraph.Single

open Float.Model (Format UnpackedFloat totalExponent)
open Float.Model.UnpackedFloat

/-- Whether a significand has 24 binary digits, or fewer and the least exponent. -/
structure Canonical (m : Nat) (e : Int) : Prop where
  pos : 0 < m
  lt : m < 2 ^ 24
  least : -149 ≤ e
  normal : e = -149 ∨ 2 ^ 23 ≤ m

variable {s : Sign} {m : Nat} {e : Int}

/-! ## Shifted significands -/

theorem targetExponent_eq (m : Nat) (e : Int) :
    Format.binary32.targetExponent (totalExponent m e) = Max.max (m.log2 + e - 23) (-149) := by
  simp only [Format.targetExponent, totalExponent, Format.mantissaBits, Format.minExponent]
  omega

theorem mantissa_shiftRight (em : ExtendedMantissa) (k : Nat) : (em >>> k).mantissa = em.mantissa / 2 ^ k := by
  induction k with
  | zero => simp [HShiftRight.hShiftRight, Nat.repeat]
  | succ k ih =>
    change (em >>> k).mantissa / 2 = _
    rw [ih, Nat.div_div_eq_div_mul, Nat.pow_succ]

theorem roundedMantissa_bounds (em : ExtendedMantissa) :
    em.mantissa ≤ em.roundedMantissa ∧ em.roundedMantissa ≤ em.mantissa + 1 := by
  obtain ⟨m, round, sticky⟩ := em
  cases round <;> cases sticky <;>
    simp only [ExtendedMantissa.roundedMantissa, ExtendedMantissa.accuracy, Accuracy.roundToNearestEven] <;> omega

/-- A significand that need not be shifted. -/
theorem shift_eq_self (h : Format.binary32.targetExponent (totalExponent m e) ≤ e) :
    shiftToTargetExponent .binary32 m e .exact = (⟨m, false, false⟩, e) := by
  have hshift : (Format.binary32.targetExponent (totalExponent m e) - e).toNat = 0 := by omega
  simp only [shiftToTargetExponent, shiftToExponent, hshift]
  simp [HShiftRight.hShiftRight, Nat.repeat, ExtendedMantissa.ofMantissaAndAccuracy]

theorem Canonical.log2_le (h : Canonical m e) : m.log2 ≤ 23 :=
  Nat.le_of_lt_succ ((Nat.log2_lt (Nat.ne_of_gt h.pos)).2 h.lt)

theorem Canonical.shift_eq_self (h : Canonical m e) :
    shiftToTargetExponent .binary32 m e .exact = (⟨m, false, false⟩, e) := by
  refine Single.shift_eq_self ?_
  have := h.log2_le
  have := h.least
  rw [targetExponent_eq]
  omega

/-- Significands with more than 24 digits lose the last ones. -/
theorem shift_long (hm : 2 ^ 24 ≤ m) (he : -149 ≤ e) : ∃ em : ExtendedMantissa, ∃ k : Nat,
    shiftToTargetExponent .binary32 m e .exact = (em, e + k) ∧ 2 ^ 23 ≤ em.mantissa ∧ em.mantissa < 2 ^ 24 ∧
      2 ^ m.log2 = 2 ^ 23 * 2 ^ k ∧ 0 < k := by
  have hne : m ≠ 0 := by omega
  obtain ⟨k, hk⟩ : ∃ k, m.log2 = 24 + k := Nat.exists_eq_add_of_le ((Nat.le_log2 hne).2 hm)
  have hshift : (Format.binary32.targetExponent (totalExponent m e) - e).toNat = k + 1 := by
    rw [targetExponent_eq]
    omega
  have hlow : 2 ^ m.log2 ≤ m := Nat.log2_self_le hne
  have hhigh : m < 2 ^ (m.log2 + 1) := Nat.lt_log2_self
  have hpow : 2 ^ m.log2 = 2 ^ 23 * 2 ^ (k + 1) := by rw [← Nat.pow_add, hk]; congr 1; omega
  refine ⟨_, k + 1, by simp only [shiftToTargetExponent, shiftToExponent, hshift]; rfl, ?_, ?_, hpow, by omega⟩
  · rw [mantissa_shiftRight, Nat.le_div_iff_mul_le (Nat.two_pow_pos _), ← hpow]
    exact hlow
  · rw [mantissa_shiftRight, Nat.div_lt_iff_lt_mul (Nat.two_pow_pos _)]
    rw [Nat.pow_succ, hpow] at hhigh
    simp only [ExtendedMantissa.ofMantissaAndAccuracy]
    omega

/-- A significand that rounding has made one digit too long. -/
theorem shift_carry (he : -149 ≤ e) :
    (shiftToTargetExponent .binary32 (2 ^ 24) e .exact).1.mantissa = 2 ^ 23 ∧
      (shiftToTargetExponent .binary32 (2 ^ 24) e .exact).2 = e + 1 := by
  have hshift : (Format.binary32.targetExponent (totalExponent (2 ^ 24) e) - e).toNat = 1 := by
    rw [targetExponent_eq, Nat.log2_two_pow]
    omega
  simp only [shiftToTargetExponent, shiftToExponent, hshift]
  exact ⟨mantissa_shiftRight .., rfl⟩

/-! ## Rounding -/

/-- What a number is rounded to: a canonical number that is the same if the significand is short enough, and not
below its highest digit otherwise. -/
def RoundsTo (m : Nat) (e : Int) (m' : Nat) (e' : Int) : Prop :=
  Canonical m' e' ∧ ∃ k : Nat, e' = e + k ∧ 2 ^ m.log2 ≤ m' * 2 ^ k ∧ (m < 2 ^ 24 → k = 0 ∧ m' = m)

theorem roundWithAccuracy_spec (hm : 0 < m) (he : -149 ≤ e) (hnormal : e = -149 ∨ 2 ^ 23 ≤ m) :
    ∃ m' e' h, roundWithAccuracy .binary32 s m e .exact = .finite s m' e' h ∧ RoundsTo m e m' e' := by
  by_cases hshort : m < 2 ^ 24
  · have hcanonical : Canonical m e := ⟨hm, hshort, he, hnormal⟩
    refine ⟨m, e, hm, ?_, hcanonical, 0, by simp, by simpa using Nat.log2_self_le (Nat.ne_of_gt hm), by simp⟩
    have hround : (ExtendedMantissa.mk m false false).roundedMantissa = m := rfl
    simp [roundWithAccuracy, hcanonical.shift_eq_self, hround, Nat.ne_of_gt hm]
  · obtain ⟨em, k, hshift, hlow, hhigh, hpow, hk⟩ := shift_long (Nat.le_of_not_lt hshort) he
    obtain ⟨hge, hle⟩ := roundedMantissa_bounds em
    rcases Nat.lt_or_eq_of_le (Nat.le_trans hle hhigh) with hlt | heq
    · have hcanonical : Canonical em.roundedMantissa (e + k) := ⟨by omega, hlt, by omega, .inr (by omega)⟩
      refine ⟨_, _, hcanonical.pos, ?_, hcanonical, k, rfl, ?_, fun h => absurd h hshort⟩
      · simp [roundWithAccuracy, hshift, hcanonical.shift_eq_self, Nat.ne_of_gt hcanonical.pos]
      · rw [hpow]
        exact Nat.mul_le_mul_right _ (by omega)
    · obtain ⟨hmantissa, hexponent⟩ := shift_carry (e := e + k) (by omega)
      refine ⟨2 ^ 23, e + k + 1, by decide, ?_, ⟨by decide, by decide, by omega, .inr (by decide)⟩, k + 1, ?_, ?_,
        fun h => absurd h hshort⟩
      · simp only [roundWithAccuracy, hshift, heq, hmantissa, hexponent]
        simp
      · omega
      · rw [hpow]
        exact Nat.mul_le_mul_left _ (Nat.pow_le_pow_right (by decide) (by omega))

/-- Before it is rounded, a short significand is given as many digits as fit. -/
theorem round_spec (hm : 0 < m) (he : -149 ≤ e) : ∃ (j : Nat) (m' : Nat) (e' : Int) (h : 0 < m'), round .binary32 s m e = .finite s m' e' h ∧
    RoundsTo (m * 2 ^ j) (e - j) m' e' ∧ (m < 2 ^ 24 → m * 2 ^ j < 2 ^ 24) := by
  have hlow : 2 ^ m.log2 ≤ m := Nat.log2_self_le (Nat.ne_of_gt hm)
  have hhigh : m < 2 ^ (m.log2 + 1) := Nat.lt_log2_self
  have htarget := targetExponent_eq m e
  generalize hj : (e - Format.binary32.targetExponent (totalExponent m e)).toNat = j
  have hround : round .binary32 s m e = roundWithAccuracy .binary32 s (m * 2 ^ j) (e - j) .exact := by
    rw [UnpackedFloat.round, decreaseExponent, hj, Nat.shiftLeft_eq]
  have hnormal : e - j = -149 ∨ 2 ^ 23 ≤ m * 2 ^ j := by
    by_cases hleast : e - j = -149
    · exact .inl hleast
    · refine .inr (Nat.le_trans ?_ (Nat.mul_le_mul_right _ hlow))
      rw [← Nat.pow_add]
      exact Nat.pow_le_pow_right (by decide) (by omega)
  have hpos : 0 < m * 2 ^ j := Nat.mul_pos hm (Nat.two_pow_pos j)
  obtain ⟨m', e', h, heq, hrounds⟩ := roundWithAccuracy_spec (s := s) hpos (e := e - j) (by omega) hnormal
  refine ⟨j, m', e', h, hround.trans heq, hrounds, fun hshort => ?_⟩
  have hlog : m.log2 < 24 := (Nat.log2_lt (Nat.ne_of_gt hm)).2 hshort
  have hdigits : m * 2 ^ j < 2 ^ (m.log2 + 1) * 2 ^ j := Nat.mul_lt_mul_of_pos_right hhigh (Nat.two_pow_pos j)
  rw [← Nat.pow_add] at hdigits
  exact Nat.lt_of_lt_of_le hdigits (Nat.pow_le_pow_right (by decide) (by omega))

/-! ## Packed numbers -/

@[simp] theorem unpackSign_packComponents {spec : Format} {sign : Sign} {exponent mantissa} :
    unpackSign (packComponents spec sign exponent mantissa) = sign.toBitVec := by
  ext i hi
  obtain rfl : i = 0 := by omega
  simp [unpackSign, packComponents, BitVec.getLsbD_eq_getElem, BitVec.getLsbD_append, BitVec.getElem_append]

@[simp] theorem ofBitVec_toBitVec (s : Sign) : Sign.ofBitVec s.toBitVec = s := by
  cases s <;> rfl

theorem unpack_packedInfinity (s : Sign) : unpack .binary32 (packedInfinity .binary32 s) = .infinity s := by
  cases s <;> rfl

theorem unpack_packedZero (s : Sign) : unpack .binary32 (packedZero .binary32 s) = .zero s := by
  cases s <;> rfl

theorem finite_congr {m' : Nat} {e' : Int} {hm : 0 < m} {hm' : 0 < m'} (h : m = m') (he : e = e') :
    UnpackedFloat.finite s m e hm = .finite s m' e' hm' := by
  subst h he
  rfl

theorem toNat_one_append {w : Nat} (v : BitVec w) : (1#1 ++ v).toNat = 2 ^ w + v.toNat := by
  rw [BitVec.toNat_append, ← Nat.shiftLeft_add_eq_or_of_lt v.isLt, Nat.shiftLeft_eq]
  simp

theorem unpack_normal {biased : Nat} (hbiased : 1 ≤ biased ∧ biased ≤ 254) (hm : 2 ^ 23 ≤ m) (hm' : m < 2 ^ 24) :
    unpack .binary32 (packComponents .binary32 s (BitVec.ofNat 8 biased) (BitVec.ofNat 23 m)) =
      .finite s m (biased - 150) (Nat.lt_of_lt_of_le (by decide) hm) := by
  have hbits : (BitVec.ofNat 8 biased).toNat = biased := Nat.mod_eq_of_lt (by omega)
  have hmax : BitVec.ofNat 8 biased ≠ -1#8 := fun h => by have := hbits ▸ congrArg BitVec.toNat h; simp at this; omega
  have hzero : BitVec.ofNat 8 biased ≠ 0#8 := fun h => by have := hbits ▸ congrArg BitVec.toNat h; simp at this; omega
  have hmantissa : (1#1 ++ BitVec.ofNat 23 m).toNat = m := by
    rw [toNat_one_append, BitVec.toNat_ofNat]
    omega
  simp only [unpack, unpackMantissa_packComponents, unpackExponent_packComponents, unpackSign_packComponents,
    ofBitVec_toBitVec]
  rw [if_neg hmax, if_neg hzero]
  exact finite_congr hmantissa (by rw [hbits]; rfl)

theorem unpack_subnormal (hm : 0 < m) (hm' : m < 2 ^ 23) :
    unpack .binary32 (packComponents .binary32 s 0#8 (BitVec.ofNat 23 m)) = .finite s m (-149) hm := by
  have hbits : (BitVec.ofNat 23 m).toNat = m := Nat.mod_eq_of_lt hm'
  have hne : BitVec.ofNat 23 m ≠ 0#23 := fun h => by have := hbits ▸ congrArg BitVec.toNat h; simp at this; omega
  simp only [unpack, unpackMantissa_packComponents, unpackExponent_packComponents, unpackSign_packComponents,
    ofBitVec_toBitVec]
  rw [if_neg (by decide), if_pos trivial, dif_neg hne]
  exact finite_congr hbits rfl

/-- Canonical numbers are found again in their bits, unless these stand for an infinity. -/
theorem unpack_pack_finite (h : Canonical m e) : unpack .binary32 (pack .binary32 (.finite s m e h.pos)) =
    if e ≤ 104 then .finite s m e h.pos else .infinity s := by
  have hleast := h.least
  have hpack : pack .binary32 (.finite s m e h.pos) =
      if 256 ≤ (e + 150).toNat + 1 then packedInfinity .binary32 s
      else if m.log2 = 23 then packComponents .binary32 s (BitVec.ofNat 8 (e + 150).toNat) (BitVec.ofNat 23 m)
      else packComponents .binary32 s 0#8 (BitVec.ofNat 23 m) := by
    have hbiased : (e + 127 + 23).toNat = (e + 150).toNat := by omega
    have hdigits : m.log2 + 1 = 24 ↔ m.log2 = 23 := by omega
    simp only [← hdigits, ← hbiased]
    rfl
  rw [hpack]
  by_cases hfits : e ≤ 104
  · rw [if_neg (by omega), if_pos hfits]
    by_cases hlong : 2 ^ 23 ≤ m
    · rw [if_pos ((Nat.log2_eq_iff (Nat.ne_of_gt h.pos)).2 ⟨hlong, h.lt⟩), unpack_normal (by omega) hlong h.lt]
      exact finite_congr rfl (by omega)
    · have hlog : m.log2 ≠ 23 := fun heq => hlong ((Nat.log2_eq_iff (Nat.ne_of_gt h.pos)).1 heq).1
      rw [if_neg hlog, unpack_subnormal h.pos (by omega)]
      exact finite_congr rfl (h.normal.resolve_right hlong).symm
  · rw [if_pos (by omega), if_neg hfits, unpack_packedInfinity]

/-- What bits stand for. -/
inductive Represented : UnpackedFloat → Prop
  | notANumber : Represented .notANumber
  | infinity (s : Sign) : Represented (.infinity s)
  | zero (s : Sign) : Represented (.zero s)
  | finite (s : Sign) {m : Nat} {e : Int} (h : Canonical m e) (he : e ≤ 104) : Represented (.finite s m e h.pos)

theorem Represented.of_eq {m' : Nat} {e' : Int} {h' : 0 < m'} (h : Canonical m e) (he : e ≤ 104) (hm' : m' = m)
    (he' : e' = e) : Represented (.finite s m' e' h') := by
  subst hm' he'
  exact .finite s h he

theorem represented_unpack (b : BitVec 32) : Represented (unpack .binary32 b) := by
  have hbias : ((Format.binary32.exponentBias : Int) + (23 : Nat)) = 150 := rfl
  rw [unpack]
  split
  · split
    · exact .infinity _
    · exact .notANumber
  · next hmax =>
    split
    · next hleast =>
      split
      · exact .zero _
      · next hne =>
        have hpos : (@unpackMantissa .binary32 b).toNat ≠ 0 := fun h => hne (BitVec.eq_of_toNat_eq h)
        have hlt : (@unpackMantissa .binary32 b).toNat < 2 ^ 23 := BitVec.isLt _
        refine .of_eq (e := -149) ⟨Nat.pos_of_ne_zero hpos, by omega, by decide, .inl rfl⟩ (by decide) rfl ?_
        rw [hleast]
        rfl
    · next hleast =>
      have hlt : (@unpackMantissa .binary32 b).toNat < 2 ^ 23 := BitVec.isLt _
      have hle : (@unpackExponent .binary32 b).toNat < 2 ^ 8 := BitVec.isLt _
      have hmax : (@unpackExponent .binary32 b).toNat ≠ 255 := fun h => hmax (BitVec.eq_of_toNat_eq h)
      have hpos : (@unpackExponent .binary32 b).toNat ≠ 0 := fun h => hleast (BitVec.eq_of_toNat_eq h)
      refine .of_eq (m := 2 ^ 23 + (@unpackMantissa .binary32 b).toNat)
        (e := (@unpackExponent .binary32 b).toNat - 150) ⟨by omega, by omega, by omega, .inr (by omega)⟩
        (by omega) (toNat_one_append _) ?_
      rw [← hbias]

theorem Represented.unpack_pack {u : UnpackedFloat} (h : Represented u) :
    unpack .binary32 (pack .binary32 u) = u := by
  cases h with
  | notANumber => rfl
  | infinity s => exact unpack_packedInfinity s
  | zero s => exact unpack_packedZero s
  | finite s h he => rw [unpack_pack_finite h, if_pos he]

end TensorGraph.Single
