import TensorGraph.Proofs.Single.Rounding

/-!
# The numbers that singles stand for

`Single.toRat` is the rational number that a finite single stands for. Absolute values are compared exactly
(`abs_le_iff`). The difference of a number and one is exact, or it is at least a half, rounded or not
(`sub_one_cases`), so that the test whether a number is near zero or near one is exact as well (`abs_sub_zero_le_iff`,
`abs_sub_one_le_iff`).
-/

namespace TensorGraph.Single

open Float.Model (Format UnpackedFloat totalExponent)
open Float.Model.UnpackedFloat

/-- What the bits stand for. -/
def unpacked (x : Single) : UnpackedFloat := unpack .binary32 x.bits.toBitVec

/-- The number that a sign, a significand and an exponent stand for; zero if they are not those of a number. -/
def number : UnpackedFloat → ℚ
  | .finite s m e _ => s.apply m * 2 ^ e
  | _ => 0

@[simp] theorem number_zero (s : Sign) : number (.zero s) = 0 := rfl

@[simp] theorem number_finite (s : Sign) (m : Nat) (e : Int) (h : 0 < m) :
    number (.finite s m e h) = s.apply m * 2 ^ e := rfl

/-- The number that a finite single stands for. -/
def toRat (x : Single) : ℚ := number x.unpacked

variable {x y : Single} {s : Sign} {m : Nat} {e : Int}

theorem represented_unpacked (x : Single) : Represented x.unpacked := represented_unpack _

theorem canonical_of_unpacked {h : 0 < m} (hx : x.unpacked = .finite s m e h) : Canonical m e := by
  have hrepresented := x.represented_unpacked
  rw [hx] at hrepresented
  cases hrepresented
  assumption

/-! ## Operations -/

theorem unpacked_sub (x y : Single) : (x.sub y).unpacked =
    unpack .binary32 (pack .binary32 (UnpackedFloat.sub .binary32 x.unpacked y.unpacked)) := by
  have hx := x.represented_unpacked.unpack_pack
  have hy := y.represented_unpacked.unpack_pack
  have hsub : (x.sub y).unpacked = unpack .binary32 (pack .binary32 (UnpackedFloat.sub .binary32
      (unpack .binary32 (pack .binary32 x.unpacked)) (unpack .binary32 (pack .binary32 y.unpacked)))) := rfl
  rw [hsub, hx, hy]

theorem le_eq_unpacked (x y : Single) : x.le y = x.unpacked.le y.unpacked := by
  have hx := x.represented_unpacked.unpack_pack
  have hy := y.represented_unpacked.unpack_pack
  have hle : x.le y = (unpack .binary32 (pack .binary32 x.unpacked)).le (unpack .binary32 (pack .binary32 y.unpacked)) :=
    Bool.decide_eq_true.trans Bool.decide_eq_true
  rw [hle, hx, hy]

theorem toNat_unpackMantissa (b : BitVec 32) : (@unpackMantissa .binary32 b).toNat = b.toNat % 2 ^ 23 := by
  simp [unpackMantissa]

theorem toNat_unpackExponent (b : BitVec 32) : (@unpackExponent .binary32 b).toNat = b.toNat / 2 ^ 23 % 2 ^ 8 := by
  simp [unpackExponent, Nat.shiftRight_eq_div_pow]

theorem toNat_unpackSign (b : BitVec 32) : (@unpackSign .binary32 b).toNat = b.toNat / 2 ^ 31 % 2 := by
  simp [unpackSign, Nat.shiftRight_eq_div_pow]

theorem toNat_magnitude (x : Single) : x.magnitude.toNat = x.bits.toNat % 2 ^ 31 := by
  rw [magnitude, UInt32.toNat_and, show (0x7fffffff : UInt32).toNat = 2 ^ 31 - 1 from rfl,
    Nat.and_two_pow_sub_one_eq_mod]

theorem unpacked_abs (x : Single) : x.abs.unpacked = x.unpacked.abs := by
  have hbits : x.abs.bits.toBitVec.toNat = x.bits.toBitVec.toNat % 2 ^ 31 := x.toNat_magnitude
  have hmantissa : @unpackMantissa .binary32 x.abs.bits.toBitVec =
      @unpackMantissa .binary32 x.bits.toBitVec := by
    apply BitVec.eq_of_toNat_eq
    rw [toNat_unpackMantissa, toNat_unpackMantissa, hbits]
    omega
  have hexponent : @unpackExponent .binary32 x.abs.bits.toBitVec =
      @unpackExponent .binary32 x.bits.toBitVec := by
    apply BitVec.eq_of_toNat_eq
    rw [toNat_unpackExponent, toNat_unpackExponent, hbits]
    omega
  have hsign : @unpackSign .binary32 x.abs.bits.toBitVec = 0#1 := by
    apply BitVec.eq_of_toNat_eq
    rw [toNat_unpackSign, hbits, Nat.div_eq_of_lt (Nat.mod_lt _ (Nat.two_pow_pos 31))]
    rfl
  simp only [unpacked, unpack, hmantissa, hexponent, hsign]
  split
  · split <;> rfl
  · split
    · split <;> rfl
    · rfl

theorem isFinite_eq_unpacked (x : Single) : x.isFinite = x.unpacked.isFinite := by
  have hexponent := toNat_unpackExponent x.bits.toBitVec
  have hmagnitude : x.isFinite = true ↔ (@unpackExponent .binary32 x.bits.toBitVec).toNat ≠ 255 := by
    rw [isFinite, decide_eq_true_iff, UInt32.lt_iff_toNat_lt, toNat_magnitude, hexponent]
    change x.bits.toNat % 2 ^ 31 < 255 * 2 ^ 23 ↔ x.bits.toNat / 2 ^ 23 % 2 ^ 8 ≠ 255
    omega
  rw [Bool.eq_iff_iff, hmagnitude, unpacked, unpack]
  split
  · next h =>
    have h : (@unpackExponent .binary32 x.bits.toBitVec).toNat = 255 := congrArg BitVec.toNat h
    split <;> simp [h, UnpackedFloat.isFinite]
  · next h =>
    have h : (@unpackExponent .binary32 x.bits.toBitVec).toNat ≠ 255 := fun hnat =>
      h (BitVec.eq_of_toNat_eq hnat)
    split
    · split <;> simp [h, UnpackedFloat.isFinite]
    · simp [h, UnpackedFloat.isFinite]

/-! ## Comparison -/

/-- Of two canonical numbers the one with the smaller exponent is smaller. -/
theorem Canonical.lt_of_exponent_lt {m' : Nat} {e' : Int} (h : Canonical m e) (h' : Canonical m' e') (he : e < e') :
    (m : ℚ) * 2 ^ e < m' * 2 ^ e' := by
  have hleast := h.least
  have hlt : (m : ℚ) < 2 ^ 24 := by exact_mod_cast h.lt
  have hlow : (2 : ℚ) ^ 23 ≤ m' := by exact_mod_cast h'.normal.resolve_left (by omega)
  calc (m : ℚ) * 2 ^ e < 2 ^ 24 * 2 ^ e := by gcongr
    _ = 2 ^ 23 * 2 ^ (e + 1) := by rw [zpow_add₀ two_ne_zero]; ring
    _ ≤ m' * 2 ^ e' := by
      have hpow : (2 : ℚ) ^ (e + 1) ≤ 2 ^ e' := zpow_le_zpow_right₀ one_le_two (by omega)
      gcongr

theorem Canonical.isLE_compare_iff {m' : Nat} {e' : Int} (h : Canonical m e) (h' : Canonical m' e') :
    ((compare e e').then (compare m m')).isLE = true ↔ (m : ℚ) * 2 ^ e ≤ m' * 2 ^ e' := by
  rcases lt_trichotomy e e' with hlt | rfl | hgt
  · simp [compare_lt_iff_lt.2 hlt, (h.lt_of_exponent_lt h' hlt).le]
  · rw [compare_eq_iff_eq.2 rfl, mul_le_mul_iff_left₀ (zpow_pos two_pos e)]
    simp [Ordering.then, Nat.isLE_compare]
  · simp [compare_gt_iff_gt.2 hgt, h'.lt_of_exponent_lt h hgt]

theorem number_abs (u : UnpackedFloat) : number u.abs = |number u| := by
  cases u with
  | finite s m e h =>
    have hpos : (0 : ℚ) ≤ m * 2 ^ e := by positivity
    cases s <;> simp [number, UnpackedFloat.abs, Sign.apply, abs_of_nonneg hpos]
  | _ => simp [number, UnpackedFloat.abs]

theorem Represented.le_finite_iff {u : UnpackedFloat} (hu : Represented u) (h : Canonical m e) :
    u.abs.le (.finite .positive m e h.pos) = true ↔ u.isFinite = true ∧ |number u| ≤ m * 2 ^ e := by
  have hpos : (0 : ℚ) ≤ m * 2 ^ e := by positivity
  rw [← number_abs]
  cases hu with
  | notANumber => simp [UnpackedFloat.abs, UnpackedFloat.le, UnpackedFloat.compare, UnpackedFloat.isFinite]
  | infinity s => simp [UnpackedFloat.abs, UnpackedFloat.le, UnpackedFloat.compare, UnpackedFloat.isFinite]
  | zero s => simp [UnpackedFloat.abs, UnpackedFloat.le, UnpackedFloat.compare, UnpackedFloat.isFinite, number, hpos]
  | finite s hcanonical _ =>
    simpa [UnpackedFloat.abs, UnpackedFloat.le, UnpackedFloat.compare, UnpackedFloat.isFinite, number, Sign.apply]
      using hcanonical.isLE_compare_iff h

/-- Sizes of numbers are compared exactly. -/
theorem abs_le_iff {t : Single} {h : 0 < m} (ht : t.unpacked = .finite .positive m e h) :
    x.abs.le t = true ↔ x.isFinite = true ∧ |x.toRat| ≤ t.toRat := by
  have hcanonical : Canonical m e := canonical_of_unpacked ht
  have htoRat : t.toRat = m * 2 ^ e := by simp [toRat, ht, number, Sign.apply]
  rw [le_eq_unpacked, unpacked_abs, ht, x.represented_unpacked.le_finite_iff hcanonical, isFinite_eq_unpacked, htoRat,
    toRat]

/-! ## Rounded differences -/

/-- Whether a result is a number that `± m * 2 ^ e` is rounded to: the same one if it is short enough, and in any case
one that is not below a power of two that `m` is not below. -/
def IsRounding (s : Sign) (m : Nat) (e : Int) (u : UnpackedFloat) : Prop :=
  ∃ m' e', ∃ h : Canonical m' e', u = .finite s m' e' h.pos ∧ (m < 2 ^ 24 → (m' : ℚ) * 2 ^ e' = m * 2 ^ e) ∧
    ∀ k : Nat, 2 ^ k ≤ m → (2 : ℚ) ^ k * 2 ^ e ≤ m' * 2 ^ e'

theorem RoundsTo.value_eq {m' : Nat} {e' : Int} (h : RoundsTo m e m' e') (hm : m < 2 ^ 24) :
    (m' : ℚ) * 2 ^ e' = m * 2 ^ e := by
  obtain ⟨-, k, rfl, -, hshort⟩ := h
  obtain ⟨rfl, rfl⟩ := hshort hm
  simp

theorem RoundsTo.le_value {m' : Nat} {e' : Int} (h : RoundsTo m e m' e') (hm : 0 < m) {k : Nat} (hk : 2 ^ k ≤ m) :
    (2 : ℚ) ^ k * 2 ^ e ≤ m' * 2 ^ e' := by
  obtain ⟨-, j, rfl, hlow, -⟩ := h
  have hpow : 2 ^ k ≤ 2 ^ m.log2 := Nat.pow_le_pow_right two_pos ((Nat.le_log2 hm.ne').2 hk)
  have hcast : (2 : ℚ) ^ k ≤ m' * 2 ^ j := by exact_mod_cast hpow.trans hlow
  calc (2 : ℚ) ^ k * 2 ^ e ≤ m' * 2 ^ j * 2 ^ e := by gcongr
    _ = m' * 2 ^ (e + j) := by rw [zpow_add₀ two_ne_zero, zpow_natCast]; ring

theorem isRounding_roundWithAccuracy (hm : 0 < m) (he : -149 ≤ e) (hnormal : e = -149 ∨ 2 ^ 23 ≤ m) :
    IsRounding s m e (roundWithAccuracy .binary32 s m e .exact) := by
  obtain ⟨m', e', h, hround, hrounds⟩ := roundWithAccuracy_spec (s := s) hm he hnormal
  exact ⟨m', e', hrounds.1, hround, hrounds.value_eq, fun k hk => hrounds.le_value hm hk⟩

theorem isRounding_round (hm : 0 < m) (he : -149 ≤ e) : IsRounding s m e (round .binary32 s m e) := by
  obtain ⟨j, m', e', h, hround, hrounds, hshort⟩ := round_spec (s := s) hm he
  have hshift (q : ℚ) : q * 2 ^ j * 2 ^ (e - j) = q * 2 ^ e := by
    rw [zpow_sub₀ two_ne_zero, zpow_natCast, mul_assoc, mul_div_cancel₀ _ (by positivity)]
  refine ⟨m', e', hrounds.1, hround, fun hm24 => ?_, fun k hk => ?_⟩
  · rw [hrounds.value_eq (hshort hm24), Nat.cast_mul, Nat.cast_pow, Nat.cast_ofNat, hshift]
  · have hk : 2 ^ (k + j) ≤ m * 2 ^ j := by
      rw [pow_add]
      exact Nat.mul_le_mul_right _ hk
    have hle := hrounds.le_value (Nat.mul_pos hm (Nat.two_pow_pos j)) hk
    rwa [pow_add, hshift] at hle

/-- What a number with a sign, a significand and an exponent at most zero becomes by rounding and packing. -/
def PacksTo (M : Int) (e : Int) (v : UnpackedFloat) : Prop :=
  (M.natAbs < 2 ^ 24 → v.isFinite = true ∧ number v = M * 2 ^ e) ∧
    ∀ k : Nat, 2 ^ k ≤ M.natAbs → v.isFinite = true → (2 : ℚ) ^ k * 2 ^ e ≤ |number v|

theorem natAbs_apply (s : Sign) (m : Nat) : (s.apply m).natAbs = m := by
  cases s <;> simp [Sign.apply]

theorem abs_apply (s : Sign) (m : Nat) (e : Int) : |(s.apply m : ℚ) * 2 ^ e| = m * 2 ^ e := by
  have hpos : (0 : ℚ) ≤ m * 2 ^ e := by positivity
  cases s <;> simp [Sign.apply, abs_of_nonneg hpos]

/-- Packed, the result of rounding is itself or an infinity. -/
theorem IsRounding.packsTo {u : UnpackedFloat} (h : IsRounding s m e u) (he : e ≤ 0) :
    PacksTo (s.apply m) e (unpack .binary32 (pack .binary32 u)) := by
  obtain ⟨m', e', hcanonical, rfl, heq, hlow⟩ := h
  rw [PacksTo, natAbs_apply, unpack_pack_finite hcanonical]
  split
  · refine ⟨fun hm => ⟨rfl, ?_⟩, fun k hk _ => ?_⟩
    · rw [number]
      cases s <;> simp [Sign.apply, heq hm]
    · rw [number, abs_apply]
      exact hlow k hk
  · next hlarge =>
    refine ⟨fun hm => absurd (heq hm) (ne_of_gt ?_), fun _ _ hfinite => nomatch hfinite⟩
    have hm' : (2 : ℚ) ^ 23 ≤ m' := by exact_mod_cast hcanonical.normal.resolve_left (by omega)
    have hm : (m : ℚ) < 2 ^ 24 := by exact_mod_cast hm
    have hpow : (2 : ℚ) ^ 2 ≤ 2 ^ e' := by exact_mod_cast zpow_le_zpow_right₀ (a := (2 : ℚ)) one_le_two (by omega : 2 ≤ e')
    calc (m : ℚ) * 2 ^ e ≤ m * 1 := by gcongr; exact zpow_le_one_of_nonpos₀ one_le_two he
      _ < 2 ^ 23 * 2 ^ 2 := by linarith
      _ ≤ m' * 2 ^ e' := by gcongr

theorem packsTo_normalize (M : Int) (he : -149 ≤ e) (he' : e ≤ 0) :
    PacksTo M e (unpack .binary32 (pack .binary32 (normalize .binary32 M e .positive))) := by
  rw [UnpackedFloat.normalize]
  rcases lt_trichotomy M 0 with hneg | rfl | hpos
  · rw [compare_lt_iff_lt.2 hneg]
    have hround := isRounding_round (s := .negative) (m := (-M).toNat) (by omega) he
    have happly : Sign.negative.apply (-M).toNat = M := by simp only [Sign.apply]; omega
    have hpacks := hround.packsTo he'
    rwa [happly] at hpacks
  · rw [compare_eq_iff_eq.2 rfl]
    have hzero : unpack .binary32 (pack .binary32 (.zero .positive)) = .zero .positive := unpack_packedZero _
    change PacksTo 0 e (unpack .binary32 (pack .binary32 (.zero .positive)))
    rw [hzero]
    exact ⟨fun _ => ⟨rfl, by simp [number]⟩, fun k hk => absurd hk (Nat.not_le.2 (Nat.two_pow_pos k))⟩
  · rw [compare_gt_iff_gt.2 hpos]
    have hround := isRounding_round (s := .positive) (m := M.toNat) (by omega) he
    have happly : Sign.positive.apply M.toNat = M := by simp only [Sign.apply]; omega
    have hpacks := hround.packsTo he'
    rwa [happly] at hpacks

theorem unpacked_sub_zero (x : Single) : (x.sub zero).unpacked = x.unpacked := by
  have hsub : UnpackedFloat.sub .binary32 x.unpacked zero.unpacked = x.unpacked := by
    rw [show zero.unpacked = .zero .positive from rfl]
    cases x.unpacked with
    | zero s => cases s <;> rfl
    | _ => rfl
  rw [unpacked_sub, hsub, x.represented_unpacked.unpack_pack]

/-- The significand of `± m * 2 ^ e - 1`, for the smaller one of the exponents of the two numbers. -/
def lessOne (s : Sign) (m : Nat) (e : Int) : Int :=
  s.apply ((m * 2 ^ (e - Min.min e (-23)).toNat : Nat) : Int) - ((2 ^ 23 * 2 ^ (-23 - Min.min e (-23)).toNat : Nat) : Int)

theorem lessOne_value (s : Sign) (m : Nat) (e : Int) :
    (lessOne s m e : ℚ) * 2 ^ Min.min e (-23) = s.apply m * 2 ^ e - 1 := by
  have hshift {n : Nat} {i low : Int} (hlow : low ≤ i) : ((n * 2 ^ (i - low).toNat : Nat) : ℚ) * 2 ^ low = n * 2 ^ i := by
    have hi : ((i - low).toNat : Int) + low = i := by omega
    rw [Nat.cast_mul, Nat.cast_pow, Nat.cast_ofNat, mul_assoc, ← zpow_natCast, ← zpow_add₀ two_ne_zero, hi]
  have hone : ((2 ^ 23 : Nat) : ℚ) * 2 ^ (-23 : Int) = 1 := by norm_num
  rw [lessOne, Int.cast_sub, sub_mul, Int.cast_natCast, hshift (min_le_right ..), hone]
  cases s <;> simp only [Sign.apply, Int.cast_neg, Int.cast_natCast, neg_mul, hshift (min_le_left ..)]

/-- A difference with more than 24 digits is not near zero. -/
theorem exists_le_lessOne (h : Canonical m e) (hM : 2 ^ 24 ≤ (lessOne s m e).natAbs) :
    ∃ k : Nat, 2 ^ k ≤ (lessOne s m e).natAbs ∧ (1 / 2 : ℚ) ≤ 2 ^ k * 2 ^ Min.min e (-23) := by
  by_cases he : -25 ≤ e
  · refine ⟨24, hM, ?_⟩
    calc (1 / 2 : ℚ) = 2 ^ 24 * 2 ^ (-25 : Int) := by norm_num
      _ ≤ 2 ^ 24 * 2 ^ Min.min e (-23) := by
        have hpow : (2 : ℚ) ^ (-25 : Int) ≤ 2 ^ Min.min e (-23) := zpow_le_zpow_right₀ one_le_two (by omega)
        gcongr
  · -- The number is below a quarter, so that the difference has the digits of one, or all but the highest.
    obtain ⟨n, rfl⟩ : ∃ n : Nat, e = -(n + 26 : Nat) := ⟨(-e - 26).toNat, by omega⟩
    have hmin : Min.min (-((n + 26 : Nat) : Int)) (-23) = -(n + 26 : Nat) := by omega
    refine ⟨n + 25, ?_, ?_⟩
    · have hone : 2 ^ 23 * 2 ^ (-23 - -((n + 26 : Nat) : Int)).toNat = 2 ^ (n + 26) := by
        rw [← Nat.pow_add]
        congr 1
        omega
      have hm : m < 2 ^ (n + 25) := h.lt.trans_le (Nat.pow_le_pow_right two_pos (by omega))
      rw [lessOne, hmin, hone, sub_self, Int.toNat_zero, pow_zero, mul_one, pow_succ 2 (n + 25)]
      cases s <;> simp only [Sign.apply] <;> omega
    · rw [hmin, zpow_neg, zpow_natCast, show n + 26 = n + 25 + 1 from rfl, pow_succ (2 : ℚ) (n + 25), mul_inv,
        mul_inv_cancel_left₀ (by positivity)]
      norm_num

theorem unpacked_sub_one {hm : 0 < m} (hx : x.unpacked = .finite s m e hm) :
    PacksTo (lessOne s m e) (Min.min e (-23)) (x.sub one).unpacked := by
  have hcanonical : Canonical m e := canonical_of_unpacked hx
  have hleast := hcanonical.least
  have hpacks := packsTo_normalize (lessOne s m e) (e := Min.min e (-23)) (by omega) (by omega)
  rw [unpacked_sub, hx, show one.unpacked = .finite .positive (2 ^ 23) (-23) (by decide) from rfl]
  have happly (n : Int) : Sign.positive.apply n = n := rfl
  simpa only [UnpackedFloat.sub, decreaseExponent, Nat.shiftLeft_eq, happly, lessOne] using hpacks

/-! ## Nearness -/

variable {t : Single}

/-- Whether a number is at most `t` away from zero is decided exactly. -/
theorem abs_sub_zero_le_iff {h : 0 < m} (ht : t.unpacked = .finite .positive m e h) :
    (x.sub zero).abs.le t = true ↔ x.isFinite = true ∧ |x.toRat| ≤ t.toRat := by
  rw [abs_le_iff ht, isFinite_eq_unpacked, isFinite_eq_unpacked, toRat, toRat, unpacked_sub_zero, toRat]

theorem sub_one_of_zero (hx : x.unpacked = .zero s) :
    (x.sub one).unpacked.isFinite = true ∧ (x.sub one).toRat = x.toRat - 1 := by
  have hone : Canonical (2 ^ 23) (-23) := ⟨by decide, by decide, by decide, .inr (by decide)⟩
  have hsub : (x.sub one).unpacked = .finite .negative (2 ^ 23) (-23) hone.pos := by
    rw [unpacked_sub, hx]
    exact (Represented.finite .negative hone (by decide)).unpack_pack
  rw [toRat, toRat, hsub, hx]
  norm_num [UnpackedFloat.isFinite, number, Sign.apply]

/-- The difference of a number and one is exact, or it is far from zero, rounded or not. -/
theorem sub_one_cases {h : 0 < m} (hx : x.unpacked = .finite s m e h) :
    ((x.sub one).unpacked.isFinite = true ∧ (x.sub one).toRat = x.toRat - 1) ∨
      1 / 2 ≤ |x.toRat - 1| ∧ ((x.sub one).unpacked.isFinite = true → 1 / 2 ≤ |(x.sub one).toRat|) := by
  have hcanonical : Canonical m e := canonical_of_unpacked hx
  obtain ⟨hexact, hfar⟩ := unpacked_sub_one hx
  have hvalue : x.toRat - 1 = lessOne s m e * 2 ^ Min.min e (-23) := by
    rw [toRat, hx, number, lessOne_value]
  by_cases hshort : (lessOne s m e).natAbs < 2 ^ 24
  · obtain ⟨hfinite, hnumber⟩ := hexact hshort
    exact .inl ⟨hfinite, hnumber.trans hvalue.symm⟩
  · obtain ⟨k, hk, hhalf⟩ := exists_le_lessOne hcanonical (Nat.le_of_not_lt hshort)
    refine .inr ⟨?_, fun hfinite => hhalf.trans (hfar k hk hfinite)⟩
    have hcast : (2 : ℚ) ^ k ≤ |(lessOne s m e : ℚ)| := by
      rw [← Int.cast_abs, Int.abs_eq_natAbs]
      exact_mod_cast hk
    have hscale : |(2 : ℚ) ^ Min.min e (-23)| = 2 ^ Min.min e (-23) := abs_of_pos (zpow_pos two_pos _)
    rw [hvalue, abs_mul, hscale]
    exact hhalf.trans (by gcongr)

/-- Whether a number is at most `t` away from one is decided exactly, if `t` is below a half. -/
theorem abs_sub_one_le_iff {h : 0 < m} (ht : t.unpacked = .finite .positive m e h) (hsmall : t.toRat < 1 / 2) :
    (x.sub one).abs.le t = true ↔ x.isFinite = true ∧ |x.toRat - 1| ≤ t.toRat := by
  rw [abs_le_iff ht, isFinite_eq_unpacked, isFinite_eq_unpacked]
  have hcases : x.unpacked.isFinite = true → ((x.sub one).unpacked.isFinite = true ∧ (x.sub one).toRat = x.toRat - 1) ∨
      1 / 2 ≤ |x.toRat - 1| ∧ ((x.sub one).unpacked.isFinite = true → 1 / 2 ≤ |(x.sub one).toRat|) := by
    cases hx : x.unpacked with
    | notANumber | infinity s => exact fun hfinite => nomatch hfinite
    | zero s => exact fun _ => .inl (sub_one_of_zero hx)
    | finite s m e hm => exact fun _ => sub_one_cases hx
  have hfinite : (x.sub one).unpacked.isFinite = true → x.unpacked.isFinite = true := by
    cases hx : x.unpacked with
    | notANumber =>
      rw [unpacked_sub, hx]
      exact id
    | infinity s =>
      rw [unpacked_sub, hx, show UnpackedFloat.sub .binary32 (.infinity s) one.unpacked = .infinity s from rfl,
        (Represented.infinity s).unpack_pack]
      exact id
    | zero s | finite s m e hm => exact fun _ => rfl
  constructor
  · rintro ⟨hsub, hle⟩
    rcases hcases (hfinite hsub) with ⟨-, heq⟩ | ⟨-, hfar⟩
    · exact ⟨hfinite hsub, heq ▸ hle⟩
    · linarith [hfar hsub]
  · rintro ⟨hx, hle⟩
    rcases hcases hx with ⟨hsub, heq⟩ | ⟨hfar, -⟩
    · exact ⟨hsub, heq ▸ hle⟩
    · linarith

end TensorGraph.Single
