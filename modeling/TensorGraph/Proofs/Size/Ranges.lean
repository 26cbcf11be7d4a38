import TensorGraph.Proofs.Size.Meaning
import TensorGraph.Size.Range

/-!
# Values and ranges of size expressions

Every operation on ranges but one contains the results of the operation on the values that the operand
ranges contain, saturated bounds included. The exception is broadcasting, whose lower bound takes sizes to
be at least 1: the sizes 1 and 0 broadcast to 0, which is below the lower bound of the size 1.
`contains_range_iff` says that this is all that can go wrong: the ranges of an expression and of the
expressions it is built from contain their values exactly when the values of the broadcasts among them are
above zero, or zero and no operand is known to be above zero.
-/

namespace TensorGraph

/-! ## Saturated bounds -/

namespace Word

variable {x : Int} {v : Int32}

theorem toInt_saturate (x : Int) :
    (saturate x).toInt = Max.max (-2147483648) (Min.min 2147483647 x) :=
  Int32.toInt_ofInt_of_le (by omega) (by omega)

theorem saturate_le (h : x ≤ v.toInt) : (saturate x).toInt ≤ v.toInt := by
  have := v.le_toInt
  rw [toInt_saturate]
  omega

theorem le_saturate (h : v.toInt ≤ x) : v.toInt ≤ (saturate x).toInt := by
  have := v.toInt_lt
  rw [toInt_saturate]
  omega

end Word

/-! ## Operations on ranges -/

namespace SizeRange

/-- Whether the range includes a word. -/
def Contains (r : SizeRange) (v : Int32) : Prop := r.lo ≤ v ∧ v ≤ r.hi

variable {r s : SizeRange} {x y v : Int32}

theorem contains_iff : r.Contains v ↔ r.lo.toInt ≤ v.toInt ∧ v.toInt ≤ r.hi.toInt := by
  rw [Contains, Int32.le_iff_toInt_le, Int32.le_iff_toInt_le]

theorem full_contains (v : Int32) : full.Contains v :=
  contains_iff.2 ⟨v.le_toInt, Int.le_of_lt_add_one v.toInt_lt⟩

/-- Bounds that saturate contain what the exact bounds contain. -/
theorem saturate_contains {lo hi : Int} (hlo : lo ≤ v.toInt) (hhi : v.toInt ≤ hi) :
    Contains ⟨Word.saturate lo, Word.saturate hi⟩ v :=
  contains_iff.2 ⟨Word.saturate_le hlo, Word.le_saturate hhi⟩

theorem neg_contains (hx : r.Contains x) (hv : v.toInt = -x.toInt) : r.neg.Contains v := by
  have hx := contains_iff.1 hx
  exact saturate_contains (by omega) (by omega)

theorem add_contains (hx : r.Contains x) (hy : s.Contains y) (hv : v.toInt = x.toInt + y.toInt) :
    (r.add s).Contains v := by
  have hx := contains_iff.1 hx
  have hy := contains_iff.1 hy
  exact saturate_contains (by omega) (by omega)

theorem sub_contains (hx : r.Contains x) (hy : s.Contains y) (hv : v.toInt = x.toInt - y.toInt) :
    (r.sub s).Contains v := by
  have hx := contains_iff.1 hx
  have hy := contains_iff.1 hy
  exact saturate_contains (by omega) (by omega)

theorem mul_contains (hx : r.Contains x) (hy : s.Contains y) (hv : v.toInt = x.toInt * y.toInt) :
    (r.mul s).Contains v := by
  have hx := contains_iff.1 hx
  have hy := contains_iff.1 hy
  unfold mul
  split
  · next hpos =>
    simp only [Int32.le_iff_toInt_le, Int32.toInt_zero] at hpos
    refine saturate_contains ?_ ?_ <;> rw [hv]
    · exact Int.mul_le_mul hx.1 hy.1 hpos.2 (by omega)
    · exact Int.mul_le_mul hx.2 hy.2 (by omega) (by omega)
  · exact full_contains v

theorem div_contains (hx : r.Contains x) (hy : s.Contains y) (hv : v.toInt = x.toInt.fdiv y.toInt) :
    (r.div s).Contains v := by
  have hx := contains_iff.1 hx
  have hy := contains_iff.1 hy
  unfold div
  split
  · next hpos =>
    simp only [Int32.le_iff_toInt_le, Int32.lt_iff_toInt_lt, Int32.toInt_zero] at hpos
    rw [Int.fdiv_eq_ediv_of_nonneg _ (by omega)] at hv
    have hle : x.toInt / y.toInt ≤ x.toInt := Int.ediv_le_self _ (by omega)
    have hnonneg : 0 ≤ x.toInt / y.toInt := Int.ediv_nonneg (by omega) (by omega)
    exact contains_iff.2 ⟨hv ▸ hnonneg, hv ▸ Int.le_trans hle hx.2⟩
  · exact full_contains v

theorem max_contains (hx : r.Contains x) (hy : s.Contains y) :
    (r.max s).Contains (if x < y then y else x) := by
  have hx := contains_iff.1 hx
  have hy := contains_iff.1 hy
  rw [contains_iff, max, SizeExpr.toInt_max, SizeExpr.toInt_max, SizeExpr.toInt_max]
  omega

theorem min_contains (hx : r.Contains x) (hy : s.Contains y) :
    (r.min s).Contains (if y < x then y else x) := by
  have hx := contains_iff.1 hx
  have hy := contains_iff.1 hy
  rw [contains_iff, min, SizeExpr.toInt_min, SizeExpr.toInt_min, SizeExpr.toInt_min]
  omega

/-- What broadcasting gives is in the range of broadcasts if it is above zero, or if it is zero and
neither operand is known to be above zero. -/
theorem broadcast_contains_iff (hx : r.Contains x) (hy : s.Contains y) (hv : broadcastSize x y = .ok v) :
    (r.broadcast s).Contains v ↔ 1 ≤ v ∨ v = 0 ∧ r.lo ≤ 0 ∧ s.lo ≤ 0 := by
  have hx := contains_iff.1 hx
  have hy := contains_iff.1 hy
  have hfit : v.toInt = x.toInt ∧ (x.toInt = y.toInt ∨ y.toInt = 1) ∨ v.toInt = y.toInt ∧ x.toInt = 1 := by
    unfold broadcastSize at hv
    split at hv
    · simp_all
    · split at hv
      · simp_all
      · split at hv <;> simp_all
  rw [contains_iff, broadcast, max, SizeExpr.toInt_max, SizeExpr.toInt_max, max, SizeExpr.toInt_max,
    SizeExpr.toInt_max, Int32.le_iff_toInt_le, ← Int32.toInt_inj, Int32.le_iff_toInt_le,
    Int32.le_iff_toInt_le, Int32.toInt_zero, Int32.toInt_one]
  omega

end SizeRange

/-! ## Ranges of expressions -/

namespace SizeExpr

/-- The expressions that `e` is built from, itself included. -/
def subterms : SizeExpr → List SizeExpr
  | .value v => [.value v]
  | .sym s => [.sym s]
  | .neg x => .neg x :: x.subterms
  | .add a b => .add a b :: (a.subterms ++ b.subterms)
  | .sub a b => .sub a b :: (a.subterms ++ b.subterms)
  | .mul a b => .mul a b :: (a.subterms ++ b.subterms)
  | .div a b => .div a b :: (a.subterms ++ b.subterms)
  | .max a b => .max a b :: (a.subterms ++ b.subterms)
  | .min a b => .min a b :: (a.subterms ++ b.subterms)
  | .broadcast a b => .broadcast a b :: (a.subterms ++ b.subterms)

@[simp] theorem self_mem_subterms (e : SizeExpr) : e ∈ e.subterms := by
  cases e <;> simp [subterms]

theorem subterms_subset {e x : SizeExpr} (h : x ∈ e.subterms) : x.subterms ⊆ e.subterms := by
  induction e with
  | value | sym => simp_all [subterms]
  | neg y ih =>
    rcases List.mem_cons.1 h with rfl | h
    · exact List.Subset.refl _
    · exact List.Subset.trans (ih h) (List.subset_cons_self ..)
  | add a b iha ihb | sub a b iha ihb | mul a b iha ihb | div a b iha ihb | max a b iha ihb
  | min a b iha ihb | broadcast a b iha ihb =>
    rcases List.mem_cons.1 h with rfl | h
    · exact List.Subset.refl _
    · refine List.Subset.trans ?_ (List.subset_cons_self ..)
      rcases List.mem_append.1 h with h | h
      · exact List.Subset.trans (iha h) (List.subset_append_left ..)
      · exact List.Subset.trans (ihb h) (List.subset_append_right ..)

/-- The expressions that an operation is applied to. -/
def operands : SizeExpr → List SizeExpr
  | .value _ | .sym _ => []
  | .neg x => [x]
  | .add a b | .sub a b | .mul a b | .div a b | .max a b | .min a b | .broadcast a b => [a, b]

theorem operand_mem_subterms {e x y : SizeExpr} (hx : x ∈ e.subterms) (hy : y ∈ x.operands) :
    y ∈ e.subterms := by
  refine subterms_subset hx ?_
  cases x <;> simp only [operands, subterms, List.mem_cons, List.mem_append, List.not_mem_nil, or_false] at hy ⊢ <;>
    rcases hy with rfl | rfl <;> simp

/-- What holds of an expression of `e` if it holds of its operands, holds of all that `e` is built from. -/
theorem forall_subterms {P : SizeExpr → Prop} {e : SizeExpr}
    (h : ∀ x ∈ e.subterms, (∀ y ∈ x.operands, P y) → P x) : ∀ x ∈ e.subterms, P x := by
  intro x hx
  induction x with
  | value | sym => exact h _ hx (by simp [operands])
  | neg y ih => exact h _ hx (by simpa [operands] using ih (operand_mem_subterms hx (by simp [operands])))
  | add a b iha ihb | sub a b iha ihb | mul a b iha ihb | div a b iha ihb | max a b iha ihb
  | min a b iha ihb | broadcast a b iha ihb =>
    have ha := iha (operand_mem_subterms hx (by simp [operands]))
    have hb := ihb (operand_mem_subterms hx (by simp [operands]))
    exact h _ hx (by simp [operands, ha, hb])

variable {m : SymbolMap} {e : SizeExpr}

/-- Whether the range of the expression contains its value. -/
def InRange (m : SymbolMap) (e : SizeExpr) : Prop := ∀ v, e.eval m = .ok v → e.range.Contains v

/-- Whether a symbol that is marked as positive is at least zero, if it has a value. -/
def SignKept (m : SymbolMap) (s : Symbol) : Prop :=
  s.positive = true → ∀ v, m.get? s.name = some v → 0 ≤ v

/-- Whether the value of a broadcast is above zero, or zero and neither operand is known to be above
zero. -/
def BroadcastBounded (m : SymbolMap) (a b : SizeExpr) : Prop :=
  ∀ v, (broadcast a b).eval m = .ok v → 1 ≤ v ∨ v = 0 ∧ a.range.lo ≤ 0 ∧ b.range.lo ≤ 0

theorem inRange_sym {s : Symbol} (h : SignKept m s) : (sym s).InRange m := by
  intro v hv
  rw [eval] at hv
  split at hv
  · next w hw =>
    cases hv
    rw [range]
    split
    · next hs => exact ⟨h hs _ hw, (SizeRange.full_contains _).2⟩
    · exact SizeRange.full_contains _
  · cases hv

/-- An operation on two operands stays in its range if it does so for all values in theirs. -/
theorem contains_of_eval₂ {a b : SizeExpr} {f : Int32 → Int32 → Except EvalError Int32} {r : SizeRange}
    (hop : ∀ x ∈ [a, b], x.InRange m)
    (hf : ∀ x y v, a.range.Contains x → b.range.Contains y → f x y = .ok v → r.Contains v) {v : Int32}
    (hv : ((a.eval m).bind fun x => (b.eval m).bind fun y => f x y) = .ok v) : r.Contains v := by
  obtain ⟨x, y, hx, hy, hv⟩ := bind₂_eq_ok.1 hv
  exact hf x y v (hop a (by simp) x hx) (hop b (by simp) y hy) hv

/-- A broadcast of expressions whose ranges contain their values is in its range exactly if it is bounded. -/
theorem inRange_broadcast_iff {a b : SizeExpr} (hop : ∀ x ∈ [a, b], x.InRange m) :
    (broadcast a b).InRange m ↔ BroadcastBounded m a b := by
  refine forall₂_congr fun v hv => ?_
  obtain ⟨x, y, hx, hy, hsize⟩ := bind₂_eq_ok.1 hv
  exact SizeRange.broadcast_contains_iff (hop a (by simp) x hx) (hop b (by simp) y hy) hsize

/-- One operation: the range contains the value if the ranges of the operands do. -/
theorem inRange_of_operands (hop : ∀ x ∈ e.operands, x.InRange m) (hsym : ∀ s, e = .sym s → SignKept m s)
    (hbroadcast : ∀ a b, e = .broadcast a b → BroadcastBounded m a b) : e.InRange m := by
  cases e with
  | value w =>
    rintro v ⟨⟩
    exact ⟨Int32.le_refl _, Int32.le_refl _⟩
  | sym s => exact inRange_sym (hsym s rfl)
  | neg x =>
    intro v hv
    obtain ⟨w, hw, hv⟩ := bind_eq_ok.1 hv
    exact SizeRange.neg_contains (hop x (by simp [operands]) w hw) (orOverflow_eq_ok.1 hv)
  | add a b =>
    exact fun v => contains_of_eval₂ hop fun x y v hx hy hv => SizeRange.add_contains hx hy (orOverflow_eq_ok.1 hv)
  | sub a b =>
    exact fun v => contains_of_eval₂ hop fun x y v hx hy hv => SizeRange.sub_contains hx hy (orOverflow_eq_ok.1 hv)
  | mul a b =>
    exact fun v => contains_of_eval₂ hop fun x y v hx hy hv => SizeRange.mul_contains hx hy (orOverflow_eq_ok.1 hv)
  | div a b =>
    refine fun v => contains_of_eval₂ hop fun x y v hx hy hv => ?_
    split at hv
    · cases hv
    · next hne =>
      rw [Word.floorDiv?, if_neg hne] at hv
      exact SizeRange.div_contains hx hy (orOverflow_eq_ok.1 hv)
  | max a b =>
    refine fun v => contains_of_eval₂ hop fun x y v hx hy hv => ?_
    cases hv
    exact SizeRange.max_contains hx hy
  | min a b =>
    refine fun v => contains_of_eval₂ hop fun x y v hx hy hv => ?_
    cases hv
    exact SizeRange.min_contains hx hy
  | broadcast a b => exact (inRange_broadcast_iff hop).2 (hbroadcast a b rfl)

theorem nonneg_of_isPositive (h : e.InRange m) (hpos : e.isPositive = true) {v : Int32} (hv : e.eval m = .ok v) :
    0 ≤ v :=
  Int32.le_trans (of_decide_eq_true hpos) (h v hv).1

/-- The ranges of an expression and of all that it is built from contain their values, and what is known
to be at least zero is, exactly if the broadcasts in the expression are bounded. -/
theorem range_contains_iff (hsign : ∀ s, .sym s ∈ e.subterms → SignKept m s) :
    (∀ x ∈ e.subterms, ∀ v, x.eval m = .ok v → x.range.Contains v ∧ (x.isPositive = true → 0 ≤ v)) ↔
      ∀ a b, .broadcast a b ∈ e.subterms → BroadcastBounded m a b := by
  constructor
  · intro h a b hab
    have hop : ∀ x ∈ [a, b], x.InRange m := fun x hx v hv => (h x (operand_mem_subterms hab hx) v hv).1
    exact (inRange_broadcast_iff hop).1 fun v hv => (h _ hab v hv).1
  · intro hbounded
    have hrange : ∀ x ∈ e.subterms, x.InRange m :=
      forall_subterms fun x hx hop => inRange_of_operands hop (fun s hs => hsign s (hs ▸ hx))
        (fun a b hab => hbounded a b (hab ▸ hx))
    exact fun x hx v hv => ⟨hrange x hx v hv, fun hpos => nonneg_of_isPositive (hrange x hx) hpos hv⟩

/-- A size one larger than what `n` and `k` broadcast to. -/
def afterBroadcast : SizeExpr := .add (.broadcast (posVar "n") (posVar "k")) (.value 1)

theorem range_contains_afterBroadcast :
    (∀ s, .sym s ∈ afterBroadcast.subterms → SignKept ⟨[("n", 0), ("k", 1)]⟩ s) ∧
      ∀ x ∈ afterBroadcast.subterms, ∀ v, x.eval ⟨[("n", 0), ("k", 1)]⟩ = .ok v →
        x.range.Contains v ∧ (x.isPositive = true → 0 ≤ v) := by
  have hsign : ∀ s, .sym s ∈ afterBroadcast.subterms → SignKept ⟨[("n", 0), ("k", 1)]⟩ s := by
    intro s hs _ v hv
    have hs : s = ⟨"n", true⟩ ∨ s = ⟨"k", true⟩ := by
      simpa [afterBroadcast, subterms, posVar] using hs
    rcases hs with rfl | rfl <;> cases hv <;> decide
  refine ⟨hsign, (range_contains_iff hsign).2 ?_⟩
  intro a b hab v hv
  obtain ⟨rfl, rfl⟩ : a = posVar "n" ∧ b = posVar "k" := by
    simpa [afterBroadcast, subterms, posVar] using hab
  cases hv
  exact .inr (by decide)

/-- The sizes 1 and 0 broadcast to 0, although the range says that the result is at least 1. -/
example : (broadcast (.value 1) (posVar "n")).eval ⟨[("n", 0)]⟩ = .ok 0 ∧
    (broadcast (.value 1) (posVar "n")).range = ⟨1, Int32.maxValue⟩ := by
  decide

end SizeExpr

end TensorGraph
