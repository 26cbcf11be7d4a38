import TensorGraph.Proofs.Sequence
import TensorGraph.Size.Eval
import TensorGraph.Size.Simplify

/-!
# The meaning of size expressions

`SizeExpr.meaning` is the value of an expression in exact arithmetic, which never overflows. An
expression is `Regular` if its meaning can be computed step by step: symbols have values, divisors are
not zero and sizes that are broadcast fit each other. Evaluation in 32-bit arithmetic returns the
meaning of a regular expression or overflows (`eval_of_regular`), and an expression that has a value is
regular (`regular_of_eval`).
-/

namespace TensorGraph

/-- Values of symbols, in exact arithmetic. -/
abbrev Valuation := String → Option Int

def SymbolMap.valuation (m : SymbolMap) : Valuation := fun name => (m.get? name).map Int32.toInt

namespace SizeExpr

/-- The value in exact arithmetic. Sizes that can be broadcast are broadcast to the larger one. -/
def meaning (ρ : Valuation) : SizeExpr → Int
  | .value v => v.toInt
  | .sym s => (ρ s.name).getD 0
  | .neg x => -x.meaning ρ
  | .add a b => a.meaning ρ + b.meaning ρ
  | .sub a b => a.meaning ρ - b.meaning ρ
  | .mul a b => a.meaning ρ * b.meaning ρ
  | .div a b => (a.meaning ρ).fdiv (b.meaning ρ)
  | .max a b | .broadcast a b => Max.max (a.meaning ρ) (b.meaning ρ)
  | .min a b => Min.min (a.meaning ρ) (b.meaning ρ)

def isMul : SizeExpr → Bool
  | .mul .. => true
  | _ => false

/-- Whether the expression can be negated when its value is a word. Products are excepted, because
their factors are. -/
def Negatable (ρ : Valuation) (e : SizeExpr) : Prop := e.isMul = true ∨ e.meaning ρ ≠ 2147483648

/-- Whether the value can be computed. Operands of sums and products are required not to be the smallest
value above the words, so that negated constants are words. -/
def Regular (ρ : Valuation) : SizeExpr → Prop
  | .value _ => True
  | .sym s => (ρ s.name).isSome
  | .neg x => x.Regular ρ ∧ x.Negatable ρ
  | .add a b | .sub a b =>
    (a.Regular ρ ∧ b.Regular ρ) ∧ (a.isSum = true ∨ a.Negatable ρ) ∧ (b.isSum = true ∨ b.Negatable ρ)
  | .mul a b => (a.Regular ρ ∧ b.Regular ρ) ∧ a.Negatable ρ ∧ b.Negatable ρ
  | .div a b => (a.Regular ρ ∧ b.Regular ρ) ∧ b.meaning ρ ≠ 0
  | .max a b | .min a b => a.Regular ρ ∧ b.Regular ρ
  | .broadcast a b => (a.Regular ρ ∧ b.Regular ρ) ∧ (1 ≤ a.meaning ρ ∧ 1 ≤ b.meaning ρ) ∧
    (a.meaning ρ = b.meaning ρ ∨ a.meaning ρ = 1 ∨ b.meaning ρ = 1)

/-- Whether both operands of every broadcast evaluate to at least 1. -/
def BroadcastsPositive (m : SymbolMap) : SizeExpr → Prop
  | .value _ | .sym _ => True
  | .neg x => x.BroadcastsPositive m
  | .add a b | .sub a b | .mul a b | .div a b | .max a b | .min a b =>
    a.BroadcastsPositive m ∧ b.BroadcastsPositive m
  | .broadcast a b => (a.BroadcastsPositive m ∧ b.BroadcastsPositive m) ∧
    (∃ x, a.eval m = .ok x ∧ 1 ≤ x) ∧ ∃ y, b.eval m = .ok y ∧ 1 ≤ y

/-! ## Evaluation of regular expressions -/

/-- The exact value as a word, or an overflow. -/
def Evaluates (r : Except EvalError Int32) (x : Int) : Prop :=
  (∃ w, r = .ok w ∧ w.toInt = x) ∨ r = .error .overflow

theorem evaluates_ok {w : Int32} {x : Int} : Evaluates (.ok w) x ↔ w.toInt = x := by
  simp [Evaluates]

theorem Evaluates.bind {r : Except EvalError Int32} {x y : Int} {f : Int32 → Except EvalError Int32}
    (h : Evaluates r x) (hf : ∀ w, w.toInt = x → Evaluates (f w) y) : Evaluates (r.bind f) y := by
  rcases h with ⟨w, rfl, hw⟩ | rfl
  · exact hf w hw
  · exact .inr rfl

theorem evaluates_orOverflow (x : Int) : Evaluates (orOverflow (Word.ofInt? x)) x := by
  cases h : Word.ofInt? x with
  | none => exact .inr rfl
  | some w => exact .inl ⟨w, rfl, Word.ofInt?_eq_some_iff.1 h⟩

theorem Evaluates.bind₂ {r s : Except EvalError Int32} {x y z : Int} {f : Int32 → Int32 → Except EvalError Int32}
    (hr : Evaluates r x) (hs : Evaluates s y) (hf : ∀ v w, v.toInt = x → w.toInt = y → Evaluates (f v w) z) :
    Evaluates (r.bind fun v => s.bind fun w => f v w) z :=
  hr.bind fun v hv => hs.bind fun w hw => hf v w hv hw

theorem toInt_ne_zero {w : Int32} (h : w.toInt ≠ 0) : w ≠ 0 := by
  rintro rfl
  exact h rfl

theorem toInt_max (x y : Int32) : (if x < y then y else x).toInt = Max.max x.toInt y.toInt := by
  split <;> simp_all only [Int32.lt_iff_toInt_lt] <;> omega

theorem toInt_min (x y : Int32) : (if y < x then y else x).toInt = Min.min x.toInt y.toInt := by
  split <;> simp_all only [Int32.lt_iff_toInt_lt] <;> omega

theorem evaluates_broadcastSize {x y : Int32} (hpos : 1 ≤ x.toInt ∧ 1 ≤ y.toInt)
    (hfit : x.toInt = y.toInt ∨ x.toInt = 1 ∨ y.toInt = 1) :
    Evaluates (broadcastSize x y) (Max.max x.toInt y.toInt) := by
  have hone : (1 : Int32).toInt = 1 := rfl
  unfold broadcastSize
  rw [← hone, Int32.toInt_inj, Int32.toInt_inj, Int32.toInt_inj] at hfit
  split
  · next h => rw [h, evaluates_ok, Int.max_self]
  · split
    · next h => rw [h, evaluates_ok]; omega
    · split
      · next h => rw [h, evaluates_ok]; omega
      · simp_all

/-- Evaluation returns the meaning of a regular expression, or it overflows. -/
theorem eval_of_regular {m : SymbolMap} {e : SizeExpr} (h : e.Regular m.valuation) :
    Evaluates (e.eval m) (e.meaning m.valuation) := by
  induction e with
  | value v => exact evaluates_ok.2 rfl
  | sym s =>
    obtain ⟨x, hx⟩ := Option.isSome_iff_exists.1 h
    obtain ⟨w, hw, rfl⟩ := Option.map_eq_some_iff.1 hx
    rw [eval, hw, meaning, hx]
    exact evaluates_ok.2 rfl
  | neg x ih =>
    refine (ih h.1).bind fun w hw => ?_
    rw [Word.neg?, hw]
    exact evaluates_orOverflow _
  | add a b iha ihb =>
    refine (iha h.1.1).bind₂ (ihb h.1.2) fun v w hv hw => ?_
    rw [Word.add?, hv, hw]
    exact evaluates_orOverflow _
  | sub a b iha ihb =>
    refine (iha h.1.1).bind₂ (ihb h.1.2) fun v w hv hw => ?_
    rw [Word.sub?, hv, hw]
    exact evaluates_orOverflow _
  | mul a b iha ihb =>
    refine (iha h.1.1).bind₂ (ihb h.1.2) fun v w hv hw => ?_
    rw [Word.mul?, hv, hw]
    exact evaluates_orOverflow _
  | div a b iha ihb =>
    refine (iha h.1.1).bind₂ (ihb h.1.2) fun v w hv hw => ?_
    have hne : w ≠ 0 := toInt_ne_zero (hw ▸ h.2)
    rw [if_neg hne, Word.floorDiv?, if_neg hne, hv, hw]
    exact evaluates_orOverflow _
  | max a b iha ihb =>
    refine (iha h.1).bind₂ (ihb h.2) fun v w hv hw => evaluates_ok.2 ?_
    rw [toInt_max, hv, hw, meaning]
  | min a b iha ihb =>
    refine (iha h.1).bind₂ (ihb h.2) fun v w hv hw => evaluates_ok.2 ?_
    rw [toInt_min, hv, hw, meaning]
  | broadcast a b iha ihb =>
    refine (iha h.1.1).bind₂ (ihb h.1.2) fun v w hv hw => ?_
    rw [meaning, ← hv, ← hw]
    exact evaluates_broadcastSize (by rw [hv, hw]; exact h.2.1) (by rw [hv, hw]; exact h.2.2)

/-! ## Expressions that have a value -/

theorem negatable_of_word {ρ : Valuation} {e : SizeExpr} {w : Int32} (h : w.toInt = e.meaning ρ) :
    e.Negatable ρ := by
  have := w.toInt_lt
  exact .inr (by omega)

theorem orOverflow_eq_ok {x : Int} {w : Int32} : orOverflow (Word.ofInt? x) = .ok w ↔ w.toInt = x := by
  rw [← Word.ofInt?_eq_some_iff]
  cases Word.ofInt? x <;> simp [orOverflow]

theorem fit_of_broadcastSize {x y v : Int32} (h : broadcastSize x y = .ok v) :
    x.toInt = y.toInt ∨ x.toInt = 1 ∨ y.toInt = 1 := by
  unfold broadcastSize at h
  split at h
  · next heq => exact .inl (heq ▸ rfl)
  · split at h
    · next heq => exact .inr (.inl (heq ▸ rfl))
    · split at h
      · next heq => exact .inr (.inr (heq ▸ rfl))
      · cases h

/-- The values that an operation with two operands is applied to, given what is known of the operands. -/
theorem regular_operands {m : SymbolMap} {a b : SizeExpr} {f : Int32 → Int32 → Except EvalError Int32} {v : Int32}
    (ha : ∀ {x}, a.eval m = .ok x → a.Regular m.valuation ∧ x.toInt = a.meaning m.valuation)
    (hb : ∀ {y}, b.eval m = .ok y → b.Regular m.valuation ∧ y.toInt = b.meaning m.valuation)
    (h : ((a.eval m).bind fun x => (b.eval m).bind fun y => f x y) = .ok v) :
    ∃ x y, (a.Regular m.valuation ∧ b.Regular m.valuation) ∧ x.toInt = a.meaning m.valuation ∧
      y.toInt = b.meaning m.valuation ∧ f x y = .ok v := by
  obtain ⟨x, y, hx, hy, h⟩ := bind₂_eq_ok.1 h
  obtain ⟨hrega, hvala⟩ := ha hx
  obtain ⟨hregb, hvalb⟩ := hb hy
  exact ⟨x, y, ⟨hrega, hregb⟩, hvala, hvalb, h⟩

/-- An expression that has a value is regular, and the value is its meaning. -/
theorem regular_of_eval {m : SymbolMap} {e : SizeExpr} (hb : e.BroadcastsPositive m) {v : Int32}
    (h : e.eval m = .ok v) : e.Regular m.valuation ∧ v.toInt = e.meaning m.valuation := by
  induction e generalizing v with
  | value w =>
    cases h
    exact ⟨trivial, rfl⟩
  | sym s =>
    rw [eval] at h
    split at h
    · next w hw =>
      cases h
      simp [Regular, meaning, SymbolMap.valuation, hw]
    · cases h
  | neg x ih =>
    obtain ⟨w, hw, h⟩ := bind_eq_ok.1 h
    obtain ⟨hreg, hval⟩ := ih hb hw
    rw [Word.neg?, orOverflow_eq_ok] at h
    exact ⟨⟨hreg, negatable_of_word hval⟩, by rw [h, hval, meaning]⟩
  | add a b iha ihb =>
    obtain ⟨x, y, hreg, hx, hy, h⟩ := regular_operands (iha hb.1) (ihb hb.2) h
    rw [Word.add?, orOverflow_eq_ok] at h
    exact ⟨⟨hreg, .inr (negatable_of_word hx), .inr (negatable_of_word hy)⟩, by rw [h, hx, hy, meaning]⟩
  | sub a b iha ihb =>
    obtain ⟨x, y, hreg, hx, hy, h⟩ := regular_operands (iha hb.1) (ihb hb.2) h
    rw [Word.sub?, orOverflow_eq_ok] at h
    exact ⟨⟨hreg, .inr (negatable_of_word hx), .inr (negatable_of_word hy)⟩, by rw [h, hx, hy, meaning]⟩
  | mul a b iha ihb =>
    obtain ⟨x, y, hreg, hx, hy, h⟩ := regular_operands (iha hb.1) (ihb hb.2) h
    rw [Word.mul?, orOverflow_eq_ok] at h
    exact ⟨⟨hreg, negatable_of_word hx, negatable_of_word hy⟩, by rw [h, hx, hy, meaning]⟩
  | div a b iha ihb =>
    obtain ⟨x, y, hreg, hx, hy, h⟩ := regular_operands (iha hb.1) (ihb hb.2) h
    split at h
    · cases h
    · next hne =>
      rw [Word.floorDiv?, if_neg hne, orOverflow_eq_ok] at h
      exact ⟨⟨hreg, hy ▸ fun hzero => hne (Int32.toInt_inj.1 hzero)⟩, by rw [h, hx, hy, meaning]⟩
  | max a b iha ihb =>
    obtain ⟨x, y, hreg, hx, hy, h⟩ := regular_operands (iha hb.1) (ihb hb.2) h
    cases h
    exact ⟨hreg, by rw [toInt_max, hx, hy, meaning]⟩
  | min a b iha ihb =>
    obtain ⟨x, y, hreg, hx, hy, h⟩ := regular_operands (iha hb.1) (ihb hb.2) h
    cases h
    exact ⟨hreg, by rw [toInt_min, hx, hy, meaning]⟩
  | broadcast a b iha ihb =>
    obtain ⟨hb, ⟨x, hx, hxpos⟩, y, hy, hypos⟩ := hb
    obtain ⟨hrega, hvala⟩ := iha hb.1 hx
    obtain ⟨hregb, hvalb⟩ := ihb hb.2 hy
    have hsize : broadcastSize x y = .ok v := by simpa only [eval, hx, hy, bind, Except.bind] using h
    rw [Int32.le_iff_toInt_le] at hxpos hypos
    have hpos : 1 ≤ x.toInt ∧ 1 ≤ y.toInt := ⟨hxpos, hypos⟩
    have hfit := fit_of_broadcastSize hsize
    have hval := evaluates_ok.1 (hsize ▸ evaluates_broadcastSize hpos hfit)
    rw [hvala, hvalb] at hpos hfit hval
    exact ⟨⟨⟨hrega, hregb⟩, hpos, hfit⟩, hval⟩

end SizeExpr

end TensorGraph
