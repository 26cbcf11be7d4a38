import TensorGraph.Proofs.Sequence
import TensorGraph.Proofs.Size.Terms

/-!
# Values of equal expressions

Expressions are compared by `alike`, up to the order of the operands of commutative operators and without regard to
what is assumed of symbols. This is an equivalence, and equal expressions have the same value under every map, or
none: `alike_equivalence`. Only the error can differ, because operands are evaluated from left to right.
-/

namespace TensorGraph

/-! ## Values of operands -/

section
variable {ε α β : Type} {f : α → α → Except ε β} {r s r' s' : Except ε α}

/-- What is computed from two operands, if both have a value. -/
theorem toOption_bind₂ (r s : Except ε α) (f : α → α → Except ε β) :
    (r.bind fun x => s.bind fun y => f x y).toOption =
      r.toOption.bind fun x => s.toOption.bind fun y => (f x y).toOption := by
  simp only [toOption_bind]

theorem toOption_bind₂_congr (f : α → α → Except ε β) (hr : r.toOption = r'.toOption) (hs : s.toOption = s'.toOption) :
    (r.bind fun x => s.bind fun y => f x y).toOption = (r'.bind fun x => s'.bind fun y => f x y).toOption := by
  rw [toOption_bind₂, toOption_bind₂, hr, hs]

theorem toOption_bind₂_comm (hf : ∀ x y, (f x y).toOption = (f y x).toOption) (r s : Except ε α) :
    (r.bind fun x => s.bind fun y => f x y).toOption = (s.bind fun x => r.bind fun y => f x y).toOption := by
  rw [toOption_bind₂, toOption_bind₂, Option.bind_comm]
  simp only [hf]

/-- The operands of a commutative operator may have the same values in another order. -/
theorem toOption_bind₂_of_eq_or_swap (hf : ∀ x y, (f x y).toOption = (f y x).toOption)
    (h : (r.toOption = r'.toOption ∧ s.toOption = s'.toOption) ∨
      (r.toOption = s'.toOption ∧ s.toOption = r'.toOption)) :
    (r.bind fun x => s.bind fun y => f x y).toOption = (r'.bind fun x => s'.bind fun y => f x y).toOption := by
  rcases h with ⟨hr, hs⟩ | ⟨hr, hs⟩
  · exact toOption_bind₂_congr f hr hs
  · exact (toOption_bind₂_congr f hr hs).trans (toOption_bind₂_comm hf s' r')

end

/-! ## Commutative operators -/

theorem Word.add?_comm (x y : Int32) : Word.add? x y = Word.add? y x := congrArg Word.ofInt? (Int.add_comm ..)

theorem Word.mul?_comm (x y : Int32) : Word.mul? x y = Word.mul? y x := congrArg Word.ofInt? (Int.mul_comm ..)

/-- In the other order sizes that do not broadcast give another error. -/
theorem toOption_broadcastSize_comm (x y : Int32) : (broadcastSize x y).toOption = (broadcastSize y x).toOption := by
  unfold broadcastSize
  split_ifs <;> simp_all [Except.toOption]

namespace SizeExpr

theorem larger_comm (x y : Int32) : (if x < y then y else x) = if y < x then x else y := by
  rw [← Int32.toInt_inj, toInt_max, toInt_max, Int.max_comm]

theorem smaller_comm (x y : Int32) : (if y < x then y else x) = if x < y then x else y := by
  rw [← Int32.toInt_inj, toInt_min, toInt_min, Int.min_comm]

/-! ## Equal expressions -/

theorem toOption_eval_of_alike (m : SymbolMap) {a b : SizeExpr} (h : a.alike b = true) :
    (a.eval m).toOption = (b.eval m).toOption := by
  fun_induction alike a b with
  | case1 x y => rw [eq_of_beq h]
  | case2 s t => rw [eval, eval, eq_of_beq h]
  | case3 x y ih =>
    calc (x.neg.eval m).toOption = (x.eval m).toOption.bind fun v => (orOverflow (Word.neg? v)).toOption :=
          toOption_bind _ _
      _ = (y.neg.eval m).toOption := by rw [ih h]; exact (toOption_bind _ _).symm
  | case4 a b c d ih₁ ih₂ ih₃ ih₄ =>
    exact toOption_bind₂_of_eq_or_swap (fun x y => by rw [Word.add?_comm]) (eq_or_swap h ih₁ ih₂ ih₃ ih₄)
  | case5 a b c d ih₁ ih₂ ih₃ ih₄ =>
    exact toOption_bind₂_of_eq_or_swap (fun x y => by rw [Word.mul?_comm]) (eq_or_swap h ih₁ ih₂ ih₃ ih₄)
  | case6 a b c d ih₁ ih₂ ih₃ ih₄ =>
    exact toOption_bind₂_of_eq_or_swap (fun x y => by rw [larger_comm]) (eq_or_swap h ih₁ ih₂ ih₃ ih₄)
  | case7 a b c d ih₁ ih₂ ih₃ ih₄ =>
    exact toOption_bind₂_of_eq_or_swap (fun x y => by rw [smaller_comm]) (eq_or_swap h ih₁ ih₂ ih₃ ih₄)
  | case8 a b c d ih₁ ih₂ ih₃ ih₄ =>
    exact toOption_bind₂_of_eq_or_swap toOption_broadcastSize_comm (eq_or_swap h ih₁ ih₂ ih₃ ih₄)
  | case9 a b c d ih₁ ih₂ | case10 a b c d ih₁ ih₂ =>
    simp only [Bool.and_eq_true] at h
    exact toOption_bind₂_congr _ (ih₁ h.1) (ih₂ h.2)
  | case11 => cases h

/-- Equality of expressions is an equivalence, and equal expressions have the same values. -/
theorem alike_equivalence : Equivalence (fun a b : SizeExpr => a.alike b = true) ∧
    ∀ a b : SizeExpr, a.alike b = true → ∀ (m : SymbolMap) (v : Int32), a.eval m = .ok v ↔ b.eval m = .ok v := by
  refine ⟨⟨alike_refl, alike_symm, alike_trans⟩, fun a b h m v => ?_⟩
  rw [← toOption_eq_some, ← toOption_eq_some, toOption_eval_of_alike m h]

/-- The size of a matrix with a padded dimension, next to one that is broadcast. -/
def paddedArea : SizeExpr := .mul (.add (posVar "n") (.value 3)) (.broadcast (.value 1) (posVar "c"))

/-- The same with all operands swapped, and with nothing assumed of the symbols. -/
def swappedArea : SizeExpr := .mul (.broadcast (var "c") (.value 1)) (.add (.value 3) (var "n"))

theorem alike_equivalence_paddedArea : paddedArea.alike swappedArea = true ∧
    swappedArea.eval ⟨[("n", 2), ("c", 4)]⟩ = .ok 20 :=
  have halike : paddedArea.alike swappedArea = true := by decide
  ⟨halike, (alike_equivalence.2 paddedArea swappedArea halike ⟨[("n", 2), ("c", 4)]⟩ 20).1 rfl⟩

/-- The order in which operands are evaluated decides which error is returned. -/
example : (SizeExpr.add (var "n") (var "k")).eval .empty = .error (.unknownSymbol "n") ∧
    (SizeExpr.add (var "k") (var "n")).eval .empty = .error (.unknownSymbol "k") := ⟨rfl, rfl⟩

end SizeExpr

end TensorGraph
