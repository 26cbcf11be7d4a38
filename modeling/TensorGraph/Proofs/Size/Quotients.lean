import TensorGraph.Proofs.Size.Products

/-!
# Simplified quotients

Cancelling common factors divides dividend and divisor by the same number (`cancelFactors_spec`), and a
quotient by a positive number can be divided once more, so `simplifyQuotient` keeps the meaning of a
regular quotient.
-/

namespace TensorGraph.SizeExpr

variable {ρ : Valuation}

/-! ## Flooring division -/

theorem mul_fdiv_mul {k : Int} (hk : k ≠ 0) (x y : Int) : (k * x).fdiv (k * y) = x.fdiv y := by
  rcases Int.lt_or_gt_of_ne hk with hneg | hpos
  · rw [← Int.neg_fdiv_neg, ← Int.neg_mul, ← Int.neg_mul]
    exact Int.mul_fdiv_mul_of_pos x y (by omega)
  · exact Int.mul_fdiv_mul_of_pos x y hpos

theorem fdiv_fdiv {c d : Int} (hc : 0 < c) (hd : 0 < d) (x : Int) : (x.fdiv c).fdiv d = x.fdiv (c * d) := by
  have hcd : 0 ≤ c * d := Int.le_of_lt (Int.mul_pos hc hd)
  rw [Int.fdiv_eq_ediv_of_nonneg _ (Int.le_of_lt hd), Int.fdiv_eq_ediv_of_nonneg _ (Int.le_of_lt hc),
    Int.fdiv_eq_ediv_of_nonneg _ hcd, Int.ediv_ediv_of_nonneg (Int.le_of_lt hc)]

/-! ## Common factors -/

theorem prod_eraseIdx {es : List SizeExpr} {j : Nat} (h : j < es.length) :
    prod ρ es = es[j].meaning ρ * prod ρ (es.eraseIdx j) := by
  induction es generalizing j with
  | nil => simp at h
  | cons e es ih =>
    cases j with
    | zero => simp [prod_cons]
    | succ j =>
      simp only [List.eraseIdx_cons_succ, List.getElem_cons_succ, prod_cons, ih (Nat.lt_of_succ_lt_succ h),
        Int.mul_left_comm]

theorem cancelFactors_spec (ρ : Valuation) (es ds : List SizeExpr) :
    (∃ k, prod ρ es = k * prod ρ (cancelFactors es ds).1 ∧ prod ρ ds = k * prod ρ (cancelFactors es ds).2) ∧
      (cancelFactors es ds).1.Sublist es ∧ (cancelFactors es ds).2.Sublist ds := by
  fun_induction cancelFactors es ds with
  | case1 ds => exact ⟨⟨1, by simp [prod], by simp⟩, .refl _, .refl _⟩
  | case2 e es ds j hj ih =>
    obtain ⟨hlt, halike, -⟩ := List.findIdx?_eq_some_iff_getElem.1 hj
    obtain ⟨⟨k, hes, hds⟩, hsube, hsubd⟩ := ih
    refine ⟨⟨e.meaning ρ * k, ?_, ?_⟩, hsube.cons e, hsubd.trans (List.eraseIdx_sublist ds j)⟩
    · rw [prod_cons, hes, Int.mul_assoc]
    · rw [prod_eraseIdx hlt, hds, meaning_of_alike halike, Int.mul_assoc]
  | case3 e es ds hnone es' ds' hrec ih =>
    rw [hrec] at ih
    obtain ⟨⟨k, hes, hds⟩, hsube, hsubd⟩ := ih
    refine ⟨⟨k, ?_, hds⟩, hsube.cons_cons e, hsubd⟩
    rw [prod_cons, prod_cons, hes, Int.mul_left_comm]

/-- Some factors of an expression can be multiplied again. -/
theorem product_of_sublist {e : SizeExpr} {es : List SizeExpr} (h : e.Regular ρ)
    (hs : es.Sublist (Chain.mul.leaves e)) : (product es).Regular ρ ∧ (product es).meaning ρ = prod ρ es := by
  by_cases hn : e.Negatable ρ
  · have hes : Factors ρ es := fun x hx => factors_leaves h hn x (hs.subset hx)
    exact ⟨(product_spec hes).1, (product_spec hes).2.2⟩
  · have hleaf : Chain.mul.leaves e = [e] := by
      cases e with
      | mul a b => exact absurd (.inl rfl) hn
      | _ => rfl
    rw [hleaf] at hs
    rcases List.sublist_singleton.1 hs with rfl | rfl
    · exact ⟨trivial, rfl⟩
    · exact ⟨h, by simp [product, prod]⟩

/-! ## Reduced quotients -/

/-- Operands of a quotient. -/
def Divisible (ρ : Valuation) (a b : SizeExpr) : Prop := (a.Regular ρ ∧ b.Regular ρ) ∧ b.meaning ρ ≠ 0

/-- Whether `q` is an expression for the quotient. -/
def IsQuotient (ρ : Valuation) (a b q : SizeExpr) : Prop :=
  q.Regular ρ ∧ q.meaning ρ = (a.meaning ρ).fdiv (b.meaning ρ)

theorem isQuotient_one {a b : SizeExpr} (ha : a.Regular ρ) (h : b.alike (.value 1) = true) :
    IsQuotient ρ a b a := by
  have hone : b.meaning ρ = 1 := meaning_of_alike h
  exact ⟨ha, by rw [hone, Int.fdiv_one]⟩

theorem isQuotient_constant {a b : SizeExpr} {q : Int32} (h : constantQuotient? a b = some q) :
    IsQuotient ρ a b (.value q) := by
  simp only [constantQuotient?, Option.bind_eq_bind, Option.bind_eq_some_iff] at h
  obtain ⟨v, hv, w, hw, h⟩ := h
  rw [eq_value_of_asValue? hv, eq_value_of_asValue? hw]
  unfold Word.floorDiv? at h
  split at h
  · cases h
  · exact ⟨trivial, Word.ofInt?_eq_some_iff.1 h⟩

theorem isQuotient_nested {x : SizeExpr} {c d m : Int32} (hx : x.Regular ρ) (hc : 0 < c) (hd : 0 < d)
    (hm : Word.mul? c d = some m) : IsQuotient ρ (.div x (.value c)) (.value d) (.div x (.value m)) := by
  have hc : 0 < c.toInt := Int32.lt_iff_toInt_lt.1 hc
  have hd : 0 < d.toInt := Int32.lt_iff_toInt_lt.1 hd
  have hm : m.toInt = c.toInt * d.toInt := Word.ofInt?_eq_some_iff.1 hm
  refine ⟨⟨⟨hx, trivial⟩, ?_⟩, ?_⟩
  · rw [meaning, hm]
    exact Int.ne_of_gt (Int.mul_pos hc hd)
  · simp only [meaning]
    rw [hm, fdiv_fdiv hc hd]

theorem reducedQuotient_spec {a b : SizeExpr} (h : Divisible ρ a b) : IsQuotient ρ a b (reducedQuotient a b) := by
  have hdiv : IsQuotient ρ a b (.div a b) := ⟨h, rfl⟩
  unfold reducedQuotient
  split
  · next hone => exact isQuotient_one h.1.1 hone
  · split
    · next q hq => exact isQuotient_constant hq
    · split
      · split
        · next hm =>
          split at hm
          · next hpos =>
            simp only [Bool.and_eq_true, decide_eq_true_eq] at hpos
            exact isQuotient_nested h.1.1.1.1 hpos.1 hpos.2 hm
          · cases hm
        · exact hdiv
      · exact hdiv

theorem simplifyQuotient_spec {simp : SizeExpr → SizeExpr}
    (hsimp : ∀ e, e.Regular ρ → (simp e).Regular ρ ∧ (simp e).meaning ρ = e.meaning ρ) {a b : SizeExpr}
    (h : Divisible ρ a b) : IsQuotient ρ a b (simplifyQuotient simp a b) := by
  unfold simplifyQuotient
  split
  · next hone => exact isQuotient_one h.1.1 hone
  · split
    · next q hq => exact isQuotient_constant hq
    · split
      · next hsame =>
        simp only [Bool.and_eq_true] at hsame
        refine ⟨trivial, ?_⟩
        rw [meaning_of_alike hsame.2, Int.fdiv_self h.2]
        rfl
      · obtain ⟨⟨k, hnum, hden⟩, hsuba, hsubb⟩ :=
          cancelFactors_spec ρ (Chain.mul.leaves a) (Chain.mul.leaves b)
        dsimp only
        split
        · rw [prod_leaves] at hnum hden
          obtain ⟨hrega, hvala⟩ := product_of_sublist h.1.1 hsuba
          obtain ⟨hregb, hvalb⟩ := product_of_sublist h.1.2 hsubb
          obtain ⟨hrega, hsima⟩ := hsimp _ hrega
          obtain ⟨hregb, hsimb⟩ := hsimp _ hregb
          obtain ⟨hk, hne⟩ := Int.mul_ne_zero_iff.1 (hden ▸ h.2)
          rw [← hvalb, ← hsimb] at hne
          obtain ⟨hreg, hval⟩ := reducedQuotient_spec ⟨⟨hrega, hregb⟩, hne⟩
          refine ⟨hreg, ?_⟩
          rw [hval, hnum, hden, mul_fdiv_mul hk, hsima, hsimb, hvala, hvalb]
        · exact reducedQuotient_spec h

end TensorGraph.SizeExpr
