import Mathlib.Algebra.BigOperators.Group.List.Basic
import Mathlib.Algebra.Ring.Int.Defs
import TensorGraph.Proofs.Size.Terms

/-!
# Simplified products

A product means the product of its factors (`prod_leaves`). Collecting constants and signs and sorting
the other factors keep it, so `simplifyProduct` keeps the meaning of a regular product.
-/

namespace TensorGraph.SizeExpr

variable {ρ : Valuation}

/-- The meaning of a list of factors. -/
def prod (ρ : Valuation) (es : List SizeExpr) : Int := (es.map (meaning ρ)).prod

/-- Expressions that can be multiplied. -/
def Factors (ρ : Valuation) (es : List SizeExpr) : Prop := ∀ e ∈ es, e.Regular ρ ∧ e.Negatable ρ

theorem prod_append (es fs : List SizeExpr) : prod ρ (es ++ fs) = prod ρ es * prod ρ fs := by
  simp [prod]

theorem prod_cons (e : SizeExpr) (es : List SizeExpr) : prod ρ (e :: es) = e.meaning ρ * prod ρ es := by
  simp [prod]

theorem prod_perm {es fs : List SizeExpr} (h : es.Perm fs) : prod ρ es = prod ρ fs :=
  (h.map _).prod_eq

/-! ## Taking products apart -/

theorem prod_leaves (e : SizeExpr) : prod ρ (Chain.mul.leaves e) = e.meaning ρ := by
  refine Chain.leaves_induct (P := fun e es => prod ρ es = e.meaning ρ) (fun e _ => ?_) (fun a b ha hb => ?_) e
  · simp [prod]
  · rw [prod_append, ha, hb]
    rfl

theorem factors_leaves {e : SizeExpr} (h : e.Regular ρ) (hn : e.Negatable ρ) :
    Factors ρ (Chain.mul.leaves e) := by
  refine Chain.leaves_induct (P := fun e es => e.Regular ρ → e.Negatable ρ → Factors ρ es)
    (fun e _ h hn => ?_) (fun a b ha hb h _ => ?_) e h hn
  · simpa [Factors] using ⟨h, hn⟩
  · exact List.forall_mem_append.2 ⟨ha h.1.1 h.2.1, hb h.1.2 h.2.2⟩

/-! ## Multiplying factors -/

theorem foldl_mul_spec {acc : SizeExpr} {es : List SizeExpr} (hacc : acc.Regular ρ ∧ acc.Negatable ρ)
    (hes : Factors ρ es) :
    (es.foldl SizeExpr.mul acc).Regular ρ ∧ (es.foldl SizeExpr.mul acc).Negatable ρ ∧
      (es.foldl SizeExpr.mul acc).meaning ρ = acc.meaning ρ * prod ρ es := by
  induction es generalizing acc with
  | nil => exact ⟨hacc.1, hacc.2, by simp [prod]⟩
  | cons e es ih =>
    obtain ⟨he, hes⟩ := List.forall_mem_cons.1 hes
    have hnext : (SizeExpr.mul acc e).Regular ρ := ⟨⟨hacc.1, he.1⟩, hacc.2, he.2⟩
    obtain ⟨hreg, hneg, hval⟩ := ih ⟨hnext, .inl rfl⟩ hes
    exact ⟨hreg, hneg, by rw [List.foldl_cons, hval, meaning, prod_cons, Int.mul_assoc]⟩

theorem product_spec {es : List SizeExpr} (hes : Factors ρ es) :
    (product es).Regular ρ ∧ (product es).Negatable ρ ∧ (product es).meaning ρ = prod ρ es := by
  cases es with
  | nil => exact ⟨trivial, negatable_of_word rfl, rfl⟩
  | cons e es =>
    obtain ⟨he, hes⟩ := List.forall_mem_cons.1 hes
    rw [prod_cons]
    exact foldl_mul_spec he hes

/-! ## Constants and signs -/

/-- A factor of which the sign was taken away. -/
def Unsigned (ρ : Valuation) (es : List SizeExpr) : Prop :=
  Factors ρ es ∧ ∀ v, .value v ∈ es → v.toInt ≠ -2147483648

theorem Unsigned.append {es : List SizeExpr} {e : SizeExpr} (h : Unsigned ρ es)
    (he : e.Regular ρ ∧ e.Negatable ρ) (hmin : ∀ v, e = .value v → v.toInt ≠ -2147483648) :
    Unsigned ρ (es ++ [e]) := by
  refine ⟨List.forall_mem_append.2 ⟨h.1, by simpa using he⟩, fun v hv => ?_⟩
  rcases List.mem_append.1 hv with hv | hv
  · exact h.2 v hv
  · exact hmin v (List.mem_singleton.1 hv).symm

theorem splitStep_eq_some {acc acc' : Int32 × List SizeExpr} {e : SizeExpr} (hacc : Unsigned ρ acc.2)
    (he : e.Regular ρ ∧ e.Negatable ρ) (h : splitFactors.step acc e = some acc') :
    Unsigned ρ acc'.2 ∧ acc'.1.toInt * prod ρ acc'.2 = acc.1.toInt * prod ρ acc.2 * e.meaning ρ := by
  have hother (hstep : splitFactors.step acc e = some (acc.1, acc.2 ++ [e]))
      (hvalue : ∀ v, e ≠ .value v) :
      Unsigned ρ acc'.2 ∧ acc'.1.toInt * prod ρ acc'.2 = acc.1.toInt * prod ρ acc.2 * e.meaning ρ := by
    cases hstep.symm.trans h
    refine ⟨hacc.append he fun v hv => absurd hv (hvalue v), ?_⟩
    rw [prod_append, Int.mul_assoc]
    simp [prod]
  cases e with
  | value v =>
    obtain ⟨c, hc, rfl⟩ := Option.map_eq_some_iff.1 h
    refine ⟨hacc, ?_⟩
    rw [Word.ofInt?_eq_some_iff.1 hc, meaning, Int.mul_assoc, Int.mul_comm v.toInt, Int.mul_assoc]
  | neg x =>
    obtain ⟨c, hc, rfl⟩ := Option.map_eq_some_iff.1 h
    refine ⟨hacc.append he.1 fun v hv => ?_, ?_⟩
    · subst hv
      have hneg := he.2.resolve_left (by simp [isMul])
      simp only [meaning] at hneg
      omega
    · rw [Word.ofInt?_eq_some_iff.1 hc, prod_append, meaning]
      simp [prod, Int.mul_assoc]
  | _ => exact hother rfl (by simp)

/-- What every step keeps of the factors that were read and of what they were split into. -/
theorem splitFactors_induct {P : List SizeExpr → Int32 × List SizeExpr → Prop} {factors : List SizeExpr}
    {out : Int32 × List SizeExpr} (start : P [] (1, []))
    (step : ∀ read acc e acc', e ∈ factors → P read acc → splitFactors.step acc e = some acc' → P (read ++ [e]) acc')
    (h : splitFactors factors = some out) : P factors out := by
  have hfold : ∀ (rest read : List SizeExpr) (acc : Int32 × List SizeExpr), rest ⊆ factors → P read acc →
      rest.foldlM splitFactors.step acc = some out → P (read ++ rest) out := by
    intro rest
    induction rest with
    | nil =>
      intro read acc _ hacc h
      cases h
      rwa [List.append_nil]
    | cons e rest ih =>
      intro read acc hsub hacc h
      obtain ⟨he, hrest⟩ := List.cons_subset.1 hsub
      rw [List.foldlM_cons, Option.bind_eq_bind, Option.bind_eq_some_iff] at h
      obtain ⟨next, hstep, h⟩ := h
      rw [List.append_cons]
      exact ih _ next hrest (step read acc e next he hacc hstep) h
  exact hfold factors [] (1, []) (List.Subset.refl _) start h

theorem splitFactors_eq_some {factors : List SizeExpr} {c : Int32} {rest : List SizeExpr}
    (hf : Factors ρ factors) (h : splitFactors factors = some (c, rest)) :
    Unsigned ρ rest ∧ c.toInt * prod ρ rest = prod ρ factors := by
  refine splitFactors_induct (P := fun read acc => Unsigned ρ acc.2 ∧ acc.1.toInt * prod ρ acc.2 = prod ρ read)
    ⟨⟨by simp [Factors], by simp⟩, by simp [prod]⟩ (fun read acc e acc' he hacc hstep => ?_) h
  obtain ⟨hnext, hval⟩ := splitStep_eq_some hacc.1 (hf e he) hstep
  exact ⟨hnext, by rw [hval, hacc.2, prod_append]; simp [prod]⟩

theorem Unsigned.sortTerms {es : List SizeExpr} (h : Unsigned ρ es) : Unsigned ρ (sortTerms es) :=
  ⟨fun e he => h.1 e ((sortTerms_perm es).mem_iff.1 he), fun v hv => h.2 v ((sortTerms_perm es).mem_iff.1 hv)⟩

theorem foldl_mul_ne_value (es : List SizeExpr) (a b : SizeExpr) (v : Int32) :
    es.foldl SizeExpr.mul (.mul a b) ≠ .value v := by
  induction es generalizing a b with
  | nil => simp
  | cons e es ih => exact ih _ _

/-- If factors without a sign multiply to a constant, its negation is a word. -/
theorem toInt_neg_of_product {es : List SizeExpr} (h : Unsigned ρ es) {v : Int32} (hv : product es = .value v) :
    (-v).toInt = -v.toInt := by
  have hmin : v.toInt ≠ -2147483648 := by
    match es, hv with
    | [], hv =>
      cases hv
      decide
    | [e], hv =>
      cases hv
      exact h.2 v (by simp)
    | e :: f :: es, hv => exact absurd hv (foldl_mul_ne_value es e f v)
  have hlo := v.le_toInt
  have hhi := v.toInt_lt
  rw [Int32.toInt_neg]
  exact Int.bmod_eq_of_le (by omega) (by omega)

theorem simplifyProduct_spec {whole : SizeExpr} {factors : List SizeExpr} (hwhole : whole.Regular ρ)
    (hn : whole.Negatable ρ) (hf : Factors ρ factors) (hprod : prod ρ factors = whole.meaning ρ) :
    (simplifyProduct whole factors).Regular ρ ∧ (simplifyProduct whole factors).meaning ρ = whole.meaning ρ ∧
      ((simplifyProduct whole factors).Negatable ρ ∨ ∃ x, simplifyProduct whole factors = .neg x) := by
  unfold simplifyProduct
  split
  · exact ⟨hwhole, rfl, .inl hn⟩
  · next c rest hsplit =>
    obtain ⟨hrest, hval⟩ := splitFactors_eq_some hf hsplit
    rw [hprod, ← prod_perm (sortTerms_perm rest)] at hval
    have hproduct := product_spec hrest.sortTerms.1
    dsimp only
    split
    · next hc =>
      subst hc
      exact ⟨trivial, by simpa [meaning] using hval, .inl (negatable_of_word rfl)⟩
    · split
      · next hc =>
        subst hc
        exact ⟨hproduct.1, by simpa [hproduct.2.2] using hval, .inl hproduct.2.1⟩
      · split
        · next hc =>
          subst hc
          have hneg : (product (SizeExpr.sortTerms rest)).meaning ρ = -whole.meaning ρ := by
            rw [hproduct.2.2, ← hval]
            simp
          split
          · next v hv =>
            refine ⟨trivial, ?_, .inl (negatable_of_word rfl)⟩
            rw [hv] at hneg
            rw [meaning, toInt_neg_of_product hrest.sortTerms hv, ← Int.neg_neg (whole.meaning ρ), ← hneg]
            rfl
          · exact ⟨⟨hproduct.1, hproduct.2.1⟩, by rw [meaning, hneg, Int.neg_neg], .inr ⟨_, rfl⟩⟩
        · have hconst : (SizeExpr.value c).Regular ρ ∧ (SizeExpr.value c).Negatable ρ :=
            ⟨trivial, negatable_of_word rfl⟩
          obtain ⟨hreg, hneg, hmul⟩ := foldl_mul_spec hconst hrest.sortTerms.1
          exact ⟨hreg, hmul.trans hval, .inl hneg⟩

end TensorGraph.SizeExpr
