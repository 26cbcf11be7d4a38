import TensorGraph.Proofs.Size.Extrema
import TensorGraph.Proofs.Size.Rebuilding

/-!
# Symbols of size expressions

Alike expressions have the same symbols (`over_of_alike`), and simplification introduces no symbol
(`over_simplifyBy`). Both are stated for any property that the names of all symbols have, so that facts about
symbols that are declared or drawn pass through comparison and simplification.
-/

namespace TensorGraph.SizeExpr

variable {N : String → Prop} {a b e : SizeExpr} {es : List SizeExpr}

/-- Whether the names of all symbols have a property. -/
def Over (N : String → Prop) : SizeExpr → Prop
  | .value _ => True
  | .sym s => N s.name
  | .neg x => x.Over N
  | .add a b | .sub a b | .mul a b | .div a b | .max a b | .min a b | .broadcast a b => a.Over N ∧ b.Over N

theorem forall_mem_visit {names : List String} :
    (∀ name ∈ symbols.visit e names, N name) ↔ (∀ name ∈ names, N name) ∧ e.Over N := by
  induction e generalizing names with
  | value v => exact ⟨fun h => ⟨h, trivial⟩, fun h => h.1⟩
  | sym s =>
    rw [symbols.visit, Over]
    split
    · next hmem => exact ⟨fun h => ⟨h, h _ (List.contains_iff_mem.1 hmem)⟩, fun h => h.1⟩
    · simp only [List.forall_mem_append, List.forall_mem_singleton]
  | neg x ih => exact ih
  | _ a b iha ihb => rw [symbols.visit, ihb, iha, Over, and_assoc]

theorem over_iff : e.Over N ↔ ∀ name ∈ e.symbols, N name := by
  rw [symbols, forall_mem_visit]
  exact ⟨fun h => ⟨nofun, h⟩, fun h => h.2⟩

theorem Over.mono {M : String → Prop} (h : e.Over N) (hsub : ∀ name, N name → M name) : e.Over M :=
  over_iff.2 fun name hname => hsub name (over_iff.1 h name hname)

/-- What two pairs of operands have in common, possibly in another order. -/
theorem and_iff_of_eq_or_swap {p q r s : Prop} (h : (p = r ∧ q = s) ∨ (p = s ∧ q = r)) : (p ∧ q) = (r ∧ s) := by
  rcases h with ⟨rfl, rfl⟩ | ⟨rfl, rfl⟩
  · rfl
  · exact propext and_comm

/-- Alike expressions have the same symbols. -/
theorem over_of_alike (h : a.alike b = true) : a.Over N = b.Over N := by
  fun_induction alike a b with
  | case1 x y => rfl
  | case2 s t => rw [Over, Over, eq_of_beq h]
  | case3 x y ih => exact ih h
  | case9 a b c d ih₁ ih₂ =>
    simp only [Bool.and_eq_true] at h
    rw [Over, Over, ih₁ h.1, ih₂ h.2]
  | case10 a b c d ih₁ ih₂ =>
    simp only [Bool.and_eq_true] at h
    rw [Over, Over, ih₁ h.1, ih₂ h.2]
  | case11 => cases h
  | _ a b c d ih₁ ih₂ ih₃ ih₄ => exact and_iff_of_eq_or_swap (eq_or_swap h ih₁ ih₂ ih₃ ih₄)

/-! ## Chains -/

theorem over_value {v : Int32} : (SizeExpr.value v).Over N := trivial

theorem over_apply (c : Chain) : (c.apply a b).Over N ↔ a.Over N ∧ b.Over N := by
  cases c <;> exact Iff.rfl

theorem over_leaves (c : Chain) : (∀ x ∈ c.leaves e, x.Over N) ↔ e.Over N := by
  refine Chain.leaves_induct (P := fun e es => (∀ x ∈ es, x.Over N) ↔ e.Over N) (fun e _ => ?_)
    (fun a b iha ihb => ?_) e
  · exact List.forall_mem_singleton
  · rw [List.forall_mem_append, iha, ihb, over_apply]

theorem over_foldl (c : Chain) (he : e.Over N) (hes : ∀ x ∈ es, x.Over N) : (es.foldl c.apply e).Over N := by
  induction es generalizing e with
  | nil => exact he
  | cons x es ih =>
    obtain ⟨hx, hes⟩ := List.forall_mem_cons.1 hes
    exact ih ((over_apply c).2 ⟨he, hx⟩) hes

theorem over_product (hes : ∀ x ∈ es, x.Over N) : (product es).Over N := by
  cases es with
  | nil => exact over_value
  | cons e es =>
    obtain ⟨he, hes⟩ := List.forall_mem_cons.1 hes
    exact over_foldl .mul he hes

theorem over_sortTerms (hes : ∀ x ∈ es, x.Over N) : ∀ x ∈ sortTerms es, x.Over N :=
  fun x hx => hes x ((sortTerms_perm es).subset hx)

theorem over_splitStep {acc acc' : Int32 × List SizeExpr} (hacc : ∀ x ∈ acc.2, x.Over N) (he : e.Over N)
    (h : splitFactors.step acc e = some acc') : ∀ x ∈ acc'.2, x.Over N := by
  unfold splitFactors.step at h
  split at h
  · obtain ⟨c, -, rfl⟩ := Option.map_eq_some_iff.1 h
    exact hacc
  · obtain ⟨c, -, rfl⟩ := Option.map_eq_some_iff.1 h
    exact List.forall_mem_append.2 ⟨hacc, List.forall_mem_singleton.2 he⟩
  · cases h
    exact List.forall_mem_append.2 ⟨hacc, List.forall_mem_singleton.2 he⟩

theorem over_splitFactors {c : Int32} {rest : List SizeExpr} (hes : ∀ x ∈ es, x.Over N)
    (h : splitFactors es = some (c, rest)) : ∀ x ∈ rest, x.Over N :=
  splitFactors_induct (P := fun _ acc => ∀ x ∈ acc.2, x.Over N) (List.forall_mem_nil _)
    (fun _ _ e _ he hacc hstep => over_splitStep hacc (hes e he) hstep) h

theorem over_simplifyProduct {whole : SizeExpr} (hwhole : whole.Over N) (hes : ∀ x ∈ es, x.Over N) :
    (simplifyProduct whole es).Over N := by
  unfold simplifyProduct
  split
  · exact hwhole
  · next c rest hsplit =>
    have hrest := over_sortTerms (over_splitFactors hes hsplit)
    have hproduct := over_product hrest
    dsimp only
    split_ifs
    · exact over_value
    · exact hproduct
    · split
      · exact over_value
      · exact hproduct
    · exact over_foldl .mul over_value hrest

theorem over_simplifyExtremum (drops : DropTest) (largest : Bool) (hes : ∀ x ∈ es, x.Over N) :
    (simplifyExtremum drops largest es).Over N := by
  have hoperands : ∀ x ∈ extremumOperands drops largest es, x.Over N :=
    fun x hx => hes x (extremumOperands_subset drops es hx)
  unfold simplifyExtremum
  split
  · next e rest heq =>
    rw [heq] at hoperands
    obtain ⟨he, hrest⟩ := List.forall_mem_cons.1 hoperands
    rw [← apply_extremumChain]
    exact over_foldl _ he hrest
  · exact over_value

theorem over_simplifyBroadcast (hes : ∀ x ∈ es, x.Over N) : (simplifyBroadcast es).Over N := by
  have hterms : ∀ x ∈ dedupTerms (es.filter fun e => !e.alike (.value 1)), x.Over N :=
    fun x hx => hes x (List.mem_of_mem_filter (dedupTerms_subset _ hx))
  unfold simplifyBroadcast
  generalize dedupTerms (es.filter fun e => !e.alike (.value 1)) = terms at hterms
  dsimp only
  split
  · next fixed heq =>
    have hfixed : fixed ∈ terms.filter (·.asValue?.isSome) := heq ▸ List.mem_singleton_self fixed
    exact hterms fixed (List.mem_of_mem_filter hfixed)
  · have hsorted := over_sortTerms hterms
    split
    · exact over_value
    · next e rest heq =>
      rw [heq] at hsorted
      obtain ⟨he, hrest⟩ := List.forall_mem_cons.1 hsorted
      exact over_foldl .broadcast he hrest

/-! ## Quotients -/

theorem over_reducedQuotient (ha : a.Over N) (hb : b.Over N) : (reducedQuotient a b).Over N := by
  unfold reducedQuotient
  split
  · exact ha
  · split
    · exact over_value
    · split
      · split
        · exact ⟨ha.1, over_value⟩
        · exact ⟨ha, hb⟩
      · exact ⟨ha, hb⟩

theorem over_simplifyQuotient {simp : SizeExpr → SizeExpr} (hsimp : ∀ e : SizeExpr, e.Over N → (simp e).Over N)
    (ha : a.Over N) (hb : b.Over N) : (simplifyQuotient simp a b).Over N := by
  obtain ⟨-, hnum, hden⟩ := cancelFactors_spec (fun _ => none) (Chain.mul.leaves a) (Chain.mul.leaves b)
  -- What is left after cancelling are some of the factors that there were.
  have hleaves {es : List SizeExpr} {e : SizeExpr} (he : e.Over N) (h : es.Sublist (Chain.mul.leaves e)) :
      (simp (product es)).Over N :=
    hsimp _ (over_product fun x hx => (over_leaves .mul).2 he x (h.subset hx))
  unfold simplifyQuotient
  split
  · exact ha
  · split
    · exact over_value
    · split
      · exact over_value
      · dsimp only
        split
        · exact over_reducedQuotient (hleaves ha hnum) (hleaves hb hden)
        · exact over_reducedQuotient ha hb

/-! ## Sums -/

theorem over_sumLeaves (negated : Bool) : (∀ t ∈ sumLeaves negated e, t.term.Over N) ↔ e.Over N := by
  induction e generalizing negated with
  | add a b iha ihb => rw [sumLeaves, List.forall_mem_append, iha, ihb, Over]
  | sub a b iha ihb => rw [sumLeaves, List.forall_mem_append, iha, ihb, Over]
  | neg x ih => exact ih _
  | _ => exact List.forall_mem_singleton

theorem over_buildSum (c : Int32) {added subtracted : List SizeExpr} (hadded : ∀ x ∈ added, x.Over N)
    (hsubtracted : ∀ x ∈ subtracted, x.Over N) : (buildSum c added subtracted).Over N :=
  buildSum_of_terms (fun _ => trivial) (fun _ ht => ht) (fun _ _ ha ht => ⟨ha, ht⟩) (fun _ _ ha ht => ⟨ha, ht⟩)
    hadded hsubtracted

theorem over_simplifySum {whole : SizeExpr} {terms : List Signed} (hwhole : whole.Over N)
    (hterms : ∀ t ∈ terms, t.term.Over N) : (simplifySum whole terms).Over N := by
  have hpart (p : Signed → Bool) : ∀ x ∈ sortTerms (((cancelOpposites
      (terms.filter fun t => t.term.asValue?.isNone)).filter p).map (·.term)), x.Over N := by
    refine over_sortTerms (List.forall_mem_map.2 fun t ht => hterms t ?_)
    exact List.mem_of_mem_filter (cancelOpposites_subset _ (List.mem_of_mem_filter ht))
  unfold simplifySum
  split
  · exact hwhole
  · exact over_buildSum _ (hpart _) (hpart _)

/-! ## Every depth -/

variable {drops : DropTest} {n : Nat}

/-- Whether simplification of depth `n` keeps a property of the names of all symbols. -/
structure KeepsOver (N : String → Prop) (drops : DropTest) (n : Nat) : Prop where
  whole : ∀ e, e.Over N → (simplifyN drops n e).Over N
  sum : ∀ negated e, e.Over N → ∀ t ∈ sumTermsN drops n negated e, t.term.Over N
  chain : ∀ c e, e.Over N → ∀ x ∈ chainTermsN drops n c e, x.Over N

theorem keepsOver_zero : KeepsOver N drops 0 where
  whole e h := by rwa [simplifyN]
  sum negated e h := by
    rw [sumTermsN]
    exact (over_sumLeaves negated).2 h
  chain c e h := by
    rw [chainTermsN]
    exact (over_leaves c).2 h

theorem over_step (ih : KeepsOver N drops n) (h : e.Over N) : (simplifyN drops (n + 1) e).Over N := by
  cases e with
  | value v => exact h
  | sym s => exact h
  | neg x =>
    have hx := ih.whole x h
    rw [simplifyN]
    split
    · split <;> exact trivial
    · next y hy => rwa [hy] at hx
    · exact hx
  | add a b => exact over_simplifySum h (ih.sum false _ h)
  | sub a b => exact over_simplifySum h (ih.sum false _ h)
  | mul a b => exact over_simplifyProduct h (ih.chain .mul _ h)
  | div a b => exact over_simplifyQuotient ih.whole (ih.whole a h.1) (ih.whole b h.2)
  | max a b => exact over_simplifyExtremum drops true (ih.chain .max _ h)
  | min a b => exact over_simplifyExtremum drops false (ih.chain .min _ h)
  | broadcast a b => exact over_simplifyBroadcast (ih.chain .broadcast _ h)

theorem keepsOver_step (ih : KeepsOver N drops n) : KeepsOver N drops (n + 1) where
  whole _ h := over_step ih h
  sum negated e h t ht := by
    rw [sumTermsN] at ht
    obtain ⟨leaf, hleaf, ht⟩ := List.mem_flatMap.1 ht
    have hterm := (over_sumLeaves negated).2 h leaf hleaf
    have hsimp := ih.whole _ hterm
    dsimp only at ht
    split at ht
    · rwa [List.mem_singleton.1 ht]
    · split at ht
      · exact ih.sum _ _ hsimp t ht
      · rwa [List.mem_singleton.1 ht]
  chain c e h x hx := by
    rw [chainTermsN] at hx
    obtain ⟨leaf, hleaf, hx⟩ := List.mem_flatMap.1 hx
    exact (over_leaves c).2 (ih.whole leaf ((over_leaves c).2 h leaf hleaf)) x hx

theorem keepsOver (n : Nat) : KeepsOver N drops n := by
  induction n with
  | zero => exact keepsOver_zero
  | succ n ih => exact keepsOver_step ih

/-- Simplification introduces no symbol. -/
theorem over_simplifyBy (drops : DropTest) (h : e.Over N) : (e.simplifyBy drops).Over N := (keepsOver _).whole e h

end TensorGraph.SizeExpr
