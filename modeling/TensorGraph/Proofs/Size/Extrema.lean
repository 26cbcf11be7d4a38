import TensorGraph.Proofs.Size.Terms

/-!
# Simplified maxima, minima and broadcasts

A maximum or minimum means the extremum of its operands. Merging alike operands and folding the constants
keep it; dropping the constant keeps it exactly if another operand dominates the constant
(`meaning_simplifyExtremum_iff`). The operands of a broadcast are 1 or the size that they broadcast to.
-/

namespace TensorGraph.SizeExpr

variable {ρ : Valuation} {largest : Bool}

/-! ## Extrema -/

/-- Whether `y` is at least (for minima, at most) `x`. -/
def Dominates (largest : Bool) (y x : Int) : Prop := if largest then x ≤ y else y ≤ x

theorem Dominates.refl (largest : Bool) (x : Int) : Dominates largest x x := by
  cases largest <;> exact Int.le_refl x

theorem Dominates.trans {x y z : Int} (h₁ : Dominates largest z y) (h₂ : Dominates largest y x) :
    Dominates largest z x := by
  cases largest <;> simp only [Dominates, if_true, Bool.false_eq_true, if_false] at * <;> omega

theorem Dominates.antisymm {x y : Int} (h₁ : Dominates largest x y) (h₂ : Dominates largest y x) : x = y := by
  cases largest <;> simp only [Dominates, if_true, Bool.false_eq_true, if_false] at * <;> omega

/-- Whether `x` is the meaning of an operand and dominates all others. -/
structure IsExtremum (ρ : Valuation) (largest : Bool) (es : List SizeExpr) (x : Int) : Prop where
  attained : ∃ e ∈ es, e.meaning ρ = x
  bound : ∀ e ∈ es, Dominates largest x (e.meaning ρ)

/-- Two lists with operands that dominate each other have one extremum. -/
theorem IsExtremum.unique {es fs : List SizeExpr} {x y : Int} (hes : IsExtremum ρ largest es x)
    (hfs : IsExtremum ρ largest fs y) (h₁ : ∀ e ∈ es, ∃ f ∈ fs, Dominates largest (f.meaning ρ) (e.meaning ρ))
    (h₂ : ∀ f ∈ fs, ∃ e ∈ es, Dominates largest (e.meaning ρ) (f.meaning ρ)) : x = y := by
  obtain ⟨e, he, rfl⟩ := hes.attained
  obtain ⟨f, hf, rfl⟩ := hfs.attained
  obtain ⟨f', hf', hfe⟩ := h₁ e he
  obtain ⟨e', he', hef⟩ := h₂ f hf
  exact ((hes.bound e' he').trans hef).antisymm ((hfs.bound f' hf').trans hfe)

theorem extremum_spec (largest : Bool) (a b : SizeExpr) :
    ((extremum largest a b).Regular ρ ↔ a.Regular ρ ∧ b.Regular ρ) ∧
    ((extremum largest a b).meaning ρ = a.meaning ρ ∨ (extremum largest a b).meaning ρ = b.meaning ρ) ∧
    Dominates largest ((extremum largest a b).meaning ρ) (a.meaning ρ) ∧
    Dominates largest ((extremum largest a b).meaning ρ) (b.meaning ρ) := by
  cases largest
  · refine ⟨Iff.rfl, ?_⟩
    simp only [extremum, meaning, Dominates, Bool.false_eq_true, if_false]
    omega
  · refine ⟨Iff.rfl, ?_⟩
    simp only [extremum, meaning, Dominates, if_true]
    omega

theorem IsExtremum.append {es fs : List SizeExpr} {a b : SizeExpr} (ha : IsExtremum ρ largest es (a.meaning ρ))
    (hb : IsExtremum ρ largest fs (b.meaning ρ)) :
    IsExtremum ρ largest (es ++ fs) ((extremum largest a b).meaning ρ) := by
  obtain ⟨-, hcase, hdoma, hdomb⟩ := extremum_spec (ρ := ρ) largest a b
  refine ⟨?_, List.forall_mem_append.2 ⟨fun e he => hdoma.trans (ha.bound e he),
    fun e he => hdomb.trans (hb.bound e he)⟩⟩
  rcases hcase with h | h
  · obtain ⟨e, he, heq⟩ := ha.attained
    exact ⟨e, List.mem_append_left _ he, heq.trans h.symm⟩
  · obtain ⟨e, he, heq⟩ := hb.attained
    exact ⟨e, List.mem_append_right _ he, heq.trans h.symm⟩

theorem isExtremum_singleton (largest : Bool) (e : SizeExpr) : IsExtremum ρ largest [e] (e.meaning ρ) :=
  ⟨⟨e, by simp, rfl⟩, by simpa using Dominates.refl largest _⟩

theorem foldl_extremum_spec {es : List SizeExpr} {acc : SizeExpr} {seen : List SizeExpr}
    (hacc : acc.Regular ρ) (hseen : IsExtremum ρ largest seen (acc.meaning ρ)) (hes : ∀ e ∈ es, e.Regular ρ) :
    (es.foldl (extremum largest) acc).Regular ρ ∧
      IsExtremum ρ largest (seen ++ es) ((es.foldl (extremum largest) acc).meaning ρ) := by
  induction es generalizing acc seen with
  | nil => exact ⟨hacc, by simpa using hseen⟩
  | cons e es ih =>
    obtain ⟨he, hes⟩ := List.forall_mem_cons.1 hes
    have hnext := ih ((extremum_spec largest acc e).1.2 ⟨hacc, he⟩)
      (hseen.append (isExtremum_singleton largest e)) hes
    simpa using hnext

/-! ## Simplified extrema -/

theorem dominates_pickWord (largest : Bool) (c v : Int32) :
    Dominates largest (pickWord largest c v).toInt c.toInt ∧
      Dominates largest (pickWord largest c v).toInt v.toInt ∧
      (pickWord largest c v = c ∨ pickWord largest c v = v) := by
  cases largest
  · simp only [pickWord, Dominates, Bool.false_eq_true, if_false]
    split <;> simp_all [Int32.lt_iff_toInt_lt]
    omega
  · simp only [pickWord, Dominates, if_true]
    split <;> simp_all [Int32.lt_iff_toInt_lt]
    omega

/-- Whether `c` is the extremum of the constants of a list, which are none if `c` is missing. -/
def IsConstant (largest : Bool) (es : List SizeExpr) : Option Int32 → Prop
  | some c => .value c ∈ es ∧ ∀ v, .value v ∈ es → Dominates largest c.toInt v.toInt
  | none => ∀ v, .value v ∉ es

theorem isConstant_pickConstant {es : List SizeExpr} {acc : Option Int32} (h : IsConstant largest es acc)
    (e : SizeExpr) : IsConstant largest (es ++ [e]) (pickConstant largest acc e) := by
  cases e with
  | value v =>
    cases acc with
    | none =>
      refine ⟨by simp, fun w hw => ?_⟩
      have hwv : w = v := by simpa [h w] using hw
      exact hwv ▸ Dominates.refl largest _
    | some c =>
      obtain ⟨hc, hv, hpick⟩ := dominates_pickWord largest c v
      refine ⟨?_, fun w hw => ?_⟩
      · rcases hpick with hpick | hpick
        · simp [hpick, h.1]
        · simp [hpick]
      · rcases List.mem_append.1 hw with hw | hw
        · exact hc.trans (h.2 w hw)
        · have hwv : w = v := by simpa using hw
          exact hwv ▸ hv
  | _ => cases acc <;> simpa [IsConstant, pickConstant, asValue?] using h

theorem isConstant_extremumConstant (largest : Bool) (es : List SizeExpr) :
    IsConstant largest es (extremumConstant largest es) := by
  have hfold : ∀ (es seen : List SizeExpr) (acc : Option Int32), IsConstant largest seen acc →
      IsConstant largest (seen ++ es) (es.foldl (pickConstant largest) acc) := by
    intro es
    induction es with
    | nil => simp
    | cons e es ih =>
      intro seen acc h
      simpa using ih _ _ (isConstant_pickConstant h e)
  exact hfold es [] none (by simp [IsConstant])

theorem mem_extremumRest {es : List SizeExpr} {e : SizeExpr} (h : e ∈ extremumRest es) : e ∈ es :=
  (List.mem_filter.1 (dedupTerms_subset _ ((sortTerms_perm _).mem_iff.1 h))).1

theorem exists_mem_extremumRest (ρ : Valuation) {es : List SizeExpr} {e : SizeExpr} (h : e ∈ es)
    (hvalue : e.asValue? = none) : ∃ k ∈ extremumRest es, k.meaning ρ = e.meaning ρ := by
  have hmem : e ∈ es.filter (·.asValue?.isNone) := List.mem_filter.2 ⟨h, by rw [hvalue]; rfl⟩
  obtain ⟨k, hk, heq⟩ := exists_mem_dedupTerms ρ hmem
  exact ⟨k, (sortTerms_perm _).mem_iff.2 hk, heq⟩

/-- Whether some other operand dominates the constant, in case it is dropped. -/
def DropsDominated (ρ : Valuation) (drops : DropTest) (largest : Bool) (es : List SizeExpr) : Prop :=
  ∀ c, extremumConstant largest es = some c → drops largest (extremumRest es) c = true →
    ∃ e ∈ extremumRest es, Dominates largest (e.meaning ρ) c.toInt

theorem mem_extremumOperands {drops : DropTest} {es : List SizeExpr} {e : SizeExpr} :
    e ∈ extremumOperands drops largest es ↔
      (∃ c, extremumConstant largest es = some c ∧ drops largest (extremumRest es) c = false ∧ e = .value c) ∨
        e ∈ extremumRest es := by
  rw [extremumOperands, List.mem_append]
  refine or_congr ?_ Iff.rfl
  cases extremumConstant largest es with
  | none => simp
  | some c => cases hdrops : drops largest (extremumRest es) c <;> simp [Option.filter, hdrops]

theorem extremumOperands_subset (drops : DropTest) (es : List SizeExpr) :
    extremumOperands drops largest es ⊆ es := by
  intro e he
  rcases mem_extremumOperands.1 he with ⟨c, hc, -, rfl⟩ | he
  · have hconst := isConstant_extremumConstant largest es
    rw [hc] at hconst
    exact hconst.1
  · exact mem_extremumRest he

/-- Every operand is dominated by one that is left, if the constant is when it is dropped. -/
theorem exists_mem_extremumOperands {drops : DropTest} {es : List SizeExpr}
    (h : DropsDominated ρ drops largest es) {e : SizeExpr} (he : e ∈ es) :
    ∃ k ∈ extremumOperands drops largest es, Dominates largest (k.meaning ρ) (e.meaning ρ) := by
  cases hv : e.asValue? with
  | none =>
    obtain ⟨k, hk, heq⟩ := exists_mem_extremumRest ρ he hv
    exact ⟨k, mem_extremumOperands.2 (.inr hk), heq ▸ Dominates.refl largest _⟩
  | some v =>
    obtain rfl := eq_value_of_asValue? hv
    have hconst := isConstant_extremumConstant largest es
    cases hc : extremumConstant largest es with
    | none =>
      rw [hc] at hconst
      exact absurd he (hconst v)
    | some c =>
      rw [hc] at hconst
      cases hdrops : drops largest (extremumRest es) c with
      | false => exact ⟨.value c, mem_extremumOperands.2 (.inl ⟨c, hc, hdrops, rfl⟩), hconst.2 v he⟩
      | true =>
        obtain ⟨k, hk, hdom⟩ := h c hc hdrops
        exact ⟨k, mem_extremumOperands.2 (.inr hk), hdom.trans (hconst.2 v he)⟩

/-- The simplified extremum is regular and means the extremum of the operands that are left. -/
theorem simplifyExtremum_of_operands {drops : DropTest} {es : List SizeExpr} (hes : ∀ e ∈ es, e.Regular ρ)
    (hleft : extremumOperands drops largest es ≠ []) :
    (simplifyExtremum drops largest es).Regular ρ ∧
      IsExtremum ρ largest (extremumOperands drops largest es) ((simplifyExtremum drops largest es).meaning ρ) := by
  have hregular : ∀ e ∈ extremumOperands drops largest es, e.Regular ρ :=
    fun e he => hes e (extremumOperands_subset drops es he)
  unfold simplifyExtremum
  split
  · next e es' hops =>
    rw [hops] at hregular ⊢
    obtain ⟨he, hes'⟩ := List.forall_mem_cons.1 hregular
    exact foldl_extremum_spec he (isExtremum_singleton largest e) hes'
  · next hnil => exact absurd hnil hleft

/-- The extremum keeps its meaning exactly if a constant that is dropped is dominated. -/
theorem meaning_simplifyExtremum_iff {drops : DropTest} {es : List SizeExpr} {x : Int}
    (hes : ∀ e ∈ es, e.Regular ρ) (hx : IsExtremum ρ largest es x)
    (hleft : extremumOperands drops largest es ≠ []) :
    (simplifyExtremum drops largest es).meaning ρ = x ↔ DropsDominated ρ drops largest es := by
  have hops := (simplifyExtremum_of_operands hes hleft).2
  constructor
  · rintro rfl c hc hdrops
    obtain ⟨e, he, heq⟩ := hops.attained
    have hconst := isConstant_extremumConstant largest es
    rw [hc] at hconst
    rcases mem_extremumOperands.1 he with ⟨c', hc', hkept, -⟩ | he
    · cases hc.symm.trans hc'
      rw [hdrops] at hkept
      cases hkept
    · exact ⟨e, he, heq ▸ hx.bound _ hconst.1⟩
  · intro h
    exact hops.unique hx (fun e he => ⟨e, extremumOperands_subset drops es he, Dominates.refl largest _⟩)
      fun e he => exists_mem_extremumOperands h he

/-- A test under which constants are dropped only if another operand dominates them. -/
def SoundDrops (ρ : Valuation) (drops : DropTest) : Prop := ∀ largest rest c, drops largest rest c = true →
  ∃ e ∈ rest, Dominates largest (e.meaning ρ) c.toInt

theorem simplifyExtremum_spec {drops : DropTest} (hdrops : SoundDrops ρ drops) {es : List SizeExpr} {x : Int}
    (hes : ∀ e ∈ es, e.Regular ρ) (hx : IsExtremum ρ largest es x) :
    (simplifyExtremum drops largest es).Regular ρ ∧ (simplifyExtremum drops largest es).meaning ρ = x := by
  have hdominated : DropsDominated ρ drops largest es := fun c _ h => hdrops largest _ c h
  have hleft : extremumOperands drops largest es ≠ [] := by
    obtain ⟨e, he, -⟩ := hx.attained
    obtain ⟨k, hk, -⟩ := exists_mem_extremumOperands hdominated he
    exact List.ne_nil_of_mem hk
  exact ⟨(simplifyExtremum_of_operands hes hleft).1, (meaning_simplifyExtremum_iff hes hx hleft).2 hdominated⟩

/-! ## Taking extrema apart -/

/-- The chain of nested maxima or minima. -/
def extremumChain (largest : Bool) : Chain := if largest then .max else .min

theorem apply_extremumChain (largest : Bool) : (extremumChain largest).apply = extremum largest := by
  cases largest <;> rfl

theorem isExtremum_leaves (largest : Bool) (e : SizeExpr) :
    IsExtremum ρ largest ((extremumChain largest).leaves e) (e.meaning ρ) := by
  refine Chain.leaves_induct (P := fun e es => IsExtremum ρ largest es (e.meaning ρ)) (fun e _ => ?_)
    (fun a b ha hb => ?_) e
  · exact isExtremum_singleton largest e
  · rw [apply_extremumChain]
    exact ha.append hb

theorem regular_leaves_extremum (largest : Bool) {e : SizeExpr} (h : e.Regular ρ) :
    ∀ x ∈ (extremumChain largest).leaves e, x.Regular ρ := by
  refine Chain.leaves_induct (P := fun e es => e.Regular ρ → ∀ x ∈ es, x.Regular ρ) (fun e _ h => ?_)
    (fun a b ha hb h => ?_) e h
  · simpa using h
  · rw [apply_extremumChain, (extremum_spec largest a b).1] at h
    exact List.forall_mem_append.2 ⟨ha h.1, hb h.2⟩

end TensorGraph.SizeExpr
