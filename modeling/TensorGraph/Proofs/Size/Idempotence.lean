import TensorGraph.Proofs.Size.Canonical

/-!
# Simplified expressions are canonical

By induction on the number of nodes, an expression that `Settles` simplifies to a canonical one, which is left as it
is when it is simplified again (`simplify_simplify`).
-/

namespace TensorGraph

namespace SizeExpr

variable {drops : DropTest} {a b e s x : SizeExpr} {es : List SizeExpr} {c : Int32}

/-! ## Operands of canonical expressions -/

/-- Whether an expression is a canonical operand of a chain. -/
def IsOperand (drops : DropTest) (chain : Chain) (e : SizeExpr) : Prop :=
  Canonical drops e ∧ chain.leaves e = [e]

/-- What the operands of an expression are like if it is canonical. -/
def Composed (drops : DropTest) : SizeExpr → Prop
  | .neg x => Canonical drops x ∧ (∀ y, x ≠ .neg y) ∧ ∀ v, x = .value v → Word.neg? v = none
  | .mul a b => (SizeExpr.mul a b).Overflows drops ∨ ∃ c factors, SizeExpr.mul a b = buildProduct c factors ∧
      (∀ f ∈ factors, Canonical drops f) ∧ (∀ f ∈ factors, f.isFactor = true) ∧ InOrder factors ∧ c ≠ 0 ∧ c ≠ -1
  | .div a b => (Canonical drops a ∧ Canonical drops b) ∧ b.alike (.value 1) = false ∧
      constantQuotient? a b = none ∧ Coprime a b ∧
      ∀ x c d, a = .div x (.value c) → b = .value d → 0 < c → 0 < d → Word.mul? c d = none
  | .max a b => ∀ f ∈ Chain.max.leaves (.max a b), IsOperand drops .max f
  | .min a b => ∀ f ∈ Chain.min.leaves (.min a b), IsOperand drops .min f
  | .broadcast a b => ∀ f ∈ Chain.broadcast.leaves (.broadcast a b), IsOperand drops .broadcast f
  | _ => True

theorem Canonical.composed (h : Canonical drops e) : e.Composed drops := by
  cases h with
  | value v => trivial
  | sym s => trivial
  | neg hx hneg hvalue => exact ⟨hx, hneg, hvalue⟩
  | sum hform hroot => cases e <;> trivial
  | wideSum hroot => cases e <;> trivial
  | product hform hroot hfactors hatoms horder hzero hsign =>
    cases e with
    | mul a b => exact .inr ⟨_, _, hform, hfactors, hatoms, horder, hzero, hsign⟩
    | _ => cases hroot
  | wideProduct hwide =>
    cases e with
    | mul a b => exact .inl hwide
    | _ => cases hwide.1
  | div ha hb hone hconstant hcoprime hmerge => exact ⟨⟨ha, hb⟩, hone, hconstant, hcoprime, hmerge⟩
  | @extremum _ first largest constant rest others hoperands hform hothers hrest hleaf =>
    have hall : ∀ r ∈ first :: others, IsOperand drops (extremumChain largest) r := by
      intro r hr
      rw [← hoperands] at hr
      rcases mem_operands hr with ⟨v, rfl⟩ | hr
      · exact ⟨.value v, leaves_value _ v⟩
      · exact ⟨hrest r hr, hleaf r hr⟩
    have hleaves : (extremumChain largest).leaves e = first :: others := by
      rw [hform, ← apply_extremumChain, leaves_foldl_operands _ fun r hr => (hall r hr).2]
    obtain ⟨a, b, hroot⟩ := exists_extremum_of_foldl largest first hothers
    obtain rfl := hform.trans hroot
    rw [← hleaves] at hall
    cases largest <;> exact hall
  | @broadcast _ first others hform hothers hoperands hleaf =>
    have hleaves : Chain.broadcast.leaves e = first :: others := by
      rw [hform]
      exact leaves_foldl_operands .broadcast hleaf
    obtain ⟨a, b, hroot⟩ := exists_apply_of_foldl .broadcast first hothers
    obtain rfl := hform.trans hroot
    have hall : ∀ f ∈ Chain.broadcast.leaves (.broadcast a b), IsOperand drops .broadcast f := fun f hf =>
      have hmem : f ∈ first :: others := hleaves ▸ hf
      ⟨hoperands f hmem, hleaf f hmem⟩
    exact hall

/-- The operands of a canonical extremum or broadcast are canonical. -/
theorem isOperand_of_mem_leaves {chain : Chain} (hchain : chain ≠ .mul) (h : Canonical drops s) :
    ∀ f ∈ chain.leaves s, IsOperand drops chain f := by
  rcases Chain.apply_or_leaf chain s with ⟨a, b, rfl⟩ | hleaf
  · cases chain with
    | mul => exact absurd rfl hchain
    | _ => exact h.composed
  · rw [hleaf]
    simpa [IsOperand] using ⟨h, hleaf⟩

/-! ## Negations -/

theorem canonical_negate (h : Canonical drops x) : Canonical drops x.negate := by
  cases x with
  | value v =>
    rw [negate]
    split
    · exact .value _
    · next hnone =>
      refine .neg (.value v) (by simp) fun w hw => ?_
      cases hw
      exact hnone
  | neg y => exact h.composed.1
  | _ => exact .neg h (by simp) (by simp)

/-! ## Sums -/

/-- Whether a term of a sum is a constant, or canonical and no sum. -/
def IsTerm (drops : DropTest) (t : Signed) : Prop :=
  t.term.asValue?.isSome = true ∨ Canonical drops t.term ∧ t.term.isSum = false

theorem canonical_buildSum {added subtracted : List SizeExpr} (hterms : ∀ t ∈ added ++ subtracted, Canonical drops t)
    (hatoms : ∀ t ∈ added ++ subtracted, t.isSum = false) (hadded : InOrder added) (hsubtracted : InOrder subtracted)
    (hapart : Apart added subtracted) : Canonical drops (buildSum c added subtracted) := by
  by_cases hroot : (buildSum c added subtracted).isAdditive = true
  · exact .sum rfl hroot hterms hatoms hadded hsubtracted hapart
  · obtain ⟨htermsAdded, htermsSubtracted⟩ := List.forall_mem_append.1 hterms
    have hnegated : ∀ t ∈ subtracted, Canonical drops (.neg t) := by
      intro t ht
      have hatom := hatoms t (by simp [ht])
      refine .neg (htermsSubtracted t ht) ?_ ?_
      · rintro y rfl
        cases hatom
      · rintro v rfl
        cases hatom
    have hbuilt : (buildSum c added subtracted).isAdditive = true ∨ Canonical drops (buildSum c added subtracted) :=
      buildSum_induct (P := fun e => e.isAdditive = true ∨ Canonical drops e) (fun v => .inr (.value v))
        (fun t ht => .inr (htermsAdded t ht)) (fun t ht => .inr (hnegated t ht)) (fun _ _ _ _ => .inl rfl)
        fun _ _ _ _ => .inl rfl
    exact hbuilt.resolve_left hroot

theorem canonical_simplifySum {terms : List Signed} (hwhole : constantSum terms = none → Canonical drops s)
    (hterms : ∀ t ∈ terms, IsTerm drops t) : Canonical drops (simplifySum s terms) := by
  unfold simplifySum
  split
  · next hnone => exact hwhole hnone
  · next c hc =>
    dsimp only
    have hsubset := (cancelOpposites_sublist (terms.filter fun t => t.term.asValue?.isNone)).subset
    have happart : ∀ t ∈ cancelOpposites (terms.filter fun t => t.term.asValue?.isNone),
        ∀ u ∈ cancelOpposites (terms.filter fun t => t.term.asValue?.isNone),
          (u.negated != t.negated && u.term.alike t.term) = false := fun t ht u hu => not_opposite_of_mem ht hu
    generalize cancelOpposites (terms.filter fun t => t.term.asValue?.isNone) = rest at hsubset happart
    have hrest : ∀ t ∈ rest, Canonical drops t.term ∧ t.term.isSum = false := by
      intro t ht
      obtain ⟨hmem, hnone⟩ := List.mem_filter.1 (hsubset ht)
      refine (hterms t hmem).resolve_left ?_
      simp_all
    have hmem (p : Signed → Bool) : ∀ x ∈ sortTerms ((rest.filter p).map (·.term)),
        ∃ t ∈ rest, p t = true ∧ t.term = x := by
      intro x hx
      obtain ⟨t, ht, rfl⟩ := List.mem_map.1 ((sortTerms_perm _).mem_iff.1 hx)
      exact ⟨t, (List.mem_filter.1 ht).1, (List.mem_filter.1 ht).2, rfl⟩
    have hall (p : Signed → Bool) : ∀ x ∈ sortTerms ((rest.filter p).map (·.term)),
        Canonical drops x ∧ x.isSum = false := by
      intro x hx
      obtain ⟨t, ht, -, rfl⟩ := hmem p x hx
      exact hrest t ht
    refine canonical_buildSum (List.forall_mem_append.2 ⟨fun x hx => (hall _ x hx).1, fun x hx => (hall _ x hx).1⟩)
      (List.forall_mem_append.2 ⟨fun x hx => (hall _ x hx).2, fun x hx => (hall _ x hx).2⟩)
      (pairwise_sortTerms _) (pairwise_sortTerms _) fun x hx y hy => ?_
    obtain ⟨t, ht, hpos, rfl⟩ := hmem _ x hx
    obtain ⟨u, hu, hneg, rfl⟩ := hmem _ y hy
    have hopposite := happart t ht u hu
    simp_all

/-! ## Products -/

/-- Whether a factor of a product is a constant, a canonical factor or the negation of one. -/
inductive IsFactor (drops : DropTest) : SizeExpr → Prop
  | value (v : Int32) : IsFactor drops (.value v)
  | neg {x : SizeExpr} (hx : Canonical drops x) (hatom : x.isFactor = true) : IsFactor drops (.neg x)
  | factor {x : SizeExpr} (hx : Canonical drops x) (hatom : x.isFactor = true) : IsFactor drops x

theorem isFactor_of_mem_leaves (h : Canonical drops s) (hopens : Opens drops s) :
    ∀ f ∈ Chain.mul.leaves s, IsFactor drops f := by
  cases s with
  | mul a b =>
    intro f hf
    obtain ⟨c, factors, hform, hfactors, hatoms, -⟩ := h.composed.resolve_left hopens.fits
    rw [hform] at hf
    rcases mem_leaves_buildProduct hatoms hf with ⟨v, rfl⟩ | hmem
    · exact .value v
    · exact .factor (hfactors f hmem) (hatoms f hmem)
  | value v => simpa [Chain.leaves] using IsFactor.value v
  | neg x =>
    obtain ⟨hx, hneg, -⟩ := h.composed
    obtain ⟨hmul, hvalue⟩ := hopens.sign x rfl
    have hatom : x.isFactor = true := by cases x <;> simp_all [isMul, asValue?, isFactor]
    simpa [Chain.leaves] using IsFactor.neg hx hatom
  | _ => simpa [Chain.leaves] using IsFactor.factor h rfl

theorem canonical_of_splitStep {acc acc' : Int32 × List SizeExpr} (he : IsFactor drops e)
    (hacc : ∀ f ∈ acc.2, Canonical drops f ∧ f.isFactor = true) (h : splitFactors.step acc e = some acc') :
    ∀ f ∈ acc'.2, Canonical drops f ∧ f.isFactor = true := by
  cases he with
  | value v =>
    obtain ⟨c, -, rfl⟩ := Option.map_eq_some_iff.1 h
    exact hacc
  | neg hx hatom =>
    obtain ⟨c, -, rfl⟩ := Option.map_eq_some_iff.1 h
    exact List.forall_mem_append.2 ⟨hacc, by simpa using ⟨hx, hatom⟩⟩
  | factor hx hatom =>
    have hnext : splitFactors.step acc e = some (acc.1, acc.2 ++ [e]) := by
      cases e <;> simp_all [isFactor, splitFactors.step]
    cases hnext.symm.trans h
    exact List.forall_mem_append.2 ⟨hacc, by simpa using ⟨hx, hatom⟩⟩

theorem canonical_of_splitFactors {factors rest : List SizeExpr} (h : ∀ f ∈ factors, IsFactor drops f)
    (hsplit : splitFactors factors = some (c, rest)) : ∀ f ∈ rest, Canonical drops f ∧ f.isFactor = true :=
  splitFactors_induct (P := fun _ acc => ∀ f ∈ acc.2, Canonical drops f ∧ f.isFactor = true) (List.forall_mem_nil _)
    (fun _ _ f _ hf hacc hstep => canonical_of_splitStep (h f hf) hacc hstep) hsplit

theorem canonical_buildProduct (hfactors : ∀ f ∈ es, Canonical drops f) (hatoms : ∀ f ∈ es, f.isFactor = true)
    (horder : InOrder es) (hzero : c ≠ 0) (hsign : c ≠ -1) : Canonical drops (buildProduct c es) := by
  by_cases hroot : (buildProduct c es).isMul = true
  · exact .product rfl hroot hfactors hatoms horder hzero hsign
  · have hmul {first : SizeExpr} {fs : List SizeExpr} (h : fs ≠ []) : (fs.foldl SizeExpr.mul first).isMul = true := by
      obtain ⟨p, q, heq⟩ := exists_apply_of_foldl .mul first h
      exact congrArg isMul heq
    unfold buildProduct at hroot ⊢
    split at hroot
    · rw [if_pos ‹_›]
      match es, hfactors, hroot with
      | [], _, _ => exact .value 1
      | [f], hfactors, _ => exact hfactors f (by simp)
      | f :: g :: fs, _, hroot => exact absurd (hmul (by simp)) hroot
    · rw [if_neg ‹_›]
      match es, hroot with
      | [], _ => exact .value c
      | f :: fs, hroot => exact absurd (hmul (by simp)) hroot

theorem product_ne_neg (hatoms : ∀ f ∈ es, f.isFactor = true) (y : SizeExpr) : product es ≠ .neg y := by
  match es, hatoms with
  | [], _ => simp [product]
  | [f], hatoms =>
    rintro rfl
    cases hatoms _ (List.mem_singleton_self _)
  | f :: g :: fs, _ =>
    obtain ⟨p, q, heq⟩ := exists_apply_of_foldl .mul f (List.cons_ne_nil g fs)
    intro hneg
    cases heq.symm.trans hneg

theorem canonical_simplifyProduct {factors : List SizeExpr} (hwhole : splitFactors factors = none → Canonical drops s)
    (h : ∀ f ∈ factors, IsFactor drops f) : Canonical drops (simplifyProduct s factors) := by
  unfold simplifyProduct
  split
  · next hnone => exact hwhole hnone
  · next c rest hsplit =>
    have hrest := canonical_of_splitFactors h hsplit
    have hsorted : ∀ f ∈ sortTerms rest, Canonical drops f ∧ f.isFactor = true :=
      fun f hf => hrest f ((sortTerms_perm rest).mem_iff.1 hf)
    have horder : InOrder (sortTerms rest) := pairwise_sortTerms rest
    have hcanonical {c : Int32} (hzero : c ≠ 0) (hsign : c ≠ -1) :=
      canonical_buildProduct (fun f hf => (hsorted f hf).1) (fun f hf => (hsorted f hf).2) horder hzero hsign
    have hproduct : Canonical drops (product (sortTerms rest)) := hcanonical (c := 1) (by decide) (by decide)
    dsimp only
    split
    · exact .value 0
    · next hzero =>
      split
      · exact hproduct
      · next hone =>
        split
        · split
          · exact .value _
          · next e hvalue =>
            exact .neg hproduct (product_ne_neg fun f hf => (hsorted f hf).2) fun v hv => absurd hv (hvalue v)
        · next hsign =>
          have hbuilt := hcanonical hzero hsign
          rwa [buildProduct, if_neg hone] at hbuilt

/-! ## Extrema and broadcasts -/

theorem distinct_perm {fs : List SizeExpr} (h : es.Perm fs) (hes : Distinct es) : Distinct fs :=
  (h.pairwise_iff fun {a b} hab => by rwa [alike_comm]).1 hes

theorem distinct_dedupTerms (es : List SizeExpr) : Distinct (dedupTerms es) := by
  refine List.foldlRecOn es keepTerm (motive := Distinct) .nil fun kept hkept e _ => ?_
  unfold keepTerm
  split
  · exact hkept
  · next hnew =>
    refine List.pairwise_append.2 ⟨hkept, List.pairwise_singleton _ _, fun k hk f hf => ?_⟩
    obtain rfl := List.mem_singleton.1 hf
    rw [Bool.not_eq_true, memAlike, List.any_eq_false] at hnew
    simpa using hnew k hk

theorem canonical_simplifyExtremum {largest : Bool} {operands : List SizeExpr}
    (h : ∀ r ∈ operands, IsOperand drops (extremumChain largest) r) :
    Canonical drops (simplifyExtremum drops largest operands) := by
  have hmem : ∀ r ∈ extremumOperands drops largest operands, IsOperand drops (extremumChain largest) r :=
    fun r hr => h r (extremumOperands_subset drops operands hr)
  unfold simplifyExtremum
  split
  · next first others hops =>
    rw [hops] at hmem
    by_cases hothers : others = []
    · subst hothers
      exact (hmem first (by simp)).1
    · -- The operands are the constant, if it was kept, and distinct others in order.
      refine @Canonical.extremum drops _ first largest _ (extremumRest operands) others hops rfl hothers
        (fun r hr => (h r (mem_extremumRest hr)).1) (fun r hr => (h r (mem_extremumRest hr)).2) (fun r hr => ?_)
        (pairwise_sortTerms _) (distinct_perm (sortTerms_perm _).symm (distinct_dedupTerms _)) fun c hc => ?_
      · have hfilter := dedupTerms_subset _ ((sortTerms_perm _).mem_iff.1 hr)
        simpa using (List.mem_filter.1 hfilter).2
      · have hkept := Option.mem_filter_iff.1 hc
        simpa using hkept.2
  · exact .value 0

theorem canonical_simplifyBroadcast {operands : List SizeExpr} (h : ∀ r ∈ operands, IsOperand drops .broadcast r) :
    Canonical drops (simplifyBroadcast operands) := by
  have hmem : ∀ r ∈ dedupTerms (operands.filter fun e => !e.alike (.value 1)),
      IsOperand drops .broadcast r ∧ r.alike (.value 1) = false := by
    intro r hr
    obtain ⟨hin, hone⟩ := List.mem_filter.1 (dedupTerms_subset _ hr)
    exact ⟨h r hin, by simpa using hone⟩
  have hdistinct := distinct_dedupTerms (operands.filter fun e => !e.alike (.value 1))
  unfold simplifyBroadcast
  dsimp only
  generalize dedupTerms (operands.filter fun e => !e.alike (.value 1)) = terms at hmem hdistinct
  split
  · next fixed hfixed =>
    have hin : fixed ∈ terms.filter (·.asValue?.isSome) := hfixed ▸ List.mem_singleton_self fixed
    exact (hmem fixed (List.mem_filter.1 hin).1).1.1
  · next hfixed =>
    have hperm := sortTerms_perm terms
    have horder := pairwise_sortTerms terms
    split
    · exact .value 1
    · next first others hsorted =>
      rw [hsorted] at hperm horder
      have hall : ∀ r ∈ first :: others, IsOperand drops .broadcast r ∧ r.alike (.value 1) = false :=
        fun r hr => hmem r (hperm.mem_iff.1 hr)
      by_cases hothers : others = []
      · subst hothers
        exact (hall first (by simp)).1.1
      · refine .broadcast rfl hothers (fun r hr => (hall r hr).1.1) (fun r hr => (hall r hr).1.2)
          (fun r hr => (hall r hr).2) horder (distinct_perm hperm.symm hdistinct) fun hlength => ?_
        rw [(hperm.filter _).length_eq] at hlength
        obtain ⟨fixed, heq⟩ := List.length_eq_one_iff.1 hlength
        exact hfixed fixed heq

/-! ## Quotients -/

/-- What is left after cancelling has no factor in common. -/
theorem cancelFactors_coprime (es ds : List SizeExpr) :
    ∀ e ∈ (cancelFactors es ds).1, ∀ d ∈ (cancelFactors es ds).2, d.alike e = false := by
  fun_induction cancelFactors es ds with
  | case1 ds => simp
  | case2 e es ds j hj ih => exact ih
  | case3 e es ds hnone es' ds' hrec ih =>
    obtain ⟨-, -, hsub⟩ := cancelFactors_spec (fun _ => none) es ds
    rw [hrec] at ih hsub
    refine List.forall_mem_cons.2 ⟨fun d hd => ?_, ih⟩
    simpa using List.findIdx?_eq_none_iff.1 hnone d (hsub.subset hd)

/-- If no factor is cancelled, there is none in common. -/
theorem coprime_of_length (h : ¬ (cancelFactors (Chain.mul.leaves a) (Chain.mul.leaves b)).1.length <
    (Chain.mul.leaves a).length) : Coprime a b := by
  have hall : ∀ es ds, ¬ (cancelFactors es ds).1.length < es.length → ∀ e ∈ es, ∀ d ∈ ds, d.alike e = false := by
    intro es ds
    fun_induction cancelFactors es ds with
    | case1 ds => simp
    | case2 e es ds j hj ih =>
      -- A factor that is cancelled makes the list shorter, so there is none.
      intro hlength
      obtain ⟨-, hsub, -⟩ := cancelFactors_spec (fun _ => none) es (ds.eraseIdx j)
      exact absurd (Nat.lt_succ_of_le hsub.length_le) hlength
    | case3 e es ds hnone es' ds' hrec ih =>
      intro hlength
      rw [hrec] at ih
      refine List.forall_mem_cons.2 ⟨fun d hd => ?_, ih fun hlt => hlength (Nat.succ_lt_succ hlt)⟩
      simpa using List.findIdx?_eq_none_iff.1 hnone d hd
  exact hall _ _ h

/-- Some factors of a canonical expression make a canonical product, of which they are the factors. -/
theorem canonical_product_of_sublist (h : Canonical drops a) (hfits : ¬ a.Overflows drops)
    (hs : es.Sublist (Chain.mul.leaves a)) :
    Canonical drops (product es) ∧ (es ≠ [] → Chain.mul.leaves (product es) = es) ∧
      ∀ v, .value v ∈ es → a = .value v ∨ v ≠ 1 := by
  by_cases hmul : a.isMul = true
  · cases a with
    | mul p q =>
      obtain ⟨c, factors, hform, hfactors, hatoms, horder, hzero, hsign⟩ := h.composed.resolve_left hfits
      -- Factors without the constant are a product like the constant and such factors.
      have hpart {c : Int32} {fs : List SizeExpr} (hfs : fs.Sublist factors) (hzero : c ≠ 0) (hsign : c ≠ -1) :
          Canonical drops (buildProduct c fs) :=
        canonical_buildProduct (fun f hf => hfactors f (hfs.subset hf)) (fun f hf => hatoms f (hfs.subset hf))
          (horder.sublist hfs) hzero hsign
      have hvalue {fs : List SizeExpr} (hfs : fs.Sublist factors) (v : Int32) : .value v ∉ fs := fun hmem => by
        cases hatoms _ (hfs.subset hmem)
      have hplain (hfs : es.Sublist factors) : Canonical drops (product es) ∧
          (es ≠ [] → Chain.mul.leaves (product es) = es) ∧ ∀ v, .value v ∈ es → SizeExpr.mul p q = .value v ∨ v ≠ 1 :=
        ⟨hpart (c := 1) hfs (by decide) (by decide), leaves_product fun f hf => hatoms f (hfs.subset hf),
          fun v hv => absurd hv (hvalue hfs v)⟩
      rw [hform, buildProduct] at hs
      split at hs
      · next hone =>
        by_cases hnil : factors = []
        · rw [buildProduct, if_pos hone, hnil] at hform
          cases hform
        · rw [leaves_product hatoms hnil] at hs
          exact hplain hs
      · next hone =>
        rw [leaves_foldl_mul _ hatoms] at hs
        rcases List.sublist_cons_iff.1 hs with hs | ⟨fs, rfl, hfs⟩
        · exact hplain hs
        · have hbuilt := hpart hfs hzero hsign
          rw [buildProduct, if_neg hone] at hbuilt
          refine ⟨hbuilt, fun _ => leaves_foldl_mul _ fun f hf => hatoms f (hfs.subset hf), fun v hv => .inr ?_⟩
          rcases List.mem_cons.1 hv with hv | hv
          · cases hv
            exact hone
          · exact absurd hv (hvalue hfs v)
    | _ => cases hmul
  · have hleaf : Chain.mul.leaves a = [a] := by cases a <;> first | rfl | exact absurd rfl hmul
    rw [hleaf] at hs
    rcases List.sublist_singleton.1 hs with rfl | rfl
    · exact ⟨.value 1, fun hnil => absurd rfl hnil, by simp⟩
    · exact ⟨h, fun _ => hleaf, fun v hv => .inl (List.mem_singleton.1 hv).symm⟩

/-- A constant can be divided by every positive one. -/
theorem asValue?_of_constantQuotient (hc : 0 < c) (h : constantQuotient? x (.value c) = none) : x.asValue? = none := by
  cases x with
  | value v =>
    have hpos : 0 < c.toInt := Int32.lt_iff_toInt_lt.1 hc
    have hlo := v.le_toInt
    have hhi := v.toInt_lt
    have hquot : constantQuotient? (.value v) (.value c) = Word.ofInt? (v.toInt / c.toInt) := by
      have hzero : c ≠ 0 := by
        rintro rfl
        exact absurd hpos (by decide)
      rw [← Int.fdiv_eq_ediv_of_nonneg _ (Int.le_of_lt hpos)]
      simp [constantQuotient?, asValue?, Word.floorDiv?, hzero]
    have hle : -2147483648 ≤ v.toInt / c.toInt := (Int.le_ediv_iff_mul_le hpos).2 (by omega)
    have hlt : v.toInt / c.toInt < 2147483648 := (Int.ediv_lt_iff_lt_mul hpos).2 (by omega)
    rw [hquot, Word.ofInt?, if_pos (by omega)] at h
    cases h
  | _ => rfl

theorem mul?_eq_none {c d m : Int32} (h : Word.mul? c d = none) (hc : 0 < c) (hd : 0 < d) (hm : d.toInt ≤ m.toInt) :
    Word.mul? c m = none := by
  have hc : 0 < c.toInt := Int32.lt_iff_toInt_lt.1 hc
  have hd : 0 < d.toInt := Int32.lt_iff_toInt_lt.1 hd
  have hle : c.toInt * d.toInt ≤ c.toInt * m.toInt := Int.mul_le_mul_of_nonneg_left hm (Int.le_of_lt hc)
  have hpos : 0 < c.toInt * d.toInt := Int.mul_pos hc hd
  unfold Word.mul? Word.ofInt? at h ⊢
  split at h
  · cases h
  · rw [if_neg (by omega)]

theorem eq_of_alike_value {m : Int32} (h : (SizeExpr.value m).alike e = true) : e = .value m := by
  cases e with
  | value v => rw [eq_of_beq h]
  | _ => cases h

/-- Dividing a canonical quotient by a constant once more leaves it canonical, unless the divisor can be cancelled. -/
theorem canonical_nested {d m : Int32} (h : Canonical drops (.div x (.value c))) (hc : 0 < c) (hd : 0 < d)
    (hm : Word.mul? c d = some m) (hnew : .value m ∉ Chain.mul.leaves x) : Canonical drops (.div x (.value m)) := by
  obtain ⟨⟨hx, -⟩, hone, hconstant, -, hmerge⟩ := h.composed
  have hvalue := asValue?_of_constantQuotient hc hconstant
  have hmul : m.toInt = c.toInt * d.toInt := Word.ofInt?_eq_some_iff.1 hm
  have hdpos : 0 < d.toInt := Int32.lt_iff_toInt_lt.1 hd
  have hcpos : 0 < c.toInt := Int32.lt_iff_toInt_lt.1 hc
  have hle : c.toInt * 1 ≤ c.toInt * d.toInt := Int.mul_le_mul_of_nonneg_left hdpos (Int.le_of_lt hcpos)
  rw [Int.mul_one, ← hmul] at hle
  have hcone : c.toInt ≠ 1 := by
    intro h
    have hc1 : c = 1 := Int32.toInt_inj.1 h
    simp [alike, hc1] at hone
  refine .div hx (.value m) ?_ ?_ ?_ ?_
  · have hmone : m ≠ 1 := by
      rintro rfl
      have : (1 : Int32).toInt = 1 := rfl
      omega
    simpa [alike] using hmone
  · simp [constantQuotient?, hvalue]
  · intro e he f hf
    obtain rfl := List.mem_singleton.1 hf
    rw [Bool.eq_false_iff]
    intro halike
    rw [eq_of_alike_value halike] at he
    exact hnew he
  · -- If the merged divisor could be merged with a further one, so could have been the first, which is smaller.
    rintro y c' d' rfl hd' hc' -
    cases hd'
    exact mul?_eq_none (hmerge y c' c rfl rfl hc' hc) hc' hc hle

theorem canonical_reducedQuotient (ha : Canonical drops a) (hb : Canonical drops b)
    (hcoprime : b.alike (.value 1) = false → Coprime a b)
    (hmerged : ∀ x c d m, a = .div x (.value c) → b = .value d → 0 < c → 0 < d → Word.mul? c d = some m →
      .value m ∉ Chain.mul.leaves x) : Canonical drops (reducedQuotient a b) := by
  unfold reducedQuotient
  split
  · exact ha
  · next hone =>
    have hone : b.alike (.value 1) = false := by simpa using hone
    split
    · exact .value _
    · next hconstant =>
      have hplain (hmerge : ∀ x c d, a = .div x (.value c) → b = .value d → 0 < c → 0 < d → Word.mul? c d = none) :
          Canonical drops (.div a b) := .div ha hb hone hconstant (hcoprime hone) hmerge
      split
      · next x c d =>
        split
        · next m hm =>
          split at hm
          · next hpos =>
            simp only [Bool.and_eq_true, decide_eq_true_eq] at hpos
            exact canonical_nested ha hpos.1 hpos.2 hm (hmerged _ _ _ m rfl rfl hpos.1 hpos.2 hm)
          · cases hm
        · next hnone =>
          refine hplain ?_
          rintro y c' d' hy hd' hc hd
          cases hy
          cases hd'
          simpa [hc, hd] using hnone
      · next hother =>
        refine hplain ?_
        rintro y c' d' rfl rfl
        exact absurd rfl (hother y c' d' rfl)

theorem canonical_simplifyQuotient (ha : Canonical drops a) (hb : Canonical drops b) (h : Divides drops a b) :
    Canonical drops (simplifyQuotient (simplifyBy drops) a b) := by
  unfold simplifyQuotient
  split
  · exact ha
  · next hone =>
    split
    · exact .value _
    · split
      · exact .value 1
      · obtain ⟨-, hsuba, hsubb⟩ := cancelFactors_spec (fun _ => none) (Chain.mul.leaves a) (Chain.mul.leaves b)
        have hrest := cancelFactors_coprime (Chain.mul.leaves a) (Chain.mul.leaves b)
        have hmerged := h.merged
        simp only [reduced] at hmerged
        dsimp only
        split
        · next hlt =>
          obtain ⟨hfitsa, hfitsb⟩ := h.fits hlt
          obtain ⟨hnum, hleavesnum, -⟩ := canonical_product_of_sublist ha hfitsa hsuba
          obtain ⟨hden, hleavesden, hvalues⟩ := canonical_product_of_sublist hb hfitsb hsubb
          rw [if_pos hlt] at hmerged
          rw [hnum.simplifyBy_eq, hden.simplifyBy_eq]
          refine canonical_reducedQuotient hnum hden (fun honeden => ?_) fun x c d m hx hd =>
            hmerged x c d m (by rw [hx, hd])
          -- What is left of the divisor is not 1, so some factors are.
          have hdennil : (cancelFactors (Chain.mul.leaves a) (Chain.mul.leaves b)).2 ≠ [] := by
            intro hnil
            rw [hnil] at honeden
            cases honeden
          unfold Coprime
          rw [hleavesden hdennil]
          by_cases hnumnil : (cancelFactors (Chain.mul.leaves a) (Chain.mul.leaves b)).1 = []
          · -- A dividend without factors is 1, and a canonical divisor has no factor 1.
            rw [hnumnil]
            intro e he d hd
            obtain rfl := List.mem_singleton.1 he
            rw [Bool.eq_false_iff, alike_comm]
            intro halike
            rw [eq_of_alike_value halike] at hd
            rcases hvalues 1 hd with rfl | hne
            · exact hone rfl
            · exact hne rfl
          · rw [hleavesnum hnumnil]
            exact hrest
        · next hlt =>
          rw [if_neg hlt] at hmerged
          exact canonical_reducedQuotient ha hb (fun _ => coprime_of_length hlt) fun x c d m hx hd =>
            hmerged x c d m (by rw [hx, hd])

/-! ## Every expression -/

theorem settles_of_mem_sumLeaves {negated : Bool} (h : e.Settles drops) :
    ∀ t ∈ sumLeaves negated e, t.term.Settles drops := by
  induction e generalizing negated with
  | neg x ih => exact ih h
  | add a b iha ihb => exact List.forall_mem_append.2 ⟨iha h.1, ihb h.2⟩
  | sub a b iha ihb => exact List.forall_mem_append.2 ⟨iha h.1, ihb h.2⟩
  | _ => simpa [sumLeaves] using h

/-- The factors of a product that settles can be taken apart. -/
theorem opens_of_mem_leaves (h : e.Settles drops) (hopens : e.isMul = false → Opens drops (e.simplifyBy drops)) :
    ∀ f ∈ Chain.mul.leaves e, f.Settles drops ∧ Opens drops (f.simplifyBy drops) := by
  refine Chain.leaves_induct (P := fun e es => e.Settles drops → (e.isMul = false → Opens drops (e.simplifyBy drops)) →
    ∀ f ∈ es, f.Settles drops ∧ Opens drops (f.simplifyBy drops)) (fun e he h hopens => ?_)
    (fun a b iha ihb h _ => ?_) e h hopens
  · have hmul : e.isMul = false := by
      cases e with
      | mul a b => exact absurd rfl (he a b)
      | _ => rfl
    simpa using ⟨h, hopens hmul⟩
  · exact List.forall_mem_append.2 ⟨iha h.1.1 h.2.1, ihb h.1.2 h.2.2⟩

theorem settles_of_mem_leaves {chain : Chain} (hchain : chain ≠ .mul) (h : e.Settles drops) :
    ∀ f ∈ chain.leaves e, f.Settles drops := by
  refine Chain.leaves_induct (P := fun e es => e.Settles drops → ∀ f ∈ es, f.Settles drops) (fun e _ h => ?_)
    (fun a b iha ihb h => ?_) e h
  · simpa using h
  · have hab : a.Settles drops ∧ b.Settles drops := by
      cases chain with
      | mul => exact absurd rfl hchain
      | _ => exact h
    exact List.forall_mem_append.2 ⟨iha hab.1, ihb hab.2⟩

/-- What holds of expressions with at most `k` nodes that settle: they simplify to canonical ones, and so do their
terms. -/
structure Canonizes (drops : DropTest) (k : Nat) : Prop where
  whole : ∀ e : SizeExpr, e.nodes ≤ k → e.Settles drops → Canonical drops (e.simplifyBy drops)
  sum : ∀ negated (e : SizeExpr), e.nodes ≤ k → e.isSum = true → e.Settles drops →
    ∀ t ∈ sumTerms drops negated e, IsTerm drops t

section
variable {k : Nat} (ih : Canonizes drops k)
include ih

theorem isTerm_of_mem_sumTerms {negated : Bool} (he : e.nodes ≤ k + 1) (hsum : e.isSum = true)
    (h : e.Settles drops) : ∀ t ∈ sumTerms drops negated e, IsTerm drops t := by
  intro t ht
  rw [sumTerms_eq negated hsum] at ht
  obtain ⟨leaf, hleaf, ht⟩ := List.mem_flatMap.1 ht
  rw [openTerm] at ht
  split at ht
  · next hvalue =>
    obtain rfl := List.mem_singleton.1 ht
    exact .inl hvalue
  · next hvalue =>
    have hlt := (nodes_lt_of_mem_sumLeaves hsum hleaf).resolve_left hvalue
    have hcanonical := ih.whole leaf.term (by omega) (settles_of_mem_sumLeaves h leaf hleaf)
    split at ht
    · -- The term is a sum again. It is canonical, so it settles, and it is no larger than the term.
      next hagain =>
      have hnodes := nodes_simplifyBy drops leaf.term
      exact ih.sum leaf.negated _ (by omega) hagain hcanonical.settles t ht
    · next hatom =>
      obtain rfl := List.mem_singleton.1 ht
      exact .inr ⟨hcanonical, by simpa using hatom⟩

theorem isOperand_of_mem_chainTerms {chain : Chain} (hchain : chain ≠ .mul)
    (he : (chain.apply a b).nodes ≤ k + 1) (h : (chain.apply a b).Settles drops) :
    ∀ f ∈ chainTerms drops chain (chain.apply a b), IsOperand drops chain f := by
  intro f hf
  obtain ⟨leaf, hleaf, hf⟩ := List.mem_flatMap.1 hf
  have hlt := nodes_lt_of_mem_leaves hleaf
  exact isOperand_of_mem_leaves hchain (ih.whole leaf (by omega) (settles_of_mem_leaves hchain h leaf hleaf)) f hf

theorem canonical_step (he : e.nodes ≤ k + 1) (h : e.Settles drops) : Canonical drops (e.simplifyBy drops) := by
  have hsum (hroot : e.isAdditive = true) : Canonical drops (e.simplifyBy drops) := by
    rw [simplifyBy_of_isAdditive hroot]
    exact canonical_simplifySum (fun hwide => .wideSum hroot hwide h)
      (isTerm_of_mem_sumTerms ih he (isSum_of_isAdditive hroot) h)
  cases e with
  | value v => exact .value v
  | sym s => exact .sym s
  | neg x =>
    rw [simplifyBy_neg]
    exact canonical_negate (ih.whole x (Nat.le_of_succ_le_succ he) h)
  | add a b => exact hsum rfl
  | sub a b => exact hsum rfl
  | mul a b =>
    rw [simplifyBy_mul]
    refine canonical_simplifyProduct (fun hwide => .wideProduct ⟨rfl, hwide⟩ h) fun f hf => ?_
    obtain ⟨leaf, hleaf, hf⟩ := List.mem_flatMap.1 hf
    have hlt : leaf.nodes < (SizeExpr.mul a b).nodes := nodes_lt_of_mem_leaves (c := .mul) hleaf
    obtain ⟨hsettles, hopens⟩ := opens_of_mem_leaves h (fun hmul => by cases hmul) leaf hleaf
    exact isFactor_of_mem_leaves (ih.whole leaf (by omega) hsettles) hopens f hf
  | div a b =>
    simp only [nodes] at he
    rw [simplifyBy_div]
    exact canonical_simplifyQuotient (ih.whole a (by omega) h.1.1) (ih.whole b (by omega) h.1.2) h.2
  | max a b =>
    refine (simplifyBy_extremum true).symm ▸ canonical_simplifyExtremum ?_
    exact isOperand_of_mem_chainTerms (a := a) (b := b) ih (by decide) he h
  | min a b =>
    refine (simplifyBy_extremum false).symm ▸ canonical_simplifyExtremum ?_
    exact isOperand_of_mem_chainTerms (a := a) (b := b) ih (by decide) he h
  | broadcast a b =>
    rw [simplifyBy_broadcast]
    exact canonical_simplifyBroadcast (isOperand_of_mem_chainTerms (a := a) (b := b) ih (by decide) he h)

end

theorem canonizes (k : Nat) : Canonizes drops k := by
  induction k with
  | zero =>
    refine ⟨fun e he => ?_, fun _ e he => ?_⟩ <;> exact absurd e.nodes_pos (by omega)
  | succ k ih =>
    exact ⟨fun e he h => canonical_step ih he h, fun negated e he hsum h => isTerm_of_mem_sumTerms ih he hsum h⟩

/-- Simplified expressions are canonical. -/
theorem canonical_simplifyBy (h : e.Settles drops) : Canonical drops (e.simplifyBy drops) :=
  (canonizes e.nodes).whole e (Nat.le_refl _) h

/-- An expression that settles simplifies to a canonical one, which is left as it is when it is simplified again. -/
theorem simplify_simplify (h : e.Settles boundsDominate) :
    Canonical boundsDominate e.simplify ∧ e.simplify.simplify = e.simplify :=
  have hcanonical := canonical_simplifyBy h
  ⟨hcanonical, hcanonical.simplifyBy_eq⟩

/-- The product `2 * (x * (-y))`, and a third of it. -/
def signedProduct : SizeExpr := .mul (.value 2) (.mul (posVar "x") (.neg (posVar "y")))

def thirdOfProduct : SizeExpr := .div signedProduct (.value 3)

theorem simplify_simplify_thirdOfProduct :
    Canonical boundsDominate thirdOfProduct.simplify ∧ thirdOfProduct.simplify.simplify = thirdOfProduct.simplify := by
  have hsimp : signedProduct.simplifyBy boundsDominate =
      .mul (.mul (.value (-2)) (posVar "x")) (posVar "y") := by
    -- Sorting does not evaluate in the kernel, so the order of the factors is stated.
    have horder : InOrder [posVar "x", posVar "y"] := by decide +kernel
    have hsplit : splitFactors (chainTerms boundsDominate .mul signedProduct) =
        some (-2, [posVar "x", posVar "y"]) := rfl
    rw [signedProduct, simplifyBy_mul, simplifyProduct, ← signedProduct, hsplit]
    simp only [sortTerms_of_inOrder horder]
    rfl
  have hneg : Opens boundsDominate (.neg (posVar "y")) := by
    refine ⟨fun hwide => absurd hwide.1 (by decide), fun x hx => ?_⟩
    cases hx
    exact ⟨rfl, rfl⟩
  have hinner : (SizeExpr.mul (posVar "x") (.neg (posVar "y"))).Settles boundsDominate :=
    ⟨⟨trivial, trivial⟩, fun _ => opens_of_isFactor rfl, fun _ => hneg⟩
  have hproduct : signedProduct.Settles boundsDominate :=
    ⟨⟨trivial, hinner⟩, fun _ => opens_value 2, fun hmul => by cases hmul⟩
  refine simplify_simplify ⟨⟨hproduct, trivial⟩, ?_, ?_⟩ <;> rw [hsimp, simplifyBy_value]
  · exact fun hlt => absurd hlt (by decide)
  · intro x c d m hreduced
    cases hreduced

/-- The divisor 6 that 2 and 3 make is cancelled only when the quotient is simplified again. -/
example :
    let e := SizeExpr.div (.div (.mul (.value 6) (posVar "x")) (.value 2)) (.value 3)
    e.simplify = .div (.mul (.value 6) (posVar "x")) (.value 6) ∧ e.simplify.simplify = posVar "x" := by
  decide +kernel

end SizeExpr

end TensorGraph
