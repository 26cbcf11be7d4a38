import TensorGraph.Proofs.Size.Equations
import TensorGraph.Proofs.Size.Linear

/-!
# Rebuilding what is in order

Terms, factors and operands that are in order, merged and cancelled are left as they are when they are collected
again: a sum, product, extremum or broadcast that was built from them is rebuilt.
-/

namespace TensorGraph.SizeExpr

variable {drops : DropTest} {e t : SizeExpr} {es added subtracted : List SizeExpr} {c : Int32}

/-- Whether terms stand in canonical order. -/
abbrev InOrder (es : List SizeExpr) : Prop := es.Pairwise fun a b => a.termLe b = true

theorem sortTerms_of_inOrder (h : InOrder es) : sortTerms es = es :=
  List.mergeSort_of_pairwise h

/-! ## Sums -/

theorem asValue?_of_isSum (h : e.isSum = false) : e.asValue? = none := by
  cases e <;> simp_all [isSum, asValue?]

theorem sumLeaves_of_isSum (h : e.isSum = false) (negated : Bool) : sumLeaves negated e = [⟨negated, e⟩] := by
  cases e <;> simp_all [isSum, sumLeaves]

/-- Added terms, and then subtracted ones. -/
def signed (added subtracted : List SizeExpr) : List Signed :=
  added.map (⟨false, ·⟩) ++ subtracted.map (⟨true, ·⟩)

/-- The terms of a sum that may still be empty. -/
def leavesSoFar : Option SizeExpr → List Signed
  | some a => sumLeaves false a
  | none => []

theorem leavesSoFar_plus (acc : Option SizeExpr) (h : t.isSum = false) :
    leavesSoFar (plus acc t) = leavesSoFar acc ++ [⟨false, t⟩] := by
  cases acc <;> simp [plus, leavesSoFar, sumLeaves, sumLeaves_of_isSum h]

theorem leavesSoFar_minus (acc : Option SizeExpr) (h : t.isSum = false) :
    leavesSoFar (minus acc t) = leavesSoFar acc ++ [⟨true, t⟩] := by
  cases acc <;> simp [minus, leavesSoFar, sumLeaves, sumLeaves_of_isSum h]

theorem leavesSoFar_terms (start : Option SizeExpr) (h : ∀ t ∈ added ++ subtracted, t.isSum = false) :
    leavesSoFar (subtracted.foldl minus (added.foldl plus start)) = leavesSoFar start ++ signed added subtracted := by
  obtain ⟨hadded, hsubtracted⟩ := List.forall_mem_append.1 h
  have hplus : leavesSoFar (added.foldl plus start) = leavesSoFar start ++ added.map (⟨false, ·⟩) := by
    clear h hsubtracted
    induction added generalizing start with
    | nil => simp
    | cons t ts ih =>
      obtain ⟨ht, hts⟩ := List.forall_mem_cons.1 hadded
      simp [ih _ hts, leavesSoFar_plus start ht]
  have hminus (acc : Option SizeExpr) :
      leavesSoFar (subtracted.foldl minus acc) = leavesSoFar acc ++ subtracted.map (⟨true, ·⟩) := by
    clear h hplus
    induction subtracted generalizing acc with
    | nil => simp
    | cons t ts ih =>
      obtain ⟨ht, hts⟩ := List.forall_mem_cons.1 hsubtracted
      simp [ih hts, leavesSoFar_minus acc ht]
  rw [hminus, hplus, signed, List.append_assoc]

theorem add?_zero (c : Int32) : Word.add? 0 c = some c := by
  refine Word.ofInt?_eq_some_iff.2 ?_
  exact (Int.zero_add _).symm

theorem neg?_neg? {d : Int32} (h : Word.neg? c = some d) : Word.neg? d = some c := by
  rw [Word.neg?, Word.ofInt?_eq_some_iff] at h ⊢
  omega

/-- The leaves of a sum that was built are its terms with a constant before or after them. -/
theorem sumLeaves_buildSum (h : ∀ t ∈ added ++ subtracted, t.isSum = false) : ∃ before after : List Signed,
    sumLeaves false (buildSum c added subtracted) = before ++ signed added subtracted ++ after ∧
      (∀ t ∈ before ++ after, t.term.asValue?.isSome = true) ∧ constantSum (before ++ after) = some c := by
  have hleaves (start : Option SizeExpr) := leavesSoFar_terms start h
  by_cases hlast : c < 0 ∧ added ≠ []
  · -- The constant stands at the end, subtracted if its opposite is a word.
    obtain ⟨hneg, hne⟩ := hlast
    have hpos : ¬ 0 < c := fun h => Int32.lt_irrefl (Int32.lt_trans h hneg)
    have hplus : (added.foldl plus none).isSome := isSome_foldl_plus (.inr hne)
    obtain ⟨a, ha⟩ := Option.isSome_iff_exists.1 (isSome_foldl_minus subtracted hplus)
    have hbuild : buildSum c added subtracted = addNegative c a := by simp [buildSum, hneg, hne, hpos, ha]
    have hterms : sumLeaves false a = signed added subtracted := by
      have := hleaves none
      rwa [ha] at this
    rw [hbuild, addNegative]
    split
    · next d hd =>
      refine ⟨[], [⟨true, .value d⟩], by simp [sumLeaves, hterms], by simp [asValue?], ?_⟩
      simp [constantSum, constantSum.step, neg?_neg? hd, add?_zero]
    · refine ⟨[], [⟨false, .value c⟩], by simp [sumLeaves, hterms], by simp [asValue?], ?_⟩
      simp [constantSum, constantSum.step, add?_zero]
  · have hend : (decide (c < 0) && !added.isEmpty) = false := by simpa using hlast
    have hconstant : constantSum [⟨false, .value c⟩] = some c := by simp [constantSum, constantSum.step, add?_zero]
    by_cases hstart : (decide (0 < c) || decide (c < 0) && added.isEmpty) = true
    · -- The constant comes first.
      have hplus : (added.foldl plus (some (.value c))).isSome := isSome_foldl_plus (.inl rfl)
      obtain ⟨a, ha⟩ := Option.isSome_iff_exists.1 (isSome_foldl_minus subtracted hplus)
      have hterms := hleaves (some (.value c))
      rw [ha] at hterms
      refine ⟨[⟨false, .value c⟩], [], ?_, by simp [asValue?], hconstant⟩
      simpa [buildSum, hend, hstart, ha, leavesSoFar, sumLeaves] using hterms
    · -- A constant that is left out is zero; it is written only if there is no term at all.
      have hzero : c = 0 := by
        simp [Int32.lt_iff_toInt_lt] at hstart hlast
        refine Int32.toInt_inj.1 (?_ : c.toInt = 0)
        by_cases hc : c.toInt < 0
        · exact absurd (hlast hc) (hstart.2 hc)
        · omega
      have hterms := hleaves none
      cases hacc : subtracted.foldl minus (added.foldl plus none) with
      | none =>
        rw [hacc] at hterms
        refine ⟨[⟨false, .value c⟩], [], ?_, by simp [asValue?], hconstant⟩
        have hnil : signed added subtracted = [] := hterms.symm
        simp [buildSum, hacc, hnil, hzero, sumLeaves]
      | some a =>
        rw [hacc] at hterms
        refine ⟨[], [], ?_, by simp, by rw [hzero]; rfl⟩
        simpa [buildSum, hend, hstart, hacc, leavesSoFar] using hterms

/-- Terms that are left after cancelling. -/
def Apart (added subtracted : List SizeExpr) : Prop := ∀ a ∈ added, ∀ b ∈ subtracted, b.alike a = false

theorem cancelOpposites_of_pairwise {terms : List Signed}
    (h : terms.Pairwise fun t u => (u.negated != t.negated && u.term.alike t.term) = false) :
    cancelOpposites terms = terms := by
  induction terms with
  | nil => rw [cancelOpposites]
  | cons t ts ih =>
    obtain ⟨ht, hts⟩ := List.pairwise_cons.1 h
    have hnone : ts.findIdx? (fun u => u.negated != t.negated && u.term.alike t.term) = none :=
      List.findIdx?_eq_none_iff.2 fun u hu => ht u hu
    rw [cancelOpposites]
    simp only [hnone, ih hts]

theorem cancelOpposites_signed (h : Apart added subtracted) :
    cancelOpposites (signed added subtracted) = signed added subtracted := by
  refine cancelOpposites_of_pairwise (List.pairwise_append.2 ⟨?_, ?_, ?_⟩)
  · exact List.pairwise_map.2 (List.pairwise_of_forall fun _ _ => rfl)
  · exact List.pairwise_map.2 (List.pairwise_of_forall fun _ _ => rfl)
  · simpa [Apart] using h

theorem constantSum_append_of_none {before terms after : List Signed} (h : ∀ t ∈ terms, t.term.asValue? = none) :
    constantSum (before ++ terms ++ after) = constantSum (before ++ after) := by
  have hskip (acc : Option Int32) : terms.foldl constantSum.step acc = acc := by
    induction terms generalizing acc with
    | nil => rfl
    | cons t ts ih =>
      obtain ⟨ht, hts⟩ := List.forall_mem_cons.1 h
      rw [List.foldl_cons, ih hts]
      obtain ⟨negated, term⟩ := t
      cases term <;> simp_all [constantSum.step, asValue?]
  simp only [constantSum, List.foldl_append, hskip]

/-- A sum of atomic terms that are in order and not opposite to each other is rebuilt from its terms. -/
theorem simplifySum_buildSum (whole : SizeExpr) (hatoms : ∀ t ∈ added ++ subtracted, t.isSum = false)
    (hadded : InOrder added) (hsubtracted : InOrder subtracted) (hapart : Apart added subtracted) :
    simplifySum whole (sumLeaves false (buildSum c added subtracted)) = buildSum c added subtracted := by
  obtain ⟨before, after, hleaves, hvalues, hconst⟩ := sumLeaves_buildSum (c := c) hatoms
  have hnone : ∀ t ∈ signed added subtracted, t.term.asValue? = none := by
    intro t ht
    rcases List.mem_append.1 ht with ht | ht <;> obtain ⟨e, he, rfl⟩ := List.mem_map.1 ht <;>
      exact asValue?_of_isSum (hatoms e (by simp [he]))
  have hfilter : (before ++ signed added subtracted ++ after).filter (fun t => t.term.asValue?.isNone) =
      signed added subtracted := by
    obtain ⟨hbefore, hafter⟩ := List.forall_mem_append.1 hvalues
    have hdrop {terms : List Signed} (h : ∀ t ∈ terms, t.term.asValue?.isSome = true) :
        terms.filter (fun t => t.term.asValue?.isNone) = [] :=
      List.filter_eq_nil_iff.2 fun t ht => by simpa [← Option.isSome_iff_ne_none] using h t ht
    rw [List.filter_append, List.filter_append, hdrop hbefore, hdrop hafter,
      List.filter_eq_self.2 fun t ht => by simp [hnone t ht], List.nil_append, List.append_nil]
  have hpositive : ((signed added subtracted).filter (!·.negated)).map (·.term) = added := by
    simp [signed, List.filter_map, Function.comp_def]
  have hnegative : ((signed added subtracted).filter (·.negated)).map (·.term) = subtracted := by
    simp [signed, List.filter_map, Function.comp_def]
  rw [hleaves, simplifySum, constantSum_append_of_none hnone, hconst]
  simp only [hfilter, cancelOpposites_signed hapart, hpositive, hnegative, sortTerms_of_inOrder hadded,
    sortTerms_of_inOrder hsubtracted]

/-- What holds of constants and terms, and of sums and differences of what it holds of and such an operand, holds of
the sum that is built. -/
theorem buildSum_induct {P : SizeExpr → Prop} (hvalue : ∀ v, P (.value v)) (hterm : ∀ t ∈ added, P t)
    (hneg : ∀ t ∈ subtracted, P (.neg t)) (hadd : ∀ a t, P a → t ∈ added ∨ (∃ v, t = .value v) → P (.add a t))
    (hsub : ∀ a t, P a → t ∈ subtracted ∨ (∃ v, t = .value v) → P (.sub a t)) :
    P (buildSum c added subtracted) := by
  have hplus (start : Option SizeExpr) (h : ∀ a ∈ start, P a) : ∀ a ∈ added.foldl plus start, P a := by
    refine List.foldlRecOn added plus (motive := fun acc => ∀ a ∈ acc, P a) h fun acc hacc t ht a ha => ?_
    cases acc <;> cases ha
    · exact hterm t ht
    · exact hadd _ t (hacc _ rfl) (.inl ht)
  have hminus (start : Option SizeExpr) (h : ∀ a ∈ start, P a) : ∀ a ∈ subtracted.foldl minus start, P a := by
    refine List.foldlRecOn subtracted minus (motive := fun acc => ∀ a ∈ acc, P a) h fun acc hacc t ht a ha => ?_
    cases acc <;> cases ha
    · exact hneg t ht
    · exact hsub _ t (hacc _ rfl) (.inl ht)
  have hstart : ∀ a ∈ (if 0 < c || (c < 0 && added.isEmpty) then some (SizeExpr.value c) else none), P a := by
    intro a ha
    split at ha <;> cases ha
    exact hvalue c
  have hacc := hminus _ (hplus _ hstart)
  have hlast : ∀ a, P a → P (addNegative c a) := by
    intro a ha
    unfold addNegative
    split
    · exact hsub a _ ha (.inr ⟨_, rfl⟩)
    · exact hadd a _ ha (.inr ⟨_, rfl⟩)
  have hgetD {acc : Option SizeExpr} (h : ∀ a ∈ acc, P a) : P (acc.getD (.value 0)) := by
    cases acc with
    | none => exact hvalue 0
    | some a => exact h a rfl
  unfold buildSum
  dsimp only
  refine hgetD fun a ha => ?_
  split at ha
  · obtain ⟨b, hb, rfl⟩ := Option.map_eq_some_iff.1 ha
    exact hlast b (hacc b hb)
  · exact hacc a ha

/-- What holds of constants, and of negations, sums and differences of what it holds of, holds of the sum that is built
of such terms. -/
theorem buildSum_of_terms {P : SizeExpr → Prop} (hvalue : ∀ v, P (.value v)) (hneg : ∀ t, P t → P (.neg t))
    (hadd : ∀ a t, P a → P t → P (.add a t)) (hsub : ∀ a t, P a → P t → P (.sub a t))
    (hadded : ∀ t ∈ added, P t) (hsubtracted : ∀ t ∈ subtracted, P t) : P (buildSum c added subtracted) := by
  have hoperand {ts : List SizeExpr} (hts : ∀ t ∈ ts, P t) {t : SizeExpr} (ht : t ∈ ts ∨ ∃ v, t = .value v) : P t := by
    rcases ht with ht | ⟨v, rfl⟩
    · exact hts t ht
    · exact hvalue v
  exact buildSum_induct hvalue hadded (fun t ht => hneg t (hsubtracted t ht))
    (fun a t ha ht => hadd a t ha (hoperand hadded ht)) fun a t ha ht => hsub a t ha (hoperand hsubtracted ht)

/-! ## Products -/

/-- Whether the expression is neither a product nor a constant nor negated, so that it stays a factor. -/
def isFactor : SizeExpr → Bool
  | .mul .. | .value _ | .neg _ => false
  | _ => true

/-- The product of a constant and other factors. -/
def buildProduct (c : Int32) (factors : List SizeExpr) : SizeExpr :=
  if c = 1 then product factors else factors.foldl .mul (.value c)

theorem leaves_of_isFactor (h : e.isFactor = true) : Chain.mul.leaves e = [e] := by
  cases e <;> simp_all [isFactor, Chain.leaves]

theorem leaves_foldl_mul (acc : SizeExpr) (h : ∀ f ∈ es, f.isFactor = true) :
    Chain.mul.leaves (es.foldl .mul acc) = Chain.mul.leaves acc ++ es := by
  induction es generalizing acc with
  | nil => simp
  | cons f fs ih =>
    obtain ⟨hf, hfs⟩ := List.forall_mem_cons.1 h
    simp [ih _ hfs, Chain.leaves, leaves_of_isFactor hf]

theorem leaves_product (h : ∀ f ∈ es, f.isFactor = true) (hne : es ≠ []) : Chain.mul.leaves (product es) = es := by
  cases es with
  | nil => exact absurd rfl hne
  | cons f fs =>
    obtain ⟨hf, hfs⟩ := List.forall_mem_cons.1 h
    rw [product, leaves_foldl_mul f hfs, leaves_of_isFactor hf, List.singleton_append]

theorem mul?_one (c : Int32) : Word.mul? 1 c = some c := by
  refine Word.ofInt?_eq_some_iff.2 ?_
  exact (Int.one_mul _).symm

theorem foldlM_splitFactors (acc : Int32 × List SizeExpr) (h : ∀ f ∈ es, f.isFactor = true) :
    es.foldlM splitFactors.step acc = some (acc.1, acc.2 ++ es) := by
  induction es generalizing acc with
  | nil => simp
  | cons f fs ih =>
    obtain ⟨hf, hfs⟩ := List.forall_mem_cons.1 h
    have hstep : splitFactors.step acc f = some (acc.1, acc.2 ++ [f]) := by
      cases f <;> simp_all [isFactor, splitFactors.step]
    simp [List.foldlM_cons, hstep, ih _ hfs]

/-- A product of a constant and factors in order is rebuilt from its operands. -/
theorem simplifyProduct_buildProduct (whole : SizeExpr) (hzero : c ≠ 0) (hsign : c ≠ -1)
    (h : ∀ f ∈ es, f.isFactor = true) (horder : InOrder es) (hne : c ≠ 1 ∨ es ≠ []) :
    simplifyProduct whole (Chain.mul.leaves (buildProduct c es)) = buildProduct c es := by
  -- Factors that are neither constants nor negated are collected as they are.
  have hsplit : splitFactors (Chain.mul.leaves (buildProduct c es)) = some (c, es) := by
    unfold buildProduct splitFactors
    split
    · next hone =>
      rw [leaves_product h (hne.resolve_left (by simp [hone])), foldlM_splitFactors _ h, hone]
      rfl
    · rw [leaves_foldl_mul _ h]
      simp [Chain.leaves, splitFactors.step, mul?_one, foldlM_splitFactors _ h]
  rw [simplifyProduct, hsplit]
  simp only [sortTerms_of_inOrder horder, hzero, hsign, if_false, buildProduct]

/-! ## Extrema and broadcasts -/

/-- Whether no two operands are alike. -/
abbrev Distinct (es : List SizeExpr) : Prop := es.Pairwise fun a b => a.alike b = false

theorem dedupTerms_of_distinct (h : Distinct es) : dedupTerms es = es := by
  have hfold : ∀ (es kept : List SizeExpr), Distinct (kept ++ es) → es.foldl keepTerm kept = kept ++ es := by
    intro es
    induction es with
    | nil => simp
    | cons e es ih =>
      intro kept h
      have hnew : e.memAlike kept = false := by
        rw [memAlike, List.any_eq_false]
        intro k hk
        have := (List.pairwise_append.1 h).2.2 k hk e (by simp)
        simp [this]
      rw [List.foldl_cons, keepTerm, if_neg (by simp [hnew]), ih _ (by simpa using h)]
      simp
  simpa [dedupTerms] using hfold es [] (by simpa using h)

theorem extremumConstant_of_none {largest : Bool} (acc : Option Int32) (h : ∀ e ∈ es, e.asValue? = none) :
    es.foldl (pickConstant largest) acc = acc := by
  induction es generalizing acc with
  | nil => rfl
  | cons e es ih =>
    obtain ⟨he, hes⟩ := List.forall_mem_cons.1 h
    rw [List.foldl_cons, ih _ hes]
    cases acc <;> simp [pickConstant, he]

/-- A constant that is not dropped and distinct operands in order are the operands of their extremum. -/
theorem extremumOperands_of_inOrder {largest : Bool} {constant : Option Int32} (hvalue : ∀ e ∈ es, e.asValue? = none)
    (horder : InOrder es) (hdistinct : Distinct es) (hkept : ∀ c ∈ constant, drops largest es c = false) :
    extremumOperands drops largest ((constant.map SizeExpr.value).toList ++ es) =
      (constant.map SizeExpr.value).toList ++ es := by
  have hfilter : ((constant.map SizeExpr.value).toList ++ es).filter (fun e => e.asValue?.isNone) = es := by
    have hself : es.filter (fun e => e.asValue?.isNone) = es :=
      List.filter_eq_self.2 fun e he => by simp [hvalue e he]
    rw [List.filter_append, hself]
    cases constant <;> rfl
  have hconst : extremumConstant largest ((constant.map SizeExpr.value).toList ++ es) = constant := by
    rw [extremumConstant, List.foldl_append, extremumConstant_of_none _ hvalue]
    cases constant <;> simp [pickConstant, asValue?]
  have hrest : extremumRest ((constant.map SizeExpr.value).toList ++ es) = es := by
    rw [extremumRest, hfilter, dedupTerms_of_distinct hdistinct, sortTerms_of_inOrder horder]
  rw [extremumOperands, hrest, hconst]
  cases constant with
  | none => rfl
  | some c => simp [Option.filter, hkept c rfl]

/-- Distinct sizes in order, other than 1 and not just one of them fixed, are the operands of their broadcast. -/
theorem simplifyBroadcast_of_inOrder {es : List SizeExpr} (hone : ∀ f ∈ e :: es, f.alike (.value 1) = false)
    (horder : InOrder (e :: es)) (hdistinct : Distinct (e :: es))
    (hfixed : ((e :: es).filter (·.asValue?.isSome)).length ≠ 1) :
    simplifyBroadcast (e :: es) = es.foldl .broadcast e := by
  have hfilter : (e :: es).filter (fun e => !e.alike (.value 1)) = e :: es :=
    List.filter_eq_self.2 fun f hf => by simp [hone f hf]
  unfold simplifyBroadcast
  simp only [hfilter, dedupTerms_of_distinct hdistinct, sortTerms_of_inOrder horder]
  split
  · next fixed heq => simp [heq] at hfixed
  · rfl

/-! ## Quotients -/

/-- Whether dividend and divisor have no factor in common. -/
def Coprime (a b : SizeExpr) : Prop := ∀ e ∈ Chain.mul.leaves a, ∀ d ∈ Chain.mul.leaves b, d.alike e = false

theorem cancelFactors_of_distinct {ds : List SizeExpr} (h : ∀ e ∈ es, ∀ d ∈ ds, d.alike e = false) :
    cancelFactors es ds = (es, ds) := by
  induction es with
  | nil => rw [cancelFactors]
  | cons e es ih =>
    obtain ⟨he, hes⟩ := List.forall_mem_cons.1 h
    have hnone : ds.findIdx? (·.alike e) = none := List.findIdx?_eq_none_iff.2 fun d hd => he d hd
    rw [cancelFactors]
    simp only [hnone, ih hes]

end TensorGraph.SizeExpr
