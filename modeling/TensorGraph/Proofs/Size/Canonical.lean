import TensorGraph.Proofs.Size.Rebuilding

/-!
# Canonical expressions

What simplification aims at: sums without constants but one and without opposite terms, flat products and extrema of
distinct operands in order, quotients of coprime operands. A sum or product whose constants overflow is left as it is.
Main statement: `Canonical.simplifyBy_eq`, canonical expressions are left as they are.
-/

namespace TensorGraph

namespace SizeExpr

/-! ## Where simplification settles -/

/-- Whether the constant factors of a product overflow, so that it is left as it is. -/
def Overflows (drops : DropTest) (e : SizeExpr) : Prop :=
  e.isMul = true ∧ splitFactors (chainTerms drops .mul e) = none

/-- Whether a simplified factor can be taken apart: it is not a product that was left as it is, and what it negates is
neither a product nor a constant. -/
structure Opens (drops : DropTest) (e : SizeExpr) : Prop where
  fits : ¬ e.Overflows drops
  sign : ∀ x, e = .neg x → x.isMul = false ∧ x.asValue? = none

/-- The operands of a quotient without the factors that they have in common. -/
def reduced (a b : SizeExpr) : SizeExpr × SizeExpr :=
  let (num, den) := cancelFactors (Chain.mul.leaves a) (Chain.mul.leaves b)
  if num.length < (Chain.mul.leaves a).length then (product num, product den) else (a, b)

/-- Whether simplified operands can be divided: factors are cancelled only in products that were not left as they are,
and a divisor that two divisors make is not a factor of the dividend. -/
structure Divides (drops : DropTest) (a b : SizeExpr) : Prop where
  fits : (cancelFactors (Chain.mul.leaves a) (Chain.mul.leaves b)).1.length < (Chain.mul.leaves a).length →
    ¬ a.Overflows drops ∧ ¬ b.Overflows drops
  merged : ∀ x c d m, reduced a b = (.div x (.value c), .value d) → 0 < c → 0 < d → Word.mul? c d = some m →
    .value m ∉ Chain.mul.leaves x

/-- Whether simplified factors can be taken apart in every product of an expression, and simplified operands be
divided in every quotient. -/
def Settles (drops : DropTest) : SizeExpr → Prop
  | .value _ | .sym _ => True
  | .neg x => x.Settles drops
  | .add a b | .sub a b | .max a b | .min a b | .broadcast a b => a.Settles drops ∧ b.Settles drops
  | .mul a b => (a.Settles drops ∧ b.Settles drops) ∧
    (a.isMul = false → Opens drops (a.simplifyBy drops)) ∧ (b.isMul = false → Opens drops (b.simplifyBy drops))
  | .div a b => (a.Settles drops ∧ b.Settles drops) ∧ Divides drops (a.simplifyBy drops) (b.simplifyBy drops)

/-! ## Canonical form -/

/-- Expressions in canonical form. -/
inductive Canonical (drops : DropTest) : SizeExpr → Prop
  | value (v : Int32) : Canonical drops (.value v)
  | sym (s : Symbol) : Canonical drops (.sym s)
  | neg {x : SizeExpr} (hx : Canonical drops x) (hneg : ∀ y, x ≠ .neg y)
      (hvalue : ∀ v, x = .value v → Word.neg? v = none) : Canonical drops (.neg x)
  | sum {e : SizeExpr} {c : Int32} {added subtracted : List SizeExpr} (hform : e = buildSum c added subtracted)
      (hroot : e.isAdditive = true) (hterms : ∀ t ∈ added ++ subtracted, Canonical drops t)
      (hatoms : ∀ t ∈ added ++ subtracted, t.isSum = false) (hadded : InOrder added)
      (hsubtracted : InOrder subtracted) (hapart : Apart added subtracted) : Canonical drops e
  | wideSum {e : SizeExpr} (hroot : e.isAdditive = true) (hwide : constantSum (sumTerms drops false e) = none)
      (hsettles : e.Settles drops) : Canonical drops e
  | product {e : SizeExpr} {c : Int32} {factors : List SizeExpr} (hform : e = buildProduct c factors)
      (hroot : e.isMul = true) (hfactors : ∀ f ∈ factors, Canonical drops f)
      (hatoms : ∀ f ∈ factors, f.isFactor = true) (horder : InOrder factors) (hzero : c ≠ 0) (hsign : c ≠ -1) :
      Canonical drops e
  | wideProduct {e : SizeExpr} (hwide : e.Overflows drops) (hsettles : e.Settles drops) : Canonical drops e
  | div {a b : SizeExpr} (ha : Canonical drops a) (hb : Canonical drops b) (hone : b.alike (.value 1) = false)
      (hconstant : constantQuotient? a b = none) (hcoprime : Coprime a b)
      (hmerge : ∀ x c d, a = .div x (.value c) → b = .value d → 0 < c → 0 < d → Word.mul? c d = none) :
      Canonical drops (.div a b)
  | extremum {e first : SizeExpr} {largest : Bool} {constant : Option Int32} {rest others : List SizeExpr}
      (hoperands : (constant.map SizeExpr.value).toList ++ rest = first :: others)
      (hform : e = others.foldl (extremum largest) first) (hothers : others ≠ [])
      (hrest : ∀ r ∈ rest, Canonical drops r) (hleaf : ∀ r ∈ rest, (extremumChain largest).leaves r = [r])
      (hvalue : ∀ r ∈ rest, r.asValue? = none) (horder : InOrder rest) (hdistinct : Distinct rest)
      (hkept : ∀ c ∈ constant, drops largest rest c = false) : Canonical drops e
  | broadcast {e first : SizeExpr} {others : List SizeExpr} (hform : e = others.foldl SizeExpr.broadcast first)
      (hothers : others ≠ []) (hoperands : ∀ r ∈ first :: others, Canonical drops r)
      (hleaf : ∀ r ∈ first :: others, Chain.broadcast.leaves r = [r])
      (hone : ∀ r ∈ first :: others, r.alike (.value 1) = false) (horder : InOrder (first :: others))
      (hdistinct : Distinct (first :: others))
      (hfixed : ((first :: others).filter (·.asValue?.isSome)).length ≠ 1) : Canonical drops e

variable {drops : DropTest} {a b e s x : SizeExpr} {es : List SizeExpr} {c : Int32}

/-! ## Operands that are left as they are -/

theorem simplifyBy_of_isAdditive (h : e.isAdditive = true) :
    e.simplifyBy drops = simplifySum e (sumTerms drops false e) := by
  cases e with
  | add a b => exact simplifyBy_add
  | sub a b => exact simplifyBy_sub
  | _ => cases h

theorem isSum_of_isAdditive (h : e.isAdditive = true) : e.isSum = true := by
  cases e <;> first | rfl | cases h

theorem simplifyBy_of_isMul (h : e.isMul = true) :
    e.simplifyBy drops = simplifyProduct e (chainTerms drops .mul e) := by
  cases e with
  | mul a b => exact simplifyBy_mul
  | _ => cases h

/-- Terms that are simplified already are left as they are. -/
theorem sumTerms_of_fixed {negated : Bool} (he : e.isSum = true) (h : ∀ t ∈ sumLeaves negated e,
    t.term.asValue?.isSome = true ∨ t.term.simplifyBy drops = t.term ∧ t.term.isSum = false) :
    sumTerms drops negated e = sumLeaves negated e := by
  have hopen : ∀ t ∈ sumLeaves negated e, openTerm drops t = [t] := by
    intro t ht
    rcases h t ht with hvalue | ⟨hfixed, hatom⟩
    · rw [openTerm, if_pos hvalue]
    · have hnone := asValue?_of_isSum hatom
      simp [openTerm, hnone, hfixed, hatom]
  rw [sumTerms_eq negated he, List.flatMap_congr hopen, List.flatMap_singleton']

theorem chainTerms_of_fixed {chain : Chain}
    (h : ∀ f ∈ chain.leaves e, f.simplifyBy drops = f ∧ chain.leaves f = [f]) :
    chainTerms drops chain e = chain.leaves e := by
  have hopen : ∀ f ∈ chain.leaves e, chain.leaves (f.simplifyBy drops) = [f] := by
    intro f hf
    rw [(h f hf).1, (h f hf).2]
  rw [chainTerms, List.flatMap_congr hopen, List.flatMap_singleton']

theorem leaves_value (chain : Chain) (v : Int32) : chain.leaves (.value v) = [.value v] := by
  cases chain <;> rfl

theorem leaves_foldl (chain : Chain) (first : SizeExpr) (h : ∀ f ∈ es, chain.leaves f = [f]) :
    chain.leaves (es.foldl chain.apply first) = chain.leaves first ++ es := by
  induction es generalizing first with
  | nil => simp
  | cons f fs ih =>
    obtain ⟨hf, hfs⟩ := List.forall_mem_cons.1 h
    rw [List.foldl_cons, ih _ hfs, Chain.leaves_apply, hf, List.append_assoc, List.singleton_append]

/-- The operands of an extremum that was built are its leaves. -/
theorem leaves_foldl_operands (chain : Chain) {first : SizeExpr} (h : ∀ r ∈ first :: es, chain.leaves r = [r]) :
    chain.leaves (es.foldl chain.apply first) = first :: es := by
  obtain ⟨hfirst, hes⟩ := List.forall_mem_cons.1 h
  rw [leaves_foldl chain first hes, hfirst, List.singleton_append]

theorem mem_operands {constant : Option Int32} (h : e ∈ (constant.map SizeExpr.value).toList ++ es) :
    (∃ v, e = .value v) ∨ e ∈ es := by
  refine (List.mem_append.1 h).imp_left fun h => ?_
  obtain ⟨v, -, rfl⟩ : ∃ v, constant = some v ∧ SizeExpr.value v = e := by simpa using h
  exact ⟨v, rfl⟩

theorem exists_apply_of_foldl (chain : Chain) (first : SizeExpr) (h : es ≠ []) :
    ∃ a b, es.foldl chain.apply first = chain.apply a b := by
  obtain ⟨fs, f, rfl⟩ := (List.eq_nil_or_concat es).resolve_left h
  exact ⟨fs.foldl chain.apply first, f, by simp⟩

theorem exists_extremum_of_foldl (largest : Bool) (first : SizeExpr) (h : es ≠ []) :
    ∃ a b, es.foldl (extremum largest) first = extremum largest a b := by
  rw [← apply_extremumChain]
  exact exists_apply_of_foldl _ first h

/-- The terms of a sum that was built are constants or the terms that it was built from. -/
theorem mem_sumLeaves_buildSum {added subtracted : List SizeExpr} (h : ∀ t ∈ added ++ subtracted, t.isSum = false)
    {t : Signed} (ht : t ∈ sumLeaves false (buildSum c added subtracted)) :
    t.term.asValue?.isSome = true ∨ t.term ∈ added ++ subtracted := by
  obtain ⟨before, after, hleaves, hvalues, -⟩ := sumLeaves_buildSum (c := c) h
  rw [hleaves] at ht
  rcases List.mem_append.1 ht with ht | ht
  · rcases List.mem_append.1 ht with ht | ht
    · exact .inl (hvalues t (by simp [ht]))
    · refine .inr ?_
      rcases List.mem_append.1 ht with ht | ht <;> obtain ⟨u, hu, rfl⟩ := List.mem_map.1 ht <;> simp [hu]
  · exact .inl (hvalues t (by simp [ht]))

theorem mem_leaves_buildProduct (h : ∀ f ∈ es, f.isFactor = true) {f : SizeExpr}
    (hf : f ∈ Chain.mul.leaves (buildProduct c es)) : (∃ v, f = .value v) ∨ f ∈ es := by
  unfold buildProduct at hf
  split at hf
  · by_cases hes : es = []
    · subst hes
      exact .inl ⟨1, List.mem_singleton.1 hf⟩
    · rw [leaves_product h hes] at hf
      exact .inr hf
  · rw [leaves_foldl_mul _ h] at hf
    rcases List.mem_append.1 hf with hf | hf
    · exact .inl ⟨c, List.mem_singleton.1 hf⟩
    · exact .inr hf

/-- Alike expressions have a factor in common. -/
theorem exists_alike_leaves (h : a.alike b = true) :
    ∃ e ∈ Chain.mul.leaves a, ∃ d ∈ Chain.mul.leaves b, d.alike e = true := by
  induction a generalizing b with
  | mul p q ihp ihq =>
    cases b with
    | mul r s =>
      simp only [alike, Bool.or_eq_true, Bool.and_eq_true] at h
      rcases h with ⟨h, -⟩ | ⟨h, -⟩ <;> obtain ⟨e, he, d, hd, halike⟩ := ihp h <;>
        exact ⟨e, List.mem_append_left _ he, d, by simp [Chain.leaves, hd], halike⟩
    | _ => cases h
  | _ =>
    have hb : Chain.mul.leaves b = [b] := by cases b <;> first | rfl | cases h
    refine ⟨_, List.mem_singleton_self _, b, ?_, alike_symm h⟩
    rw [hb]
    exact List.mem_singleton_self b

theorem Coprime.not_alike (h : Coprime a b) : a.alike b = false := by
  rw [Bool.eq_false_iff]
  intro halike
  obtain ⟨e, he, d, hd, hcommon⟩ := exists_alike_leaves halike
  rw [h e he d hd] at hcommon
  cases hcommon

/-! ## Canonical expressions are left as they are -/

theorem reducedQuotient_of_canonical (hone : b.alike (.value 1) = false) (hconstant : constantQuotient? a b = none)
    (hmerge : ∀ x c d, a = .div x (.value c) → b = .value d → 0 < c → 0 < d → Word.mul? c d = none) :
    reducedQuotient a b = .div a b := by
  simp only [reducedQuotient, hone, hconstant, Bool.false_eq_true, if_false]
  split
  · next x c d =>
    split
    · next m hm =>
      split at hm
      · next hpos =>
        simp only [Bool.and_eq_true, decide_eq_true_eq] at hpos
        rw [hmerge x c d rfl rfl hpos.1 hpos.2] at hm
        cases hm
      · cases hm
    · rfl
  · rfl

theorem simplifyQuotient_of_canonical {simp : SizeExpr → SizeExpr} (hone : b.alike (.value 1) = false)
    (hconstant : constantQuotient? a b = none) (hcoprime : Coprime a b)
    (hmerge : ∀ x c d, a = .div x (.value c) → b = .value d → 0 < c → 0 < d → Word.mul? c d = none) :
    simplifyQuotient simp a b = .div a b := by
  simp only [simplifyQuotient, hone, hconstant, hcoprime.not_alike, Bool.and_false, Bool.false_eq_true, if_false,
    cancelFactors_of_distinct hcoprime, Nat.lt_irrefl, reducedQuotient_of_canonical hone hconstant hmerge]

/-- Canonical expressions are left as they are. -/
theorem Canonical.simplifyBy_eq (h : Canonical drops e) : e.simplifyBy drops = e := by
  induction h with
  | value v => rfl
  | sym s => rfl
  | @neg x hx hneg hvalue ih =>
    rw [simplifyBy_neg, ih]
    cases x with
    | value v => simp [negate, hvalue v rfl]
    | neg y => exact absurd rfl (hneg y)
    | _ => rfl
  | @sum e c added subtracted hform hroot hterms hatoms hadded hsubtracted hapart ih =>
    have hfixed : sumTerms drops false e = sumLeaves false e := by
      refine sumTerms_of_fixed (isSum_of_isAdditive hroot) fun t ht => ?_
      rw [hform] at ht
      exact (mem_sumLeaves_buildSum hatoms ht).imp_right fun hmem => ⟨ih _ hmem, hatoms _ hmem⟩
    rw [simplifyBy_of_isAdditive hroot, hfixed, hform, simplifySum_buildSum _ hatoms hadded hsubtracted hapart]
  | wideSum hroot hwide hsettles =>
    rw [simplifyBy_of_isAdditive hroot, simplifySum, hwide]
  | @product e c factors hform hroot hfactors hatoms horder hzero hsign ih =>
    have hfixed : chainTerms drops .mul e = Chain.mul.leaves e := by
      refine chainTerms_of_fixed fun f hf => ?_
      rw [hform] at hf
      rcases mem_leaves_buildProduct hatoms hf with ⟨v, rfl⟩ | hmem
      · exact ⟨rfl, rfl⟩
      · exact ⟨ih f hmem, leaves_of_isFactor (hatoms f hmem)⟩
    have hne : c ≠ 1 ∨ factors ≠ [] := by
      -- The empty product with the constant 1 is no product.
      by_contra hnone
      simp only [not_or, not_not] at hnone
      obtain ⟨rfl, rfl⟩ := hnone
      rw [hform] at hroot
      cases hroot
    rw [simplifyBy_of_isMul hroot, hfixed, hform, simplifyProduct_buildProduct _ hzero hsign hatoms horder hne]
  | wideProduct hwide hsettles =>
    rw [simplifyBy_of_isMul hwide.1, simplifyProduct, hwide.2]
  | div ha hb hone hconstant hcoprime hmerge iha ihb =>
    rw [simplifyBy_div, iha, ihb, simplifyQuotient_of_canonical hone hconstant hcoprime hmerge]
  | @extremum e first largest constant rest others hoperands hform hothers hrest hleaf hvalue horder hdistinct hkept ih =>
    have hfixed : ∀ r ∈ first :: others, r.simplifyBy drops = r ∧ (extremumChain largest).leaves r = [r] := by
      intro r hr
      rw [← hoperands] at hr
      rcases mem_operands hr with ⟨v, rfl⟩ | hr
      · exact ⟨rfl, leaves_value _ v⟩
      · exact ⟨ih r hr, hleaf r hr⟩
    have hleaves : (extremumChain largest).leaves e = first :: others := by
      rw [hform, ← apply_extremumChain, leaves_foldl_operands _ fun r hr => (hfixed r hr).2]
    have hterms : chainTerms drops (extremumChain largest) e = first :: others := by
      rw [chainTerms_of_fixed (by rwa [hleaves]), hleaves]
    obtain ⟨a, b, hroot⟩ := exists_extremum_of_foldl largest first hothers
    rw [← hform] at hroot
    -- The operands are collected as they are, and none is merged or dropped.
    rw [hroot, simplifyBy_extremum, ← hroot, hterms, ← hoperands, simplifyExtremum,
      extremumOperands_of_inOrder hvalue horder hdistinct hkept, hoperands, hform]
  | @broadcast e first others hform hothers hoperands hleaf hone horder hdistinct hfixed ih =>
    have hleaves : Chain.broadcast.leaves e = first :: others := by
      rw [hform]
      exact leaves_foldl_operands .broadcast hleaf
    have hterms : chainTerms drops .broadcast e = first :: others := by
      rw [chainTerms_of_fixed fun f hf => ?_, hleaves]
      rw [hleaves] at hf
      exact ⟨ih f hf, hleaf f hf⟩
    obtain ⟨a, b, hroot⟩ := exists_apply_of_foldl .broadcast first hothers
    obtain hroot : e = .broadcast a b := hform.trans hroot
    rw [hroot, simplifyBy_broadcast, ← hroot, hterms, simplifyBroadcast_of_inOrder hone horder hdistinct hfixed, hform]

/-! ## Canonical expressions settle -/

theorem opens_of_isFactor (h : e.isFactor = true) : Opens drops e := by
  constructor
  · rintro ⟨hmul, -⟩
    cases e <;> simp_all [isFactor, isMul]
  · rintro x rfl
    cases h

theorem opens_value (v : Int32) : Opens drops (.value v) := by
  constructor
  · rintro ⟨hmul, -⟩
    cases hmul
  · rintro x ⟨⟩

/-- A sum that was built settles if its terms do. -/
theorem settles_buildSum {added subtracted : List SizeExpr} (h : ∀ t ∈ added ++ subtracted, t.Settles drops) :
    (buildSum c added subtracted).Settles drops := by
  obtain ⟨hadded, hsubtracted⟩ := List.forall_mem_append.1 h
  exact buildSum_of_terms (fun _ => trivial) (fun _ ht => ht) (fun _ _ ha ht => ⟨ha, ht⟩) (fun _ _ ha ht => ⟨ha, ht⟩)
    hadded hsubtracted

theorem settles_foldl_mul (hs : s.Settles drops) (hopens : s.isMul = false → Opens drops (s.simplifyBy drops))
    (h : ∀ f ∈ es, f.Settles drops ∧ Opens drops (f.simplifyBy drops)) : (es.foldl SizeExpr.mul s).Settles drops := by
  induction es generalizing s with
  | nil => exact hs
  | cons f fs ih =>
    obtain ⟨hf, hfs⟩ := List.forall_mem_cons.1 h
    exact ih ⟨⟨hs, hf.1⟩, hopens, fun _ => hf.2⟩ (fun hmul => by cases hmul) hfs

theorem reduced_of_coprime (h : Coprime a b) : reduced a b = (a, b) := by
  simp [reduced, cancelFactors_of_distinct h]

/-- Canonical expressions settle. -/
theorem Canonical.settles (h : Canonical drops e) : e.Settles drops := by
  induction h with
  | value v => trivial
  | sym s => trivial
  | neg hx hneg hvalue ih => exact ih
  | sum hform hroot hterms hatoms hadded hsubtracted hapart ih =>
    rw [hform]
    exact settles_buildSum ih
  | wideSum hroot hwide hsettles => exact hsettles
  | @product e c factors hform hroot hfactors hatoms horder hzero hsign ih =>
    have hopens : ∀ f ∈ factors, f.Settles drops ∧ Opens drops (f.simplifyBy drops) := by
      intro f hf
      rw [(hfactors f hf).simplifyBy_eq]
      exact ⟨ih f hf, opens_of_isFactor (hatoms f hf)⟩
    rw [hform, buildProduct]
    split
    · cases factors with
      | nil => trivial
      | cons f fs =>
        obtain ⟨hf, hfs⟩ := List.forall_mem_cons.1 hopens
        exact settles_foldl_mul hf.1 (fun _ => hf.2) hfs
    · exact settles_foldl_mul trivial (fun _ => opens_value c) hopens
  | wideProduct hwide hsettles => exact hsettles
  | @div a b ha hb hone hconstant hcoprime hmerge iha ihb =>
    -- The operands are simplified already, and coprime: nothing is cancelled or merged.
    refine ⟨⟨iha, ihb⟩, ?_, ?_⟩ <;> rw [ha.simplifyBy_eq, hb.simplifyBy_eq]
    · intro hlt
      rw [cancelFactors_of_distinct hcoprime] at hlt
      exact absurd hlt (Nat.lt_irrefl _)
    · intro x c d m heq hc hd hm
      rw [reduced_of_coprime hcoprime] at heq
      obtain ⟨hxa, hxb⟩ := Prod.mk.inj heq
      rw [hmerge x c d hxa hxb hc hd] at hm
      cases hm
  | @extremum e first largest constant rest others hoperands hform hothers hrest hleaf hvalue horder hdistinct hkept ih =>
    have hall : ∀ r ∈ first :: others, r.Settles drops := by
      intro r hr
      rw [← hoperands] at hr
      rcases mem_operands hr with ⟨v, rfl⟩ | hr
      · trivial
      · exact ih r hr
    obtain ⟨hfirst, hrest⟩ := List.forall_mem_cons.1 hall
    rw [hform]
    refine List.foldlRecOn others _ (motive := Settles drops) hfirst fun a ha r hr => ?_
    cases largest <;> exact ⟨ha, hrest r hr⟩
  | broadcast hform hothers hoperands hleaf hone horder hdistinct hfixed ih =>
    obtain ⟨hfirst, hrest⟩ := List.forall_mem_cons.1 ih
    rw [hform]
    exact List.foldlRecOn _ _ (motive := Settles drops) hfirst fun a ha r hr => ⟨ha, hrest r hr⟩

end SizeExpr

end TensorGraph
