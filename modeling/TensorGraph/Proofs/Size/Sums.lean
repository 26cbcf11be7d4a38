import Mathlib.Algebra.BigOperators.Group.List.Basic
import Mathlib.Algebra.Ring.Int.Defs
import TensorGraph.Proofs.Size.Terms

/-!
# Simplified sums

A sum means the total of its signed terms (`total_sumLeaves`). Folding the constants, cancelling
opposite terms and sorting keep that total, so `simplifySum` keeps the meaning of a regular sum.
-/

namespace TensorGraph.SizeExpr

variable {ρ : Valuation}

/-- What a term contributes to a sum. -/
def Signed.meaning (ρ : Valuation) (t : Signed) : Int :=
  if t.negated then -t.term.meaning ρ else t.term.meaning ρ

/-- The meaning of a list of signed terms. -/
def total (ρ : Valuation) (terms : List Signed) : Int := (terms.map (Signed.meaning ρ)).sum

/-- Terms that can be added, subtracted and negated. -/
def Summands (ρ : Valuation) (terms : List Signed) : Prop :=
  ∀ t ∈ terms, t.term.Regular ρ ∧ t.term.Negatable ρ

/-! ## Taking sums apart -/

theorem total_append (ts us : List Signed) : total ρ (ts ++ us) = total ρ ts + total ρ us := by
  simp [total]

theorem total_cons (t : Signed) (ts : List Signed) : total ρ (t :: ts) = t.meaning ρ + total ρ ts := by
  simp [total]

theorem total_sumLeaves (negated : Bool) (e : SizeExpr) :
    total ρ (sumLeaves negated e) = Signed.meaning ρ ⟨negated, e⟩ := by
  induction e generalizing negated with
  | neg x ih => cases negated <;> simp [sumLeaves, ih, Signed.meaning, SizeExpr.meaning]
  | add a b iha ihb =>
    cases negated <;> simp [sumLeaves, total_append, iha, ihb, Signed.meaning, SizeExpr.meaning]
    omega
  | sub a b iha ihb =>
    cases negated <;> simp [sumLeaves, total_append, iha, ihb, Signed.meaning, SizeExpr.meaning] <;> omega
  | _ => simp [sumLeaves, total]

theorem summands_sumLeaves (negated : Bool) {e : SizeExpr} (h : e.Regular ρ)
    (hn : e.isSum = true ∨ e.Negatable ρ) : Summands ρ (sumLeaves negated e) := by
  induction e generalizing negated with
  | value v => simpa [sumLeaves, Summands, Regular] using negatable_of_word (ρ := ρ) (e := .value v) rfl
  | neg x ih => exact ih (!negated) h.1 (.inr h.2)
  | add a b iha ihb =>
    refine List.forall_mem_append.2 ⟨iha negated h.1.1 h.2.1, ihb negated h.1.2 h.2.2⟩
  | sub a b iha ihb =>
    refine List.forall_mem_append.2 ⟨iha negated h.1.1 h.2.1, ihb (!negated) h.1.2 h.2.2⟩
  | _ => simpa [sumLeaves, Summands, isSum] using ⟨h, by simpa [isSum] using hn⟩

/-! ## Constants -/

theorem constantStep_eq_some {acc : Option Int32} {t : Signed} {c : Int32}
    (h : constantSum.step acc t = some c) :
    ∃ a, acc = some a ∧ c.toInt = a.toInt + total ρ ([t].filter fun t => t.term.asValue?.isSome) := by
  obtain ⟨negated, term⟩ := t
  cases term with
  | value v =>
    cases acc with
    | none => cases negated <;> simp [constantSum.step] at h
    | some a =>
      refine ⟨a, rfl, ?_⟩
      cases negated with
      | false =>
        have hsum : Word.add? a v = some c := by simpa [constantSum.step] using h
        simpa [asValue?, total, Signed.meaning, meaning] using Word.ofInt?_eq_some_iff.1 hsum
      | true =>
        obtain ⟨w, hw, hsum⟩ : ∃ w, Word.neg? v = some w ∧ Word.add? a w = some c := by
          simpa [constantSum.step, Option.bind_eq_some_iff] using h
        have hneg := Word.ofInt?_eq_some_iff.1 hw
        simpa [asValue?, total, Signed.meaning, meaning, ← hneg] using Word.ofInt?_eq_some_iff.1 hsum
  | _ => exact ⟨c, h, by simp [asValue?, total]⟩

theorem foldl_constantStep {terms : List Signed} {acc : Option Int32} {c : Int32}
    (h : terms.foldl constantSum.step acc = some c) :
    ∃ a, acc = some a ∧ c.toInt = a.toInt + total ρ (terms.filter fun t => t.term.asValue?.isSome) := by
  induction terms generalizing acc with
  | nil => exact ⟨c, h, by simp [total]⟩
  | cons t ts ih =>
    obtain ⟨b, hb, hc⟩ := ih h
    obtain ⟨a, ha, hstep⟩ := constantStep_eq_some (ρ := ρ) hb
    refine ⟨a, ha, ?_⟩
    rw [← List.singleton_append, List.filter_append, total_append]
    omega

theorem constantSum_eq_some {terms : List Signed} {c : Int32} (h : constantSum terms = some c) :
    c.toInt = total ρ (terms.filter fun t => t.term.asValue?.isSome) := by
  obtain ⟨a, ha, hc⟩ := foldl_constantStep h
  cases ha
  exact hc.trans (Int.zero_add _)

theorem total_filter (ρ : Valuation) (p : Signed → Bool) (terms : List Signed) :
    total ρ terms = total ρ (terms.filter p) + total ρ (terms.filter fun t => !p t) := by
  induction terms with
  | nil => rfl
  | cons t ts ih => cases h : p t <;> simp [h, total_cons, ih] <;> omega

/-! ## Opposite terms -/

theorem total_eraseIdx {terms : List Signed} {j : Nat} (h : j < terms.length) :
    total ρ terms = total ρ (terms.eraseIdx j) + terms[j].meaning ρ := by
  induction terms generalizing j with
  | nil => simp at h
  | cons t ts ih =>
    cases j with
    | zero => simp [total_cons, Int.add_comm]
    | succ j =>
      have := ih (Nat.lt_of_succ_lt_succ h)
      simp only [List.eraseIdx_cons_succ, List.getElem_cons_succ, total_cons, this]
      omega

theorem meaning_of_opposite {t u : Signed} (h : (u.negated != t.negated && u.term.alike t.term) = true) :
    t.meaning ρ + u.meaning ρ = 0 := by
  simp only [Bool.and_eq_true, bne_iff_ne] at h
  have hterm := meaning_of_alike (ρ := ρ) h.2
  simp only [Signed.meaning, hterm]
  cases ht : t.negated <;> cases hu : u.negated <;> simp_all

theorem total_cancelOpposites (terms : List Signed) : total ρ (cancelOpposites terms) = total ρ terms := by
  fun_induction cancelOpposites terms with
  | case1 => rfl
  | case2 t ts j hj ih =>
    obtain ⟨hlt, hopp, -⟩ := List.findIdx?_eq_some_iff_getElem.1 hj
    rw [ih, total_cons, total_eraseIdx hlt]
    have := meaning_of_opposite (ρ := ρ) hopp
    omega
  | case3 t ts hnone ih => rw [total_cons, total_cons, ih]

theorem cancelOpposites_subset (terms : List Signed) : cancelOpposites terms ⊆ terms := by
  fun_induction cancelOpposites terms with
  | case1 => simp
  | case2 t ts j hj ih => exact fun u hu => List.mem_cons_of_mem _ (List.mem_of_mem_eraseIdx (ih hu))
  | case3 t ts hnone ih => exact List.cons_subset_cons _ ih

/-! ## Building sums -/

/-- A sum that may still be empty, with its value so far. -/
def Accumulates (ρ : Valuation) (acc : Option SizeExpr) (x : Int) : Prop :=
  match acc with
  | none => x = 0
  | some a => a.Regular ρ ∧ (a.isSum = true ∨ a.Negatable ρ) ∧ a.meaning ρ = x

theorem Accumulates.plus {acc : Option SizeExpr} {x : Int} {t : SizeExpr} (h : Accumulates ρ acc x)
    (ht : t.Regular ρ ∧ t.Negatable ρ) : Accumulates ρ (plus acc t) (x + t.meaning ρ) := by
  cases acc with
  | none => exact ⟨ht.1, .inr ht.2, by rw [h, Int.zero_add]⟩
  | some a => exact ⟨⟨⟨h.1, ht.1⟩, h.2.1, .inr ht.2⟩, .inl rfl, by rw [meaning, h.2.2]⟩

theorem Accumulates.minus {acc : Option SizeExpr} {x : Int} {t : SizeExpr} (h : Accumulates ρ acc x)
    (ht : t.Regular ρ ∧ t.Negatable ρ) : Accumulates ρ (minus acc t) (x - t.meaning ρ) := by
  cases acc with
  | none => exact ⟨ht, .inl rfl, by rw [h, meaning, Int.zero_sub]⟩
  | some a => exact ⟨⟨⟨h.1, ht.1⟩, h.2.1, .inr ht.2⟩, .inl rfl, by rw [meaning, h.2.2]⟩

theorem Accumulates.foldl_plus {acc : Option SizeExpr} {x : Int} {ts : List SizeExpr}
    (h : Accumulates ρ acc x) (hts : ∀ t ∈ ts, t.Regular ρ ∧ t.Negatable ρ) :
    Accumulates ρ (ts.foldl SizeExpr.plus acc) (x + (ts.map (meaning ρ)).sum) := by
  induction ts generalizing acc x with
  | nil => simpa using h
  | cons t ts ih =>
    rw [List.forall_mem_cons] at hts
    rw [List.map_cons, List.sum_cons, ← Int.add_assoc]
    exact ih (h.plus hts.1) hts.2

theorem Accumulates.foldl_minus {acc : Option SizeExpr} {x : Int} {ts : List SizeExpr}
    (h : Accumulates ρ acc x) (hts : ∀ t ∈ ts, t.Regular ρ ∧ t.Negatable ρ) :
    Accumulates ρ (ts.foldl SizeExpr.minus acc) (x - (ts.map (meaning ρ)).sum) := by
  induction ts generalizing acc x with
  | nil => simpa using h
  | cons t ts ih =>
    rw [List.forall_mem_cons] at hts
    rw [List.map_cons, List.sum_cons, ← Int.sub_sub]
    exact ih (h.minus hts.1) hts.2

theorem Accumulates.addNegative {a : SizeExpr} {x : Int} (h : Accumulates ρ (some a) x) (c : Int32) :
    Accumulates ρ (some (addNegative c a)) (x + c.toInt) := by
  have hword (w : Int32) : (SizeExpr.value w).Negatable ρ := negatable_of_word rfl
  unfold SizeExpr.addNegative
  split
  · next w hw =>
    refine ⟨⟨⟨h.1, trivial⟩, h.2.1, .inr (hword w)⟩, .inl rfl, ?_⟩
    rw [meaning, meaning, h.2.2, Word.ofInt?_eq_some_iff.1 hw]
    omega
  · exact ⟨⟨⟨h.1, trivial⟩, h.2.1, .inr (hword c)⟩, .inl rfl, by rw [meaning, meaning, h.2.2]⟩

theorem Accumulates.getD {acc : Option SizeExpr} {x : Int} (h : Accumulates ρ acc x) :
    (acc.getD (.value 0)).Regular ρ ∧ (acc.getD (.value 0)).meaning ρ = x := by
  cases acc with
  | none => exact ⟨trivial, h.symm⟩
  | some a => exact ⟨h.1, h.2.2⟩

theorem isSome_foldl_plus {acc : Option SizeExpr} {ts : List SizeExpr} (h : acc.isSome ∨ ts ≠ []) :
    (ts.foldl SizeExpr.plus acc).isSome := by
  induction ts generalizing acc with
  | nil => simpa using h
  | cons t ts ih => exact ih (.inl rfl)

theorem isSome_foldl_minus {acc : Option SizeExpr} (ts : List SizeExpr) (h : acc.isSome) :
    (ts.foldl SizeExpr.minus acc).isSome := by
  induction ts generalizing acc with
  | nil => exact h
  | cons t ts ih => exact ih rfl

theorem buildSum_spec (constant : Int32) {added subtracted : List SizeExpr}
    (hadded : ∀ x ∈ added, x.Regular ρ ∧ x.Negatable ρ)
    (hsubtracted : ∀ x ∈ subtracted, x.Regular ρ ∧ x.Negatable ρ) :
    (buildSum constant added subtracted).Regular ρ ∧
    (buildSum constant added subtracted).meaning ρ =
      constant.toInt + (added.map (meaning ρ)).sum - (subtracted.map (meaning ρ)).sum := by
  by_cases hlast : constant < 0 ∧ added ≠ []
  · obtain ⟨hneg, hne⟩ := hlast
    have hpos : ¬ 0 < constant := fun h => Int32.lt_irrefl (Int32.lt_trans h hneg)
    have hbuild : buildSum constant added subtracted =
        ((subtracted.foldl SizeExpr.minus (added.foldl SizeExpr.plus none)).map
          (SizeExpr.addNegative constant)).getD (.value 0) := by
      simp [buildSum, hneg, hne, hpos]
    have hstart : Accumulates ρ none 0 := rfl
    have hacc := (hstart.foldl_plus hadded).foldl_minus hsubtracted
    have hplus : (added.foldl SizeExpr.plus none).isSome := isSome_foldl_plus (.inr hne)
    obtain ⟨a, ha⟩ := Option.isSome_iff_exists.1 (isSome_foldl_minus subtracted hplus)
    rw [ha] at hacc hbuild
    rw [hbuild]
    have h := (hacc.addNegative constant).getD
    exact ⟨h.1, h.2.trans (by omega)⟩
  · have hbuild : buildSum constant added subtracted =
        (subtracted.foldl SizeExpr.minus (added.foldl SizeExpr.plus
          (if 0 < constant || (constant < 0 && added.isEmpty) then some (.value constant) else none))).getD
          (.value 0) := by
      have : (decide (constant < 0) && !added.isEmpty) = false := by simpa using hlast
      simp [buildSum, this]
    have hstart : Accumulates ρ
        (if 0 < constant || (constant < 0 && added.isEmpty) then some (.value constant) else none)
        constant.toInt := by
      split
      · exact ⟨trivial, .inr (negatable_of_word rfl), rfl⟩
      · next h =>
        simp [Int32.lt_iff_toInt_lt] at h hlast
        change constant.toInt = 0
        by_cases hc : constant.toInt < 0
        · exact absurd (hlast hc) (h.2 hc)
        · omega
    rw [hbuild]
    exact ((hstart.foldl_plus hadded).foldl_minus hsubtracted).getD

/-! ## Simplified sums -/

theorem total_added (terms : List Signed) : total ρ (terms.filter fun t => !t.negated) =
    (((terms.filter fun t => !t.negated).map (·.term)).map (meaning ρ)).sum := by
  induction terms with
  | nil => rfl
  | cons t ts ih => cases h : t.negated <;> simp [h, total_cons, ih, Signed.meaning]

theorem total_subtracted (terms : List Signed) : total ρ (terms.filter fun t => t.negated) =
    -(((terms.filter fun t => t.negated).map (·.term)).map (meaning ρ)).sum := by
  induction terms with
  | nil => rfl
  | cons t ts ih =>
    cases h : t.negated <;> simp [h, total_cons, ih, Signed.meaning]
    omega

theorem sum_sortTerms (es : List SizeExpr) :
    ((sortTerms es).map (meaning ρ)).sum = (es.map (meaning ρ)).sum :=
  ((sortTerms_perm es).map _).sum_eq

theorem simplifySum_spec {whole : SizeExpr} {terms : List Signed} (hwhole : whole.Regular ρ)
    (hterms : Summands ρ terms) (htotal : total ρ terms = whole.meaning ρ) :
    (simplifySum whole terms).Regular ρ ∧ (simplifySum whole terms).meaning ρ = whole.meaning ρ := by
  unfold simplifySum
  split
  · exact ⟨hwhole, rfl⟩
  · next c hc =>
    dsimp only
    generalize hrest : cancelOpposites (terms.filter fun t => t.term.asValue?.isNone) = rest
    have hsubset : rest ⊆ terms := by
      subst hrest
      exact fun t ht => (List.mem_filter.1 (cancelOpposites_subset _ ht)).1
    have hgood (p : Signed → Bool) :
        ∀ x ∈ sortTerms ((rest.filter p).map (·.term)), x.Regular ρ ∧ x.Negatable ρ := by
      intro x hx
      obtain ⟨t, ht, rfl⟩ := List.mem_map.1 ((sortTerms_perm _).mem_iff.1 hx)
      exact hterms t (hsubset (List.mem_filter.1 ht).1)
    have hvalue : c.toInt + total ρ rest = whole.meaning ρ := by
      have hnone : (fun t : Signed => !t.term.asValue?.isSome) = fun t => t.term.asValue?.isNone := by
        funext t
        cases t.term.asValue? <;> rfl
      rw [← htotal, total_filter ρ (fun t => t.term.asValue?.isSome) terms, hnone, constantSum_eq_some hc,
        ← hrest, total_cancelOpposites]
    have hsigns := total_filter ρ (fun t => t.negated) rest
    rw [total_added, total_subtracted] at hsigns
    have hbuild := buildSum_spec c (hgood fun t => !t.negated) (hgood fun t => t.negated)
    refine ⟨hbuild.1, hbuild.2.trans ?_⟩
    rw [sum_sortTerms, sum_sortTerms, ← hvalue, hsigns]
    omega

end TensorGraph.SizeExpr
