import Mathlib.Data.List.Pairwise
import Mathlib.Data.List.Perm.Basic
import TensorGraph.Proofs.Size.Terms
import TensorGraph.Proofs.Size.Sums

/-!
# Linear size expressions

Sums and differences of symbols and constants have a normal form. Cancelling opposite terms leaves each symbol
with one sign only (`count_leftTerms`), as often as its coefficient says (`count_of_coefficient`), and sorting puts
the symbols in the one order of their names. So two such expressions simplify alike exactly if they have the same
coefficients and the same constant term (`alike_simplify_iff`).
-/

namespace TensorGraph.SizeExpr

/-! ## Coefficients -/

/-- Whether the expression is built from constants and symbols by sums, differences and negations. -/
def Linear : SizeExpr → Prop
  | .value _ | .sym _ => True
  | .neg x => x.Linear
  | .add a b | .sub a b => a.Linear ∧ b.Linear
  | _ => False

/-- Whether the outermost operator adds or subtracts. -/
def isAdditive : SizeExpr → Bool
  | .add .. | .sub .. => true
  | _ => false

/-- How often a symbol is added, less how often it is subtracted. -/
def coefficient (name : String) : SizeExpr → Int
  | .sym s => if s.name = name then 1 else 0
  | .neg x => -x.coefficient name
  | .add a b => a.coefficient name + b.coefficient name
  | .sub a b => a.coefficient name - b.coefficient name
  | _ => 0

/-- The constants that are added, less those that are subtracted. -/
def constantTerm : SizeExpr → Int
  | .value v => v.toInt
  | .neg x => -x.constantTerm
  | .add a b => a.constantTerm + b.constantTerm
  | .sub a b => a.constantTerm - b.constantTerm
  | _ => 0

/-- The absolute values of the constants, added up. -/
def constantWeight : SizeExpr → Nat
  | .value v => v.toInt.natAbs
  | .neg x => x.constantWeight
  | .add a b | .sub a b => a.constantWeight + b.constantWeight
  | _ => 0

/-- The symbol with the given name is 1, all others are 0. -/
def unitValuation (name : String) : Valuation := fun n => some (if n = name then 1 else 0)

def zeroValuation : Valuation := fun _ => some 0

theorem meaning_zero {e : SizeExpr} (h : e.Linear) : e.meaning zeroValuation = e.constantTerm := by
  induction e with
  | value v => rfl
  | sym s => rfl
  | neg x ih => rw [meaning, ih h, constantTerm]
  | add a b iha ihb => rw [meaning, iha h.1, ihb h.2, constantTerm]
  | sub a b iha ihb => rw [meaning, iha h.1, ihb h.2, constantTerm]
  | _ => exact h.elim

theorem meaning_unit {e : SizeExpr} (h : e.Linear) (name : String) :
    e.meaning (unitValuation name) = e.constantTerm + e.coefficient name := by
  induction e with
  | value v => exact (Int.add_zero _).symm
  | sym s => exact (Int.zero_add _).symm
  | neg x ih =>
    rw [meaning, ih h, constantTerm, coefficient]
    omega
  | add a b iha ihb =>
    rw [meaning, iha h.1, ihb h.2, constantTerm, coefficient]
    omega
  | sub a b iha ihb =>
    rw [meaning, iha h.1, ihb h.2, constantTerm, coefficient]
    omega
  | _ => exact h.elim

/-! ## Terms of linear expressions -/

/-- Whether a term is a constant or a symbol. -/
def IsAtom : SizeExpr → Prop
  | .value _ | .sym _ => True
  | _ => False

theorem atoms_sumLeaves (negated : Bool) {e : SizeExpr} (h : e.Linear) :
    ∀ t ∈ sumLeaves negated e, t.term.IsAtom := by
  induction e generalizing negated with
  | value v => simp [sumLeaves, IsAtom]
  | sym s => simp [sumLeaves, IsAtom]
  | neg x ih => exact ih (!negated) h
  | add a b iha ihb => exact List.forall_mem_append.2 ⟨iha negated h.1, ihb negated h.2⟩
  | sub a b iha ihb => exact List.forall_mem_append.2 ⟨iha negated h.1, ihb (!negated) h.2⟩
  | _ => exact h.elim

/-- The weight of the constants among the terms. -/
def weight : List Signed → Nat
  | [] => 0
  | t :: ts => t.term.constantWeight + weight ts

theorem weight_append (ts us : List Signed) : weight (ts ++ us) = weight ts + weight us := by
  induction ts with
  | nil => simp [weight]
  | cons t ts ih => rw [List.cons_append, weight, ih, weight, Nat.add_assoc]

theorem weight_sumLeaves (negated : Bool) {e : SizeExpr} (h : e.Linear) :
    weight (sumLeaves negated e) = e.constantWeight := by
  induction e generalizing negated with
  | value v => simp [sumLeaves, weight]
  | sym s => simp [sumLeaves, weight]
  | neg x ih => exact ih (!negated) h
  | add a b iha ihb => rw [sumLeaves, weight_append, iha negated h.1, ihb negated h.2, constantWeight]
  | sub a b iha ihb => rw [sumLeaves, weight_append, iha negated h.1, ihb (!negated) h.2, constantWeight]
  | _ => exact h.elim

theorem exists_ofInt? {x : Int} (h : x.natAbs ≤ 2147483647) : ∃ w, Word.ofInt? x = some w ∧ w.toInt = x := by
  have hsome : Word.ofInt? x = some (Int32.ofInt x) := if_pos (by omega)
  exact ⟨_, hsome, Word.ofInt?_eq_some_iff.1 hsome⟩

/-- A constant can be added if all constants together are small. -/
theorem exists_constantStep {a : Int32} {t : Signed} (h : a.toInt.natAbs + t.term.constantWeight ≤ 2147483647) :
    ∃ c, constantSum.step (some a) t = some c ∧
      c.toInt.natAbs ≤ a.toInt.natAbs + t.term.constantWeight := by
  obtain ⟨negated, term⟩ := t
  cases term with
  | value v =>
    simp only [constantWeight] at h ⊢
    cases negated with
    | false =>
      obtain ⟨c, hc, hval⟩ := exists_ofInt? (x := a.toInt + v.toInt) (by omega)
      exact ⟨c, hc, by omega⟩
    | true =>
      obtain ⟨w, hw, hneg⟩ := exists_ofInt? (x := -v.toInt) (by omega)
      obtain ⟨c, hc, hval⟩ := exists_ofInt? (x := a.toInt + w.toInt) (by omega)
      refine ⟨c, ?_, by omega⟩
      change (Word.neg? v).bind (Word.add? a) = some c
      rw [Word.neg?, hw]
      exact hc
  | _ => exact ⟨a, rfl, Nat.le_add_right _ _⟩

theorem exists_constantSum {terms : List Signed} (h : weight terms ≤ 2147483647) :
    ∃ c, constantSum terms = some c := by
  have hfold : ∀ (ts : List Signed) (a : Int32), a.toInt.natAbs + weight ts ≤ 2147483647 →
      ∃ c, ts.foldl constantSum.step (some a) = some c := by
    intro ts
    induction ts with
    | nil => exact fun a _ => ⟨a, rfl⟩
    | cons t ts ih =>
      intro a ha
      rw [weight] at ha
      obtain ⟨c, hc, hle⟩ := exists_constantStep (a := a) (t := t) (by omega)
      rw [List.foldl_cons, hc]
      exact ih c (by omega)
  exact hfold terms 0 (by simpa using h)

/-! ## The terms that are left -/

/-- No later term cancels an earlier one that is left. -/
theorem pairwise_cancelOpposites (terms : List Signed) : (cancelOpposites terms).Pairwise fun t u =>
    (u.negated != t.negated && u.term.alike t.term) = false := by
  fun_induction cancelOpposites terms with
  | case1 => exact .nil
  | case2 t ts j hj ih => exact ih
  | case3 t ts hnone ih =>
    refine .cons (fun u hu => ?_) ih
    have hu := List.findIdx?_eq_none_iff.1 hnone u (cancelOpposites_subset ts hu)
    simpa using hu

/-- No two terms that are left after cancelling are opposite. -/
theorem not_opposite_of_mem {terms : List Signed} {t u : Signed} (ht : t ∈ cancelOpposites terms)
    (hu : u ∈ cancelOpposites terms) : (u.negated != t.negated && u.term.alike t.term) = false := by
  let apart (t u : Signed) : Prop := (u.negated != t.negated && u.term.alike t.term) = false
  have hsymm : Std.Symm apart := ⟨fun t u h => by simpa only [apart, alike_comm, bne_comm] using h⟩
  have hself : ∀ t ∈ cancelOpposites terms, apart t t := fun t _ => by simp [apart]
  exact (pairwise_cancelOpposites terms).forall_of_forall hself ht hu

/-- The terms of an expression that no other cancels, without the constants. -/
def leftTerms (e : SizeExpr) : List Signed :=
  cancelOpposites ((sumLeaves false e).filter fun t => t.term.asValue?.isNone)

/-- The terms that are left with the given sign, in order. -/
def signedTerms (negated : Bool) (e : SizeExpr) : List SizeExpr :=
  sortTerms ((e.leftTerms.filter (·.negated == negated)).map (·.term))

variable {e : SizeExpr}

theorem leftTerms_sym (h : e.Linear) : ∀ t ∈ e.leftTerms, ∃ s, t.term = .sym s := by
  intro t ht
  obtain ⟨hmem, hvalue⟩ := List.mem_filter.1 (cancelOpposites_subset _ ht)
  have hatom := atoms_sumLeaves false h t hmem
  cases hterm : t.term with
  | sym s => exact ⟨s, rfl⟩
  | value v => simp [hterm, asValue?] at hvalue
  | _ => simp [hterm, IsAtom] at hatom

theorem total_leftTerms {ρ : Valuation} {c : Int32} (hc : constantSum (sumLeaves false e) = some c) :
    c.toInt + total ρ e.leftTerms = e.meaning ρ := by
  have hnone : (fun t : Signed => !t.term.asValue?.isSome) = fun t => t.term.asValue?.isNone := by
    funext t
    cases t.term.asValue? <;> rfl
  have htotal := total_sumLeaves (ρ := ρ) false e
  rw [total_filter _ fun t => t.term.asValue?.isSome, ← constantSum_eq_some hc, hnone] at htotal
  rw [leftTerms, total_cancelOpposites]
  exact htotal

theorem total_zero (h : e.Linear) : total zeroValuation e.leftTerms = 0 := by
  have hzero : ∀ t ∈ e.leftTerms, t.meaning zeroValuation = 0 := by
    intro t ht
    obtain ⟨s, hs⟩ := leftTerms_sym h t ht
    simp [Signed.meaning, hs, meaning, zeroValuation]
  rw [total, List.map_congr_left hzero]
  simp

/-- The terms of a linear expression are simplified already. -/
theorem sumTermsN_linear (h : e.Linear) (n : Nat) :
    sumTermsN boundsDominate (n + 1) false e = sumLeaves false e := by
  have hleaf : ∀ t ∈ sumLeaves false e,
      (if t.term.asValue?.isSome then [t]
        else if (simplifyN boundsDominate n t.term).isSum then
          sumTermsN boundsDominate n t.negated (simplifyN boundsDominate n t.term)
        else [⟨t.negated, simplifyN boundsDominate n t.term⟩]) = [t] := by
    intro t ht
    have hatom := atoms_sumLeaves false h t ht
    obtain ⟨negated, term⟩ := t
    cases term with
    | value v => rfl
    | sym s => cases n <;> simp [simplifyN, isSum, asValue?]
    | _ => exact hatom.elim
  rw [sumTermsN, List.flatMap_congr hleaf, List.flatMap_singleton']

/-- A linear expression simplifies to the sum of its constant term and the terms that are left. -/
theorem simplify_linear (h : e.Linear) (hadd : e.isAdditive = true) (hweight : e.constantWeight ≤ 2147483647) :
    ∃ c : Int32, c.toInt = e.constantTerm ∧ e.simplify = buildSum c (e.signedTerms false) (e.signedTerms true) ∧
      ∀ name, total (unitValuation name) e.leftTerms = e.coefficient name := by
  obtain ⟨c, hc⟩ : ∃ c, constantSum (sumLeaves false e) = some c :=
    exists_constantSum (by rwa [weight_sumLeaves false h])
  -- Where all symbols are zero, an expression means its constant term.
  have hconst : c.toInt = e.constantTerm := by
    rw [← meaning_zero h, ← total_leftTerms hc, total_zero h, Int.add_zero]
  have hsimp : e.simplify = simplifySum e (sumLeaves false e) := by
    cases e with
    | add a b => exact congrArg (simplifySum _) (sumTermsN_linear h _)
    | sub a b => exact congrArg (simplifySum _) (sumTermsN_linear h _)
    | _ => cases hadd
  refine ⟨c, hconst, ?_, fun name => ?_⟩
  · rw [hsimp, simplifySum, hc]
    simp [signedTerms, leftTerms]
  · have hunit := total_leftTerms (ρ := unitValuation name) hc
    rw [meaning_unit h, hconst] at hunit
    omega

/-! ## Counting symbols -/

/-- The name of a symbol. -/
def symbolName : SizeExpr → String
  | .sym s => s.name
  | _ => ""

/-- The names of the terms with the given sign. -/
def namesOf (negated : Bool) (terms : List Signed) : List String :=
  ((terms.filter (·.negated == negated)).map (·.term)).map symbolName

theorem total_unit {terms : List Signed} (h : ∀ t ∈ terms, ∃ s, t.term = .sym s) (name : String) :
    total (unitValuation name) terms =
      ((namesOf false terms).count name : Int) - ((namesOf true terms).count name : Int) := by
  induction terms with
  | nil => rfl
  | cons t ts ih =>
    obtain ⟨⟨s, hs⟩, hts⟩ := List.forall_mem_cons.1 h
    have ih := ih hts
    simp only [namesOf] at ih ⊢
    obtain ⟨negated, term⟩ := t
    cases hs
    rw [total_cons, ih]
    by_cases hname : s.name = name <;> cases negated <;>
      simp [Signed.meaning, meaning, unitValuation, symbolName, hname] <;> omega

theorem exists_mem_of_count {negated : Bool} {terms : List Signed} {name : String}
    (h : (namesOf negated terms).count name ≠ 0) :
    ∃ t ∈ terms, t.negated = negated ∧ symbolName t.term = name := by
  have hmem : name ∈ namesOf negated terms := List.count_pos_iff.1 (Nat.pos_of_ne_zero h)
  obtain ⟨e, he, hname⟩ := List.mem_map.1 hmem
  obtain ⟨t, ht, rfl⟩ := List.mem_map.1 he
  obtain ⟨ht, hsign⟩ := List.mem_filter.1 ht
  exact ⟨t, ht, eq_of_beq hsign, hname⟩

/-- Of a symbol, only terms with one sign are left. -/
theorem count_leftTerms (h : e.Linear) (name : String) :
    (namesOf false e.leftTerms).count name = 0 ∨ (namesOf true e.leftTerms).count name = 0 := by
  by_contra hboth
  obtain ⟨hadded, hsubtracted⟩ := not_or.1 hboth
  obtain ⟨t, ht, htsign, htname⟩ := exists_mem_of_count hadded
  obtain ⟨u, hu, husign, huname⟩ := exists_mem_of_count hsubtracted
  -- An added and a subtracted term of one symbol would have been cancelled.
  have happart := not_opposite_of_mem ht hu
  obtain ⟨s, hs⟩ := leftTerms_sym h t ht
  obtain ⟨s', hs'⟩ := leftTerms_sym h u hu
  rw [hs] at htname
  rw [hs'] at huname
  simp only [symbolName] at htname huname
  simp [hs, hs', alike, htsign, husign, htname, huname] at happart

/-- With each sign, a symbol is left as often as its coefficient says. -/
theorem count_of_coefficient (h : e.Linear) {name : String} {k : Int}
    (hk : total (unitValuation name) e.leftTerms = k) :
    (namesOf false e.leftTerms).count name = k.toNat ∧ (namesOf true e.leftTerms).count name = (-k).toNat := by
  have hcount := total_unit (leftTerms_sym h) name
  rcases count_leftTerms h name with hzero | hzero <;> omega

/-! ## The normal form -/

theorem signedTerms_sym (h : e.Linear) (negated : Bool) : ∀ t ∈ e.signedTerms negated, ∃ s, t = .sym s := by
  intro t ht
  obtain ⟨u, hu, rfl⟩ := List.mem_map.1 ((sortTerms_perm _).mem_iff.1 ht)
  exact leftTerms_sym h u (List.mem_filter.1 hu).1

/-- The names of the terms with a sign are in order, each as often as it is left. -/
theorem names_signedTerms (h : e.Linear) (negated : Bool) :
    ((e.signedTerms negated).map symbolName).Perm (namesOf negated e.leftTerms) ∧
      ((e.signedTerms negated).map symbolName).Pairwise (· ≤ ·) := by
  refine ⟨(sortTerms_perm _).map _, List.pairwise_map.2 ?_⟩
  refine (pairwise_sortTerms _).imp_of_mem fun {x y} hx hy hle => ?_
  obtain ⟨s, rfl⟩ := signedTerms_sym h negated x hx
  obtain ⟨t, rfl⟩ := signedTerms_sym h negated y hy
  simpa [termLe, symbolName] using hle

theorem forall₂_alike_of_names {es fs : List SizeExpr} (hes : ∀ t ∈ es, ∃ s, t = .sym s)
    (hfs : ∀ t ∈ fs, ∃ s, t = .sym s) (h : es.map symbolName = fs.map symbolName) :
    List.Forall₂ (fun x y => x.alike y = true) es fs := by
  induction es generalizing fs with
  | nil =>
    cases fs with
    | nil => exact .nil
    | cons f fs => cases h
  | cons e es ih =>
    cases fs with
    | nil => cases h
    | cons f fs =>
      obtain ⟨⟨s, rfl⟩, hes'⟩ := List.forall_mem_cons.1 hes
      obtain ⟨⟨t, rfl⟩, hfs'⟩ := List.forall_mem_cons.1 hfs
      obtain ⟨hname, hrest⟩ := List.cons.inj h
      exact .cons (beq_iff_eq.2 hname) (ih hes' hfs' hrest)

variable {acc acc' : Option SizeExpr} {es fs : List SizeExpr}

/-- Two sums so far that are both empty or alike. -/
abbrev AlikeSums : Option SizeExpr → Option SizeExpr → Prop := Option.Rel fun x y => x.alike y = true

theorem AlikeSums.plus {x y : SizeExpr} (h : AlikeSums acc acc') (he : x.alike y = true) :
    AlikeSums (plus acc x) (plus acc' y) := by
  cases h with
  | none => exact .some he
  | some h => exact .some (by simp [alike, h, he])

theorem AlikeSums.minus {x y : SizeExpr} (h : AlikeSums acc acc') (he : x.alike y = true) :
    AlikeSums (minus acc x) (minus acc' y) := by
  cases h with
  | none => exact .some he
  | some h => exact .some (by simp [alike, h, he])

theorem AlikeSums.foldl {step : Option SizeExpr → SizeExpr → Option SizeExpr}
    (hstep : ∀ {acc acc' x y}, AlikeSums acc acc' → x.alike y = true → AlikeSums (step acc x) (step acc' y))
    (h : AlikeSums acc acc') (hes : List.Forall₂ (fun x y => x.alike y = true) es fs) :
    AlikeSums (es.foldl step acc) (fs.foldl step acc') := by
  induction hes generalizing acc acc' with
  | nil => exact h
  | cons he _ ih => exact ih (hstep h he)

theorem alike_addNegative (c : Int32) {a b : SizeExpr} (h : a.alike b = true) :
    (addNegative c a).alike (addNegative c b) = true := by
  unfold addNegative
  split <;> simp [alike, h]

theorem alike_buildSum (c : Int32) {added added' subtracted subtracted' : List SizeExpr}
    (hadded : List.Forall₂ (fun x y => x.alike y = true) added added')
    (hsubtracted : List.Forall₂ (fun x y => x.alike y = true) subtracted subtracted') :
    (buildSum c added subtracted).alike (buildSum c added' subtracted') = true := by
  have hempty : added.isEmpty = added'.isEmpty := by cases hadded <;> rfl
  have hstart (b : Bool) : AlikeSums (if b then some (.value c) else none) (if b then some (.value c) else none) := by
    cases b
    · exact .none
    · exact .some (alike_refl _)
  have hacc := AlikeSums.foldl .minus (.foldl .plus (hstart (0 < c || (c < 0 && added'.isEmpty))) hadded) hsubtracted
  unfold buildSum
  simp only [hempty]
  generalize subtracted.foldl minus _ = sum at hacc ⊢
  generalize subtracted'.foldl minus _ = sum' at hacc ⊢
  cases hacc with
  | none => split <;> exact alike_refl _
  | some hacc =>
    split
    · exact alike_addNegative c hacc
    · exact hacc

/-- The sum of the terms that are left means what they mean together, where symbols have small values. -/
theorem meaning_buildSum {ρ : Valuation} (hρ : ∀ name, ∃ x, ρ name = some x ∧ x < 2147483648) (h : e.Linear)
    (c : Int32) : (buildSum c (e.signedTerms false) (e.signedTerms true)).meaning ρ = c.toInt + total ρ e.leftTerms := by
  have hregular (negated : Bool) : ∀ t ∈ e.signedTerms negated, t.Regular ρ ∧ t.Negatable ρ := by
    intro t ht
    obtain ⟨s, rfl⟩ := signedTerms_sym h negated t ht
    obtain ⟨x, hx, hlt⟩ := hρ s.name
    refine ⟨Option.isSome_of_eq_some hx, .inr ?_⟩
    rw [meaning, hx, Option.getD_some]
    omega
  have hsigns := total_filter ρ (fun t => t.negated) e.leftTerms
  rw [total_added, total_subtracted] at hsigns
  rw [(buildSum_spec c (hregular false) (hregular true)).2, signedTerms, signedTerms, sum_sortTerms, sum_sortTerms,
    hsigns]
  simp only [beq_false, beq_true]
  omega

/-- Linear expressions with small constants simplify alike exactly if they have the same coefficients and the same
constant term. -/
theorem alike_simplify_iff {a b : SizeExpr} (ha : a.Linear) (hb : b.Linear) (hadda : a.isAdditive = true)
    (haddb : b.isAdditive = true) (hweighta : a.constantWeight ≤ 2147483647)
    (hweightb : b.constantWeight ≤ 2147483647) :
    a.simplify.alike b.simplify = true ↔
      (∀ name, a.coefficient name = b.coefficient name) ∧ a.constantTerm = b.constantTerm := by
  obtain ⟨c, hc, hsimpa, hcoefa⟩ := simplify_linear ha hadda hweighta
  obtain ⟨d, hd, hsimpb, hcoefb⟩ := simplify_linear hb haddb hweightb
  constructor
  · intro h
    -- Alike sums mean the same where all symbols are zero, and where only one is 1: the first gives the constant
    -- terms, the second the coefficients of that symbol.
    have hzero := meaning_of_alike (ρ := zeroValuation) h
    have hunit (name : String) := meaning_of_alike (ρ := unitValuation name) h
    have hnone (n : String) : ∃ x, zeroValuation n = some x ∧ x < 2147483648 := ⟨0, rfl, by omega⟩
    have hsmall (name n : String) : ∃ x, unitValuation name n = some x ∧ x < 2147483648 :=
      ⟨_, rfl, by split <;> omega⟩
    rw [hsimpa, hsimpb, meaning_buildSum hnone ha, meaning_buildSum hnone hb, total_zero ha, total_zero hb] at hzero
    refine ⟨fun name => ?_, by omega⟩
    have hname := hunit name
    rw [hsimpa, hsimpb, meaning_buildSum (hsmall name) ha, meaning_buildSum (hsmall name) hb, hcoefa, hcoefb] at hname
    omega
  · rintro ⟨hcoef, hconst⟩
    obtain rfl : c = d := Int32.toInt_inj.1 (by rw [hc, hd, hconst])
    -- With each sign, both sums have the same names equally often, and a list in order is determined by that.
    have hnames (negated : Bool) :
        (a.signedTerms negated).map symbolName = (b.signedTerms negated).map symbolName := by
      obtain ⟨hperma, hsorta⟩ := names_signedTerms ha negated
      obtain ⟨hpermb, hsortb⟩ := names_signedTerms hb negated
      refine List.Perm.eq_of_pairwise (fun x y _ _ => String.le_antisymm) hsorta hsortb ?_
      refine hperma.trans (.trans (List.perm_iff_count.2 fun name => ?_) hpermb.symm)
      obtain ⟨hfalsea, htruea⟩ := count_of_coefficient ha (hcoefa name)
      obtain ⟨hfalseb, htrueb⟩ := count_of_coefficient hb (hcoefb name)
      cases negated
      · rw [hfalsea, hfalseb, hcoef name]
      · rw [htruea, htrueb, hcoef name]
    have halike (negated : Bool) :=
      forall₂_alike_of_names (signedTerms_sym ha negated) (signedTerms_sym hb negated) (hnames negated)
    rw [hsimpa, hsimpb]
    exact alike_buildSum c (halike false) (halike true)

/-- The size `(x + y) - (3 - x)`, and the same size grouped and ordered in another way. -/
def groupedSize : SizeExpr := .sub (.add (posVar "x") (posVar "y")) (.sub (.value 3) (posVar "x"))

def regroupedSize : SizeExpr :=
  .add (posVar "y") (.neg (.sub (.value 3) (.sub (posVar "x") (.neg (posVar "x")))))

theorem alike_simplify_groupedSize : groupedSize.simplify.alike regroupedSize.simplify = true ↔
    (∀ name, groupedSize.coefficient name = regroupedSize.coefficient name) ∧
      groupedSize.constantTerm = regroupedSize.constantTerm :=
  alike_simplify_iff ⟨⟨trivial, trivial⟩, trivial, trivial⟩ ⟨trivial, trivial, trivial, trivial⟩ rfl rfl (by decide)
    (by decide)

example : groupedSize.simplify = .sub (.add (.add (posVar "x") (posVar "x")) (posVar "y")) (.value 3) := by
  cbv

end TensorGraph.SizeExpr
