import TensorGraph.Proofs.Size.Broadcasts
import TensorGraph.Proofs.Size.Extrema
import TensorGraph.Proofs.Size.Quotients
import TensorGraph.Proofs.Size.Sums

/-!
# Simplification keeps the meaning

Taking a chain apart again after its operands were simplified keeps what its operands mean together
(`total_flatMap`, `prod_flatMap`, `IsExtremum.flatMap`, `Fit.flatMap`). By induction on the depth,
simplification keeps regularity and meaning if no constant is dropped from a maximum or minimum that no
other operand dominates (`sound_simplifyN`). So it keeps the value, up to overflow, of every expression
whose simplification is the same when constants are dropped only if they are dominated
(`eval_simplify`).
-/

namespace TensorGraph.SizeExpr

variable {ρ : Valuation} {drops : DropTest}

/-! ## Operands that are taken apart again -/

theorem total_flatMap {terms : List Signed} {f : Signed → List Signed}
    (h : ∀ t ∈ terms, total ρ (f t) = t.meaning ρ) : total ρ (terms.flatMap f) = total ρ terms := by
  induction terms with
  | nil => rfl
  | cons t ts ih =>
    obtain ⟨ht, hts⟩ := List.forall_mem_cons.1 h
    rw [List.flatMap_cons, total_append, total_cons, ht, ih hts]

theorem prod_flatMap {es : List SizeExpr} {f : SizeExpr → List SizeExpr}
    (h : ∀ e ∈ es, prod ρ (f e) = e.meaning ρ) : prod ρ (es.flatMap f) = prod ρ es := by
  induction es with
  | nil => rfl
  | cons e es ih =>
    obtain ⟨he, hes⟩ := List.forall_mem_cons.1 h
    rw [List.flatMap_cons, prod_append, prod_cons, he, ih hes]

theorem IsExtremum.flatMap {largest : Bool} {es : List SizeExpr} {x : Int} {f : SizeExpr → List SizeExpr}
    (hes : IsExtremum ρ largest es x) (h : ∀ e ∈ es, IsExtremum ρ largest (f e) (e.meaning ρ)) :
    IsExtremum ρ largest (es.flatMap f) x := by
  constructor
  · obtain ⟨e, he, rfl⟩ := hes.attained
    obtain ⟨k, hk, heq⟩ := (h e he).attained
    exact ⟨k, List.mem_flatMap.2 ⟨e, he, hk⟩, heq⟩
  · intro k hk
    obtain ⟨e, he, hk⟩ := List.mem_flatMap.1 hk
    exact (hes.bound e he).trans ((h e he).bound k hk)

theorem Fit.flatMap {es : List SizeExpr} {x : Int} {f : SizeExpr → List SizeExpr} (hes : Fit ρ es x)
    (h : ∀ e ∈ es, Fit ρ (f e) (e.meaning ρ)) : Fit ρ (es.flatMap f) x := by
  refine ⟨hes.pos, ?_, fun k hk => ?_⟩
  · obtain ⟨e, he, rfl⟩ := hes.attained
    obtain ⟨k, hk, heq⟩ := (h e he).attained
    exact ⟨k, List.mem_flatMap.2 ⟨e, he, hk⟩, heq⟩
  · obtain ⟨e, he, hk⟩ := List.mem_flatMap.1 hk
    rcases (h e he).unit_or k hk with hone | heq
    · exact .inl hone
    · rw [heq]
      exact hes.unit_or e he

theorem forall_mem_flatMap {es : List SizeExpr} {f : SizeExpr → List SizeExpr} {P : SizeExpr → Prop}
    (h : ∀ e ∈ es, ∀ x ∈ f e, P x) : ∀ x ∈ es.flatMap f, P x := by
  intro x hx
  obtain ⟨e, he, hx⟩ := List.mem_flatMap.1 hx
  exact h e he x hx

/-! ## Every depth -/

/-- Whether `s` has the meaning of `e` and can be computed and negated like `e`. -/
structure Simplified (ρ : Valuation) (e s : SizeExpr) : Prop where
  regular : s.Regular ρ
  meaning_eq : s.meaning ρ = e.meaning ρ
  negatable : e.Negatable ρ → s.Negatable ρ ∨ ∃ x, s = .neg x

theorem Simplified.of_meaning {e s : SizeExpr} (hmul : e.isMul = false) (hreg : s.Regular ρ)
    (hval : s.meaning ρ = e.meaning ρ) : Simplified ρ e s := by
  refine ⟨hreg, hval, fun h => .inl (.inr ?_)⟩
  rw [hval]
  exact h.resolve_left (by simp [hmul])

theorem Simplified.negatable_of_leaf {e s : SizeExpr} (h : Simplified ρ e s) (hmul : e.isMul = false)
    (hn : e.Negatable ρ) : s.Negatable ρ := by
  refine .inr ?_
  rw [h.meaning_eq]
  exact hn.resolve_left (by simp [hmul])

theorem isMul_of_mem_leaves {e leaf : SizeExpr} (h : leaf ∈ Chain.mul.leaves e) : leaf.isMul = false := by
  refine Chain.leaves_induct (P := fun _ es => leaf ∈ es → leaf.isMul = false) (fun x hx hmem => ?_)
    (fun a b ha hb hmem => ?_) e h
  · obtain rfl := List.mem_singleton.1 hmem
    cases leaf with
    | mul a b => exact absurd rfl (hx a b)
    | _ => rfl
  · exact (List.mem_append.1 hmem).elim ha hb

/-- What simplification of depth `n` keeps, of whole expressions, sums and chains. -/
structure Sound (ρ : Valuation) (drops : DropTest) (n : Nat) : Prop where
  whole : ∀ e, e.Regular ρ → Simplified ρ e (simplifyN drops n e)
  sum : ∀ negated e, e.Regular ρ → e.isSum = true ∨ e.Negatable ρ →
    Summands ρ (sumTermsN drops n negated e) ∧
      total ρ (sumTermsN drops n negated e) = Signed.meaning ρ ⟨negated, e⟩
  mul : ∀ e, e.Regular ρ → e.Negatable ρ →
    Factors ρ (chainTermsN drops n .mul e) ∧ prod ρ (chainTermsN drops n .mul e) = e.meaning ρ
  extremum : ∀ largest e, e.Regular ρ →
    (∀ x ∈ chainTermsN drops n (extremumChain largest) e, x.Regular ρ) ∧
      IsExtremum ρ largest (chainTermsN drops n (extremumChain largest) e) (e.meaning ρ)
  broadcast : ∀ e, e.Regular ρ → 1 ≤ e.meaning ρ →
    (∀ x ∈ chainTermsN drops n .broadcast e, x.Regular ρ) ∧
      Fit ρ (chainTermsN drops n .broadcast e) (e.meaning ρ)

theorem sound_zero : Sound ρ drops 0 where
  whole e h := by
    rw [simplifyN]
    exact ⟨h, rfl, .inl⟩
  sum negated e h hn := by
    rw [sumTermsN]
    exact ⟨summands_sumLeaves negated h hn, total_sumLeaves negated e⟩
  mul e h hn := by
    rw [chainTermsN]
    exact ⟨factors_leaves h hn, prod_leaves e⟩
  extremum largest e h := by
    rw [chainTermsN]
    exact ⟨regular_leaves_extremum largest h, isExtremum_leaves largest e⟩
  broadcast e h hpos := by
    rw [chainTermsN]
    exact (fit_leaves h hpos).symm

/-! ## One level more -/

section Step

variable {n : Nat} (ih : Sound ρ drops n)
include ih

theorem simplified_neg {x : SizeExpr} (h : (SizeExpr.neg x).Regular ρ) :
    Simplified ρ (.neg x) (simplifyN drops (n + 1) (.neg x)) := by
  obtain ⟨hreg, hval, hn⟩ := ih.whole x h.1
  have hneg := hn h.2
  rw [simplifyN]
  split
  · next v hv =>
    rw [hv] at hval
    split
    · next w hw =>
      refine .of_meaning rfl trivial ?_
      rw [meaning, meaning, ← hval, Word.ofInt?_eq_some_iff.1 hw]
      rfl
    · exact .of_meaning rfl ⟨trivial, negatable_of_word rfl⟩ (by rw [meaning, hval, meaning])
  · next y hy =>
    rw [hy] at hreg hval
    exact .of_meaning rfl hreg.1 (by rw [meaning, ← hval, meaning, Int.neg_neg])
  · next y _ hne =>
    refine .of_meaning rfl ⟨hreg, hneg.resolve_right ?_⟩ (by rw [meaning, meaning, hval])
    rintro ⟨z, hz⟩
    exact hne z hz

/-- The terms of a leaf of a sum. -/
theorem sumTerms_leaf {leaf : Signed} (h : leaf.term.Regular ρ ∧ leaf.term.Negatable ρ) :
    let terms := if leaf.term.asValue?.isSome then [leaf]
      else if (simplifyN drops n leaf.term).isSum then
        sumTermsN drops n leaf.negated (simplifyN drops n leaf.term)
      else [⟨leaf.negated, simplifyN drops n leaf.term⟩]
    Summands ρ terms ∧ total ρ terms = leaf.meaning ρ := by
  obtain ⟨hreg, hval, hn⟩ := ih.whole _ h.1
  have hmeaning : Signed.meaning ρ ⟨leaf.negated, simplifyN drops n leaf.term⟩ = leaf.meaning ρ := by
    rw [Signed.meaning, Signed.meaning, hval]
  dsimp only
  split
  · exact ⟨by simpa [Summands] using h, by simp [total]⟩
  · split
    · next hsum =>
      rw [← hmeaning]
      exact ih.sum leaf.negated _ hreg (.inl hsum)
    · next hsum =>
      have hneg : (simplifyN drops n leaf.term).Negatable ρ := by
        refine (hn h.2).resolve_right ?_
        rintro ⟨x, hx⟩
        rw [hx] at hsum
        exact hsum rfl
      refine ⟨?_, ?_⟩
      · simpa [Summands] using ⟨hreg, hneg⟩
      · rw [← hmeaning]
        simp [total]

theorem sum_step (negated : Bool) {e : SizeExpr} (h : e.Regular ρ) (hn : e.isSum = true ∨ e.Negatable ρ) :
    Summands ρ (sumTermsN drops (n + 1) negated e) ∧
      total ρ (sumTermsN drops (n + 1) negated e) = Signed.meaning ρ ⟨negated, e⟩ := by
  have hleaves := summands_sumLeaves negated h hn
  rw [sumTermsN]
  constructor
  · intro t ht
    obtain ⟨leaf, hleaf, ht⟩ := List.mem_flatMap.1 ht
    exact (sumTerms_leaf ih (hleaves leaf hleaf)).1 t ht
  · rw [total_flatMap fun leaf hleaf => (sumTerms_leaf ih (hleaves leaf hleaf)).2, total_sumLeaves]

theorem mul_step {e : SizeExpr} (h : e.Regular ρ) (hn : e.Negatable ρ) :
    Factors ρ (chainTermsN drops (n + 1) .mul e) ∧ prod ρ (chainTermsN drops (n + 1) .mul e) = e.meaning ρ := by
  have hleaves := factors_leaves h hn
  have hsimp : ∀ leaf ∈ Chain.mul.leaves e, Simplified ρ leaf (simplifyN drops n leaf) :=
    fun leaf hleaf => ih.whole leaf (hleaves leaf hleaf).1
  rw [chainTermsN]
  constructor
  · refine forall_mem_flatMap fun leaf hleaf => factors_leaves (hsimp leaf hleaf).regular ?_
    exact (hsimp leaf hleaf).negatable_of_leaf (isMul_of_mem_leaves hleaf) (hleaves leaf hleaf).2
  · rw [prod_flatMap fun leaf hleaf => (prod_leaves _).trans (hsimp leaf hleaf).meaning_eq, prod_leaves]

theorem extremum_step (largest : Bool) {e : SizeExpr} (h : e.Regular ρ) :
    (∀ x ∈ chainTermsN drops (n + 1) (extremumChain largest) e, x.Regular ρ) ∧
      IsExtremum ρ largest (chainTermsN drops (n + 1) (extremumChain largest) e) (e.meaning ρ) := by
  have hleaves := regular_leaves_extremum largest h
  rw [chainTermsN]
  constructor
  · exact forall_mem_flatMap fun leaf hleaf =>
      regular_leaves_extremum largest (ih.whole leaf (hleaves leaf hleaf)).regular
  · refine (isExtremum_leaves largest e).flatMap fun leaf hleaf => ?_
    rw [← (ih.whole leaf (hleaves leaf hleaf)).meaning_eq]
    exact isExtremum_leaves largest _

theorem broadcast_step {e : SizeExpr} (h : e.Regular ρ) (hpos : 1 ≤ e.meaning ρ) :
    (∀ x ∈ chainTermsN drops (n + 1) .broadcast e, x.Regular ρ) ∧
      Fit ρ (chainTermsN drops (n + 1) .broadcast e) (e.meaning ρ) := by
  obtain ⟨hfit, hleaves⟩ := fit_leaves h hpos
  have hleaf : ∀ leaf ∈ Chain.broadcast.leaves e,
      Fit ρ (Chain.broadcast.leaves (simplifyN drops n leaf)) (leaf.meaning ρ) ∧
        ∀ x ∈ Chain.broadcast.leaves (simplifyN drops n leaf), x.Regular ρ := by
    intro leaf hleaf
    obtain ⟨hreg, hval, -⟩ := ih.whole leaf (hleaves leaf hleaf)
    have hleafpos : 1 ≤ leaf.meaning ρ := by
      rcases hfit.unit_or leaf hleaf with h | h <;> omega
    rw [← hval] at hleafpos ⊢
    exact fit_leaves hreg hleafpos
  rw [chainTermsN]
  exact ⟨forall_mem_flatMap fun leaf hmem => (hleaf leaf hmem).2, hfit.flatMap fun leaf hmem => (hleaf leaf hmem).1⟩

theorem whole_step (hdrops : SoundDrops ρ drops) {e : SizeExpr} (h : e.Regular ρ) :
    Simplified ρ e (simplifyN drops (n + 1) e) := by
  cases e with
  | value v => exact .of_meaning rfl trivial rfl
  | sym s => exact .of_meaning rfl h rfl
  | neg x => exact simplified_neg ih h
  | add a b =>
    obtain ⟨hterms, htotal⟩ := ih.sum false (.add a b) h (.inl rfl)
    obtain ⟨hreg, hval⟩ := simplifySum_spec h hterms htotal
    exact .of_meaning rfl hreg hval
  | sub a b =>
    obtain ⟨hterms, htotal⟩ := ih.sum false (.sub a b) h (.inl rfl)
    obtain ⟨hreg, hval⟩ := simplifySum_spec h hterms htotal
    exact .of_meaning rfl hreg hval
  | mul a b =>
    obtain ⟨hfactors, hprod⟩ := ih.mul (.mul a b) h (.inl rfl)
    obtain ⟨hreg, hval, hneg⟩ := simplifyProduct_spec h (.inl rfl) hfactors hprod
    exact ⟨hreg, hval, fun _ => hneg⟩
  | div a b =>
    have ha := ih.whole a h.1.1
    have hb := ih.whole b h.1.2
    have hdiv : Divisible ρ (simplifyN drops n a) (simplifyN drops n b) :=
      ⟨⟨ha.regular, hb.regular⟩, hb.meaning_eq ▸ h.2⟩
    obtain ⟨hreg, hval⟩ :=
      simplifyQuotient_spec (fun x hx => ⟨(ih.whole x hx).regular, (ih.whole x hx).meaning_eq⟩) hdiv
    rw [ha.meaning_eq, hb.meaning_eq] at hval
    exact .of_meaning rfl hreg hval
  | max a b =>
    obtain ⟨hoperands, hext⟩ := ih.extremum true (.max a b) h
    obtain ⟨hreg, hval⟩ := simplifyExtremum_spec hdrops hoperands hext
    exact .of_meaning rfl hreg hval
  | min a b =>
    obtain ⟨hoperands, hext⟩ := ih.extremum false (.min a b) h
    obtain ⟨hreg, hval⟩ := simplifyExtremum_spec hdrops hoperands hext
    exact .of_meaning rfl hreg hval
  | broadcast a b =>
    obtain ⟨hoperands, hfit⟩ := ih.broadcast (.broadcast a b) h (pos_of_broadcast h)
    obtain ⟨hreg, hval⟩ := simplifyBroadcast_spec hoperands hfit
    exact .of_meaning rfl hreg hval

theorem sound_step (hdrops : SoundDrops ρ drops) : Sound ρ drops (n + 1) where
  whole _ h := whole_step ih hdrops h
  sum negated _ h hn := sum_step ih negated h hn
  mul _ h hn := mul_step ih h hn
  extremum largest _ h := extremum_step ih largest h
  broadcast _ h hpos := broadcast_step ih h hpos

end Step

theorem sound_simplifyN (hdrops : SoundDrops ρ drops) (n : Nat) : Sound ρ drops n := by
  induction n with
  | zero => exact sound_zero
  | succ n ih => exact sound_step ih hdrops

/-- Simplification keeps the meaning of regular expressions if only dominated constants are dropped. -/
theorem simplifyBy_spec (hdrops : SoundDrops ρ drops) {e : SizeExpr} (h : e.Regular ρ) :
    (e.simplifyBy drops).Regular ρ ∧ (e.simplifyBy drops).meaning ρ = e.meaning ρ :=
  have hsimp := (sound_simplifyN hdrops (4 * e.nodes)).whole e h
  ⟨hsimp.regular, hsimp.meaning_eq⟩

/-! ## Simplification and evaluation -/

/-- Whether another operand has a value that dominates the constant. -/
def valuesDominate (ρ : Valuation) : DropTest := fun largest rest c =>
  rest.any fun e => if largest then c.toInt ≤ e.meaning ρ else e.meaning ρ ≤ c.toInt

theorem valuesDominate_iff {largest : Bool} {rest : List SizeExpr} {c : Int32} :
    valuesDominate ρ largest rest c = true ↔ ∃ e ∈ rest, Dominates largest (e.meaning ρ) c.toInt := by
  cases largest <;> simp [valuesDominate, Dominates]

/-- Drops a constant if bounds and values of another operand show that it dominates the constant. -/
def bothDominate (ρ : Valuation) : DropTest := fun largest rest c =>
  boundsDominate largest rest c && valuesDominate ρ largest rest c

theorem soundDrops_bothDominate : SoundDrops ρ (bothDominate ρ) := by
  intro largest rest c h
  exact valuesDominate_iff.1 (Bool.and_eq_true_iff.1 h).2

/-- If simplification drops only constants that another operand dominates at the given values, the
simplified expression has the value of the expression, or its evaluation overflows. -/
theorem eval_simplify {m : SymbolMap} {e : SizeExpr} {v : Int32} (hb : e.BroadcastsPositive m)
    (hdrops : e.simplify = e.simplifyBy (bothDominate m.valuation)) (h : e.eval m = .ok v) :
    e.simplify.eval m = .ok v ∨ e.simplify.eval m = .error .overflow := by
  obtain ⟨hreg, hval⟩ := regular_of_eval hb h
  obtain ⟨hsreg, hsval⟩ := simplifyBy_spec (soundDrops_bothDominate (ρ := m.valuation)) hreg
  rw [← hdrops] at hsreg hsval
  rcases eval_of_regular hsreg with ⟨w, hw, hweq⟩ | hoverflow
  · obtain rfl : w = v := Int32.toInt_inj.1 (by rw [hweq, hsval, hval])
    exact .inl hw
  · exact .inr hoverflow

/-- The larger of 1 and of a size padded by 2. -/
def paddedSize : SizeExpr := .max (.add (posVar "n") (.value 2)) (.value 1)

theorem eval_simplify_paddedSize :
    paddedSize.simplify.eval ⟨[("n", 4)]⟩ = .ok 6 ∨ paddedSize.simplify.eval ⟨[("n", 4)]⟩ = .error .overflow :=
  eval_simplify ⟨⟨trivial, trivial⟩, trivial⟩ (by decide +kernel) rfl

/-- How far `-z * w` is below the smallest word but one. -/
def saturatedSize : SizeExpr :=
  let size := .mul (.neg (posVar "z")) (posVar "w")
  .sub (.max size (.value (-2147483647))) size

/-- The bounds of `-(z * w)`, to which the product simplifies, are saturated: they do not show that `-z * w`
can be the smallest word, and the constant is dropped although it is larger. -/
example : saturatedSize.eval ⟨[("z", 65536), ("w", 32768)]⟩ = .ok 1 ∧
    saturatedSize.simplify.eval ⟨[("z", 65536), ("w", 32768)]⟩ = .ok 0 :=
  ⟨by rfl, by cbv⟩

end TensorGraph.SizeExpr
