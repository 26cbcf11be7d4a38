import TensorGraph.Proofs.Size.Terms

/-!
# Simplified broadcasts

The operands of a regular broadcast `Fit` one size: each is 1 or that size. Operands that are alike to 1
can be left out, alike operands merged, and a single fixed size is the result.
-/

namespace TensorGraph.SizeExpr

variable {ρ : Valuation}

/-- Whether every operand is 1 or the size `x`, and some operand is `x`. -/
structure Fit (ρ : Valuation) (es : List SizeExpr) (x : Int) : Prop where
  pos : 1 ≤ x
  attained : ∃ e ∈ es, e.meaning ρ = x
  unit_or : ∀ e ∈ es, e.meaning ρ = 1 ∨ e.meaning ρ = x

/-- Operands of two broadcasts that can be broadcast fit the larger of the two sizes. -/
theorem Fit.append {es fs : List SizeExpr} {x y : Int} (hes : Fit ρ es x) (hfs : Fit ρ fs y)
    (h : x = y ∨ x = 1 ∨ y = 1) : Fit ρ (es ++ fs) (Max.max x y) := by
  have hx := hes.pos
  have hy := hfs.pos
  refine ⟨by omega, ?_, List.forall_mem_append.2 ⟨fun e he => ?_, fun f hf => ?_⟩⟩
  · obtain ⟨e, he, heq⟩ := hes.attained
    obtain ⟨f, hf, hfeq⟩ := hfs.attained
    rcases Int.le_total x y with hle | hle
    · exact ⟨f, List.mem_append_right _ hf, by omega⟩
    · exact ⟨e, List.mem_append_left _ he, by omega⟩
  · have := hes.unit_or e he
    omega
  · have := hfs.unit_or f hf
    omega

theorem fit_leaves {e : SizeExpr} (h : e.Regular ρ) (hpos : 1 ≤ e.meaning ρ) :
    Fit ρ (Chain.broadcast.leaves e) (e.meaning ρ) ∧ ∀ x ∈ Chain.broadcast.leaves e, x.Regular ρ := by
  refine Chain.leaves_induct (P := fun e es => e.Regular ρ → 1 ≤ e.meaning ρ →
    Fit ρ es (e.meaning ρ) ∧ ∀ x ∈ es, x.Regular ρ) (fun e _ h hpos => ?_) (fun a b ha hb h _ => ?_) e h hpos
  · exact ⟨⟨hpos, ⟨e, by simp, rfl⟩, by simp⟩, by simpa using h⟩
  · obtain ⟨⟨hrega, hregb⟩, ⟨hposa, hposb⟩, hfit⟩ := h
    obtain ⟨hfita, ha⟩ := ha hrega hposa
    obtain ⟨hfitb, hb⟩ := hb hregb hposb
    exact ⟨hfita.append hfitb hfit, List.forall_mem_append.2 ⟨ha, hb⟩⟩

theorem pos_of_broadcast {a b : SizeExpr} (h : (SizeExpr.broadcast a b).Regular ρ) :
    1 ≤ (SizeExpr.broadcast a b).meaning ρ := by
  have := h.2.1
  simp only [meaning]
  omega

/-- Two sizes that are 1 or `x` can be broadcast, to 1 or to `x`. -/
theorem max_of_unit_or {a b x : Int} (hpos : 1 ≤ x) (ha : a = 1 ∨ a = x) (hb : b = 1 ∨ b = x) :
    ((1 ≤ a ∧ 1 ≤ b) ∧ (a = b ∨ a = 1 ∨ b = 1)) ∧ (Max.max a b = 1 ∨ Max.max a b = x) ∧
      (a = x ∨ b = x → Max.max a b = x) := by
  omega

theorem foldl_broadcast_spec {es : List SizeExpr} {acc : SizeExpr} {x : Int} (hpos : 1 ≤ x)
    (hacc : acc.Regular ρ ∧ (acc.meaning ρ = 1 ∨ acc.meaning ρ = x))
    (hes : ∀ e ∈ es, e.Regular ρ ∧ (e.meaning ρ = 1 ∨ e.meaning ρ = x))
    (hattained : acc.meaning ρ = x ∨ ∃ e ∈ es, e.meaning ρ = x) :
    (es.foldl SizeExpr.broadcast acc).Regular ρ ∧ (es.foldl SizeExpr.broadcast acc).meaning ρ = x := by
  induction es generalizing acc with
  | nil => exact ⟨hacc.1, hattained.resolve_right (by simp)⟩
  | cons e es ih =>
    obtain ⟨he, hes⟩ := List.forall_mem_cons.1 hes
    obtain ⟨hfit, hunit, hmax⟩ := max_of_unit_or hpos hacc.2 he.2
    have hnext : (SizeExpr.broadcast acc e).Regular ρ := ⟨⟨hacc.1, he.1⟩, hfit⟩
    refine ih ⟨hnext, hunit⟩ hes ?_
    rcases hattained with h | ⟨f, hf, h⟩
    · exact .inl (hmax (.inl h))
    · rcases List.mem_cons.1 hf with rfl | hf
      · exact .inl (hmax (.inr h))
      · exact .inr ⟨f, hf, h⟩

theorem alike_one {e : SizeExpr} (h : e.alike (.value 1) = true) : e.meaning ρ = 1 := meaning_of_alike h

theorem simplifyBroadcast_spec {es : List SizeExpr} {x : Int} (hes : ∀ e ∈ es, e.Regular ρ)
    (hfit : Fit ρ es x) :
    (simplifyBroadcast es).Regular ρ ∧ (simplifyBroadcast es).meaning ρ = x := by
  unfold simplifyBroadcast
  dsimp only
  generalize hterms : dedupTerms (es.filter fun e => !e.alike (.value 1)) = terms
  have hmem : ∀ e ∈ terms, e ∈ es ∧ e.alike (.value 1) = false := by
    subst hterms
    intro e he
    simpa using List.mem_filter.1 (dedupTerms_subset _ he)
  have hcover : ∀ e ∈ es, e.meaning ρ = 1 ∨ ∃ k ∈ terms, k.meaning ρ = e.meaning ρ := by
    subst hterms
    intro e he
    cases halike : e.alike (.value 1) with
    | true => exact .inl (alike_one halike)
    | false => exact .inr (exists_mem_dedupTerms ρ (List.mem_filter.2 ⟨he, by simp [halike]⟩))
  split
  · next fixed hfixed =>
    have hf := List.mem_filter.1 (hfixed ▸ List.mem_singleton_self fixed)
    obtain ⟨hin, hne⟩ := hmem fixed hf.1
    refine ⟨hes fixed hin, (hfit.unit_or fixed hin).resolve_left fun hone => ?_⟩
    obtain ⟨v, hv⟩ := Option.isSome_iff_exists.1 hf.2
    obtain rfl := eq_value_of_asValue? hv
    have hv : v = 1 := Int32.toInt_inj.1 hone
    simp [alike, hv] at hne
  · have hperm := sortTerms_perm terms
    split
    · next hnil =>
      rw [hnil] at hperm
      have hempty : terms = [] := hperm.symm.eq_nil
      obtain ⟨e, he, heq⟩ := hfit.attained
      have hone : e.meaning ρ = 1 := by simpa [hempty] using hcover e he
      exact ⟨trivial, hone.symm.trans heq⟩
    · next e es' hcons =>
      rw [hcons] at hperm
      have hall : ∀ k ∈ e :: es', k.Regular ρ ∧ (k.meaning ρ = 1 ∨ k.meaning ρ = x) := fun k hk =>
        have hin := (hmem k (hperm.mem_iff.1 hk)).1
        ⟨hes k hin, hfit.unit_or k hin⟩
      have hattained : ∃ k ∈ e :: es', k.meaning ρ = x := by
        obtain ⟨f, hf, rfl⟩ := hfit.attained
        rcases hcover f hf with hone | ⟨k, hk, heq⟩
        · have hunit := (hall e (by simp)).2
          exact ⟨e, by simp, by omega⟩
        · exact ⟨k, hperm.mem_iff.2 hk, heq⟩
      obtain ⟨he, hes'⟩ := List.forall_mem_cons.1 hall
      refine foldl_broadcast_spec hfit.pos he hes' ?_
      simpa using hattained

end TensorGraph.SizeExpr
