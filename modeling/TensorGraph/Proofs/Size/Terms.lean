import TensorGraph.Proofs.Size.Meaning

/-!
# Terms of sums and operands of chains

Alike expressions have the same meaning, so that terms can be compared, sorted and merged. The leaves
of a chain have what every induction over its operands gives (`Chain.leaves_induct`). Terms are compared by `alike`,
which is an equivalence, and ordered by `termLe`, a total preorder. So the terms that sorting gives are in order
(`pairwise_sortTerms`), and terms in order are left as they are.
-/

namespace TensorGraph

namespace SizeExpr

variable {ρ : Valuation}

/-! ## Alike terms -/

/-- Two pairs of alike operands, possibly in another order. -/
theorem eq_or_swap {α : Type} {p q r s : Bool} {a b c d : α} (h : (p && q || r && s) = true)
    (hp : p = true → a = c) (hq : q = true → b = d) (hr : r = true → a = d) (hs : s = true → b = c) :
    (a = c ∧ b = d) ∨ (a = d ∧ b = c) := by
  simp only [Bool.or_eq_true, Bool.and_eq_true] at h
  exact h.imp (fun h => ⟨hp h.1, hq h.2⟩) fun h => ⟨hr h.1, hs h.2⟩

theorem meaning_of_alike {a b : SizeExpr} (h : a.alike b = true) : a.meaning ρ = b.meaning ρ := by
  fun_induction alike a b with
  | case1 x y => rw [eq_of_beq h]
  | case2 s t => rw [meaning, meaning, eq_of_beq h]
  | case3 x y ih => rw [meaning, meaning, ih h]
  | case4 a b c d ih₁ ih₂ ih₃ ih₄ =>
    rw [meaning, meaning]
    rcases eq_or_swap h ih₁ ih₂ ih₃ ih₄ with ⟨h₁, h₂⟩ | ⟨h₁, h₂⟩
    · rw [h₁, h₂]
    · rw [h₁, h₂, Int.add_comm]
  | case5 a b c d ih₁ ih₂ ih₃ ih₄ =>
    rw [meaning, meaning]
    rcases eq_or_swap h ih₁ ih₂ ih₃ ih₄ with ⟨h₁, h₂⟩ | ⟨h₁, h₂⟩
    · rw [h₁, h₂]
    · rw [h₁, h₂, Int.mul_comm]
  | case6 a b c d ih₁ ih₂ ih₃ ih₄ =>
    rw [meaning, meaning]
    rcases eq_or_swap h ih₁ ih₂ ih₃ ih₄ with ⟨h₁, h₂⟩ | ⟨h₁, h₂⟩
    · rw [h₁, h₂]
    · rw [h₁, h₂, Int.max_comm]
  | case7 a b c d ih₁ ih₂ ih₃ ih₄ =>
    rw [meaning, meaning]
    rcases eq_or_swap h ih₁ ih₂ ih₃ ih₄ with ⟨h₁, h₂⟩ | ⟨h₁, h₂⟩
    · rw [h₁, h₂]
    · rw [h₁, h₂, Int.min_comm]
  | case8 a b c d ih₁ ih₂ ih₃ ih₄ =>
    rw [meaning, meaning]
    rcases eq_or_swap h ih₁ ih₂ ih₃ ih₄ with ⟨h₁, h₂⟩ | ⟨h₁, h₂⟩
    · rw [h₁, h₂]
    · rw [h₁, h₂, Int.max_comm]
  | case9 a b c d ih₁ ih₂ =>
    simp only [Bool.and_eq_true] at h
    rw [meaning, meaning, ih₁ h.1, ih₂ h.2]
  | case10 a b c d ih₁ ih₂ =>
    simp only [Bool.and_eq_true] at h
    rw [meaning, meaning, ih₁ h.1, ih₂ h.2]
  | case11 => cases h

theorem eq_value_of_asValue? {e : SizeExpr} {v : Int32} (h : e.asValue? = some v) : e = .value v := by
  cases e <;> simp_all [asValue?]

/-! ## Sorted and merged terms -/

theorem sortTerms_perm (es : List SizeExpr) : (sortTerms es).Perm es := List.mergeSort_perm ..

theorem subset_keepTerm (kept : List SizeExpr) (e : SizeExpr) : kept ⊆ keepTerm kept e := by
  unfold keepTerm
  split <;> simp

theorem mem_of_mem_keepTerm {kept : List SizeExpr} {e k : SizeExpr} (h : k ∈ keepTerm kept e) :
    k ∈ kept ∨ k = e := by
  unfold keepTerm at h
  split at h
  · exact .inl h
  · simpa using h

theorem exists_mem_keepTerm (ρ : Valuation) (kept : List SizeExpr) (e : SizeExpr) :
    ∃ k ∈ keepTerm kept e, k.meaning ρ = e.meaning ρ := by
  unfold keepTerm
  split
  · next h =>
    obtain ⟨k, hk, halike⟩ := List.any_eq_true.1 h
    exact ⟨k, hk, meaning_of_alike halike⟩
  · exact ⟨e, by simp, rfl⟩

theorem foldl_keepTerm (ρ : Valuation) (es kept : List SizeExpr) :
    kept ⊆ es.foldl keepTerm kept ∧ es.foldl keepTerm kept ⊆ kept ++ es ∧
      ∀ e ∈ es, ∃ k ∈ es.foldl keepTerm kept, k.meaning ρ = e.meaning ρ := by
  induction es generalizing kept with
  | nil => simp
  | cons e es ih =>
    obtain ⟨hkept, hout, hcover⟩ := ih (keepTerm kept e)
    refine ⟨fun k hk => hkept (subset_keepTerm _ _ hk), fun k hk => ?_, List.forall_mem_cons.2 ⟨?_, hcover⟩⟩
    · rcases List.mem_append.1 (hout hk) with hk | hk
      · rcases mem_of_mem_keepTerm hk with hk | rfl <;> simp [*]
      · simp [hk]
    · obtain ⟨k, hk, heq⟩ := exists_mem_keepTerm ρ kept e
      exact ⟨k, hkept hk, heq⟩

theorem dedupTerms_subset (es : List SizeExpr) : dedupTerms es ⊆ es :=
  (foldl_keepTerm (fun _ => none) es []).2.1

/-- Merging alike terms keeps one term of each meaning. -/
theorem exists_mem_dedupTerms (ρ : Valuation) {es : List SizeExpr} {e : SizeExpr} (h : e ∈ es) :
    ∃ k ∈ dedupTerms es, k.meaning ρ = e.meaning ρ :=
  (foldl_keepTerm ρ es []).2.2 e h

end SizeExpr

namespace Chain

/-! ## Leaves of chains -/

theorem apply_or_leaf (c : Chain) (e : SizeExpr) : (∃ a b, e = c.apply a b) ∨ c.leaves e = [e] := by
  cases e with
  | mul a b => cases c <;> first | exact .inl ⟨a, b, rfl⟩ | exact .inr rfl
  | max a b => cases c <;> first | exact .inl ⟨a, b, rfl⟩ | exact .inr rfl
  | min a b => cases c <;> first | exact .inl ⟨a, b, rfl⟩ | exact .inr rfl
  | broadcast a b => cases c <;> first | exact .inl ⟨a, b, rfl⟩ | exact .inr rfl
  | _ => exact .inr rfl

theorem leaves_apply (c : Chain) (a b : SizeExpr) : c.leaves (c.apply a b) = c.leaves a ++ c.leaves b := by
  cases c <;> simp [apply, leaves]

theorem nodes_apply (c : Chain) (a b : SizeExpr) : (c.apply a b).nodes = a.nodes + b.nodes + 1 := by
  cases c <;> rfl

/-- What holds of operands of other operators, and of two chains together, holds of the leaves. -/
theorem leaves_induct {c : Chain} {P : SizeExpr → List SizeExpr → Prop}
    (leaf : ∀ e, (∀ a b, e ≠ c.apply a b) → P e [e])
    (node : ∀ a b, P a (c.leaves a) → P b (c.leaves b) → P (c.apply a b) (c.leaves a ++ c.leaves b))
    (e : SizeExpr) : P e (c.leaves e) := by
  by_cases h : ∃ a b, e = c.apply a b
  · obtain ⟨a, b, rfl⟩ := h
    rw [leaves_apply]
    exact node a b (leaves_induct leaf node a) (leaves_induct leaf node b)
  · rw [(apply_or_leaf c e).resolve_left h]
    exact leaf e fun a b heq => h ⟨a, b, heq⟩
termination_by e.nodes
decreasing_by all_goals (subst_vars; rw [nodes_apply]; omega)

end Chain

namespace SizeExpr

/-! ## Alike terms are equivalent -/

theorem alike_refl (e : SizeExpr) : e.alike e = true := by
  induction e with
  | value v => exact BEq.rfl
  | sym s => exact BEq.rfl
  | neg x ih => exact ih
  | _ a b iha ihb => simp [alike, iha, ihb]

theorem alike_symm {a b : SizeExpr} (h : a.alike b = true) : b.alike a = true := by
  fun_induction alike a b with
  | case1 x y => rw [eq_of_beq h, alike_refl]
  | case2 s t => exact beq_iff_eq.2 (eq_of_beq h).symm
  | case3 x y ih => exact ih h
  | case9 a b c d ih₁ ih₂ => simp_all [alike]
  | case10 a b c d ih₁ ih₂ => simp_all [alike]
  | case11 => cases h
  | _ a b c d ih₁ ih₂ ih₃ ih₄ =>
    simp only [alike, Bool.or_eq_true, Bool.and_eq_true] at h ⊢
    exact h.imp (fun h => ⟨ih₁ h.1, ih₂ h.2⟩) fun h => ⟨ih₄ h.2, ih₃ h.1⟩

theorem alike_comm (a b : SizeExpr) : a.alike b = b.alike a :=
  Bool.eq_iff_iff.2 ⟨alike_symm, alike_symm⟩

theorem alike_trans {a b e : SizeExpr} (h : a.alike b = true) (h' : b.alike e = true) : a.alike e = true := by
  fun_induction alike a b generalizing e with
  | case1 x y => rwa [eq_of_beq h]
  | case2 s t =>
    cases e with
    | sym u => exact beq_iff_eq.2 ((eq_of_beq h).trans (eq_of_beq h'))
    | _ => cases h'
  | case3 x y ih =>
    cases e with
    | neg z => exact ih h h'
    | _ => cases h'
  | case9 a b c d ih₁ ih₂ =>
    cases e with
    | sub e f =>
      simp only [alike, Bool.and_eq_true] at h h' ⊢
      exact ⟨ih₁ h.1 h'.1, ih₂ h.2 h'.2⟩
    | _ => cases h'
  | case10 a b c d ih₁ ih₂ =>
    cases e with
    | div e f =>
      simp only [alike, Bool.and_eq_true] at h h' ⊢
      exact ⟨ih₁ h.1 h'.1, ih₂ h.2 h'.2⟩
    | _ => cases h'
  | case11 => cases h
  | _ a b c d ih₁ ih₂ ih₃ ih₄ =>
    -- The operands of both pairs may be swapped.
    cases e <;> simp only [alike, Bool.or_eq_true, Bool.and_eq_true, Bool.false_eq_true] at h h' ⊢
    rcases h with h | h <;> rcases h' with h' | h'
    · exact .inl ⟨ih₁ h.1 h'.1, ih₂ h.2 h'.2⟩
    · exact .inr ⟨ih₁ h.1 h'.1, ih₂ h.2 h'.2⟩
    · exact .inr ⟨ih₃ h.1 h'.2, ih₄ h.2 h'.1⟩
    · exact .inl ⟨ih₃ h.1 h'.2, ih₄ h.2 h'.1⟩

/-! ## Terms in order -/

theorem termLe_trans (a b c : SizeExpr) (h : a.termLe b = true) (h' : b.termLe c = true) : a.termLe c = true := by
  cases b with
  | sym t =>
    cases a with
    | sym s =>
      cases c with
      | sym u =>
        simp only [termLe, decide_eq_true_eq] at h h' ⊢
        exact String.le_trans h h'
      | _ => rfl
    | _ => cases h
  | _ =>
    cases c with
    | sym u => cases h'
    | _ => cases a <;> rfl

theorem termLe_total (a b : SizeExpr) : (a.termLe b || b.termLe a) = true := by
  cases a with
  | sym s =>
    cases b with
    | sym t => simpa [termLe] using String.le_total s.name t.name
    | _ => rfl
  | _ => cases b <;> rfl

theorem pairwise_sortTerms (es : List SizeExpr) : (sortTerms es).Pairwise fun a b => a.termLe b = true :=
  List.pairwise_mergeSort termLe_trans termLe_total es

end SizeExpr

end TensorGraph
