import TensorGraph.Proofs.Size.Growth

/-!
# Simplification without depth

The depth at which `simplifyBy` simplifies is never reached (`simplifyN_eq`), so that simplification is a recursion
over expressions of fewer nodes, with one equation for each operator.
-/

namespace TensorGraph.SizeExpr

variable {drops : DropTest}

/-! ## Operands have fewer nodes -/

theorem nodes_mem_sumLeaves {negated : Bool} {e : SizeExpr} {t : Signed} (h : t ∈ sumLeaves negated e) :
    t.term.nodes ≤ e.nodes := by
  have hmem := bulk_sublist (List.singleton_sublist.2 (List.mem_map_of_mem (f := (·.term)) h))
  have hcost := (bulk_le_sumCost negated _).trans (sumCost_sumLeaves negated e)
  simp only [bulk_cons, bulk_nil] at hmem
  omega

/-- A leaf of a sum is a constant or has fewer nodes than the sum. -/
theorem nodes_lt_of_mem_sumLeaves {negated : Bool} {e : SizeExpr} {t : Signed} (he : e.isSum = true)
    (h : t ∈ sumLeaves negated e) : t.term.asValue?.isSome = true ∨ t.term.nodes < e.nodes := by
  cases e with
  | value v =>
    obtain rfl := List.mem_singleton.1 h
    exact .inl rfl
  | neg x => exact .inr (Nat.lt_succ_of_le (nodes_mem_sumLeaves h))
  | add a b =>
    refine .inr ?_
    rcases List.mem_append.1 h with h | h <;> have := nodes_mem_sumLeaves h <;> simp only [nodes] <;> omega
  | sub a b =>
    refine .inr ?_
    rcases List.mem_append.1 h with h | h <;> have := nodes_mem_sumLeaves h <;> simp only [nodes] <;> omega
  | _ => cases he

theorem nodes_mem_leaves {c : Chain} {e leaf : SizeExpr} (h : leaf ∈ c.leaves e) : leaf.nodes ≤ e.nodes := by
  have hmem := bulk_sublist (List.singleton_sublist.2 h)
  rw [bulk_leaves] at hmem
  simpa using hmem

theorem nodes_lt_of_mem_leaves {c : Chain} {a b leaf : SizeExpr} (h : leaf ∈ c.leaves (c.apply a b)) :
    leaf.nodes < (c.apply a b).nodes := by
  rw [Chain.leaves_apply] at h
  rw [Chain.nodes_apply]
  rcases List.mem_append.1 h with h | h <;> have := nodes_mem_leaves h <;> omega

theorem nodes_product_leaves {e : SizeExpr} {es : List SizeExpr} (h : es.Sublist (Chain.mul.leaves e)) :
    (product es).nodes ≤ e.nodes :=
  nodes_product_le ((bulk_sublist h).trans_eq (bulk_leaves .mul e)) e.nodes_pos

/-- Only products of fewer nodes are simplified in a quotient. -/
theorem simplifyQuotient_congr {f g : SizeExpr → SizeExpr} {a b : SizeExpr}
    (h : ∀ e : SizeExpr, e.nodes ≤ a.nodes ∨ e.nodes ≤ b.nodes → f e = g e) :
    simplifyQuotient f a b = simplifyQuotient g a b := by
  obtain ⟨-, hsuba, hsubb⟩ := cancelFactors_spec (fun _ => none) (Chain.mul.leaves a) (Chain.mul.leaves b)
  unfold simplifyQuotient
  dsimp only
  rw [h _ (.inl (nodes_product_leaves hsuba)), h _ (.inr (nodes_product_leaves hsubb))]

/-! ## Depth -/

/-- What depth does not change from twice the number of nodes on: expressions, sums and the operands of chains. -/
structure Stable (drops : DropTest) (k : Nat) : Prop where
  whole : ∀ e n m, e.nodes ≤ k → 2 * k ≤ n → 2 * k ≤ m → simplifyN drops n e = simplifyN drops m e
  sum : ∀ negated e n m, e.nodes ≤ k → e.isSum = true → 2 * k ≤ n + 1 → 2 * k ≤ m + 1 →
    sumTermsN drops n negated e = sumTermsN drops m negated e
  chain : ∀ c a b n m, (Chain.apply c a b).nodes ≤ k → 2 * k ≤ n + 1 → 2 * k ≤ m + 1 →
    chainTermsN drops n c (c.apply a b) = chainTermsN drops m c (c.apply a b)

section
variable {k : Nat} (ih : Stable drops k)
include ih

theorem sum_stable (negated : Bool) {e : SizeExpr} {n m : Nat} (he : e.nodes ≤ k + 1) (hsum : e.isSum = true)
    (hn : 2 * k ≤ n) (hm : 2 * k ≤ m) :
    sumTermsN drops (n + 1) negated e = sumTermsN drops (m + 1) negated e := by
  rw [sumTermsN, sumTermsN]
  refine List.flatMap_congr fun leaf hleaf => ?_
  split
  · rfl
  · next hvalue =>
    -- The term has fewer nodes than the sum, also when it is simplified, so both inductive facts apply to it.
    have hlt := (nodes_lt_of_mem_sumLeaves hsum hleaf).resolve_left hvalue
    have hsimp := ih.whole leaf.term n m (by omega) hn hm
    have hnodes := nodes_simplifyN drops n leaf.term
    dsimp only
    rw [← hsimp]
    split
    · next hagain => exact ih.sum _ _ n m (by omega) hagain (by omega) (by omega)
    · rfl

theorem chain_stable (c : Chain) {a b : SizeExpr} {n m : Nat} (he : (c.apply a b).nodes ≤ k + 1) (hn : 2 * k ≤ n)
    (hm : 2 * k ≤ m) : chainTermsN drops (n + 1) c (c.apply a b) = chainTermsN drops (m + 1) c (c.apply a b) := by
  rw [chainTermsN, chainTermsN]
  refine List.flatMap_congr fun leaf hleaf => ?_
  have hlt := nodes_lt_of_mem_leaves hleaf
  rw [ih.whole leaf n m (by omega) hn hm]

theorem whole_stable {e : SizeExpr} {n m : Nat} (he : e.nodes ≤ k + 1) (hn : 2 * k + 1 ≤ n) (hm : 2 * k + 1 ≤ m) :
    simplifyN drops (n + 1) e = simplifyN drops (m + 1) e := by
  obtain ⟨n, rfl⟩ : ∃ i, n = i + 1 := ⟨n - 1, by omega⟩
  obtain ⟨m, rfl⟩ : ∃ i, m = i + 1 := ⟨m - 1, by omega⟩
  have hchain (c : Chain) (a b : SizeExpr) (h : (c.apply a b).nodes ≤ k + 1) :=
    chain_stable ih c (n := n) (m := m) h (by omega) (by omega)
  cases e with
  | value v => rw [simplifyN, simplifyN]
  | sym s => rw [simplifyN, simplifyN]
  | neg x => rw [simplifyN, simplifyN, ih.whole x (n + 1) (m + 1) (Nat.le_of_succ_le_succ he) (by omega) (by omega)]
  | add a b => exact congrArg (simplifySum _) (sum_stable ih false he rfl (by omega) (by omega))
  | sub a b => exact congrArg (simplifySum _) (sum_stable ih false he rfl (by omega) (by omega))
  | mul a b => exact congrArg (simplifyProduct _) (hchain .mul a b he)
  | div a b =>
    simp only [nodes] at he
    have ha := nodes_simplifyN drops (m + 1) a
    have hb := nodes_simplifyN drops (m + 1) b
    rw [simplifyN, simplifyN, ih.whole a (n + 1) (m + 1) (by omega) (by omega) (by omega),
      ih.whole b (n + 1) (m + 1) (by omega) (by omega) (by omega)]
    exact simplifyQuotient_congr fun e h => ih.whole e _ _ (by omega) (by omega) (by omega)
  | max a b => exact congrArg (simplifyExtremum drops true) (hchain .max a b he)
  | min a b => exact congrArg (simplifyExtremum drops false) (hchain .min a b he)
  | broadcast a b => exact congrArg simplifyBroadcast (hchain .broadcast a b he)

end

theorem stable (k : Nat) : Stable drops k := by
  induction k with
  | zero =>
    refine ⟨fun e _ _ h => ?_, fun _ e _ _ h => ?_, fun c a b _ _ h => ?_⟩
    · exact absurd e.nodes_pos (by omega)
    · exact absurd e.nodes_pos (by omega)
    · exact absurd (c.apply a b).nodes_pos (by omega)
  | succ k ih =>
    refine ⟨fun e n m he hn hm => ?_, fun negated e n m he hsum hn hm => ?_, fun c a b n m he hn hm => ?_⟩ <;>
      obtain ⟨n, rfl⟩ : ∃ i, n = i + 1 := ⟨n - 1, by omega⟩ <;>
      obtain ⟨m, rfl⟩ : ∃ i, m = i + 1 := ⟨m - 1, by omega⟩
    · exact whole_stable ih he (by omega) (by omega)
    · exact sum_stable ih negated he hsum (by omega) (by omega)
    · exact chain_stable ih c he (by omega) (by omega)

theorem simplifyN_eq {e : SizeExpr} {n : Nat} (h : 2 * e.nodes ≤ n) : simplifyN drops n e = e.simplifyBy drops :=
  (stable e.nodes).whole e n _ (Nat.le_refl _) h (by omega)

/-! ## Equations -/

/-- The simplified terms of a sum. -/
def sumTerms (drops : DropTest) (negated : Bool) (e : SizeExpr) : List Signed :=
  sumTermsN drops (2 * e.nodes) negated e

/-- The simplified operands of a chain. -/
def chainTerms (drops : DropTest) (c : Chain) (e : SizeExpr) : List SizeExpr :=
  (c.leaves e).flatMap fun leaf => c.leaves (leaf.simplifyBy drops)

/-- What a term of a sum contributes to it: a term that simplifies to a sum is taken apart. -/
def openTerm (drops : DropTest) (leaf : Signed) : List Signed :=
  if leaf.term.asValue?.isSome then [leaf]
  else if (leaf.term.simplifyBy drops).isSum then sumTerms drops leaf.negated (leaf.term.simplifyBy drops)
  else [⟨leaf.negated, leaf.term.simplifyBy drops⟩]

/-- The negation of a simplified expression. -/
def negate : SizeExpr → SizeExpr
  | .value v => match Word.neg? v with
    | some v => .value v
    | none => .neg (.value v)
  | .neg x => x
  | x => .neg x

variable {a b e x : SizeExpr}

theorem nodes_simplifyBy (drops : DropTest) (e : SizeExpr) : (e.simplifyBy drops).nodes ≤ e.nodes :=
  nodes_simplifyN drops _ e

theorem simplifyBy_value (v : Int32) : (SizeExpr.value v).simplifyBy drops = .value v := rfl

theorem simplifyBy_sym (s : Symbol) : (SizeExpr.sym s).simplifyBy drops = .sym s := rfl

theorem simplifyBy_neg : (SizeExpr.neg x).simplifyBy drops = (x.simplifyBy drops).negate := by
  rw [← simplifyN_eq (n := 2 * (SizeExpr.neg x).nodes + 1) (by omega), simplifyN,
    simplifyN_eq (e := x) (by simp only [nodes]; omega)]
  cases x.simplifyBy drops <;> rfl

theorem sumTerms_eq (negated : Bool) (he : e.isSum = true) :
    sumTerms drops negated e = (sumLeaves negated e).flatMap (openTerm drops) := by
  have hpos := e.nodes_pos
  obtain ⟨n, hn⟩ : ∃ n, 2 * e.nodes = n + 1 := ⟨2 * e.nodes - 1, by omega⟩
  rw [sumTerms, hn, sumTermsN]
  refine List.flatMap_congr fun leaf hleaf => ?_
  rw [openTerm]
  split
  · rfl
  · next hvalue =>
    have hlt := (nodes_lt_of_mem_sumLeaves he hleaf).resolve_left hvalue
    have hnodes := nodes_simplifyBy drops leaf.term
    dsimp only
    rw [simplifyN_eq (n := n) (by omega)]
    split
    · next hagain =>
      exact (stable (leaf.term.simplifyBy drops).nodes).sum _ _ _ _ (Nat.le_refl _) hagain (by omega) (by omega)
    · rfl

theorem chainTermsN_eq (c : Chain) {n : Nat} (h : 2 * (c.apply a b).nodes ≤ n) :
    chainTermsN drops n c (c.apply a b) = chainTerms drops c (c.apply a b) := by
  have hpos := (c.apply a b).nodes_pos
  obtain ⟨n, rfl⟩ : ∃ i, n = i + 1 := ⟨n - 1, by omega⟩
  rw [chainTermsN, chainTerms]
  refine List.flatMap_congr fun leaf hleaf => ?_
  have hlt := nodes_lt_of_mem_leaves hleaf
  rw [simplifyN_eq (by omega)]

theorem simplifyBy_add : (SizeExpr.add a b).simplifyBy drops =
    simplifySum (.add a b) (sumTerms drops false (.add a b)) := by
  rw [← simplifyN_eq (n := 2 * (SizeExpr.add a b).nodes + 1) (by omega), simplifyN, sumTerms]

theorem simplifyBy_sub : (SizeExpr.sub a b).simplifyBy drops =
    simplifySum (.sub a b) (sumTerms drops false (.sub a b)) := by
  rw [← simplifyN_eq (n := 2 * (SizeExpr.sub a b).nodes + 1) (by omega), simplifyN, sumTerms]

theorem simplifyBy_mul : (SizeExpr.mul a b).simplifyBy drops =
    simplifyProduct (.mul a b) (chainTerms drops .mul (.mul a b)) := by
  rw [← simplifyN_eq (n := 2 * (SizeExpr.mul a b).nodes + 1) (by omega), simplifyN]
  exact congrArg _ (chainTermsN_eq .mul (Nat.le_refl _))

theorem simplifyBy_div : (SizeExpr.div a b).simplifyBy drops =
    simplifyQuotient (simplifyBy drops) (a.simplifyBy drops) (b.simplifyBy drops) := by
  have ha := nodes_simplifyBy drops a
  have hb := nodes_simplifyBy drops b
  rw [← simplifyN_eq (n := 2 * (SizeExpr.div a b).nodes + 1) (by omega), simplifyN]
  simp only [nodes]
  rw [simplifyN_eq (e := a) (by omega), simplifyN_eq (e := b) (by omega)]
  exact simplifyQuotient_congr fun e h => simplifyN_eq (by omega)

theorem simplifyBy_extremum (largest : Bool) : (extremum largest a b).simplifyBy drops =
    simplifyExtremum drops largest (chainTerms drops (extremumChain largest) (extremum largest a b)) := by
  have hchain := @chainTermsN_eq drops a b (extremumChain largest) _ (Nat.le_refl _)
  rw [apply_extremumChain] at hchain
  rw [← simplifyN_eq (n := 2 * (extremum largest a b).nodes + 1) (by omega), ← hchain]
  cases largest <;> exact simplifyN.eq_def ..

theorem simplifyBy_broadcast : (SizeExpr.broadcast a b).simplifyBy drops =
    simplifyBroadcast (chainTerms drops .broadcast (.broadcast a b)) := by
  rw [← simplifyN_eq (n := 2 * (SizeExpr.broadcast a b).nodes + 1) (by omega), simplifyN]
  exact congrArg _ (chainTermsN_eq .broadcast (Nat.le_refl _))

end TensorGraph.SizeExpr
