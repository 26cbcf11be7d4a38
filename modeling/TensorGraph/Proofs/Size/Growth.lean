import TensorGraph.Proofs.Size.Simplification

/-!
# Simplification makes no expression larger

The bulk of the operands of a chain is one more than the number of its nodes, and a sum costs one node more if no
term is added. Simplification keeps or lowers both, at every depth. Main statement: `nodes_simplifyN`.
-/

namespace TensorGraph.SizeExpr

/-! ## The bulk of operands -/

/-- How many nodes the operands of a chain have, with one for each operand. -/
def bulk : List SizeExpr → Nat
  | [] => 0
  | e :: es => e.nodes + 1 + bulk es

@[simp] theorem bulk_nil : bulk [] = 0 := rfl

@[simp] theorem bulk_cons (e : SizeExpr) (es : List SizeExpr) : bulk (e :: es) = e.nodes + 1 + bulk es := rfl

@[simp] theorem bulk_append (es fs : List SizeExpr) : bulk (es ++ fs) = bulk es + bulk fs := by
  induction es with
  | nil => simp
  | cons e es ih => rw [List.cons_append, bulk_cons, ih, bulk_cons, Nat.add_assoc (e.nodes + 1)]

theorem nodes_pos (e : SizeExpr) : 0 < e.nodes := by
  cases e <;> simp [nodes]

theorem bulk_perm {es fs : List SizeExpr} (h : es.Perm fs) : bulk es = bulk fs := by
  induction h with
  | nil => rfl
  | cons e h ih => rw [bulk_cons, ih, bulk_cons]
  | swap a b es =>
    simp only [bulk_cons]
    omega
  | trans hab hbc ihab ihbc => exact ihab.trans ihbc

theorem bulk_sublist {es fs : List SizeExpr} (h : es.Sublist fs) : bulk es ≤ bulk fs := by
  induction h with
  | slnil => simp
  | cons e h ih => simp; omega
  | cons_cons e h ih => simpa using ih

/-- An operand that is dropped takes its bulk with it. -/
theorem bulk_of_notMem {α : Type} (f : α → SizeExpr) {xs ys : List α} {x : α} (h : xs.Sublist ys) (hx : x ∈ ys)
    (hdrop : x ∉ xs) : bulk (xs.map f) + ((f x).nodes + 1) ≤ bulk (ys.map f) := by
  induction h with
  | slnil => simp at hx
  | @cons xs ys y h ih =>
    rcases List.mem_cons.1 hx with rfl | hx
    · have := bulk_sublist (h.map f)
      simp
      omega
    · have := ih hx hdrop
      simp
      omega
  | @cons_cons xs ys y h ih =>
    simp only [List.mem_cons, not_or] at hx hdrop
    have := ih (hx.resolve_left hdrop.1) hdrop.2
    simp
    omega

theorem bulk_leaves (c : Chain) (e : SizeExpr) : bulk (c.leaves e) = e.nodes + 1 := by
  refine Chain.leaves_induct (P := fun e es => bulk es = e.nodes + 1) (fun e _ => ?_) (fun a b ha hb => ?_) e
  · simp
  · rw [bulk_append, ha, hb, Chain.nodes_apply]
    omega

theorem bulk_flatMap {es : List SizeExpr} {f : SizeExpr → List SizeExpr} (h : ∀ e ∈ es, bulk (f e) ≤ e.nodes + 1) :
    bulk (es.flatMap f) ≤ bulk es := by
  induction es with
  | nil => simp
  | cons e es ih =>
    obtain ⟨he, hes⟩ := List.forall_mem_cons.1 h
    have := ih hes
    simp only [List.flatMap_cons, bulk_append, bulk_cons]
    omega

theorem nodes_foldl (c : Chain) (es : List SizeExpr) (acc : SizeExpr) :
    (es.foldl c.apply acc).nodes = acc.nodes + bulk es := by
  induction es generalizing acc with
  | nil => simp
  | cons e es ih =>
    rw [List.foldl_cons, ih, Chain.nodes_apply, bulk_cons]
    omega

theorem nodes_product {es : List SizeExpr} (h : es ≠ []) : (product es).nodes + 1 = bulk es := by
  cases es with
  | nil => exact absurd rfl h
  | cons e es =>
    have hnodes : (es.foldl SizeExpr.mul e).nodes = e.nodes + bulk es := nodes_foldl .mul es e
    rw [product, hnodes, bulk_cons]
    omega

/-- The product of no factors takes one node, like every constant. -/
theorem nodes_product_le {es : List SizeExpr} {n : Nat} (h : bulk es ≤ n + 1) (hn : 0 < n) :
    (product es).nodes ≤ n := by
  by_cases hes : es = []
  · subst hes
    exact hn
  · have := nodes_product hes
    omega

/-! ## Products -/

/-- What the constant of a product costs: nothing, a sign, or a factor. -/
def constantCost (c : Int32) : Nat := if c = 1 then 0 else if c = -1 then 1 else 2

theorem constantCost_neg {c d : Int32} (h : Word.neg? c = some d) : constantCost d ≤ constantCost c + 1 := by
  have hd : d.toInt = -c.toInt := Word.ofInt?_eq_some_iff.1 h
  have hone : (1 : Int32).toInt = 1 := rfl
  have hminus : (-1 : Int32).toInt = -1 := rfl
  simp only [constantCost, ← Int32.toInt_inj, hone, hminus]
  split_ifs <;> omega

theorem bulk_splitStep {acc acc' : Int32 × List SizeExpr} {e : SizeExpr} (h : splitFactors.step acc e = some acc') :
    bulk acc'.2 + constantCost acc'.1 ≤ bulk acc.2 + constantCost acc.1 + (e.nodes + 1) := by
  have hother (hstep : splitFactors.step acc e = some (acc.1, acc.2 ++ [e])) :
      bulk acc'.2 + constantCost acc'.1 ≤ bulk acc.2 + constantCost acc.1 + (e.nodes + 1) := by
    cases hstep.symm.trans h
    simp
    omega
  cases e with
  | value v =>
    obtain ⟨c, -, rfl⟩ := Option.map_eq_some_iff.1 h
    have : constantCost c ≤ 2 := by
      unfold constantCost
      split
      · omega
      · split <;> omega
    simp only [nodes]
    omega
  | neg x =>
    obtain ⟨c, hc, rfl⟩ := Option.map_eq_some_iff.1 h
    have := constantCost_neg hc
    simp [nodes]
    omega
  | _ => exact hother rfl

theorem bulk_splitFactors {factors rest : List SizeExpr} {c : Int32} (h : splitFactors factors = some (c, rest)) :
    bulk rest + constantCost c ≤ bulk factors := by
  refine splitFactors_induct (P := fun read acc => bulk acc.2 + constantCost acc.1 ≤ bulk read)
    (by simp [constantCost]) (fun read acc e acc' _ hacc hstep => ?_) h
  have hnext := bulk_splitStep hstep
  simp only [bulk_append, bulk_cons, bulk_nil]
  omega

theorem nodes_simplifyProduct {whole : SizeExpr} {factors : List SizeExpr} (h : bulk factors ≤ whole.nodes + 1) :
    (simplifyProduct whole factors).nodes ≤ whole.nodes := by
  have hpos := whole.nodes_pos
  unfold simplifyProduct
  split
  · exact Nat.le_refl _
  · next c rest hsplit =>
    have hcost := bulk_splitFactors hsplit
    rw [← bulk_perm (sortTerms_perm rest)] at hcost
    dsimp only
    split
    · exact hpos
    · split
      · exact nodes_product_le (by omega) hpos
      · next hone =>
        split
        · next hminus =>
          -- The sign in front takes the one node that the constant has cost.
          have hsign : constantCost c = 1 := by
            subst hminus
            rfl
          split
          · exact hpos
          · next e hne =>
            have hrest : SizeExpr.sortTerms rest ≠ [] := fun hnil => hne 1 (by rw [hnil]; rfl)
            have hproduct := nodes_product hrest
            simp only [nodes]
            omega
        · next hminus =>
          have hfactor : constantCost c = 2 := by simp [constantCost, hone, hminus]
          have hnodes : ((SizeExpr.sortTerms rest).foldl SizeExpr.mul (.value c)).nodes =
              1 + bulk (SizeExpr.sortTerms rest) := nodes_foldl .mul _ _
          omega

/-! ## Extrema and broadcasts -/

theorem bulk_keepTerm (kept : List SizeExpr) (e : SizeExpr) :
    bulk (keepTerm kept e) ≤ bulk kept + (e.nodes + 1) := by
  unfold keepTerm
  split <;> simp

theorem bulk_dedupTerms (es : List SizeExpr) : bulk (dedupTerms es) ≤ bulk es := by
  have hfold : ∀ (es kept : List SizeExpr), bulk (es.foldl keepTerm kept) ≤ bulk kept + bulk es := by
    intro es
    induction es with
    | nil => simp
    | cons e es ih =>
      intro kept
      have := ih (keepTerm kept e)
      have := bulk_keepTerm kept e
      simp only [List.foldl_cons, bulk_cons]
      omega
  simpa [dedupTerms] using hfold es []

theorem bulk_extremumRest (es : List SizeExpr) :
    bulk (extremumRest es) ≤ bulk (es.filter (·.asValue?.isNone)) := by
  rw [extremumRest, bulk_perm (sortTerms_perm _)]
  exact bulk_dedupTerms _

theorem bulk_extremumOperands (drops : DropTest) (largest : Bool) (es : List SizeExpr) :
    bulk (extremumOperands drops largest es) ≤ bulk es := by
  have hrest := bulk_extremumRest es
  have hfilter := bulk_sublist (List.filter_sublist (p := fun e : SizeExpr => e.asValue?.isNone) (l := es))
  have hconst := isConstant_extremumConstant largest es
  rw [extremumOperands]
  cases hc : extremumConstant largest es with
  | none =>
    simp
    omega
  | some c =>
    rw [hc] at hconst
    have hdropped := bulk_of_notMem id (List.filter_sublist (p := fun e : SizeExpr => e.asValue?.isNone)) hconst.1
      (by simp [asValue?])
    rw [List.map_id, List.map_id] at hdropped
    cases hdrops : drops largest (extremumRest es) c <;> simp [Option.filter, hdrops] <;>
      simp only [id, nodes] at hdropped ⊢ <;> omega

theorem nodes_simplifyExtremum {drops : DropTest} {largest : Bool} {es : List SizeExpr} {n : Nat}
    (h : bulk es ≤ n + 1) (hn : 0 < n) : (simplifyExtremum drops largest es).nodes ≤ n := by
  have hops := bulk_extremumOperands drops largest es
  unfold simplifyExtremum
  split
  · next e es' heq =>
    rw [← apply_extremumChain, nodes_foldl]
    rw [heq, bulk_cons] at hops
    omega
  · exact hn

theorem nodes_simplifyBroadcast {es : List SizeExpr} {n : Nat} (h : bulk es ≤ n + 1) (hn : 0 < n) :
    (simplifyBroadcast es).nodes ≤ n := by
  have hterms : bulk (dedupTerms (es.filter fun e => !e.alike (.value 1))) ≤ bulk es :=
    (bulk_dedupTerms _).trans (bulk_sublist List.filter_sublist)
  unfold simplifyBroadcast
  dsimp only
  generalize dedupTerms (es.filter fun e => !e.alike (.value 1)) = terms at hterms
  split
  · next fixed hfixed =>
    have hmem : fixed ∈ terms.filter (·.asValue?.isSome) := hfixed ▸ List.mem_singleton_self fixed
    obtain ⟨v, hv⟩ := Option.isSome_iff_exists.1 (List.mem_filter.1 hmem).2
    rw [eq_value_of_asValue? hv]
    exact hn
  · rw [← bulk_perm (sortTerms_perm terms)] at hterms
    split
    · exact hn
    · next e es' heq =>
      have hnodes : (es'.foldl SizeExpr.broadcast e).nodes = e.nodes + bulk es' := nodes_foldl .broadcast es' e
      rw [heq, bulk_cons] at hterms
      omega

/-! ## Quotients -/

theorem nodes_reducedQuotient (a b : SizeExpr) : (reducedQuotient a b).nodes ≤ a.nodes + b.nodes + 1 := by
  unfold reducedQuotient
  split
  · omega
  · split
    · simp [nodes]
    · split
      · split <;> simp [nodes]
      · simp [nodes]

theorem nodes_simplifyQuotient {f : SizeExpr → SizeExpr} {a b : SizeExpr}
    (hf : ∀ e : SizeExpr, e.nodes ≤ Max.max a.nodes b.nodes → (f e).nodes ≤ e.nodes) :
    (simplifyQuotient f a b).nodes ≤ a.nodes + b.nodes + 1 := by
  unfold simplifyQuotient
  split
  · omega
  · split
    · simp [nodes]
    · split
      · simp [nodes]
      · obtain ⟨-, hsuba, hsubb⟩ := cancelFactors_spec (fun _ => none) (Chain.mul.leaves a) (Chain.mul.leaves b)
        dsimp only
        split
        · have hnum := nodes_product_le ((bulk_sublist hsuba).trans_eq (bulk_leaves .mul a)) a.nodes_pos
          have hden := nodes_product_le ((bulk_sublist hsubb).trans_eq (bulk_leaves .mul b)) b.nodes_pos
          have hquot := nodes_reducedQuotient (f (product (cancelFactors (Chain.mul.leaves a) (Chain.mul.leaves b)).1))
            (f (product (cancelFactors (Chain.mul.leaves a) (Chain.mul.leaves b)).2))
          have hsnum := hf _ (hnum.trans (Nat.le_max_left _ _))
          have hsden := hf _ (hden.trans (Nat.le_max_right _ _))
          omega
        · exact nodes_reducedQuotient a b

/-! ## Sums -/

/-- The nodes that a sum needs for its terms, and one more: one for each term, and a negation if none is added. -/
def sumCost (negated : Bool) (terms : List Signed) : Nat :=
  bulk (terms.map (·.term)) + if terms.all (·.negated != negated) then 1 else 0

theorem bulk_le_sumCost (negated : Bool) (terms : List Signed) :
    bulk (terms.map (·.term)) ≤ sumCost negated terms := Nat.le_add_right _ _

theorem sumCost_le (negated : Bool) (terms : List Signed) : sumCost negated terms ≤ bulk (terms.map (·.term)) + 1 := by
  unfold sumCost
  split_ifs <;> omega

theorem sumCost_append_le (negated : Bool) (ts us : List Signed) :
    sumCost negated (ts ++ us) ≤ sumCost negated ts + bulk (us.map (·.term)) := by
  simp only [sumCost, List.map_append, bulk_append, List.all_append]
  split
  · next hall =>
    rw [if_pos (Bool.and_eq_true_iff.1 hall).1]
    omega
  · split <;> omega

theorem sumCost_cons (negated : Bool) (t : Signed) (ts : List Signed) :
    sumCost negated (t :: ts) =
      t.term.nodes + 1 + if t.negated = negated then bulk (ts.map (·.term)) else sumCost negated ts := by
  by_cases h : t.negated = negated
  · simp [sumCost, h]
  · simp [sumCost, h]
    omega

theorem sumCost_sumLeaves (negated : Bool) (e : SizeExpr) : sumCost negated (sumLeaves negated e) ≤ e.nodes + 1 := by
  have hsplit (e : SizeExpr) (b : Bool) (h : sumCost b (sumLeaves b e) ≤ e.nodes + 1) :
      bulk ((sumLeaves b e).map (·.term)) ≤ e.nodes + 1 := (bulk_le_sumCost b _).trans h
  induction e generalizing negated with
  | neg x ih =>
    have hx := hsplit x _ (ih (!negated))
    have hsign := sumCost_le negated (sumLeaves (!negated) x)
    simp only [sumLeaves, nodes]
    omega
  | add a b iha ihb =>
    have ha := iha negated
    have hb := hsplit b _ (ihb negated)
    have happend := sumCost_append_le negated (sumLeaves negated a) (sumLeaves negated b)
    simp only [sumLeaves, nodes]
    omega
  | sub a b iha ihb =>
    have ha := iha negated
    have hb := hsplit b _ (ihb (!negated))
    have happend := sumCost_append_le negated (sumLeaves negated a) (sumLeaves (!negated) b)
    simp only [sumLeaves, nodes]
    omega
  | _ => simp [sumLeaves, sumCost]

theorem bulk_flatMap_terms {ts : List Signed} {f : Signed → List Signed}
    (h : ∀ t ∈ ts, sumCost t.negated (f t) ≤ t.term.nodes + 1) :
    bulk ((ts.flatMap f).map (·.term)) ≤ bulk (ts.map (·.term)) := by
  induction ts with
  | nil => simp
  | cons t ts ih =>
    obtain ⟨ht, hts⟩ := List.forall_mem_cons.1 h
    have ih := ih hts
    have hterms := (bulk_le_sumCost t.negated (f t)).trans ht
    simp only [List.flatMap_cons, List.map_append, bulk_append, List.map_cons, bulk_cons]
    omega

theorem sumCost_flatMap (negated : Bool) {ts : List Signed} {f : Signed → List Signed}
    (h : ∀ t ∈ ts, sumCost t.negated (f t) ≤ t.term.nodes + 1) :
    sumCost negated (ts.flatMap f) ≤ sumCost negated ts := by
  induction ts with
  | nil => simp
  | cons t ts ih =>
    obtain ⟨ht, hts⟩ := List.forall_mem_cons.1 h
    have ih := ih hts
    have hmore := bulk_flatMap_terms hts
    have happend := sumCost_append_le negated (f t) (ts.flatMap f)
    rw [List.flatMap_cons, sumCost_cons]
    split
    · next hsign =>
      rw [hsign] at ht
      omega
    · -- With the other sign, a leaf may still give terms with this one; otherwise the later leaves decide.
      have hterms := (bulk_le_sumCost t.negated (f t)).trans ht
      simp only [sumCost, List.map_append, bulk_append, List.all_append] at ih ⊢
      split_ifs at ih ⊢ <;> simp_all <;> omega

/-- The nodes of a sum that may still be empty, and one more. -/
def sumNodes : Option SizeExpr → Nat
  | some a => a.nodes + 1
  | none => 0

theorem sumNodes_foldl_plus (acc : Option SizeExpr) (es : List SizeExpr) :
    sumNodes (es.foldl plus acc) = sumNodes acc + bulk es := by
  induction es generalizing acc with
  | nil => rfl
  | cons e es ih =>
    rw [List.foldl_cons, ih, bulk_cons]
    cases acc <;> simp [plus, sumNodes, nodes]
    omega

theorem sumNodes_foldl_minus (acc : Option SizeExpr) (es : List SizeExpr) :
    sumNodes (es.foldl minus acc) ≤ sumNodes acc + bulk es + if acc = none then 1 else 0 := by
  induction es generalizing acc with
  | nil => simp
  | cons e es ih =>
    have := ih (minus acc e)
    rw [List.foldl_cons, bulk_cons]
    cases acc <;> simp [minus, sumNodes, nodes] at this ⊢ <;> omega

theorem nodes_addNegative (c : Int32) (a : SizeExpr) : (addNegative c a).nodes = a.nodes + 2 := by
  unfold addNegative
  split <;> simp [nodes]

theorem nodes_getD {acc : Option SizeExpr} {n : Nat} (hn : 0 < n) (h : sumNodes acc ≤ n + 1) :
    (acc.getD (.value 0)).nodes ≤ n := by
  cases acc with
  | none => exact hn
  | some a => exact Nat.le_of_succ_le_succ h

theorem sumNodes_map_addNegative (c : Int32) (acc : Option SizeExpr) :
    sumNodes (acc.map (addNegative c)) ≤ sumNodes acc + 2 := by
  cases acc with
  | none => exact Nat.zero_le _
  | some a => simp [sumNodes, nodes_addNegative]

/-- The terms of a sum take their bulk, and one node more if the first of them is subtracted. -/
theorem sumNodes_terms (start : Option SizeExpr) (added subtracted : List SizeExpr) :
    sumNodes (subtracted.foldl minus (added.foldl plus start)) ≤
      sumNodes start + bulk added + bulk subtracted + if start = none ∧ added = [] then 1 else 0 := by
  have hplus := sumNodes_foldl_plus start added
  have hminus := sumNodes_foldl_minus (added.foldl plus start) subtracted
  by_cases h : start = none ∧ added = []
  · obtain ⟨rfl, rfl⟩ := h
    simpa [sumNodes] using hminus
  · have hsome : (added.foldl plus start).isSome := isSome_foldl_plus (by
      rw [Option.isSome_iff_ne_none]
      exact not_and_or.1 h)
    rw [if_neg (Option.isSome_iff_ne_none.1 hsome)] at hminus
    rw [if_neg h]
    omega

/-- A sum takes its terms, two nodes for a constant, and one for a sign in front. -/
theorem nodes_buildSum {c : Int32} {added subtracted : List SizeExpr} {n : Nat} (hn : 0 < n)
    (hterms : bulk added + bulk subtracted ≤ n + 1)
    (hconst : c ≠ 0 → bulk added + bulk subtracted + 2 ≤ n + 1)
    (hsign : added = [] → bulk subtracted + 1 ≤ n + 1) : (buildSum c added subtracted).nodes ≤ n := by
  refine nodes_getD hn ?_
  by_cases hlast : c < 0 ∧ added ≠ []
  · -- The constant comes last, after a sum that starts with an added term.
    obtain ⟨hneg, hne⟩ := hlast
    have hpos : ¬ 0 < c := fun h => Int32.lt_irrefl (Int32.lt_trans h hneg)
    have hcost := hconst fun h => Int32.lt_irrefl (h ▸ hneg)
    have hacc := sumNodes_terms none added subtracted
    have hmap := sumNodes_map_addNegative c (subtracted.foldl minus (added.foldl plus none))
    simp [hneg, hne, hpos, sumNodes] at hacc hmap ⊢
    omega
  · -- The constant, if there is one, is what the sum starts with.
    have hacc := sumNodes_terms (if 0 < c || (c < 0 && added.isEmpty) then some (.value c) else none) added subtracted
    have hend : (decide (c < 0) && !added.isEmpty) = false := by simpa using hlast
    simp only [hend, Bool.false_eq_true, if_false]
    refine hacc.trans ?_
    split_ifs with hstart hempty hempty
    · cases hempty.1
    · have hcost := hconst fun h => by simp [h] at hstart
      simp only [sumNodes, nodes]
      omega
    · have hcost := hsign hempty.2
      simp only [sumNodes, hempty.2, bulk_nil]
      omega
    · simp only [sumNodes]
      omega

theorem cancelOpposites_sublist (terms : List Signed) : (cancelOpposites terms).Sublist terms := by
  fun_induction cancelOpposites terms with
  | case1 => exact .refl _
  | case2 t ts j hj ih => exact (ih.trans (List.eraseIdx_sublist ts j)).cons t
  | case3 t ts hnone ih => exact ih.cons_cons t

theorem exists_constant_of_constantSum {terms : List Signed} {c : Int32} (h : constantSum terms = some c) (hc : c ≠ 0) :
    ∃ t ∈ terms, t.term.asValue?.isSome := by
  by_contra hnone
  have hsum := constantSum_eq_some (ρ := fun _ => none) h
  rw [List.filter_eq_nil_iff.2 fun t ht => fun hv => hnone ⟨t, ht, hv⟩] at hsum
  exact hc (Int32.toInt_inj.1 hsum)

theorem nodes_simplifySum {whole : SizeExpr} {terms : List Signed} (h : sumCost false terms ≤ whole.nodes + 1) :
    (simplifySum whole terms).nodes ≤ whole.nodes := by
  have hbulk := (bulk_le_sumCost false terms).trans h
  unfold simplifySum
  split
  · exact Nat.le_refl _
  · next c hc =>
    dsimp only
    have hsub : (cancelOpposites (terms.filter fun t => t.term.asValue?.isNone)).Sublist
        (terms.filter fun t => t.term.asValue?.isNone) := cancelOpposites_sublist _
    generalize cancelOpposites (terms.filter fun t => t.term.asValue?.isNone) = rest at hsub
    have hterms := hsub.trans List.filter_sublist
    have hkeep := bulk_sublist (hterms.map (·.term))
    have hsigns := bulk_perm ((List.filter_append_perm (·.negated) rest).map (·.term))
    rw [List.map_append, bulk_append] at hsigns
    refine nodes_buildSum whole.nodes_pos ?_ (fun hc0 => ?_) fun hempty => ?_
    · rw [bulk_perm (sortTerms_perm _), bulk_perm (sortTerms_perm _)]
      omega
    · -- A constant takes the place of a constant term.
      obtain ⟨t, ht, hvalue⟩ := exists_constant_of_constantSum hc hc0
      have hdropped := bulk_of_notMem (·.term) hterms ht fun hmem => by
        have hnone := (List.mem_filter.1 (hsub.subset hmem)).2
        simp_all
      have hpos := t.term.nodes_pos
      rw [bulk_perm (sortTerms_perm _), bulk_perm (sortTerms_perm _)]
      omega
    · have hnone : rest.filter (!·.negated) = [] := by
        have hperm := sortTerms_perm ((rest.filter (!·.negated)).map (·.term))
        rw [hempty] at hperm
        exact List.map_eq_nil_iff.1 hperm.symm.eq_nil
      rw [bulk_perm (sortTerms_perm _)]
      rw [hnone, List.map_nil, bulk_nil] at hsigns
      by_cases hall : terms.all (·.negated != false) = true
      · rw [sumCost, if_pos hall] at h
        omega
      · -- No term is added any more, so one was cancelled, and its place is enough for the sign in front.
        obtain ⟨t, ht, hsign⟩ : ∃ t ∈ terms, t.negated = false := by simpa using hall
        have hdropped := bulk_of_notMem (·.term) hterms ht fun hmem => by
          have hfilter : t ∈ rest.filter (!·.negated) := List.mem_filter.2 ⟨hmem, by simp [hsign]⟩
          rw [hnone] at hfilter
          cases hfilter
        omega

/-! ## Every depth -/

variable {drops : DropTest}

/-- What simplification of depth `n` does not make larger: expressions, sums and chains. -/
structure Shrinks (drops : DropTest) (n : Nat) : Prop where
  whole : ∀ e, (simplifyN drops n e).nodes ≤ e.nodes
  sum : ∀ negated e, sumCost negated (sumTermsN drops n negated e) ≤ e.nodes + 1
  chain : ∀ c e, bulk (chainTermsN drops n c e) ≤ e.nodes + 1

theorem shrinks_zero : Shrinks drops 0 where
  whole e := by rw [simplifyN]
  sum negated e := by
    rw [sumTermsN]
    exact sumCost_sumLeaves negated e
  chain c e := by
    rw [chainTermsN, bulk_leaves]

section
variable {n : Nat} (ih : Shrinks drops n)
include ih

theorem nodes_step (e : SizeExpr) : (simplifyN drops (n + 1) e).nodes ≤ e.nodes := by
  cases e with
  | value v => rw [simplifyN]
  | sym s => rw [simplifyN]
  | neg x =>
    have hx := ih.whole x
    rw [simplifyN]
    split
    · split
      · simp [nodes]
      · exact Nat.succ_le_succ x.nodes_pos
    · next y hy =>
      rw [hy] at hx
      simp only [nodes] at hx ⊢
      omega
    · simpa [nodes] using hx
  | add a b => exact nodes_simplifySum (ih.sum false (.add a b))
  | sub a b => exact nodes_simplifySum (ih.sum false (.sub a b))
  | mul a b => exact nodes_simplifyProduct (ih.chain .mul (.mul a b))
  | div a b =>
    have ha := ih.whole a
    have hb := ih.whole b
    have hquot := nodes_simplifyQuotient (f := simplifyN drops n) (a := simplifyN drops n a)
      (b := simplifyN drops n b) fun e _ => ih.whole e
    simp only [simplifyN, nodes]
    omega
  | max a b => exact nodes_simplifyExtremum (ih.chain .max (.max a b)) (nodes_pos _)
  | min a b => exact nodes_simplifyExtremum (ih.chain .min (.min a b)) (nodes_pos _)
  | broadcast a b => exact nodes_simplifyBroadcast (ih.chain .broadcast (.broadcast a b)) (nodes_pos _)

theorem shrinks_step : Shrinks drops (n + 1) where
  whole := nodes_step ih
  sum negated e := by
    rw [sumTermsN]
    refine (sumCost_flatMap negated fun leaf _ => ?_).trans (sumCost_sumLeaves negated e)
    dsimp only
    have hleaf := ih.whole leaf.term
    split
    · simp [sumCost]
    · split
      · -- A term that has become a sum is taken apart in its turn. It has no more nodes than it had.
        exact (ih.sum leaf.negated _).trans (by omega)
      · simpa [sumCost] using hleaf
  chain c e := by
    rw [chainTermsN]
    refine (bulk_flatMap fun leaf _ => ?_).trans_eq (bulk_leaves c e)
    rw [bulk_leaves]
    exact Nat.succ_le_succ (ih.whole leaf)

end

theorem shrinks (n : Nat) : Shrinks drops n := by
  induction n with
  | zero => exact shrinks_zero
  | succ n ih => exact shrinks_step ih

/-- Simplification makes no expression larger. -/
theorem nodes_simplifyN (drops : DropTest) (n : Nat) (e : SizeExpr) : (simplifyN drops n e).nodes ≤ e.nodes :=
  (shrinks n).whole e

end TensorGraph.SizeExpr
