import TensorGraph.Proofs.Rewrite.Chains

/-!
# How many scalar functions a graph has

Fusion of elementwise operators copies no function: a fused expression has no more functions than the operators that it
replaces, and however many chains are fused, the graph has no more than before
(`Rules.functionCount_le_of_elementwiseFusion`).
-/

namespace TensorGraph

open Relation

/-- The number of scalar functions that are applied to each element. -/
def Operator.functionCount : Operator → Nat
  | .elementwise _ => 1
  | .fused op => op.expr.opCount
  | _ => 0

namespace Graph

variable {g : Graph} {ids : List NodeId}

/-- The number of scalar functions of one operator of a graph. -/
def functionCountAt (g : Graph) (id : NodeId) : Nat := ((g.operator? id).map (·.op.functionCount)).getD 0

/-- The number of scalar functions of some operators. -/
def functionCountOf (g : Graph) (ids : List NodeId) : Nat := total (ids.map g.functionCountAt)

/-- The number of scalar functions of all operators. -/
def functionCount (g : Graph) : Nat := g.functionCountOf g.operatorIds

theorem functionCountAt_of_operator? {id : NodeId} {op : OperatorNode} (h : g.operator? id = some op) :
    g.functionCountAt id = op.op.functionCount := by
  rw [functionCountAt, h]
  rfl

theorem functionCountOf_append (ids ids' : List NodeId) :
    g.functionCountOf (ids ++ ids') = g.functionCountOf ids + g.functionCountOf ids' := by
  rw [functionCountOf, List.map_append, total_append]
  rfl

theorem functionCountOf_flatMap {α : Type} (f : α → List NodeId) (l : List α) :
    g.functionCountOf (l.flatMap f) = total (l.map fun a => g.functionCountOf (f a)) := by
  induction l with
  | nil => rfl
  | cons a l ih => rw [List.flatMap_cons, functionCountOf_append, ih, List.map_cons, total]

/-- Some operators and the others have the functions of the graph. -/
theorem functionCount_eq_filter (p : NodeId → Bool) : g.functionCount =
    g.functionCountOf (g.operatorIds.filter p) + g.functionCountOf (g.operatorIds.filter fun id => !p id) := by
  rw [← functionCountOf_append]
  exact (total_perm ((List.filter_append_perm p g.operatorIds).map _)).symm

end Graph

/-! ## One fusion -/

theorem Fusion.Checked.functionCount_le {f : Fusion} {g : Graph} {removed : List NodeId} (hg : g.Indexed)
    (h : f.Checked g removed) (hop : f.op.functionCount ≤ g.functionCountOf removed) :
    (f.apply g removed).functionCount ≤ g.functionCount := by
  have hnew : (f.apply g removed).functionCountAt (newId g removed) = f.op.functionCount :=
    Graph.functionCountAt_of_operator? ((Fusion.operator?_apply hg).trans (if_pos rfl))
  have hstay {id : NodeId} (hid : id ≠ newId g removed) : (f.apply g removed).operator? id =
      if id ∈ removed then none else g.operator? id :=
    (Fusion.operator?_apply hg).trans (if_neg hid)
  -- After the fusion there are the new operator and those that it did not replace.
  set stay := g.operatorIds.filter fun id => !removed.contains id
  have hsub : (f.apply g removed).operatorIds ⊆ newId g removed :: stay := by
    intro id hid
    rw [Graph.mem_operatorIds] at hid
    by_cases hne : id = newId g removed
    · exact hne ▸ List.mem_cons_self ..
    · refine List.mem_cons_of_mem _ ?_
      rw [hstay hne] at hid
      split at hid
      · cases hid
      · next hnot => exact List.mem_filter.2 ⟨Graph.mem_operatorIds.2 hid, by simpa using hnot⟩
  have hsame : stay.map (f.apply g removed).functionCountAt = stay.map g.functionCountAt := by
    refine List.map_congr_left fun id hid => ?_
    obtain ⟨hid, hnot⟩ := List.mem_filter.1 hid
    have hnot : id ∉ removed := by simpa using hnot
    rw [Graph.functionCountAt, hstay (Fusion.ne_newId hg hnot (Graph.mem_operatorIds.1 hid)), if_neg hnot]
    rfl
  have hremoved : g.functionCountOf removed ≤ g.functionCountOf (g.operatorIds.filter removed.contains) := by
    refine total_map_subset _ (h.plans hg).nodup fun id hid => ?_
    exact List.mem_filter.2 ⟨Graph.mem_operatorIds.2 (h.isSome_operator? hg hid), by simpa using hid⟩
  calc (f.apply g removed).functionCount
      ≤ total ((newId g removed :: stay).map (f.apply g removed).functionCountAt) :=
        total_map_subset _ (Graph.nodup_operatorIds _) hsub
    _ = f.op.functionCount + g.functionCountOf stay := by rw [List.map_cons, total, hnew, hsame]; rfl
    _ ≤ g.functionCountOf (g.operatorIds.filter removed.contains) + g.functionCountOf stay :=
        Nat.add_le_add_right (hop.trans hremoved) _
    _ = g.functionCount := (Graph.functionCount_eq_filter removed.contains).symm

namespace Rules

variable {v : RewriteView} {reader id value : NodeId} {op : OperatorNode} {f : Fusable} {e : ScalarExpr}
  {u : Unfolding} {us : List Unfolding}

/-! ## Unfolded values -/

theorem Fusable.functionCount_eq {operator : Operator} (h : Fusable.ofOperator? operator = some f) :
    operator.functionCount = f.opCount := by
  unfold ofOperator? at h
  split at h
  · split at h
    · cases h
    · cases h
      rfl
  · split at h
    · cases h
    · cases h
      rfl
  · cases h

theorem opCount_output {g : Graph} (hop : g.operator? id = some op) (hf : Fusable.ofOperator? op.op = some f)
    (hinputs : f.Unfolds op.inputs us) (hexpr : f.expr? (us.map (·.expr)) = some e)
    (hus : ∀ u ∈ us, u.expr.opCount ≤ g.functionCountOf u.absorbed) :
    e.opCount ≤ g.functionCountOf (id :: us.flatMap (·.absorbed)) := by
  have hargs : e.opCount ≤ f.opCount + total ((us.map (·.expr)).map (·.opCount)) := by
    refine Fusable.opCount_of_expr? hexpr fun i a ha hrereads => ?_
    rw [List.getElem?_map] at ha
    obtain ⟨u, hu, rfl⟩ := Option.map_eq_some_iff.1 ha
    rw [hinputs.rereads i u hu hrereads]
    rfl
  calc e.opCount
      ≤ f.opCount + total (us.map (·.expr.opCount)) := by rwa [List.map_map] at hargs
    _ ≤ f.opCount + total (us.map fun u => g.functionCountOf u.absorbed) :=
        Nat.add_le_add_left (total_map_le hus) _
    _ = g.functionCountOf (id :: us.flatMap (·.absorbed)) := by
        rw [← Graph.functionCountOf_flatMap, ← Fusable.functionCount_eq hf, ← Graph.functionCountAt_of_operator? hop]
        rfl

/-- The expression for a value has no more functions than the absorbed operators. -/
theorem Unfolds.opCount_le (hg : v.graph.Indexed) (h : Unfolds v reader u) :
    u.expr.opCount ≤ v.graph.functionCountOf u.absorbed := by
  induction h with
  | read | constant | refused => exact Nat.le_refl 0
  | absorbed h hinputs hus hexpr ih =>
    have habsorb := absorbable_of_eq_some hg h
    exact opCount_output habsorb.operator habsorb.fusable hinputs hexpr ih

theorem opCount_renumber (inputs : List NodeId) (e : ScalarExpr) : (renumber inputs e).opCount = e.opCount := by
  rw [renumber, ScalarExpr.opCount_mapInputs (Nat.le_refl e.numInputs)]
  simp only [ScalarExpr.opCount, Nat.mul_zero, total_map_zero, Nat.add_zero]

theorem Chain.opCount_le (c : Chain v id op) {removed : List NodeId} (hg : v.graph.Indexed)
    (hformed : v.graph.WellFormed) (hacyclic : v.graph.Acyclic) (hop : v.graph.operator? id = some op)
    (hcheck : c.fusion.Checked v.graph removed) :
    (renumber c.inputs c.expr).opCount ≤ v.graph.functionCountOf removed := by
  have habsorbed : c.expr.opCount ≤ v.graph.functionCountOf c.unfolding.absorbed :=
    opCount_output hop c.fusable c.args_inputs c.args_expr fun u hu => (c.args_unfolds u hu).opCount_le hg
  rw [opCount_renumber]
  exact habsorbed.trans (total_map_subset _ (c.apart hg hacyclic hop).nodup fun a ha =>
    (c.mem_removed hg hformed hacyclic hop hcheck).2 ha)

/-! ## Fusions one after the other -/

/-- Whether a fusion that was proposed and admitted turns one graph into the other. Anything may be known about the
values. -/
inductive FusesElementwise (g : Graph) : Graph → Prop
  | apply {facts : InferredFacts} {id : NodeId} {op : OperatorNode} {r : Rewrite} {removed : List NodeId}
      (hop : g.operator? id = some op) (hr : elementwiseFusion.propose { graph := g, facts } id op = .rewrite r)
      (hcheck : r.check g = .ok removed) : FusesElementwise g (r.apply g removed)

/-- What holds of a proposed fusion that is admitted in a valid graph. -/
theorem exists_opCount_le {g : Graph} (hg : g.Indexed) (hvalid : g.validate = .ok ()) (facts : InferredFacts)
    (hop : g.operator? id = some op) {r : Rewrite} {removed : List NodeId}
    (hr : elementwiseFusion.propose { graph := g, facts } id op = .rewrite r) (hcheck : r.check g = .ok removed) :
    ∃ f expr, r = .fuse f ∧ f.Fits g ∧ f.Checked g removed ∧ f.op = .fused (.ofExpr expr) ∧
      expr.opCount ≤ g.functionCountOf removed := by
  obtain ⟨hformed, hacyclic⟩ := (Graph.validate_eq_ok hg).1 hvalid
  obtain ⟨c, rfl⟩ := elementwiseFusion_proposes hr
  have hchecked : c.fusion.Checked g removed := Fusion.checked_of_check hg hcheck
  exact ⟨c.fusion, _, rfl, c.fits hg hformed hacyclic hop, hchecked, rfl,
    c.opCount_le hg hformed hacyclic hop hchecked⟩

theorem FusesElementwise.step {g g' : Graph} (h : FusesElementwise g g') (hg : g.Indexed)
    (hvalid : g.validate = .ok ()) :
    g'.Indexed ∧ g'.validate = .ok () ∧ g'.functionCount ≤ g.functionCount := by
  cases h with
  | @apply facts id op r removed hop hr hcheck =>
    obtain ⟨f, expr, rfl, hfits, hchecked, hexpr, hle⟩ := exists_opCount_le hg hvalid facts hop hr hcheck
    obtain ⟨hindexed, hvalid'⟩ := hchecked.valid_apply hg hvalid hfits
    have hop : f.op.functionCount ≤ g.functionCountOf removed := by
      rw [hexpr]
      exact hle
    exact ⟨hindexed, hvalid', hchecked.functionCount_le hg hop⟩

theorem FusesElementwise.run {g g' : Graph} (h : ReflTransGen FusesElementwise g g') (hg : g.Indexed)
    (hvalid : g.validate = .ok ()) :
    g'.Indexed ∧ g'.validate = .ok () ∧ g'.functionCount ≤ g.functionCount := by
  induction h with
  | refl => exact ⟨hg, hvalid, Nat.le_refl _⟩
  | tail _ hstep ih =>
    obtain ⟨hg', hvalid', hle⟩ := ih
    obtain ⟨hg'', hvalid'', hle'⟩ := hstep.step hg' hvalid'
    exact ⟨hg'', hvalid'', hle'.trans hle⟩

/-- An admitted fusion of elementwise operators replaces operators that have at least the functions of its expression,
so that no sequence of fusions makes the number of functions in a graph larger. -/
theorem functionCount_le_of_elementwiseFusion (g : Graph) (hg : g.Indexed) (hvalid : g.validate = .ok ()) :
    (∀ facts id op r removed, g.operator? id = some op →
      elementwiseFusion.propose { graph := g, facts } id op = .rewrite r → r.check g = .ok removed →
      ∃ f expr, r = .fuse f ∧ f.op = .fused (.ofExpr expr) ∧ expr.opCount ≤ g.functionCountOf removed) ∧
    ∀ g', ReflTransGen FusesElementwise g g' → g'.functionCount ≤ g.functionCount := by
  refine ⟨fun facts id op r removed hop hr hcheck => ?_, fun g' h => (FusesElementwise.run h hg hvalid).2.2⟩
  obtain ⟨f, expr, hfuse, -, -, hexpr, hle⟩ := exists_opCount_le hg hvalid facts hop hr hcheck
  exact ⟨f, expr, hfuse, hexpr, hle⟩

theorem functionCount_le_shiftedProduct : shiftedProduct.Indexed ∧ shiftedProduct.validate = .ok () ∧
    FusesElementwise shiftedProduct (shiftedProductFusion.apply shiftedProduct [5, 6]) ∧
    (shiftedProductFusion.apply shiftedProduct [5, 6]).functionCount ≤ shiftedProduct.functionCount := by
  have hstep : FusesElementwise shiftedProduct (shiftedProductFusion.apply shiftedProduct [5, 6]) :=
    .apply operator?_shiftedProduct propose_shiftedProduct check_shiftedProduct
  exact ⟨indexed_shiftedProduct, validate_shiftedProduct, hstep, (functionCount_le_of_elementwiseFusion shiftedProduct
    indexed_shiftedProduct validate_shiftedProduct).2 _ (.single hstep)⟩

end Rules

end TensorGraph
