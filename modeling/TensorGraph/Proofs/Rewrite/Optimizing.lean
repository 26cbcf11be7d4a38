import TensorGraph.Proofs.Rewrite.Chains
import TensorGraph.Proofs.Rewrite.Passes
import TensorGraph.Proofs.Rewrite.Pruning

/-!
# Optimization keeps graphs linkable

The standard rules fit every graph that can be linked, so that each rewrite, each iteration and each phase leads to a
graph that succeeds the one before.
-/

namespace TensorGraph

theorem RuleSet.standard_fits : ∀ rule ∈ RuleSet.standard.rules, rule.Fits := by
  unfold RuleSet.standard
  simp only [List.forall_mem_cons, List.not_mem_nil, false_implies, implies_true, and_true]
  exact ⟨Rules.constantFolding_fits, Rules.merge_fits, Rules.removeIdentity_fits, Rules.uselessElementwise_fits,
    Rules.doubleNegation_fits, Rules.shapeToConstant_fits, Rules.shapeLift_fits, Rules.uselessSpecifyShape_fits,
    Rules.uselessReshape_fits, Rules.reshapeChain_fits, Rules.transposeChain_fits, Rules.uselessAssert_fits,
    Rules.removeAllAssert_fits, Rules.logSigmoid_fits, Rules.logOnePlus_fits, Rules.softmax_fits,
    Rules.elementwiseFusion_fits, Rules.inPlaceElementwise_fits⟩

theorem Graph.Succeeds.rewritten {rules : List RewriteRule} {facts : InferredFacts} {g g' g'' : Graph}
    (h : g'.Succeeds g) (hrules : ∀ rule ∈ rules, rule.Fits) (hstep : g'.RewrittenBy rules facts g'') :
    g''.Succeeds g := by
  obtain ⟨rule, hrule, id, op, r, removed, hop, hr, hcheck, rfl⟩ := hstep
  have hfits : r.Fits g' := hrules rule hrule { graph := g', facts } id op r h.linkable hop hr
  exact (Rewrite.linkable_apply h.linkable hcheck hfits).trans h

theorem RewriteState.keeps_succeeds {rules : List RewriteRule} (hrules : ∀ rule ∈ rules, rule.Fits) (g : Graph)
    (P : InferredFacts → Graph → Graph → Prop) : Keeps P rules (·.Succeeds g) fun _ _ g' => g'.Succeeds g where
  sorted _ h := h.linkable.exists_topologicalOrder
  begun _ _ _ h := h
  rewritten _ _ _ _ _ h hstep := h.rewritten hrules hstep
  ended _ _ _ h := h
  pruned _ h := h.linkable.prune.trans h

namespace Optimizer

theorem fits_of_selected {o : Optimizer} (h : o.rules = .standard) : ∀ rule ∈ o.selected, rule.Fits := by
  intro rule hrule
  apply RuleSet.standard_fits
  rw [← h]
  exact List.mem_of_mem_filter hrule

/-- The standard rules, selected by any query and tried any number of times, turn a valid graph whose outputs can be
planned from its inputs into a graph of the same kind, with the same inputs, as many outputs and no more operators. -/
theorem optimize_linkable (query : RuleQuery) (maxIterations : Nat) (level : DiagnosticLevel) (g : Graph)
    (hg : g.Indexed) (hvalid : g.validate = .ok ())
    (hplan : ∃ plan, g.executionPlan g.inputIds g.outputIds = .ok plan) :
    ∃ result, optimize { rules := .standard, query, maxIterations, level } g = .ok result ∧
      result.graph.validate = .ok () ∧ result.graph.inputIds = g.inputIds ∧
      result.graph.outputIds.length = g.outputIds.length ∧ result.graph.outputIds.Nodup ∧
      (∃ plan, result.graph.executionPlan result.graph.inputIds result.graph.outputIds = .ok plan) ∧
      result.graph.operatorCount ≤ g.operatorCount := by
  obtain ⟨plan, hplan⟩ := hplan
  obtain ⟨hlinkable, hinputs⟩ := Graph.linkable_of_plan hg hvalid hplan
  let o : Optimizer := { rules := .standard, query, maxIterations, level }
  obtain ⟨result, hresult, h⟩ := o.exists_optimize hvalid
    (RewriteState.keeps_succeeds (fits_of_selected rfl) g fun _ _ _ => True) (RewriteState.phasesMeet_true ..)
    hlinkable.succeeds
  exact ⟨result, hresult, h.linkable.validate, h.inputIds, h.outputs, h.linkable.outputs,
    h.linkable.exists_plan (h.inputIds ▸ hinputs), h.operators⟩

/-- The sum of two negations of an input. -/
def negatedTwice : Graph :=
  let values := ["x", "a", "b", "y"].foldl (fun g name => (g.addValue name none none).1) Graph.empty
  let first := (values.addOperator "first" (.elementwise { fn := .neg }) [0] [1]).1
  let second := (first.addOperator "second" (.elementwise { fn := .neg }) [0] [2]).1
  ((second.addOperator "add" (.elementwise { fn := .add }) [1, 2] [3]).1.setInputs [0]).setOutputs [3]

theorem indexed_negatedTwice : negatedTwice.Indexed := by
  refine .setOutputs (.setInputs (.addOperator _ _ _ _ (.addOperator _ _ _ _ (.addOperator _ _ _ _ ?_ ?_) ?_) ?_) _) _
  · exact Graph.indexed_empty.addValue .. |>.addValue .. |>.addValue .. |>.addValue ..
  all_goals decide

/-- Merging leaves one of the negations. -/
theorem optimize_negatedTwice : negatedTwice.validate = .ok () ∧
    ∃ result, optimize { rules := .standard, query := { anyOf := ["merge"] } } negatedTwice = .ok result ∧
      result.graph.operatorCount = 2 ∧
      ∃ plan, result.graph.executionPlan result.graph.inputIds result.graph.outputIds = .ok plan := by
  have hvalid : negatedTwice.validate = .ok () := by decide +kernel
  have hplan : negatedTwice.executionPlan [0] [3] = .ok [4, 5, 6] := by decide +kernel
  have hcount : ((optimize { rules := .standard, query := { anyOf := ["merge"] } }
      negatedTwice).toOption.map (·.graph.operatorCount)) = some 2 := by decide +kernel
  obtain ⟨result, hresult, -, -, -, -, hplanned, -⟩ := optimize_linkable { anyOf := ["merge"] } 10 .off
    negatedTwice indexed_negatedTwice hvalid ⟨_, hplan⟩
  rw [hresult] at hcount
  exact ⟨hvalid, result, hresult, Option.some.inj hcount, hplanned⟩

/-- The first of two operators that computed the same value is left, while the second was recorded as its producer. -/
def reassigned : Graph :=
  let values := ["x", "b", "a"].foldl (fun g name => (g.addValue name none none).1) Graph.empty
  let first := (values.addOperator "first" (.elementwise { fn := .neg }) [0] [1]).1
  let second := (first.addOperator "second" (.elementwise { fn := .neg }) [0] [1]).1
  let third := ((second.remove [4]).addOperator "third" (.elementwise { fn := .neg }) [0] [2]).1
  (third.setInputs [0]).setOutputs [2]

/-- Without the right producers a valid graph can lose its plan, as a value is merged with one that cannot be
traced back. -/
theorem optimize_reassigned : reassigned.validate = .ok () ∧
    reassigned.executionPlan reassigned.inputIds reassigned.outputIds = .ok [5] ∧
    ∃ result, optimize { rules := .standard, query := { anyOf := ["merge"] } } reassigned = .ok result ∧
      ¬∃ plan, result.graph.executionPlan result.graph.inputIds result.graph.outputIds = .ok plan := by
  have hlost : ((optimize { rules := .standard, query := { anyOf := ["merge"] } } reassigned).toOption.map fun result =>
      (result.graph.executionPlan result.graph.inputIds result.graph.outputIds).toOption) = some none := by
    decide +kernel
  refine ⟨by decide +kernel, by decide +kernel, ?_⟩
  cases hresult : optimize { rules := .standard, query := { anyOf := ["merge"] } } reassigned with
  | error e =>
    rw [hresult] at hlost
    cases hlost
  | ok result =>
    rw [hresult] at hlost
    refine ⟨result, rfl, fun ⟨plan, hplan⟩ => ?_⟩
    have hnone : (result.graph.executionPlan result.graph.inputIds result.graph.outputIds).toOption = none :=
      Option.some.inj hlost
    rw [hplan] at hnone
    cases hnone

end Optimizer

end TensorGraph
