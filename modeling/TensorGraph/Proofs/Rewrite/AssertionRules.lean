import TensorGraph.Proofs.Rewrite.Assertions
import TensorGraph.Proofs.Rewrite.ExactOptimizing

/-!
# Optimization keeps assertions

Most exact rules guard assertions: they fold or bypass nothing that waits for one, or leave in its place what waits
for the same. The others read less than before, such as only the shape of a value, and can lose an assertion with what
they no longer read. As long as they do not, a program that stops at an assertion fails after optimization as well
(`Optimizer.evaluate_optimize_error`).
-/

namespace TensorGraph

/-- Whether all operators are given as many inputs as they take. -/
def Graph.Filled (g : Graph) : Prop := ∀ id n, g.operator? id = some n → n.op.Takes n.inputs.length

/-- Whether all rewrites that a rule proposes guard assertions. -/
def RewriteRule.Guards (rule : RewriteRule) : Prop :=
  ∀ (v : RewriteView) (env : IdMap Value) (id : NodeId) (op : OperatorNode) (r : Rewrite), v.Exact env →
    v.graph.Filled → v.graph.operator? id = some op → rule.propose v id op = .rewrite r → r.Guards v.graph env

theorem RewriteView.Exact.not_blocked {v : RewriteView} {env : IdMap Value} (h : v.Exact env) {id : NodeId} {c : Value}
    (hc : v.graph.constant? id = some c) : ¬v.graph.Blocked env id := fun hblocked =>
  hblocked.not_evaluates h.linkable h.accepts (Graph.evaluates_constant h.linkable h.accepts hc)

theorem OperatorNode.inputs_eq_singleton {op : OperatorNode} {input : NodeId} (htakes : op.op.Takes op.inputs.length)
    (hmax : op.op.maxInputs = some 1) (hinput : op.inputs.head? = some input) : op.inputs = [input] := by
  obtain ⟨x, hx⟩ := List.length_eq_one_iff.1 (htakes 1 hmax)
  rw [hx] at hinput ⊢
  rw [Option.some.inj hinput]

namespace Rules

variable {v : RewriteView} {env : IdMap Value} {id output input : NodeId} {op : OperatorNode} {r : Rewrite}

/-- An operator with one input waits for that input only. -/
theorem guards_bypass (h : v.Exact env) (hfilled : v.graph.Filled) (hop : v.graph.operator? id = some op)
    (houtput : op.singleOutput? = some output) (hinput : op.inputs.head? = some input)
    (hmax : op.op.maxInputs = some 1) : (Rewrite.alias [(output, input)]).Guards v.graph env := by
  apply Rewrite.guards_pair
  intro hblocked
  have hout : output ∈ op.outputs := by simp [singleOutput?_eq_some.1 houtput]
  have hassert : ¬op.op.IsAssertion := fun hassert => by simp [hassert.maxInputs] at hmax
  have hinputs := OperatorNode.inputs_eq_singleton (hfilled id op hop) hmax hinput
  exact (hblocked.blocks h.linkable.indexed hop hout).input hassert hinputs

theorem removeIdentity_guards : removeIdentity.Guards := by
  intro v env id op r h hfilled hop hr
  obtain ⟨output, input, houtput, hinput, hreturns, rfl⟩ := removeIdentity_proposes hr
  apply guards_bypass h hfilled hop houtput hinput
  unfold returnsInput at hreturns
  split at hreturns
  · next heq => rw [heq]; rfl
  · next heq => rw [heq]; rfl
  · next heq => rw [heq]; rfl
  · next heq => rw [heq]; rfl
  · cases hreturns

theorem uselessSpecifyShape_guards : uselessSpecifyShape.Guards := by
  intro v env id op r h hfilled hop hr
  obtain ⟨spec, output, input, facts, dims, heq, houtput, hinput, -, -, -, rfl⟩ := uselessSpecifyShape_proposes hr
  exact guards_bypass h hfilled hop houtput hinput (by rw [heq]; rfl)

theorem doubleNegation_guards : doubleNegation.Guards := by
  intro v env id op r h hfilled hop hr
  obtain ⟨output, inner, x, -, houter, hinner, rfl⟩ :=
    doubleNegation_proposes h.linkable.indexed h.linkable.formed hop hr
  -- A negation waits for its only input.
  have hwaits {u w : NodeId} (hnegates : v.graph.Negates u w) (hblocked : v.graph.Blocked env w) :
      v.graph.Blocked env u := by
    obtain ⟨id, op, hop, hout, hname, hinput⟩ := hnegates
    have hassert : ¬op.op.IsAssertion := fun hassert => by simp [hassert.name_eq] at hname
    exact (hblocked.blocks h.linkable.indexed hop hout).input hassert hinput
  apply Rewrite.guards_pair
  intro hblocked
  exact hwaits hinner (hwaits houter hblocked)

theorem inPlaceElementwise_guards : inPlaceElementwise.Guards := by
  intro v env id op r h hfilled hop hr
  obtain ⟨output, variant, value, -, hvariant, -, -, rfl⟩ := inPlaceElementwise_proposes hr
  apply Rewrite.guards_operator hop
  intro hassert
  -- An assertion cannot overwrite its input.
  cases hcase : op.op with
  | assertAll message =>
    rw [hcase] at hvariant
    cases hvariant
  | _ =>
    rw [hcase] at hassert
    exact hassert.elim

theorem constantFolding_guards : constantFolding.Guards := by
  intro v env id op r h hfilled hop hr
  obtain ⟨output, inputs, x, rest, hdeterministic, houtput, hinputs, -, -, rfl⟩ := constantFolding_proposes hr
  apply Rewrite.guards_constant
  intro hblocked
  have hout : output ∈ op.outputs := by simp [singleOutput?_eq_some.1 houtput]
  have hassert : ¬op.op.IsAssertion := fun hassert => by simp [hassert.isDeterministic] at hdeterministic
  -- The inputs are constants, which wait for nothing.
  obtain ⟨u, hu, hblocked⟩ := (hblocked.blocks h.linkable.indexed hop hout).waits hassert
  obtain ⟨c, hc⟩ := Option.isSome_iff_exists.1 (isSome_mapM.1 (Option.isSome_of_eq_some hinputs) u hu)
  exact h.not_blocked hc hblocked

theorem merge_guards : merge.Guards := by
  intro v env id op r h hfilled hop hr
  rcases merge_proposes hr with ⟨input, c, older, d, hc, -, -, -, rfl⟩ |
    ⟨otherId, other, hdeterministic, -, hother, hinputs, -, -, rfl⟩
  · exact Rewrite.guards_pair fun hblocked => absurd hblocked (h.not_blocked hc)
  · have hassert : ¬op.op.IsAssertion := fun hassert => by simp [hassert.isDeterministic] at hdeterministic
    apply Rewrite.guards_alias
    intro pair hpair hblocked
    obtain ⟨hout, hout'⟩ := List.of_mem_zip hpair
    obtain ⟨u, hu, hblocked⟩ := (hblocked.blocks h.linkable.indexed hop hout).waits hassert
    exact .waiting hother (hinputs ▸ hu) hblocked hout'

theorem transposeChain_guards : transposeChain.Guards := by
  intro v env id op r h hfilled hop hr
  obtain ⟨output, first, perm, houtput, ⟨joined⟩, rfl⟩ := transposeChain_proposes hr
  have hassert : ¬op.op.IsAssertion := by
    rw [joined.op_eq]
    exact False.elim
  -- What waits for the outer transpose waits for the inner one, and so for what that reads.
  have hwaits (hblocks : v.graph.Blocks env op) : v.graph.Blocked env first := by
    obtain ⟨hsource, hout⟩ := (Graph.producer?_eq_some h.linkable.indexed).1 joined.producer_eq
    rw [Graph.outputsOf_of_operator? hsource] at hout
    have hassert' : ¬joined.source.op.IsAssertion := by
      rw [joined.source_eq]
      exact False.elim
    have hinput := OperatorNode.inputs_eq_singleton (hfilled id op hop) (by rw [joined.op_eq]; rfl) joined.head_eq
    have hinput' := OperatorNode.inputs_eq_singleton (hfilled _ _ hsource) (by rw [joined.source_eq]; rfl)
      joined.first_eq
    exact ((hblocks.input hassert hinput).blocks h.linkable.indexed hsource hout).input hassert' hinput'
  split
  · apply Rewrite.guards_pair
    intro hblocked
    have hout : output ∈ op.outputs := by simp [singleOutput?_eq_some.1 houtput]
    exact hwaits (hblocked.blocks h.linkable.indexed hop hout)
  · apply Rewrite.guards_inputs hop hassert
    intro hblocked
    exact ⟨first, List.mem_singleton_self _, hwaits (.inr hblocked)⟩

/-- The exact rules that never lose an assertion. -/
def guarding : List RewriteRule :=
  [constantFolding, merge, removeIdentity, doubleNegation, uselessSpecifyShape, transposeChain, inPlaceElementwise]

theorem guarding_spec : ∀ rule ∈ guarding, rule.Guards := by
  unfold guarding
  simp only [List.forall_mem_cons, List.not_mem_nil, false_implies, implies_true, and_true]
  exact ⟨constantFolding_guards, merge_guards, removeIdentity_guards, doubleNegation_guards,
    uselessSpecifyShape_guards, transposeChain_guards, inPlaceElementwise_guards⟩

end Rules

/-! ## Steps -/

namespace Graph

variable {g₀ g₁ g g' : Graph} {env : IdMap Value} {facts : InferredFacts} {rules : List RewriteRule}

/-- Whether what was inferred is right about a graph in which no constant is the negative zero, and no rule loses an
assertion that fails. -/
structure Watched (env : IdMap Value) (rules : List RewriteRule) (facts : InferredFacts) (g₁ g : Graph) : Prop where
  right : facts.Right (g.Evaluates env)
  constants : ∀ id c, g.constant? id = some c → c.hasNegZero = false
  guards : ∀ rule ∈ rules, rule ∉ Rules.guarding → ∀ id op r, g.operator? id = some op →
    rule.propose { graph := g, facts } id op = .rewrite r → r.Guards g env

/-- Whether a graph that was optimized so far still waits for an assertion that fails. -/
structure Stops (g₀ : Graph) (env : IdMap Value) (g : Graph) : Prop where
  ordinary : g₀.Ordinary g
  filled : g.Filled
  blocked : ∃ o ∈ g.outputIds, g.Blocked env o

end Graph

theorem Rewrite.Exact.filled_apply {g : Graph} {env : IdMap Value} {r : Rewrite} {removed : List NodeId}
    (h : r.Exact g env) (hlinkable : g.Linkable) (hcheck : r.check g = .ok removed) (hfilled : g.Filled) :
    (r.apply g removed).Filled := by
  intro id n hn
  rw [operator?_apply hlinkable.indexed hlinkable.formed hcheck h.agrees.isFusion] at hn
  obtain ⟨n₀, hn₀, rfl⟩ := Option.map_eq_some_iff.1 hn
  rw [OperatorNode.mapInputs, List.length_map]
  exact h.takes id n₀ hn₀ (hfilled id n₀ hn₀)

namespace Graph

variable {g₀ g₁ g g' : Graph} {env : IdMap Value} {facts : InferredFacts} {rules : List RewriteRule}

/-- One rewrite. -/
theorem Stops.rewritten (h : g₀.Stops env g) (henv : g₀.Accepts env)
    (hrules : ∀ rule ∈ rules, rule.Fits ∧ rule.Exact) (hwatched : Watched env rules facts g₁ g)
    (hstep : g.RewrittenBy rules facts g') : g₀.Stops env g' := by
  obtain ⟨rule, hrule, id, op, r, removed, hop, hview, hr, hexact, hcheck, rfl, hsucceeds, hordinary⟩ :=
    h.ordinary.exists_exact henv hrules hwatched.right hwatched.constants hstep
  have hguards : r.Guards g env := by
    by_cases hmem : rule ∈ Rules.guarding
    · exact Rules.guarding_spec rule hmem _ env id op r hview h.filled hop hr
    · exact hwatched.guards rule hrule hmem id op r hop hr
  have hlinkable := h.ordinary.succeeds.linkable
  refine ⟨hordinary, ?_, ?_⟩
  · exact hexact.filled_apply hlinkable hcheck h.filled
  · exact hguards.output hexact.agrees hlinkable (h.ordinary.accepts henv) hcheck hsucceeds h.blocked

theorem Stops.prune (h : g₀.Stops env g) : g₀.Stops env g.prune.1 := by
  have hlinkable := h.ordinary.succeeds.linkable
  obtain ⟨o, ho, hblocked⟩ := h.blocked
  obtain ⟨hends, -⟩ := marks_neededIds hlinkable.indexed hlinkable.formed
  refine ⟨h.ordinary.prune, fun id n hn => h.filled id n (operator?_of_prune hlinkable.indexed hn), o, ?_, ?_⟩
  · rwa [outputIds_prune hlinkable.indexed]
  · exact hblocked.prune hlinkable (hends (List.mem_append_right _ ho))

theorem keeps_stops (henv : g₀.Accepts env) (hrules : ∀ rule ∈ rules, rule.Fits ∧ rule.Exact) :
    RewriteState.Keeps (Watched env rules) rules (g₀.Stops env) fun _ _ g => g₀.Stops env g where
  sorted _ h := h.ordinary.succeeds.linkable.exists_topologicalOrder
  begun _ _ _ h := h
  rewritten _ _ _ _ hwatched h hstep := h.rewritten henv hrules hwatched hstep
  ended _ _ _ h := h
  pruned _ h := h.prune

end Graph

/-! ## Whole runs -/

namespace Optimizer

/-- A program that stops at an assertion fails also after its graph was optimized by exact rules, if what they rely on
is right and those that can lose an assertion do not. -/
theorem evaluate_optimize_error (o : Optimizer) (g : Graph) (hg : g.Indexed) (hvalid : g.validate = .ok ())
    (hbuiltin : ∀ id n, g.operator? id = some n → n.op.IsBuiltin ∧ n.op.hasNegZero = false) (hfilled : g.Filled)
    (hrules : ∀ rule ∈ o.selected, rule ∈ Rules.exact) {p : Program}
    (hlink : Linker.interpreted.link g g.inputIds g.outputIds = .ok p) {inputs : List (NodeId × Value)}
    (hinputs : (inputs.map (·.1)).Perm g.inputIds) (hwatched : o.Meets (Graph.Watched ⟨inputs⟩ o.selected) g)
    {k : Nat} (hrun : p.evaluate inputs = .error k) {s : Step} (hstep : p.steps[k]? = some s) {message : String}
    (hassert : s.node.op = .assertAll message) :
    ∃ result p' k', o.optimize g = .ok result ∧
      Linker.interpreted.link result.graph result.graph.inputIds result.graph.outputIds = .ok p' ∧
      p'.evaluate inputs = .error k' := by
  obtain ⟨plan, hplan, -⟩ := link_eq_ok.1 hlink
  obtain ⟨hlinkable, hnodup⟩ := Graph.linkable_of_plan hg hvalid hplan
  have hmem : ∀ e ∈ inputs, e.1 ∈ g.inputIds := fun e he => hinputs.subset (List.mem_map_of_mem he)
  have henv : g.Accepts ⟨inputs⟩ := fun v x hv => hmem _ (mem_of_lookup hv)
  have hblocked := Graph.exists_blocked_of_evaluate hlinkable hlink hinputs hrun hstep (by rw [hassert]; trivial)
  obtain ⟨result, hresult, h⟩ := o.exists_optimize hvalid
    (Graph.keeps_stops henv fun rule hrule => Rules.exact_spec rule (hrules rule hrule)) hwatched
    ⟨⟨hlinkable.succeeds, hbuiltin⟩, hfilled, hblocked⟩
  have hsucceeds := h.ordinary.succeeds
  obtain ⟨p', hlink'⟩ := hsucceeds.exists_link hnodup
  obtain ⟨k', hrun'⟩ := Graph.exists_error_of_blocked hsucceeds.linkable hlink' (hsucceeds.inputIds ▸ hmem) h.blocked
  exact ⟨result, p', k', hresult, hlink', hrun'⟩

/-- An input that is checked and then negated twice. -/
def checkedAndNegated : Graph :=
  let values := ["x", "c", "a", "n", "y"].foldl (fun g name => (g.addValue name none none).1) Graph.empty
  let check := (values.addOperator "check" (.assertAll "c is zero") [0, 1] [2]).1
  let inner := (check.addOperator "inner" (.elementwise { fn := .neg }) [2] [3]).1
  let outer := (inner.addOperator "outer" (.elementwise { fn := .neg }) [3] [4]).1
  (outer.setInputs [0, 1]).setOutputs [4]

theorem topologicalOrder_checkedAndNegated : checkedAndNegated.topologicalOrder = .ok [5, 6, 7] := by decide +kernel

theorem meets_checkedAndNegated (env : IdMap Value) :
    negationRemover.Meets (Graph.Watched env negationRemover.selected) checkedAndNegated := by
  apply meets_negationRemover
  intro facts before id after hinfer horder
  obtain ⟨order, s, hsorted, hdraws⟩ := Graph.draws_of_infer hinfer
  obtain rfl := Except.ok.inj (topologicalOrder_checkedAndNegated.symm.trans hsorted)
  cases hdraws
  refine ⟨InferredFacts.right_of_unknown (by decide) rfl _, fun id c hc => ?_, fun rule hrule hnot => ?_⟩
  · have hsplit := Except.ok.inj (topologicalOrder_checkedAndNegated.symm.trans horder)
    have hmem := Graph.mem_constantIds.2 (Option.isSome_of_eq_some hc)
    obtain rfl | rfl | rfl : before = [] ∨ before = [5] ∨ before = [5, 6] := by
      rcases before with _ | ⟨a, _ | ⟨b, _ | ⟨c, _ | ⟨d, before⟩⟩⟩⟩ <;> simp_all
    all_goals
      rw [show Graph.constantIds _ = [] by decide +kernel] at hmem
      cases hmem
  · rw [show negationRemover.selected = [Rules.doubleNegation] from rfl, List.mem_singleton] at hrule
    exact absurd (by simp [hrule, Rules.guarding]) hnot

/-- The assertion fails for a zero, whether the negations are removed or not. -/
theorem evaluate_optimize_error_checkedAndNegated : ∃ result p' k,
    negationRemover.optimize checkedAndNegated = .ok result ∧
    Linker.interpreted.link result.graph result.graph.inputIds result.graph.outputIds = .ok p' ∧
    p'.evaluate [(0, .ints (.vector #[1, 2])), (1, .ints (.scalar 0))] = .error k := by
  have hindexed : checkedAndNegated.Indexed := by
    refine .setOutputs (.setInputs (.addOperator _ _ _ _ (.addOperator _ _ _ _ (.addOperator _ _ _ _ ?_ ?_) ?_) ?_) _) _
    · exact Graph.indexed_empty.addValue .. |>.addValue .. |>.addValue .. |>.addValue .. |>.addValue ..
    all_goals decide
  have hplan : checkedAndNegated.executionPlan [0, 1] [4] = .ok [5, 6, 7] := by decide +kernel
  have hoperators : checkedAndNegated.operators.Forall fun e =>
      (e.2.op.IsBuiltin ∧ e.2.op.hasNegZero = false) ∧ e.2.op.Takes e.2.inputs.length := by
    refine ⟨⟨⟨trivial, rfl⟩, fun m hm => ?_⟩, ⟨⟨trivial, rfl⟩, fun m hm => ?_⟩, ⟨trivial, rfl⟩, fun m hm => ?_⟩
    all_goals cases hm
    all_goals rfl
  have hall (id : NodeId) (n : OperatorNode) (hn : checkedAndNegated.operator? id = some n) :=
    List.forall_iff_forall_mem.1 hoperators (id, n) (Graph.mem_operators.2 hn)
  have hfails : (checkedAndNegated.program [5, 6, 7]).evaluate
      [(0, .ints (.vector #[1, 2])), (1, .ints (.scalar 0))] = .error 0 := by decide +kernel
  refine evaluate_optimize_error negationRemover checkedAndNegated hindexed (by decide +kernel)
    (fun id n hn => (hall id n hn).1) (fun id n hn => (hall id n hn).2) ?_ (link_eq_ok.2 ⟨_, hplan, rfl⟩) (.refl _)
    (meets_checkedAndNegated _) hfails rfl rfl
  intro rule hrule
  rw [show negationRemover.selected = [Rules.doubleNegation] from rfl, List.mem_singleton] at hrule
  simp [hrule, Rules.exact]

end Optimizer

end TensorGraph
