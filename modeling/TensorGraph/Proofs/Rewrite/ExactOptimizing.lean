import TensorGraph.Proofs.Rewrite.ExactRules
import TensorGraph.Proofs.Rewrite.Optimizing

/-!
# Optimization by exact rules keeps results

Facts are inferred once for each iteration, while rewrites replace values, fold them and leave operators unused. If
all operators of a graph compute their outputs, then each node keeps its value through all of this, so that facts
which were right when they were inferred stay right (`Graph.Continues`). Exact rules that rely on right facts change no
result (`Optimizer.evaluate_optimize`).
-/

namespace TensorGraph

/-! ## What is known of a graph -/

theorem InferredFacts.get?_eq_none {f : InferredFacts} (h : ∀ e ∈ f.facts.entries, e.2.isUnknown = true) (v : NodeId) :
    f.get? v = none := by
  rw [get?, Option.filter_eq_none_iff]
  intro t ht
  simp [h _ (mem_of_lookup ht)]

/-- Facts that say nothing are right. -/
theorem InferredFacts.right_of_unknown {f : InferredFacts} (hfacts : ∀ e ∈ f.facts.entries, e.2.isUnknown = true)
    (htypes : f.types.entries = []) (known : NodeId → Value → Prop) : f.Right known := by
  refine ⟨fun _ => 0, fun v x _ => ⟨fun t ht => ?_, fun type htype => ?_⟩⟩
  · rw [f.get?_eq_none hfacts] at ht
    cases ht
  · rw [type?, IdMap.get?, htypes] at htype
    cases htype

namespace Graph

variable {g : Graph} {f f' : InferredFacts} {s s' : SymbolSupply}

/-- Whether nothing is known of nodes that are not in the graph. -/
def Knows (g : Graph) (f : InferredFacts) : Prop :=
  ∀ v, g.readable? v = none → f.facts.get? v = none ∧ f.types.get? v = none

theorem knows_initialFacts (g : Graph) : g.Knows g.initialFacts := by
  have hinitial := initial_initialFacts g
  have hnode (v : NodeId) (hv : g.readable? v = none) :
      (∀ n, g.node? v ≠ some (.constant n)) ∧ ∀ n, g.node? v ≠ some (.value n) := by
    constructor
    · intro n hn
      simp [readable?, hn, Node.isReadable] at hv
    · intro n hn
      simp [readable?, hn, Node.isReadable] at hv
  intro v hv
  obtain ⟨hconstant, hvalue⟩ := hnode v hv
  constructor
  · rw [Option.eq_none_iff_forall_ne_some]
    intro t ht
    rcases hinitial.facts v t ht with ⟨n, hn, -⟩ | ⟨n, hn, -⟩
    · exact hconstant n hn
    · exact hvalue n hn
  · rw [Option.eq_none_iff_forall_ne_some]
    intro type ht
    rcases hinitial.types v type ht with ⟨n, hn, -⟩ | ⟨n, hn, -⟩
    · exact hconstant n hn
    · exact hvalue n hn

theorem Knows.inferOperator (h : g.Knows f) (hg : g.WellFormed) {id : NodeId}
    (hdraws : Draws (g.inferOperator false f id) s f' s') : g.Knows f' := by
  unfold Graph.inferOperator at hdraws
  split at hdraws
  · obtain ⟨rfl, -⟩ := draws_pure.1 hdraws
    exact h
  · next op hop =>
    obtain ⟨outs, s₁, -, hrecord⟩ := draws_bind.1 hdraws
    obtain ⟨rfl, -⟩ := draws_pure.1 hrecord
    intro v hv
    -- The outputs of an operator are in the graph.
    have hother : v ∉ op.outputs := by
      intro hmem
      have hvalue := hg.produces id op hop v hmem
      rw [isValue_eq, hv] at hvalue
      cases hvalue
    obtain ⟨hfacts, htypes⟩ := recordOutputs_other (g := g) f op outs hother
    rw [hfacts, htypes]
    exact h v hv

theorem knows_of_infer (hg : g.WellFormed) (h : g.infer false = .ok f) : g.Knows f := by
  have hall (order : List NodeId) (f₀ : InferredFacts) (s s' : SymbolSupply) (hf₀ : g.Knows f₀)
      (hdraws : Draws (order.foldlM (g.inferOperator false) f₀) s f s') : g.Knows f := by
    induction order generalizing f₀ s with
    | nil =>
      obtain ⟨rfl, -⟩ := draws_pure.1 hdraws
      exact hf₀
    | cons id order ih =>
      obtain ⟨f₁, s₁, hfirst, hrest⟩ := draws_bind.1 hdraws
      exact ih f₁ s₁ (hf₀.inferOperator hg hfirst) hrest
  obtain ⟨order, s', -, hdraws⟩ := draws_of_infer h
  exact hall order g.initialFacts {} s' (knows_initialFacts g) hdraws

end Graph

/-! ## Graphs of built-in operators -/

namespace Rewrite.Exact

variable {g : Graph} {env : IdMap Value} {r : Rewrite} {removed : List NodeId}

/-- An exact rewrite introduces only built-in operators. -/
theorem builtin_apply (h : r.Exact g env) (hlinkable : g.Linkable) (hcheck : r.check g = .ok removed)
    (hbuiltin : ∀ id n, g.operator? id = some n → n.op.IsBuiltin ∧ n.op.hasNegZero = false) (id : NodeId)
    (n : OperatorNode) (hn : (r.apply g removed).operator? id = some n) : n.op.IsBuiltin ∧ n.op.hasNegZero = false := by
  rw [operator?_apply hlinkable.indexed hlinkable.formed hcheck h.agrees.isFusion] at hn
  obtain ⟨n₀, hn₀, rfl⟩ := Option.map_eq_some_iff.1 hn
  have hkept := hbuiltin id n₀ hn₀
  cases r with
  | fuse f => exact h.agrees.elim
  | «alias» pairs => exact hkept
  | constant id' c => exact hkept
  | replaceOperator id' op =>
    simp only [change, OperatorNode.mapInputs]
    split
    · exact h.builtin op rfl
    · exact hkept
  | replaceInputs id' op inputs =>
    simp only [change, OperatorNode.mapInputs]
    split
    · cases op with
      | none => exact hkept
      | some op => exact h.builtin op rfl
    · exact hkept

end Rewrite.Exact

namespace Graph

variable {g₀ g₁ g g' : Graph} {env : IdMap Value} {facts : InferredFacts} {outs : List Value}
  {rules : List RewriteRule}

/-- Whether a graph can take the place of another one, and has only built-in operators without the negative zero. -/
structure Ordinary (g₀ g : Graph) : Prop where
  succeeds : g.Succeeds g₀
  builtin : ∀ id n, g.operator? id = some n → n.op.IsBuiltin ∧ n.op.hasNegZero = false

theorem Ordinary.accepts (h : g₀.Ordinary g) (henv : g₀.Accepts env) : g.Accepts env :=
  fun v x hx => h.succeeds.inputIds ▸ henv v x hx

/-- What an exact rule leads to: the graph changed by an exact rewrite, which is of the same kind. -/
theorem Ordinary.exists_exact (h : g₀.Ordinary g) (henv : g₀.Accepts env)
    (hrules : ∀ rule ∈ rules, rule.Fits ∧ rule.Exact) (hright : facts.Right (g.Evaluates env))
    (hconstants : ∀ id c, g.constant? id = some c → c.hasNegZero = false) (hstep : g.RewrittenBy rules facts g') :
    ∃ rule ∈ rules, ∃ id op r removed, g.operator? id = some op ∧
      RewriteView.Exact { graph := g, facts } env ∧ rule.propose { graph := g, facts } id op = .rewrite r ∧
      r.Exact g env ∧ r.check g = .ok removed ∧ g' = r.apply g removed ∧ g'.Succeeds g ∧ g₀.Ordinary g' := by
  obtain ⟨rule, hrule, id, op, r, removed, hop, hr, hcheck, rfl⟩ := hstep
  obtain ⟨hfits, hexact⟩ := hrules rule hrule
  have hlinkable := h.succeeds.linkable
  have hview : RewriteView.Exact { graph := g, facts } env :=
    ⟨hlinkable, h.accepts henv, h.builtin, hconstants, hright⟩
  have hexact : r.Exact g env := hexact _ env id op r hview hop hr
  have hsucceeds := Rewrite.linkable_apply hlinkable hcheck (hfits { graph := g, facts } id op r hlinkable hop hr)
  exact ⟨rule, hrule, id, op, r, removed, hop, hview, hr, hexact, hcheck, rfl, hsucceeds,
    hsucceeds.trans h.succeeds, hexact.builtin_apply hlinkable hcheck h.builtin⟩

theorem operator?_of_prune {id : NodeId} {n : OperatorNode} (hg : g.Indexed)
    (hn : g.prune.1.operator? id = some n) : g.operator? id = some n := by
  rw [operator?_prune hg] at hn
  split at hn
  · exact hn
  · cases hn

theorem Ordinary.prune (h : g₀.Ordinary g) : g₀.Ordinary g.prune.1 :=
  ⟨h.succeeds.linkable.prune.trans h.succeeds,
    fun id n hn => h.builtin id n (operator?_of_prune h.succeeds.linkable.indexed hn)⟩

/-! ## Values that are kept -/

/-- Whether a graph that was optimized so far still computes the given results. -/
structure Preserves (g₀ : Graph) (env : IdMap Value) (outs : List Value) (g : Graph) : Prop where
  ordinary : g₀.Ordinary g
  outputs : g.EvaluatesAll env g.outputIds outs

/-- Whether all operators compute their outputs, and nodes have the values that they had when the current iteration
began, apart from new nodes, of which nothing is known. -/
structure Continues (g₁ : Graph) (env : IdMap Value) (facts : InferredFacts) (g : Graph) : Prop where
  total : g.Total env
  reflects : ∀ v x, g.Evaluates env v x → g₁.Evaluates env v x ∨ g₁.readable? v = none
  kept : ∀ v, (g₁.readable? v).isSome → (g.readable? v).isSome
  knows : g₁.Knows facts

/-- Facts that were right when the iteration began are right now. -/
theorem Continues.right (h : g₁.Continues env facts g) (hright : facts.Right (g₁.Evaluates env)) :
    facts.Right (g.Evaluates env) := by
  obtain ⟨σ, hright⟩ := hright
  refine ⟨σ, fun v x hx => ?_⟩
  rcases h.reflects v x hx with hbefore | hnew
  · exact hright v x hbefore
  · obtain ⟨hfacts, htypes⟩ := h.knows v hnew
    constructor
    · intro t ht
      simp [InferredFacts.get?, hfacts] at ht
    · intro type ht
      simp [InferredFacts.type?, htypes] at ht

/-- Whether what was inferred when an iteration began can be relied on: it was right then and all operators compute
their outputs, or it is right now. Besides, no constant may be the negative zero now. -/
structure Trusts (env : IdMap Value) (facts : InferredFacts) (g₁ g : Graph) : Prop where
  right : g₁.Total env ∧ facts.Right (g₁.Evaluates env) ∨ facts.Right (g.Evaluates env)
  constants : ∀ id c, g.constant? id = some c → c.hasNegZero = false

/-! ## Steps -/

theorem Continues.refl (hg : g.WellFormed) (hfacts : g.infer false = .ok facts) (htotal : g.Total env) :
    g.Continues env facts g :=
  ⟨htotal, fun _ _ hx => .inl hx, fun _ hv => hv, knows_of_infer hg hfacts⟩

/-- An exact rewrite keeps all values, and adds only nodes that were not there when the iteration began. -/
theorem Continues.apply (h : g₁.Continues env facts g) (hlinkable : g.Linkable) (henv : g.Accepts env) {r : Rewrite}
    {removed : List NodeId} (hagrees : r.Agrees g env) (hcheck : r.check g = .ok removed)
    (hsucceeds : (r.apply g removed).Succeeds g) : g₁.Continues env facts (r.apply g removed) where
  total := hagrees.total hlinkable henv hcheck hsucceeds h.total
  reflects v x hx := by
    rcases hagrees.reflects hlinkable henv hcheck hsucceeds h.total hx with hbefore | hnew
    · exact h.reflects v x hbefore
    · right
      by_contra hold
      have hkept := h.kept v (Option.ne_none_iff_isSome.1 hold)
      rw [hnew] at hkept
      cases hkept
  kept v hv := by
    have hkept := h.kept v hv
    rwa [Rewrite.readable?_apply hlinkable.indexed hlinkable.formed hcheck hagrees.isFusion hkept]
  knows := h.knows

/-- One rewrite. -/
theorem Preserves.rewritten (h : g₀.Preserves env outs g) (hcontinues : g₁.Total env → g₁.Continues env facts g)
    (henv : g₀.Accepts env) (hrules : ∀ rule ∈ rules, rule.Fits ∧ rule.Exact) (htrusts : Trusts env facts g₁ g)
    (hstep : g.RewrittenBy rules facts g') :
    g₀.Preserves env outs g' ∧ (g₁.Total env → g₁.Continues env facts g') := by
  have hright : facts.Right (g.Evaluates env) := by
    rcases htrusts.right with ⟨htotal, hright⟩ | hright
    · exact (hcontinues htotal).right hright
    · exact hright
  obtain ⟨rule, -, id, op, r, removed, -, -, -, hexact, hcheck, rfl, hsucceeds, hordinary⟩ :=
    h.ordinary.exists_exact henv hrules hright htrusts.constants hstep
  have hlinkable := h.ordinary.succeeds.linkable
  have haccepts := h.ordinary.accepts henv
  refine ⟨⟨hordinary, ?_⟩, fun htotal => ?_⟩
  · exact hexact.agrees.evaluatesAll hlinkable haccepts hcheck hsucceeds h.outputs
  · exact (hcontinues htotal).apply hlinkable haccepts hexact.agrees hcheck hsucceeds

theorem keeps_preserves (henv : g₀.Accepts env) (hrules : ∀ rule ∈ rules, rule.Fits ∧ rule.Exact) :
    RewriteState.Keeps (Trusts env) rules (g₀.Preserves env outs)
      fun facts g₁ g => g₀.Preserves env outs g ∧ (g₁.Total env → g₁.Continues env facts g) where
  sorted _ h := h.ordinary.succeeds.linkable.exists_topologicalOrder
  begun _ _ hfacts h := ⟨h, .refl h.ordinary.succeeds.linkable.formed hfacts⟩
  rewritten _ _ _ _ htrusts h hstep := h.1.rewritten h.2 henv hrules htrusts hstep
  ended _ _ _ h := h.1
  pruned _ h := ⟨h.ordinary.prune, h.outputs.prune h.ordinary.succeeds.linkable⟩

end Graph

/-! ## Whole runs -/

/-- The rules that change no result, not even by rounding. -/
def Rules.exact : List RewriteRule :=
  [constantFolding, merge, removeIdentity, doubleNegation, shapeToConstant, shapeLift, uselessSpecifyShape,
    uselessReshape, reshapeChain, transposeChain, uselessAssert, inPlaceElementwise]

theorem Rules.exact_spec : ∀ rule ∈ Rules.exact, rule.Fits ∧ rule.Exact := by
  unfold Rules.exact
  simp only [List.forall_mem_cons, List.not_mem_nil, false_implies, implies_true, and_true]
  exact ⟨⟨constantFolding_fits, constantFolding_exact⟩, ⟨merge_fits, merge_exact⟩,
    ⟨removeIdentity_fits, removeIdentity_exact⟩, ⟨doubleNegation_fits, doubleNegation_exact⟩,
    ⟨shapeToConstant_fits, shapeToConstant_exact⟩, ⟨shapeLift_fits, shapeLift_exact⟩,
    ⟨uselessSpecifyShape_fits, uselessSpecifyShape_exact⟩, ⟨uselessReshape_fits, uselessReshape_exact⟩,
    ⟨reshapeChain_fits, reshapeChain_exact⟩, ⟨transposeChain_fits, transposeChain_exact⟩,
    ⟨uselessAssert_fits, uselessAssert_exact⟩, ⟨inPlaceElementwise_fits, inPlaceElementwise_exact⟩⟩

namespace Optimizer

/-- A graph that is optimized by exact rules returns what it returned before, if facts are right and no negative zero
becomes a constant. -/
theorem evaluate_optimize (o : Optimizer) (g : Graph) (hg : g.Indexed) (hvalid : g.validate = .ok ())
    (hbuiltin : ∀ id n, g.operator? id = some n → n.op.IsBuiltin ∧ n.op.hasNegZero = false)
    (hrules : ∀ rule ∈ o.selected, rule ∈ Rules.exact) {p : Program}
    (hlink : Linker.interpreted.link g g.inputIds g.outputIds = .ok p) {inputs : List (NodeId × Value)}
    (hinputs : ∀ e ∈ inputs, e.1 ∈ g.inputIds)
    (htrusts : o.Meets (Graph.Trusts ⟨inputs⟩) g) {outs : List Value} (hrun : p.evaluate inputs = .ok outs) :
    ∃ result p', o.optimize g = .ok result ∧
      Linker.interpreted.link result.graph result.graph.inputIds result.graph.outputIds = .ok p' ∧
      p'.evaluate inputs = .ok outs := by
  obtain ⟨plan, hplan, -⟩ := link_eq_ok.1 hlink
  obtain ⟨hlinkable, hnodup⟩ := Graph.linkable_of_plan hg hvalid hplan
  have henv : g.Accepts ⟨inputs⟩ := fun v x hv => hinputs _ (mem_of_lookup hv)
  have houts := (Program.evaluate_iff_evaluates hlinkable hinputs hlink).1 hrun
  obtain ⟨result, hresult, h⟩ := o.exists_optimize hvalid
    (Graph.keeps_preserves henv fun rule hrule => Rules.exact_spec rule (hrules rule hrule)) htrusts
    ⟨⟨hlinkable.succeeds, hbuiltin⟩, houts⟩
  have hsucceeds := h.ordinary.succeeds
  obtain ⟨p', hlink'⟩ := hsucceeds.exists_link hnodup
  refine ⟨result, p', hresult, hlink', ?_⟩
  exact (Program.evaluate_iff_evaluates hsucceeds.linkable (hsucceeds.inputIds ▸ hinputs) hlink').2 h.outputs

/-- An input that is negated twice. -/
def doublyNegated : Graph :=
  let values := ["x", "a", "y"].foldl (fun g name => (g.addValue name none none).1) Graph.empty
  let inner := (values.addOperator "inner" (.elementwise { fn := .neg }) [0] [1]).1
  let outer := (inner.addOperator "outer" (.elementwise { fn := .neg }) [1] [2]).1
  (outer.setInputs [0]).setOutputs [2]

/-- One iteration that looks for double negations. -/
def negationRemover : Optimizer where
  rules := .standard
  query := { anyOf := ["double_negation"] }
  maxIterations := 1

/-- The rule belongs to the first phase only. -/
theorem meets_negationRemover {P : InferredFacts → Graph → Graph → Prop} {g : Graph}
    (h : (negationRemover.start g).SweepMeets P [Rules.doubleNegation]) : negationRemover.Meets P g := by
  have hlater (s : RewriteState) :
      s.PhasesMeet P negationRemover.selected 1 [.stabilize, .specialize, .fusion, .inPlace] := by
    apply RewriteState.phasesMeet_of_empty
    decide
  exact ⟨fun _ => ⟨h, fun _ _ _ => trivial⟩, fun s _ => hlater s⟩

theorem topologicalOrder_doublyNegated : doublyNegated.topologicalOrder = .ok [3, 4] := by decide +kernel

/-- Nothing is declared of the values, so that nothing can be wrong about them. -/
theorem meets_doublyNegated (env : IdMap Value) : negationRemover.Meets (Graph.Trusts env) doublyNegated := by
  apply meets_negationRemover
  intro facts before id after hinfer horder
  obtain ⟨order, s, hsorted, hdraws⟩ := Graph.draws_of_infer hinfer
  obtain rfl := Except.ok.inj (topologicalOrder_doublyNegated.symm.trans hsorted)
  cases hdraws
  refine ⟨.inr (InferredFacts.right_of_unknown (by decide) rfl _), fun id c hc => ?_⟩
  have hsplit := Except.ok.inj (topologicalOrder_doublyNegated.symm.trans horder)
  have hmem := Graph.mem_constantIds.2 (Option.isSome_of_eq_some hc)
  obtain rfl | rfl : before = [] ∨ before = [3] := by
    rcases before with _ | ⟨a, _ | ⟨b, _ | ⟨c, before⟩⟩⟩ <;> simp_all
  all_goals
    rw [show Graph.constantIds _ = [] by decide +kernel] at hmem
    cases hmem

/-- Both negations are removed. -/
theorem evaluate_optimize_doublyNegated : ∃ result p', negationRemover.optimize doublyNegated = .ok result ∧
    Linker.interpreted.link result.graph result.graph.inputIds result.graph.outputIds = .ok p' ∧
    p'.evaluate [(0, .ints (.vector #[1, 2]))] = .ok [.ints (.vector #[1, 2])] := by
  have hindexed : doublyNegated.Indexed := by
    refine .setOutputs (.setInputs (.addOperator _ _ _ _ (.addOperator _ _ _ _ ?_ ?_) ?_) _) _
    · exact Graph.indexed_empty.addValue .. |>.addValue .. |>.addValue ..
    all_goals decide
  have hplan : doublyNegated.executionPlan [0] [2] = .ok [3, 4] := by decide +kernel
  have hoperators : doublyNegated.operators.Forall fun e => e.2.op.IsBuiltin ∧ e.2.op.hasNegZero = false :=
    ⟨⟨trivial, rfl⟩, ⟨trivial, rfl⟩⟩
  refine evaluate_optimize negationRemover doublyNegated hindexed (by decide +kernel) (fun id n hn => ?_) ?_
    (link_eq_ok.2 ⟨_, hplan, rfl⟩) (by decide) (meets_doublyNegated _) (by decide +kernel)
  · exact List.forall_iff_forall_mem.1 hoperators (id, n) (Graph.mem_operators.2 hn)
  · intro rule hrule
    rw [show negationRemover.selected = [Rules.doubleNegation] from rfl, List.mem_singleton] at hrule
    simp [hrule, Rules.exact]

end Optimizer

end TensorGraph
