import TensorGraph.Proofs.Graph.Inference
import TensorGraph.Rewrite.Optimizer

/-!
# What optimization keeps

Every graph that optimization passes through is the graph before, rewritten by one rule at one operator, or pruned.
So what such a step keeps holds of the graph that optimization leads to (`Optimizer.exists_optimize`). A step may
rely on how the graph came from the one that the current iteration began with, and on what is known of the two and of
the facts that were inferred then (`Optimizer.Meets`).
-/

namespace TensorGraph

/-- Whether a rule leads from a graph to another one: it proposes a rewrite at an operator, which is admitted. -/
def Graph.RewrittenBy (rules : List RewriteRule) (facts : InferredFacts) (g g' : Graph) : Prop :=
  ∃ rule ∈ rules, ∃ id op r removed, g.operator? id = some op ∧
    rule.propose { graph := g, facts } id op = .rewrite r ∧ r.check g = .ok removed ∧ g' = r.apply g removed

theorem Graph.RewrittenBy.mono {rules rules' : List RewriteRule} {facts : InferredFacts} {g g' : Graph}
    (h : g.RewrittenBy rules facts g') (hsub : rules ⊆ rules') : g.RewrittenBy rules' facts g' := by
  obtain ⟨rule, hrule, h⟩ := h
  exact ⟨rule, hsub hrule, h⟩

namespace RewriteState

variable {rules : List RewriteRule} {facts : InferredFacts} {s s' : RewriteState} {id : NodeId} {op : OperatorNode}
  {P : InferredFacts → Graph → Graph → Prop} {Q : Graph → Prop} {R : InferredFacts → Graph → Graph → Prop}

/-! ## One operator -/

/-- Only an admitted rewrite changes the graph. -/
theorem ask_graph (hop : s.graph.operator? id = some op) : (ask facts id op rules s).graph = s.graph ∨
    s.graph.RewrittenBy rules facts (ask facts id op rules s).graph := by
  induction rules generalizing s with
  | nil => exact .inl rfl
  | cons rule rules ih =>
    -- Rules after a rewrite are not asked, and those before leave the graph as it is.
    have hlater {s' : RewriteState} (hs' : s'.graph = s.graph) : (ask facts id op rules s').graph = s.graph ∨
        s.graph.RewrittenBy (rule :: rules) facts (ask facts id op rules s').graph := by
      have := ih (s := s') (hs' ▸ hop)
      rw [hs'] at this
      exact this.imp_right fun h => h.mono (List.subset_cons_self _ _)
    unfold ask
    split
    · exact hlater rfl
    · split
      · exact hlater rfl
      · exact hlater rfl
      · next r hr =>
        dsimp only
        split
        · next removed hcheck => exact .inr ⟨rule, List.mem_cons_self .., id, op, r, removed, hop, hr, hcheck, rfl⟩
        · exact hlater rfl

theorem visit_graph : (visit rules facts s id).graph = s.graph ∨
    s.graph.RewrittenBy rules facts (visit rules facts s id).graph := by
  unfold visit
  split
  · exact .inl rfl
  · next op hop =>
    split
    · exact .inl rfl
    · exact ask_graph hop

/-! ## Iterations and phases -/

/-- Whether a property holds, at every operator that an iteration looks at, of what was inferred, of the graph at the
beginning and of the graph then. -/
def SweepMeets (P : InferredFacts → Graph → Graph → Prop) (rules : List RewriteRule) (s : RewriteState) : Prop :=
  ∀ facts before id after, s.graph.infer false = .ok facts → s.graph.topologicalOrder = .ok (before ++ id :: after) →
    P facts s.graph (before.foldl (visit rules facts) { s with changed := false }).graph

/-- The same for all iterations of a phase. -/
def SweepsMeet (P : InferredFacts → Graph → Graph → Prop) (rules : List RewriteRule) : Nat → RewriteState → Prop
  | 0, _ => True
  | bound + 1, s => s.SweepMeets P rules ∧
    ∀ s', s.sweep rules = .ok s' → s'.changed = true → SweepsMeet P rules bound s'.prune

/-- The same for the phases that have rules. -/
def PhasesMeet (P : InferredFacts → Graph → Graph → Prop) (rules : List RewriteRule) (bound : Nat) :
    List Phase → RewriteState → Prop
  | [], _ => True
  | phase :: phases, s =>
    let selected := rules.filter (·.phases.contains phase)
    (selected.isEmpty = false → s.SweepsMeet P selected bound) ∧
      ∀ s', s.runPhase rules bound phase = .ok s' → PhasesMeet P rules bound phases s'

/-- What is needed for a property `Q` to be kept by optimization: its graphs can be sorted, and pruning keeps it. Within
an iteration `R` is kept, which relates the graph at the beginning to the graph then. -/
structure Keeps (P : InferredFacts → Graph → Graph → Prop) (rules : List RewriteRule) (Q : Graph → Prop)
    (R : InferredFacts → Graph → Graph → Prop) : Prop where
  sorted : ∀ g, Q g → ∃ order, g.topologicalOrder = .ok order
  begun : ∀ facts g, g.infer false = .ok facts → Q g → R facts g g
  rewritten : ∀ facts g₀ g g', P facts g₀ g → R facts g₀ g → g.RewrittenBy rules facts g' → R facts g₀ g'
  ended : ∀ facts g₀ g, R facts g₀ g → Q g
  pruned : ∀ g, Q g → Q g.prune.1

theorem Keeps.filter (h : Keeps P rules Q R) (p : RewriteRule → Bool) : Keeps P (rules.filter p) Q R where
  sorted := h.sorted
  begun := h.begun
  rewritten facts g₀ g g' hP hR hg' := h.rewritten facts g₀ g g' hP hR (hg'.mono (List.filter_subset_self _))
  ended := h.ended
  pruned := h.pruned

theorem Keeps.foldl_visit (h : Keeps P rules Q R) {g₀ : Graph} {order : List NodeId} (hs : R facts g₀ s.graph)
    (hmeets : ∀ before id after, order = before ++ id :: after →
      P facts g₀ (before.foldl (visit rules facts) s).graph) :
    R facts g₀ (order.foldl (visit rules facts) s).graph := by
  induction order generalizing s with
  | nil => exact hs
  | cons id order ih =>
    refine ih ?_ fun before id' after horder => hmeets (id :: before) id' after (by rw [horder]; rfl)
    have hvisit : (visit rules facts s id).graph = s.graph ∨
        s.graph.RewrittenBy rules facts (visit rules facts s id).graph := visit_graph
    rcases hvisit with hsame | hrewritten
    · rw [hsame]
      exact hs
    · exact h.rewritten facts g₀ s.graph _ (hmeets [] id order rfl) hs hrewritten

end RewriteState

/-! ## Inference that never fails -/

namespace Graph

variable {g : Graph}

/-- An inference that is not strict skips an operator that rejects its inputs. -/
theorem exists_draws_ruleFacts (g : Graph) (id : NodeId) (op : OperatorNode) (inputs : List TensorFacts)
    (s : SymbolSupply) : ∃ outputs s', Draws (g.ruleFacts false id op inputs) s outputs s' := by
  have hrun := run_ruleFacts g false id op inputs s
  rcases hfound : (op.op.outputFacts inputs).run.run s with ⟨e | found, s₁⟩
  · exact ⟨[], s₁, hrun.trans (by rw [hfound]; rfl)⟩
  · exact ⟨found, s₁, hrun.trans (by rw [hfound])⟩

theorem exists_draws_inferOperator (g : Graph) (f : InferredFacts) (id : NodeId) (s : SymbolSupply) :
    ∃ f' s', Draws (g.inferOperator false f id) s f' s' := by
  unfold inferOperator
  split
  · exact ⟨f, s, draws_pure.2 ⟨rfl, rfl⟩⟩
  · next op _ =>
    obtain ⟨outputs, s', houtputs⟩ := exists_draws_ruleFacts g id op (inputFacts f op) s
    exact ⟨_, s', draws_bind.2 ⟨outputs, s', houtputs, draws_pure.2 ⟨rfl, rfl⟩⟩⟩

theorem exists_infer {order : List NodeId} (horder : g.topologicalOrder = .ok order) :
    ∃ facts, g.infer false = .ok facts := by
  have hall (l : List NodeId) (f : InferredFacts) (s : SymbolSupply) :
      ∃ f' s', Draws (l.foldlM (g.inferOperator false) f) s f' s' := by
    induction l generalizing f s with
    | nil => exact ⟨f, s, draws_pure.2 ⟨rfl, rfl⟩⟩
    | cons id l ih =>
      obtain ⟨f₁, s₁, hfirst⟩ := exists_draws_inferOperator g f id s
      obtain ⟨f', s', hrest⟩ := ih f₁ s₁
      exact ⟨f', s', by rw [List.foldlM_cons]; exact draws_bind.2 ⟨f₁, s₁, hfirst, hrest⟩⟩
  obtain ⟨f, s, hdraws⟩ := hall order g.initialFacts {}
  refine ⟨f, ?_⟩
  unfold infer
  rw [horder]
  exact congrArg Prod.fst hdraws

end Graph

/-! ## Whole runs -/

namespace RewriteState

variable {rules : List RewriteRule} {s : RewriteState} {P : InferredFacts → Graph → Graph → Prop} {Q : Graph → Prop}
  {R : InferredFacts → Graph → Graph → Prop}

theorem Keeps.exists_sweep (h : Keeps P rules Q R) (hmeets : s.SweepMeets P rules) (hs : Q s.graph) :
    ∃ s', s.sweep rules = .ok s' ∧ Q s'.graph := by
  obtain ⟨order, horder⟩ := h.sorted s.graph hs
  obtain ⟨facts, hfacts⟩ := Graph.exists_infer horder
  refine ⟨order.foldl (visit rules facts) { s with changed := false }, ?_, ?_⟩
  · unfold sweep
    rw [hfacts, horder]
    rfl
  · apply h.ended facts s.graph
    apply h.foldl_visit
    · exact h.begun facts s.graph hfacts hs
    · intro before id after hsplit
      exact hmeets facts before id after hfacts (hsplit ▸ horder)

/-- Any number of iterations, with pruning in between. -/
theorem Keeps.exists_sweepAll (h : Keeps P rules Q R) (bound : Nat) (hmeets : s.SweepsMeet P rules bound)
    (hs : Q s.graph) : ∃ n s', s.sweepAll rules bound = .ok (n, s') ∧ Q s'.graph := by
  induction bound generalizing s with
  | zero => exact ⟨0, s, rfl, hs⟩
  | succ bound ih =>
    obtain ⟨hfirst, hrest⟩ := hmeets
    obtain ⟨s₁, hsweep, hs₁⟩ := h.exists_sweep hfirst hs
    unfold sweepAll
    rw [hsweep]
    cases hchanged : s₁.changed with
    | false => exact ⟨1, s₁, by simp [bind, Except.bind, hchanged, pure, Except.pure], hs₁⟩
    | true =>
      have hpruned : Q s₁.prune.graph := h.pruned s₁.graph hs₁
      obtain ⟨n, s', hsweeps, hs'⟩ := ih (hrest s₁ hsweep hchanged) hpruned
      exact ⟨n + 1, s', by simp [bind, Except.bind, hchanged, hsweeps, pure, Except.pure], hs'⟩

/-- Any sequence of phases. -/
theorem Keeps.exists_runPhases (h : Keeps P rules Q R) (bound : Nat) (phases : List Phase)
    (hmeets : s.PhasesMeet P rules bound phases) (hs : Q s.graph) :
    ∃ s', phases.foldlM (runPhase rules bound) s = .ok s' ∧ Q s'.graph := by
  induction phases generalizing s with
  | nil => exact ⟨s, rfl, hs⟩
  | cons phase phases ih =>
    obtain ⟨hfirst, hrest⟩ := hmeets
    obtain ⟨s₁, hphase, hs₁⟩ : ∃ s₁, s.runPhase rules bound phase = .ok s₁ ∧ Q s₁.graph := by
      unfold runPhase
      dsimp only
      split
      · exact ⟨s, rfl, hs⟩
      · next hsome =>
        obtain ⟨n, s₁, hsweeps, hs₁⟩ := (h.filter (·.phases.contains phase)).exists_sweepAll bound
          (hfirst (Bool.not_eq_true _ ▸ hsome)) hs
        rw [hsweeps]
        exact ⟨_, rfl, h.pruned s₁.graph hs₁⟩
    obtain ⟨s', hphases, hs'⟩ := ih (hrest s₁ hphase) hs₁
    refine ⟨s', ?_, hs'⟩
    rw [List.foldlM_cons, hphase]
    exact hphases

theorem phasesMeet_true (bound : Nat) (phases : List Phase) :
    s.PhasesMeet (fun _ _ _ => True) rules bound phases := by
  have hsweeps (rules : List RewriteRule) (bound : Nat) (s : RewriteState) :
      s.SweepsMeet (fun _ _ _ => True) rules bound := by
    induction bound generalizing s with
    | zero => trivial
    | succ bound ih => exact ⟨fun _ _ _ _ _ _ => trivial, fun s' _ _ => ih s'.prune⟩
  induction phases generalizing s with
  | nil => trivial
  | cons phase phases ih => exact ⟨fun _ => hsweeps _ bound s, fun s' _ => ih⟩

/-- Phases without rules look at no operator. -/
theorem phasesMeet_of_empty {bound : Nat} {phases : List Phase}
    (h : ∀ phase ∈ phases, (rules.filter (·.phases.contains phase)).isEmpty = true) :
    s.PhasesMeet P rules bound phases := by
  induction phases generalizing s with
  | nil => trivial
  | cons phase phases ih =>
    obtain ⟨hphase, hrest⟩ := List.forall_mem_cons.1 h
    refine ⟨fun hsome => ?_, fun s' _ => ih hrest⟩
    rw [hphase] at hsome
    cases hsome

end RewriteState

namespace Optimizer

variable {P : InferredFacts → Graph → Graph → Prop} {Q : Graph → Prop} {R : InferredFacts → Graph → Graph → Prop}

/-- The state before the first phase. -/
def start (o : Optimizer) (g : Graph) : RewriteState where
  graph := g
  diagnostics := { level := o.level }
  stats := { nodesBefore := g.nodeCount, operatorsBefore := g.operatorCount }

/-- Whether a property holds, at every operator that optimization looks at, of what was inferred when the iteration
began, of the graph then and of the graph now. -/
def Meets (o : Optimizer) (P : InferredFacts → Graph → Graph → Prop) (g : Graph) : Prop :=
  (o.start g).PhasesMeet P o.selected (max o.maxIterations 1) Phase.all

/-- Optimization succeeds, and what its steps keep holds of the graph that it leads to. -/
theorem exists_optimize (o : Optimizer) {g : Graph} (hvalid : g.validate = .ok ())
    (h : RewriteState.Keeps P o.selected Q R) (hmeets : o.Meets P g) (hg : Q g) :
    ∃ result, o.optimize g = .ok result ∧ Q result.graph := by
  obtain ⟨s, hphases, hs⟩ := h.exists_runPhases (max o.maxIterations 1) Phase.all hmeets hg
  unfold optimize
  rw [hvalid]
  simp only [Except.mapError, bind, Except.bind]
  unfold start at hphases
  rw [hphases]
  exact ⟨_, rfl, hs⟩

end Optimizer

end TensorGraph
