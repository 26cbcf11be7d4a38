import TensorGraph.Proofs.Program.Execution
import TensorGraph.Proofs.Program.Stability
import TensorGraph.Proofs.Rewrite.Linkable

/-!
# The values of a graph

A node evaluates to a value if the value is given, constant, or computed from values that the inputs of its producer
evaluate to. A program that is linked from a graph returns the values that the outputs evaluate to, and returns
nothing exactly if one of them does not evaluate (`Program.evaluate_iff_evaluates`).
-/

namespace TensorGraph

namespace Graph

/-- The value of a node that no operator has to compute. -/
def given? (g : Graph) (env : IdMap Value) (v : NodeId) : Option Value := env.get? v <|> g.constant? v

/-- Whether a node has a value when the graph runs. -/
inductive Evaluates (g : Graph) (env : IdMap Value) : NodeId → Value → Prop
  | given {v : NodeId} {x : Value} (h : g.given? env v = some x) : Evaluates g env v x
  | computed {v id : NodeId} {x : Value} {op : OperatorNode} {xs ys : List Value} (hop : g.operator? id = some op)
      (hlen : op.inputs.length = xs.length) (hxs : ∀ e ∈ op.inputs.zip xs, Evaluates g env e.1 e.2)
      (hrun : op.op.run xs = .ok ys) (hcount : ys.length = op.outputs.length) (hx : (v, x) ∈ op.outputs.zip ys) :
      Evaluates g env v x

/-- The same for several nodes. -/
abbrev EvaluatesAll (g : Graph) (env : IdMap Value) : List NodeId → List Value → Prop :=
  List.Forall₂ (g.Evaluates env)

/-- Whether the inputs of an operator have values, but it does not compute its outputs from them. -/
def Fails (g : Graph) (env : IdMap Value) (op : OperatorNode) : Prop :=
  ∃ xs, g.EvaluatesAll env op.inputs xs ∧ ∀ ys, op.op.run xs = .ok ys → ys.length ≠ op.outputs.length

/-- Whether values are given for inputs of the graph only. -/
def Accepts (g : Graph) (env : IdMap Value) : Prop := ∀ v x, env.get? v = some x → v ∈ g.inputIds

variable {g : Graph} {env : IdMap Value} {v id : NodeId} {x y : Value} {op : OperatorNode} {xs ys : List Value}

theorem Evaluates.of_run (hop : g.operator? id = some op) (hxs : g.EvaluatesAll env op.inputs xs)
    (hrun : op.op.run xs = .ok ys) (hcount : ys.length = op.outputs.length) (hx : (v, x) ∈ op.outputs.zip ys) :
    g.Evaluates env v x :=
  .computed hop hxs.length_eq (fun _ he => List.forall₂_zip hxs he) hrun hcount hx

theorem evaluatesAll_one : g.EvaluatesAll env [v] xs ↔ ∃ x, xs = [x] ∧ g.Evaluates env v x := by
  constructor
  · intro h
    cases h with
    | cons hx hnil =>
      cases hnil
      exact ⟨_, rfl, hx⟩
  · rintro ⟨x, rfl, hx⟩
    exact .cons hx .nil

/-- What is given is not computed. -/
theorem given?_eq_none (h : g.Linkable) (henv : g.Accepts env) (hv : v ∈ g.outputsOf id) : g.given? env v = none := by
  have hnot := h.formed.not_available h.indexed hv
  rw [mem_inputs_append_constants] at hnot
  have henv : env.get? v = none := by
    rw [Option.eq_none_iff_forall_ne_some]
    intro x hx
    exact hnot (.inl (henv v x hx))
  have hconstant : g.constant? v = none := by
    rw [← Option.not_isSome_iff_eq_none]
    exact fun hsome => hnot (.inr hsome)
  rw [given?, henv, hconstant]
  rfl

/-- A value that an operator produces is computed by it. -/
theorem Evaluates.run (h : g.Linkable) (henv : g.Accepts env) (hx : g.Evaluates env v x)
    (hop : g.operator? id = some op) (hv : v ∈ op.outputs) : ∃ xs ys, g.EvaluatesAll env op.inputs xs ∧
      op.op.run xs = .ok ys ∧ ys.length = op.outputs.length ∧ (v, x) ∈ op.outputs.zip ys := by
  have hid : v ∈ g.outputsOf id := outputsOf_of_operator? hop ▸ hv
  cases hx with
  | given hgiven => simp [given?_eq_none h henv hid] at hgiven
  | @computed _ id' _ op' xs ys hop' hlen hxs hrun hcount hmem =>
    have hid' : v ∈ g.outputsOf id' := outputsOf_of_operator? hop' ▸ (List.of_mem_zip hmem).1
    obtain rfl := h.indexed.producer_unique hid hid'
    obtain rfl := Option.some.inj (hop.symm.trans hop')
    exact ⟨xs, ys, List.forall₂_iff_zip.2 ⟨hlen, fun he => hxs _ he⟩, hrun, hcount, hmem⟩

theorem eq_of_mem_zip {ids : List NodeId} (hnodup : ids.Nodup) (hx : (v, x) ∈ ids.zip ys) (hy : (v, y) ∈ ids.zip ys) :
    x = y := by
  obtain ⟨i, hi, hxi⟩ := List.mem_iff_getElem.1 hx
  obtain ⟨j, hj, hyj⟩ := List.mem_iff_getElem.1 hy
  simp only [List.getElem_zip, Prod.mk.injEq] at hxi hyj
  have hij : i = j := (List.Nodup.getElem_inj_iff hnodup).1 (hxi.1.trans hyj.1.symm)
  subst hij
  exact hxi.2.symm.trans hyj.2

theorem Evaluates.unique (h : g.Linkable) (henv : g.Accepts env) (hx : g.Evaluates env v x)
    (hy : g.Evaluates env v y) : x = y := by
  induction hx generalizing y with
  | given hx =>
    cases hy with
    | given hy => exact Option.some.inj (hx.symm.trans hy)
    | computed hop _ _ _ _ hmem =>
      have hid := mem_outputsOf.2 ⟨_, hop, (List.of_mem_zip hmem).1⟩
      simp [given?_eq_none h henv hid] at hx
  | computed hop hlen hxs hrun hcount hmem ih =>
    obtain ⟨xs', ys', hxs', hrun', -, hmem'⟩ := hy.run h henv hop (List.of_mem_zip hmem).1
    rename_i xs ys
    have heq : xs = xs' := by
      refine List.ext_getElem (hlen.symm.trans hxs'.length_eq) fun i hi hi' => ?_
      have hi₀ : i < xs.length := hi
      rw [← hlen] at hi₀
      refine ih (_, xs[i]) (List.mem_iff_getElem.2 ⟨i, ?_, List.getElem_zip ..⟩) ?_
      · simpa [hlen] using hi
      · exact List.Forall₂.get hxs' hi₀ hi'
    subst heq
    obtain rfl := Except.ok.inj (hrun.symm.trans hrun')
    exact eq_of_mem_zip (h.formed.outputsNodup _ _ hop) hmem hmem'

theorem EvaluatesAll.unique {ids : List NodeId} (h : g.Linkable) (henv : g.Accepts env)
    (hxs : g.EvaluatesAll env ids xs) (hys : g.EvaluatesAll env ids ys) : xs = ys := by
  induction hxs generalizing ys with
  | nil => cases hys; rfl
  | cons hx _ ih =>
    cases hys with
    | cons hy hys => rw [hx.unique h henv hy, ih hys]

theorem exists_of_mem {ids : List NodeId} (h : g.EvaluatesAll env ids xs) (hv : v ∈ ids) :
    ∃ x, g.Evaluates env v x := by
  obtain ⟨x, -, hx⟩ := exists_of_forall₂ h.flip hv
  exact ⟨x, hx⟩

/-- If the outputs have values, then so has everything that they depend on. -/
theorem Needed.evaluates (h : g.Linkable) (henv : g.Accepts env) (hxs : g.EvaluatesAll env g.outputIds xs)
    (hv : g.Needed v) : ∃ x, g.Evaluates env v x := by
  refine hv.induction (P := fun v => ∃ x, g.Evaluates env v x) (fun o ho => exists_of_mem hxs ho) ?_
  rintro v w ⟨id, hv, hw⟩ - ⟨x, hx⟩
  obtain ⟨op, hop, hw⟩ := mem_outputsOf.1 hw
  obtain ⟨xs, ys, hxs, -⟩ := hx.run h henv hop hw
  exact exists_of_mem hxs (inputsOf_of_operator? hop ▸ hv)

end Graph

/-! ## Linked programs -/

variable {g : Graph} {p : Program} {start env env' : IdMap Value} {inputs : List (NodeId × Value)} {outs : List Value}

/-- The program that runs the operators of a plan. -/
def Graph.program (g : Graph) (plan : List NodeId) : Program where
  graph := g
  inputs := g.inputIds
  outputs := g.outputIds
  steps := (plan.filterMap fun id => (g.operator? id).map (id, ·)).map fun e =>
    { id := e.1, node := e.2, impl := .interpreted }
  frees := true
  facts := none

theorem link_eq_ok : Linker.interpreted.link g g.inputIds g.outputIds = .ok p ↔
    ∃ plan, g.executionPlan g.inputIds g.outputIds = .ok plan ∧ p = g.program plan :=
  link_eq_ok_programFor

/-- A graph that takes the place of one that can be linked can be linked. -/
theorem Graph.Succeeds.exists_link {g' : Graph} (h : g'.Succeeds g) (hinputs : g.inputIds.Nodup) :
    ∃ p, Linker.interpreted.link g' g'.inputIds g'.outputIds = .ok p := by
  obtain ⟨plan, hplan⟩ := h.linkable.exists_plan (h.inputIds ▸ hinputs)
  exact ⟨_, link_eq_ok.2 ⟨plan, hplan, rfl⟩⟩

/-- The steps of a linked program are those of the plan. -/
theorem plans_steps (hg : g.Indexed) {plan : List NodeId} (hplan : g.executionPlan g.inputIds g.outputIds = .ok plan) :
    g.Plans (g.inputIds ++ g.constantIds) g.outputIds ((g.program plan).steps.map (·.id)) := by
  obtain ⟨-, -, hplans, -⟩ := Graph.executionPlan_spec hg hplan
  have hids : (g.program plan).steps.map (·.id) = plan :=
    steps_programFor fun id hid => ((hplans.mem_iff id).1 hid).isSome_operator?
  rw [hids]
  exact hplans

namespace Program

theorem valueIn?_eq (hp : p.Interprets g) (v : NodeId) : p.valueIn? env v = g.given? env v := by
  rw [valueIn?, hp.graph]
  rfl

/-- What a step computes is what nodes evaluate to. -/
theorem evaluates_of_evaluateStep (hp : p.Interprets g) {s : Step} (hs : s ∈ p.steps)
    (henv : ∀ v x, p.valueIn? env v = some x → g.Evaluates start v x) (h : p.evaluateStep env s = some env')
    (v : NodeId) (x : Value) (hv : p.valueIn? env' v = some x) : g.Evaluates start v x := by
  obtain ⟨xs, ys, hxs, hys, hlen, rfl⟩ := evaluateStep_eq_some.1 h
  rw [Step.run, hp.impl s hs] at hys
  have hall : g.EvaluatesAll start s.node.inputs xs := forall₂_of_mapM hxs fun v _ x => henv v x
  exact of_valueIn?_insertAll henv (fun _ _ => .of_run (hp.node s hs) hall hys hlen) v x hv

theorem evaluates_of_evaluateSteps (hp : p.Interprets g) {steps : List Step} (hsteps : steps ⊆ p.steps)
    (henv : ∀ v x, p.valueIn? env v = some x → g.Evaluates start v x) (h : p.evaluateSteps steps env = .ok env')
    (v : NodeId) (x : Value) (hv : p.valueIn? env' v = some x) : g.Evaluates start v x := by
  induction steps generalizing env with
  | nil =>
    cases h
    exact henv v x hv
  | cons s steps ih =>
    obtain ⟨hs, hrest⟩ := List.cons_subset.1 hsteps
    rw [evaluateSteps] at h
    split at h
    · next next hstep => exact ih hrest (evaluates_of_evaluateStep hp hs henv hstep) (mapError_eq_ok.1 h)
    · cases h

/-- Steps that can run on what their inputs evaluate to succeed one after the other. -/
theorem exists_evaluateSteps (h : g.Linkable) (hstart : g.Accepts start) (hp : p.Interprets g) {steps : List Step}
    (hsteps : steps ⊆ p.steps) {available : List NodeId} (hordered : g.Ordered available (steps.map (·.id)))
    (hruns : ∀ s ∈ steps, ∃ xs ys, g.EvaluatesAll start s.node.inputs xs ∧ s.node.op.run xs = .ok ys ∧
      ys.length = s.node.outputs.length)
    (henv : ∀ v x, p.valueIn? env v = some x → g.Evaluates start v x)
    (havailable : ∀ v ∈ available, ∀ x, g.Evaluates start v x → p.valueIn? env v = some x) :
    ∃ env', p.evaluateSteps steps env = .ok env' ∧
      ∀ v ∈ available ++ (steps.map (·.id)).flatMap g.outputsOf, ∀ x, g.Evaluates start v x →
        p.valueIn? env' v = some x := by
  have hnode : ∀ s ∈ steps, p.graph.operator? s.id = some s.node := fun s hs => hp.graph ▸ hp.node s (hsteps hs)
  have hneeds : ∀ s ∈ steps, ∀ v ∈ s.node.inputs, ∃ x, g.Evaluates start v x := by
    intro s hs v hv
    obtain ⟨xs, -, hxs, -⟩ := hruns s hs
    exact Graph.exists_of_mem hxs hv
  -- Nodes have one value, so that a step runs on the values that its inputs evaluate to.
  have hrun : ∀ s ∈ steps, ∀ xs, List.Forall₂ (g.Evaluates start) s.node.inputs xs → ∃ ys, s.run xs = .ok ys ∧
      ys.length = s.node.outputs.length ∧ ∀ v y, (v, y) ∈ s.node.outputs.zip ys → g.Evaluates start v y := by
    intro s hs xs hxs
    obtain ⟨xs', ys, hxs', hys, hlen⟩ := hruns s hs
    obtain rfl := Graph.EvaluatesAll.unique h hstart hxs hxs'
    refine ⟨ys, ?_, hlen, fun v y => .of_run (hp.node s (hsteps hs)) hxs hys hlen⟩
    rwa [Step.run, hp.impl s (hsteps hs)]
  obtain ⟨env', hsteps', hall⟩ := exists_evaluateSteps_of_forall (N := fun v => ∃ x, g.Evaluates start v x) hnode
    (hp.graph ▸ hordered) hneeds hrun henv fun v hv hx => Option.isSome_of_eq_some (havailable v hv _ hx.choose_spec)
  refine ⟨env', hsteps', fun v hv x hx => ?_⟩
  obtain ⟨y, hy⟩ := Option.isSome_iff_exists.1 (hall v (hp.graph ▸ hv) ⟨x, hx⟩)
  rw [hy, (evaluates_of_evaluateSteps hp hsteps henv hsteps' v y hy).unique h hstart hx]

/-- The step at which a run stops has the values of its inputs, but does not compute its outputs from them. -/
theorem fails_of_evaluateSteps (hp : p.Interprets g) {steps : List Step} (hsteps : steps ⊆ p.steps)
    {available : List NodeId} (hordered : g.Ordered available (steps.map (·.id)))
    (henv : ∀ v x, p.valueIn? env v = some x → g.Evaluates start v x)
    (havailable : ∀ v ∈ available, (p.valueIn? env v).isSome) {k : Nat} (h : p.evaluateSteps steps env = .error k) :
    ∃ s, steps[k]? = some s ∧ g.Fails start s.node := by
  induction steps generalizing env available k with
  | nil => cases h
  | cons s steps ih =>
    obtain ⟨hs, hrest⟩ := List.cons_subset.1 hsteps
    obtain ⟨hinputs, hordered⟩ := hordered
    have hnode := hp.node s hs
    rw [evaluateSteps] at h
    split at h
    · next env' hstep =>
      have hafter : ∀ v ∈ available ++ g.outputsOf s.id, (p.valueIn? env' v).isSome := by
        intro v hv
        apply isSome_valueIn?_of_evaluateStep hstep
        rcases List.mem_append.1 hv with hv | hv
        · exact .inr (havailable v hv)
        · exact .inl (Graph.outputsOf_of_operator? hnode ▸ hv)
      cases hfailed : p.evaluateSteps steps env' with
      | ok env'' =>
        rw [hfailed] at h
        cases h
      | error k' =>
        rw [hfailed] at h
        cases h
        exact ih hrest hordered (evaluates_of_evaluateStep hp hs henv hstep) hafter hfailed
    · next hstep =>
      cases h
      rw [Graph.inputsOf_of_operator? hnode] at hinputs
      obtain ⟨xs, hxs⟩ := Option.isSome_iff_exists.1 (isSome_mapM.2 fun v hv => havailable v (hinputs hv))
      refine ⟨s, rfl, xs, forall₂_of_mapM hxs fun v _ x => henv v x, fun ys hrun hlen => ?_⟩
      have hsome := evaluateStep_eq_some.2 ⟨xs, ys, hxs, by rwa [Step.run, hp.impl s hs], hlen, rfl⟩
      rw [hstep] at hsome
      cases hsome

/-- A linked program returns the values that the outputs evaluate to, if all of them evaluate. -/
theorem evaluate_iff_evaluates (h : g.Linkable) (hinputs : ∀ e ∈ inputs, e.1 ∈ g.inputIds)
    (hlink : Linker.interpreted.link g g.inputIds g.outputIds = .ok p) :
    p.evaluate inputs = .ok outs ↔ g.EvaluatesAll ⟨inputs⟩ g.outputIds outs := by
  have hp := interprets_of_link hlink
  obtain ⟨plan, hplan, rfl⟩ := link_eq_ok.1 hlink
  have hplans := plans_steps h.indexed hplan
  have hstart : g.Accepts ⟨inputs⟩ := fun v x hv => hinputs _ (mem_of_lookup hv)
  have hgiven : ∀ v x, (g.program plan).valueIn? ⟨inputs⟩ v = some x → g.Evaluates ⟨inputs⟩ v x := by
    intro v x hv
    rw [valueIn?_eq hp] at hv
    exact .given hv
  rw [evaluate_eq_ok]
  constructor
  · rintro ⟨env, hsteps, houts⟩
    exact forall₂_of_mapM houts fun o _ => evaluates_of_evaluateSteps hp (List.Subset.refl _) hgiven hsteps o
  · intro houts
    -- An operator of the plan computes a value that an output depends on.
    have hruns : ∀ s ∈ (g.program plan).steps, ∃ xs ys, g.EvaluatesAll ⟨inputs⟩ s.node.inputs xs ∧
        s.node.op.run xs = .ok ys ∧ ys.length = s.node.outputs.length := by
      intro s hs
      obtain ⟨v, hmet, -, hv⟩ := (hplans.mem_iff s.id).1 (List.mem_map_of_mem hs)
      have hneeded := (Graph.met_iff_needed h.indexed h.formed).1 hmet
      obtain ⟨x, hx⟩ := hneeded.evaluates h hstart houts
      obtain ⟨xs, ys, hxs, hys, hlen, -⟩ := hx.run h hstart (hp.node s hs)
        (Graph.outputsOf_of_operator? (hp.node s hs) ▸ hv)
      exact ⟨xs, ys, hxs, hys, hlen⟩
    obtain ⟨env, hsteps, hall⟩ := exists_evaluateSteps h hstart hp (List.Subset.refl _) hplans.ordered hruns hgiven
      fun v hv x hx => by
        rw [valueIn?_eq hp]
        cases hx with
        | given hgiven => exact hgiven
        | computed hop _ _ _ _ hmem =>
          have hid := Graph.mem_outputsOf.2 ⟨_, hop, (List.of_mem_zip hmem).1⟩
          exact absurd hv (h.formed.not_available h.indexed hid)
    exact ⟨env, hsteps, mapM_of_forall₂ houts fun o ho => hall o (hplans.provided ho)⟩

end Program

end TensorGraph
