import TensorGraph.Proofs.Graph.Validity
import TensorGraph.Proofs.Program.Reference

/-!
# Values that stay

In a valid graph no value is computed twice in different ways, so what evaluation has once computed stays as it
is. In the end all steps agree with the values that evaluation leaves (`Program.settled_of_evaluateSteps`).
-/

namespace TensorGraph

variable {g : Graph} {p : Program}

/-- Whether a program runs operators of a graph by their reference implementations. -/
structure Program.Runs (p : Program) (g : Graph) : Prop where
  graph : p.graph = g
  node : ∀ s ∈ p.steps, g.operator? s.id = some s.node
  impl : ∀ s ∈ p.steps, s.impl = .interpreted

/-- Whether a program runs operators of a graph by their reference implementations, on the graph's inputs. -/
structure Program.Interprets (p : Program) (g : Graph) : Prop extends p.Runs g where
  inputs : p.inputs = g.inputIds

/-- The program that computes outputs from inputs with the operators of a plan. -/
def Graph.programFor (g : Graph) (inputs outputs plan : List NodeId) : Program where
  graph := g
  inputs := inputs
  outputs := outputs
  steps := (plan.filterMap fun id => (g.operator? id).map (id, ·)).map fun e =>
    { id := e.1, node := e.2, impl := .interpreted }
  frees := true
  facts := none

theorem link_eq_ok_programFor {inputs outputs : List NodeId} : Linker.interpreted.link g inputs outputs = .ok p ↔
    ∃ plan, g.executionPlan inputs outputs = .ok plan ∧ p = g.programFor inputs outputs plan := by
  have hbind (nodes : List (NodeId × OperatorNode)) : nodes.mapM (fun e => Linker.interpreted.bind g e.1 e.2) =
      .ok (nodes.map fun e => { id := e.1, node := e.2, impl := .interpreted }) := by
    rw [mapM_eq_ok, List.map_map]
    rfl
  unfold Linker.link
  cases g.executionPlan inputs outputs with
  | error e => simp [bind, Except.bind, Except.mapError]
  | ok plan =>
    have hsteps := hbind (plan.filterMap fun id => (g.operator? id).map (id, ·))
    simp only [bind, Except.bind, Except.mapError, Except.ok.injEq, exists_eq_left'] at hsteps ⊢
    rw [hsteps]
    constructor
    · intro h
      cases h
      rfl
    · rintro rfl
      rfl

theorem runs_programFor (g : Graph) (inputs outputs plan : List NodeId) :
    (g.programFor inputs outputs plan).Runs g := by
  have hbound : ∀ s ∈ (g.programFor inputs outputs plan).steps, ∃ id node, g.operator? id = some node ∧
      s = ⟨id, node, .interpreted⟩ := by
    intro s hs
    obtain ⟨⟨id, node⟩, hmem, rfl⟩ := List.mem_map.1 hs
    obtain ⟨id', -, hop⟩ := List.mem_filterMap.1 hmem
    obtain ⟨node', hop, hpair⟩ := Option.map_eq_some_iff.1 hop
    cases hpair
    exact ⟨id, node, hop, rfl⟩
  refine ⟨rfl, fun s hs => ?_, fun s hs => ?_⟩
  · obtain ⟨id, node, hop, rfl⟩ := hbound s hs
    exact hop
  · obtain ⟨id, node, -, rfl⟩ := hbound s hs
    rfl

/-- If a plan lists operators of the graph, then its program runs all of them. -/
theorem steps_programFor {inputs outputs plan : List NodeId} (hplan : ∀ id ∈ plan, (g.operator? id).isSome) :
    (g.programFor inputs outputs plan).steps.map (·.id) = plan := by
  rw [Graph.programFor, List.map_map, List.map_filterMap]
  refine (List.filterMap_congr fun id hid => ?_).trans (List.filterMap_some ..)
  obtain ⟨op, hop⟩ := Option.isSome_iff_exists.1 (hplan id hid)
  simp [hop]

theorem interprets_of_link {outputs : List NodeId} (h : Linker.interpreted.link g g.inputIds outputs = .ok p) :
    p.Interprets g := by
  obtain ⟨plan, -, rfl⟩ := link_eq_ok_programFor.1 h
  exact ⟨runs_programFor g g.inputIds outputs plan, rfl⟩

namespace Program

/-- Whether the values of a step's outputs are those that its operator computes from the values of its inputs. -/
def Computed (p : Program) (env : IdMap Value) (s : Step) : Prop :=
  ∃ vs outs, s.node.inputs.mapM (p.valueIn? env) = some vs ∧ s.node.op.run vs = .ok outs ∧
    outs.length = s.node.outputs.length ∧ ∀ id v, (id, v) ∈ s.node.outputs.zip outs → env.get? id = some v

theorem mapM_of_persist {env env' : IdMap Value} (h : ∀ id v, p.valueIn? env id = some v → p.valueIn? env' id = some v)
    {ids : List NodeId} {vs : List Value} (hvs : ids.mapM (p.valueIn? env) = some vs) :
    ids.mapM (p.valueIn? env') = some vs := by
  rw [mapM_eq_some] at hvs ⊢
  rw [← hvs]
  refine List.map_congr_left fun id hid => ?_
  have hmem : p.valueIn? env id ∈ vs.map some := hvs ▸ List.mem_map_of_mem hid
  obtain ⟨v, -, hv⟩ := List.mem_map.1 hmem
  rw [← hv]
  exact h id v hv.symm

theorem get?_of_mem_zip {ids : List NodeId} {outs : List Value} (hnodup : ids.Nodup)
    (hlen : outs.length = ids.length) (env : IdMap Value) {id : NodeId} {v : Value} (h : (id, v) ∈ ids.zip outs) :
    (env.insertAll (ids.zip outs)).get? id = some v := by
  have hkeys : ((ids.zip outs).map (·.1)).Nodup := by
    rwa [List.map_fst_zip (Nat.le_of_eq hlen.symm)]
  rw [IdMap.get?_insertAll, IdMap.lookup_reverse_of_nodup _ hkeys, lookup_of_nodup hkeys h]
  rfl

theorem get?_of_not_mem {ids : List NodeId} {outs : List Value} (env : IdMap Value) {id : NodeId} (h : id ∉ ids) :
    (env.insertAll (ids.zip outs)).get? id = env.get? id := by
  have hnone : (ids.zip outs).reverse.lookup id = none := by
    rw [List.lookup_eq_none_iff]
    intro e he
    refine bne_iff_ne.2 ?_
    rintro rfl
    exact h (List.of_mem_zip (List.mem_reverse.1 he)).1
  rw [IdMap.get?_insertAll, hnone]
  rfl

/-- Values that steps do not compute stay as they are. -/
theorem valueIn?_of_evaluateSteps {env env' : IdMap Value} {steps : List Step}
    (h : p.evaluateSteps steps env = .ok env') {id : NodeId} (hid : ∀ s ∈ steps, id ∉ s.node.outputs) :
    p.valueIn? env' id = p.valueIn? env id := by
  induction steps generalizing env with
  | nil =>
    cases h
    rfl
  | cons s steps ih =>
    obtain ⟨hs, hsteps⟩ := List.forall_mem_cons.1 hid
    rw [evaluateSteps] at h
    split at h
    · next next hstep =>
      rw [ih (mapError_eq_ok.1 h) hsteps]
      obtain ⟨xs, -, hstep⟩ := Option.bind_eq_some_iff.1 hstep
      obtain ⟨ys, -, hstep⟩ := Option.bind_eq_some_iff.1 hstep
      split at hstep
      · cases hstep
        rw [valueIn?, valueIn?, get?_of_not_mem env hs]
      · cases hstep
    · cases h

/-- What holds after some of the steps: they agree with the values so far, all of which they computed or were
there from the start. -/
structure Settled (p : Program) (start env : IdMap Value) (done : List Step) : Prop where
  computed : ∀ s ∈ done, p.Computed env s
  origin : ∀ id v, env.get? id = some v → start.get? id = some v ∨ ∃ s ∈ done, id ∈ s.node.outputs

variable {start env env' : IdMap Value} {done : List Step} {s : Step}

/-- A step does not change a value that is there. -/
theorem Settled.persist (hwell : g.WellFormed) (hp : p.Runs g)
    (hstart : ∀ id v, start.get? id = some v → ∀ s ∈ p.steps, id ∉ s.node.outputs) (h : p.Settled start env done)
    (hdone : ∀ s ∈ done, s ∈ p.steps) (hs : s ∈ p.steps) {vs outs : List Value}
    (hvs : s.node.inputs.mapM (p.valueIn? env) = some vs) (houts : s.node.op.run vs = .ok outs)
    (hlen : outs.length = s.node.outputs.length) {id : NodeId} {v : Value} (hv : env.get? id = some v) :
    (env.insertAll (s.node.outputs.zip outs)).get? id = some v := by
  by_cases hmem : id ∈ s.node.outputs
  · rcases h.origin id v hv with hinput | ⟨s', hs', hmem'⟩
    · exact absurd hmem (hstart id v hinput s hs)
    · have hnode' := hp.node s' (hdone s' hs')
      have hid := hwell.oneProducer _ _ _ _ id hnode' (hp.node s hs) hmem' hmem
      rw [hid, hp.node s hs] at hnode'
      obtain ⟨vs', outs', hvs', houts', hlen', hget⟩ := h.computed s' hs'
      rw [← Option.some.inj hnode'] at hvs' houts' hlen' hget
      cases hvs.symm.trans hvs'
      cases houts.symm.trans houts'
      obtain ⟨i, hi, rfl⟩ := List.getElem_of_mem hmem
      have hzip : (s.node.outputs[i], outs.get ⟨i, hlen ▸ hi⟩) ∈ s.node.outputs.zip outs :=
        List.mem_iff_getElem.2 ⟨i, by simpa [hlen] using hi, by simp⟩
      rw [hget _ _ hzip] at hv
      cases hv
      exact get?_of_mem_zip (hwell.outputsNodup _ _ (hp.node s hs)) hlen env hzip
  · rwa [get?_of_not_mem env hmem]

theorem valueIn?_persist (hwell : g.WellFormed) (hp : p.Runs g) (hs : s ∈ p.steps) {outs : List Value}
    (hget : ∀ id v, env.get? id = some v → (env.insertAll (s.node.outputs.zip outs)).get? id = some v)
    {id : NodeId} {v : Value} (hv : p.valueIn? env id = some v) :
    p.valueIn? (env.insertAll (s.node.outputs.zip outs)) id = some v := by
  unfold valueIn? at hv ⊢
  cases hid : env.get? id with
  | some w =>
    rw [hid] at hv
    cases hv
    rw [hget id v hid]
    rfl
  | none =>
    rw [hid] at hv
    have hconstant : p.graph.constant? id = some v := hv
    have hnot : id ∉ s.node.outputs := by
      intro hmem
      have hvalue := hwell.produces _ _ (hp.node s hs) id hmem
      rw [Graph.isValue_of_constant? (hp.graph ▸ hconstant)] at hvalue
      cases hvalue
    rw [get?_of_not_mem env hnot, hid]
    exact hconstant

theorem Settled.step (hwell : g.WellFormed) (hp : p.Runs g)
    (hstart : ∀ id v, start.get? id = some v → ∀ s ∈ p.steps, id ∉ s.node.outputs) (h : p.Settled start env done)
    (hdone : ∀ s ∈ done, s ∈ p.steps) (hs : s ∈ p.steps) (hstep : p.evaluateStep env s = some env') :
    p.Settled start env' (done ++ [s]) := by
  obtain ⟨vs, hvs, hstep⟩ := Option.bind_eq_some_iff.1 hstep
  obtain ⟨outs, houts, hstep⟩ := Option.bind_eq_some_iff.1 hstep
  split at hstep
  · next hlen =>
    cases hstep
    rw [toOption_eq_some, Step.run, hp.impl s hs] at houts
    have hget : ∀ id v, env.get? id = some v → (env.insertAll (s.node.outputs.zip outs)).get? id = some v :=
      fun id v hv => h.persist hwell hp hstart hdone hs hvs houts hlen hv
    have hread : ∀ id v, p.valueIn? env id = some v →
        p.valueIn? (env.insertAll (s.node.outputs.zip outs)) id = some v :=
      fun id v hv => valueIn?_persist hwell hp hs hget hv
    refine ⟨fun s' hs' => ?_, fun id v hv => ?_⟩
    · rcases List.mem_append.1 hs' with hs' | hs'
      · obtain ⟨vs', outs', hvs', houts', hlen', hget'⟩ := h.computed s' hs'
        exact ⟨vs', outs', mapM_of_persist hread hvs', houts', hlen', fun id v hv => hget id v (hget' id v hv)⟩
      · cases List.mem_singleton.1 hs'
        exact ⟨vs, outs, mapM_of_persist hread hvs, houts, hlen, fun id v hv =>
          get?_of_mem_zip (hwell.outputsNodup _ _ (hp.node s hs)) hlen env hv⟩
    · by_cases hmem : id ∈ s.node.outputs
      · exact .inr ⟨s, by simp, hmem⟩
      · rw [get?_of_not_mem env hmem] at hv
        rcases h.origin id v hv with hinput | ⟨s', hs', hmem'⟩
        · exact .inl hinput
        · exact .inr ⟨s', List.mem_append_left _ hs', hmem'⟩
  · cases hstep

theorem Settled.steps (hwell : g.WellFormed) (hp : p.Runs g)
    (hstart : ∀ id v, start.get? id = some v → ∀ s ∈ p.steps, id ∉ s.node.outputs) {rest : List Step}
    (h : p.Settled start env done) (hdone : ∀ s ∈ done, s ∈ p.steps) (hrest : ∀ s ∈ rest, s ∈ p.steps)
    (hsteps : p.evaluateSteps rest env = .ok env') : p.Settled start env' (done ++ rest) := by
  induction rest generalizing env done with
  | nil =>
    cases hsteps
    rwa [List.append_nil]
  | cons s rest ih =>
    obtain ⟨hs, hrest⟩ := List.forall_mem_cons.1 hrest
    rw [evaluateSteps] at hsteps
    split at hsteps
    · next next hnext =>
      have hsettled := h.step hwell hp hstart hdone hs hnext
      rw [List.append_cons]
      refine ih hsettled (fun s' hs' => ?_) hrest ?_
      · rcases List.mem_append.1 hs' with hs' | hs'
        · exact hdone s' hs'
        · cases List.mem_singleton.1 hs'
          exact hs
      · cases hok : p.evaluateSteps rest next with
        | error n => simp [hok, Except.mapError] at hsteps
        | ok final => simpa [hok, Except.mapError] using hsteps
    · cases hsteps

/-- In the end the values are those that the steps compute from them, if none of these was there from the start. -/
theorem settled_of_runs (hwell : g.WellFormed) (hp : p.Runs g)
    (hstart : ∀ id v, start.get? id = some v → ∀ s ∈ p.steps, id ∉ s.node.outputs)
    (h : p.evaluateSteps p.steps start = .ok env) : p.Settled start env p.steps := by
  have hinit : p.Settled start start [] := ⟨by simp, fun id v hv => .inl hv⟩
  exact hinit.steps hwell hp hstart (by simp) (fun s hs => hs) h

/-- The same on inputs of the graph, which no operator computes. -/
theorem settled_of_evaluateSteps (hwell : g.WellFormed) (hp : p.Interprets g)
    (hstart : ∀ id v, start.get? id = some v → id ∈ g.inputIds) (h : p.evaluateSteps p.steps start = .ok env) :
    p.Settled start env p.steps :=
  settled_of_runs hwell hp.toRuns (fun id v hv s hs => hwell.inputsFree id (hstart id v hv) _ _ (hp.node s hs)) h

end Program

end TensorGraph
