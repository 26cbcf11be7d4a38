import Mathlib.Algebra.GroupWithZero.Nat
import TensorGraph.Proofs.Graph.Edges
import TensorGraph.Proofs.Graph.Plan
import TensorGraph.Proofs.Program.Tracking

/-!
# Programs compute what evaluation computes

The step lemmas of tracking memories, along whole runs: a program that runs by an execution plan
returns what `Program.evaluate` returns, or fails at the same step (`run_eq_evaluate`).
-/

namespace TensorGraph

namespace Program

variable {p : Program} {given env : IdMap Value} {m : Memory} {s : Step}

/-! ## All steps -/

theorem isSome_valueIn?_of_evaluateStep {env' : IdMap Value} (h : p.evaluateStep env s = some env')
    {id : NodeId} (hid : id ∈ s.node.outputs ∨ (p.valueIn? env id).isSome) : (p.valueIn? env' id).isSome := by
  obtain ⟨vs, outs, -, -, hlen, rfl⟩ := evaluateStep_eq_some.1 h
  rcases hid with hid | hid
  · rw [← List.map_fst_zip (Nat.le_of_eq hlen.symm)] at hid
    obtain ⟨v, hv⟩ := Option.isSome_iff_exists.1 (IdMap.isSome_get?_insertAll env hid)
    simp [valueIn?, hv]
  · rw [valueIn?] at hid ⊢
    rw [IdMap.get?_insertAll]
    cases (s.node.outputs.zip outs).reverse.lookup id with
    | some v => rfl
    | none => simpa using hid

theorem evaluateSteps_cons {env' : IdMap Value} (h : p.evaluateStep env s = some env') (rest : List Step) :
    p.evaluateSteps (s :: rest) env = (p.evaluateSteps rest env').mapError (· + 1) := by
  simp only [evaluateSteps, h]

/-- What holds of the values that are there and of those that are added holds of all values. -/
theorem of_valueIn?_insertAll {P : NodeId → Value → Prop} (henv : ∀ id x, p.valueIn? env id = some x → P id x)
    {added : List (NodeId × Value)} (hadded : ∀ id x, (id, x) ∈ added → P id x) (id : NodeId) (x : Value)
    (hx : p.valueIn? (env.insertAll added) id = some x) : P id x := by
  rw [valueIn?, IdMap.get?_insertAll] at hx
  cases hlookup : added.reverse.lookup id with
  | some y =>
    rw [hlookup] at hx
    cases hx
    exact hadded id _ (List.mem_reverse.1 (mem_of_lookup hlookup))
  | none =>
    rw [hlookup] at hx
    exact henv id x hx

/-- If each step can run on values of which something holds, and computes such values, then all of them can, as long as
the values that they need are there. -/
theorem exists_evaluateSteps_of_forall {P : NodeId → Value → Prop} {N : NodeId → Prop} {steps : List Step}
    (hnode : ∀ s ∈ steps, p.graph.operator? s.id = some s.node) {available : List NodeId}
    (hordered : p.graph.Ordered available (steps.map (·.id))) (hneeds : ∀ s ∈ steps, ∀ id ∈ s.node.inputs, N id)
    (hruns : ∀ s ∈ steps, ∀ xs, List.Forall₂ P s.node.inputs xs → ∃ ys, s.run xs = .ok ys ∧
      ys.length = s.node.outputs.length ∧ ∀ id y, (id, y) ∈ s.node.outputs.zip ys → P id y)
    (henv : ∀ id x, p.valueIn? env id = some x → P id x)
    (havailable : ∀ id ∈ available, N id → (p.valueIn? env id).isSome) :
    ∃ env', p.evaluateSteps steps env = .ok env' ∧
      ∀ id ∈ available ++ (steps.map (·.id)).flatMap p.graph.outputsOf, N id → (p.valueIn? env' id).isSome := by
  induction steps generalizing env available with
  | nil => exact ⟨env, rfl, by simpa using havailable⟩
  | cons s steps ih =>
    obtain ⟨hnode, hnodes⟩ := List.forall_mem_cons.1 hnode
    obtain ⟨hneed, hneeds⟩ := List.forall_mem_cons.1 hneeds
    obtain ⟨hrun, hruns⟩ := List.forall_mem_cons.1 hruns
    obtain ⟨hreads, hordered⟩ := hordered
    rw [Graph.inputsOf_of_operator? hnode] at hreads
    have hsome := isSome_mapM.2 fun id hid => havailable id (hreads hid) (hneed id hid)
    obtain ⟨xs, hxs⟩ := Option.isSome_iff_exists.1 hsome
    obtain ⟨ys, hys, hlen, hP⟩ := hrun xs (forall₂_of_mapM hxs fun id _ x => henv id x)
    have hstep : p.evaluateStep env s = some (env.insertAll (s.node.outputs.zip ys)) :=
      evaluateStep_eq_some.2 ⟨xs, ys, hxs, hys, hlen, rfl⟩
    have hafter := of_valueIn?_insertAll henv hP
    obtain ⟨env', hsteps, hall⟩ := ih hnodes hordered hneeds hruns hafter fun id hid hneed => by
      apply isSome_valueIn?_of_evaluateStep hstep
      rcases List.mem_append.1 hid with hid | hid
      · exact .inr (havailable id hid hneed)
      · exact .inl (Graph.outputsOf_of_operator? hnode ▸ hid)
    refine ⟨env', ?_, by simpa [List.append_assoc] using hall⟩
    rw [evaluateSteps_cons hstep, hsteps]
    rfl

/-- The steps of a running program that succeeds compute what the evaluation computes. -/
theorem evaluateSteps_of_runSteps (hfaithful : ∀ s ∈ p.steps, s.Faithful) {steps : List Step}
    (hsteps : steps ⊆ p.steps) (t : p.Tracks given steps env m) {traces : List StepTrace} {m' : Memory}
    (h : p.runSteps given steps m = (traces, .ok m')) :
    ∃ env', p.evaluateSteps steps env = .ok env' ∧ p.Tracks given [] env' m' := by
  induction steps generalizing env m traces with
  | nil =>
    cases h
    exact ⟨env, rfl, t⟩
  | cons s rest ih =>
    have hs : s ∈ p.steps := hsteps (by simp)
    rw [runSteps] at h
    split at h
    · cases h
    · next trace m₁ hstep =>
      obtain ⟨env₁, heval, t₁⟩ := evaluateStep_of_runStep (hfaithful s hs) hs t hstep
      cases hrest : p.runSteps given rest m₁ with
      | mk traces₁ result =>
        rw [hrest] at h
        cases h
        obtain ⟨env', hsteps', t'⟩ := ih (fun _ hx => hsteps (by simp [hx])) t₁ hrest
        exact ⟨env', by rw [evaluateSteps_cons heval, hsteps']; rfl, t'⟩

/-- Without checks, the steps of a running program do what the evaluation does, up to the step at which
both fail. -/
theorem runSteps_eq_evaluateSteps (hplanned : p.Planned) (hfaithful : ∀ s ∈ p.steps, s.Faithful)
    (hunchecked : ∀ s ∈ p.steps, s.isChecked = false) (hfacts : p.facts = none) {steps : List Step}
    (hsteps : steps ⊆ p.steps) {available : List NodeId}
    (hordered : p.graph.Ordered available (steps.map (·.id)))
    (havailable : ∀ id ∈ available, (p.valueIn? env id).isSome) (t : p.Tracks given steps env m) :
    ∃ traces result, p.runSteps given steps m = (traces, result) ∧
      match p.evaluateSteps steps env with
      | .ok env' => traces.map (·.step) = steps ∧ ∃ m', result = .ok m' ∧ p.Tracks given [] env' m'
      | .error k => traces.map (·.step) = steps.take (k + 1) ∧ ∃ e, result = .error e ∧
          ∃ s, steps[k]? = some s ∧ e.nodeName? = some (p.graph.nodeName s.id) := by
  induction steps generalizing env m available with
  | nil => exact ⟨[], .ok m, rfl, rfl, m, rfl, t⟩
  | cons s rest ih =>
    have hs : s ∈ p.steps := hsteps (by simp)
    have hinputs : p.graph.inputsOf s.id = s.node.inputs := by simp [Graph.inputsOf, hplanned.node s hs]
    have houtputs : p.graph.outputsOf s.id = s.node.outputs := by simp [Graph.outputsOf, hplanned.node s hs]
    obtain ⟨hreads, hordered⟩ := hordered
    rw [hinputs] at hreads
    rw [houtputs] at hordered
    obtain ⟨vs, hvs⟩ := Option.isSome_iff_exists.1
      (isSome_mapM.2 fun id hid => havailable id (hreads hid))
    obtain ⟨trace, result, hstep, rfl, hresult⟩ :=
      runStep_of_reads (hfaithful s hs) hs (hunchecked s hs) hfacts t hvs
    rw [runSteps, hstep]
    cases heval : p.evaluateStep env trace.step with
    | none =>
      rw [heval] at hresult
      obtain ⟨e, rfl, hname⟩ := hresult
      simp only [evaluateSteps, heval]
      exact ⟨_, _, rfl, rfl, e, rfl, trace.step, rfl, hname⟩
    | some env₁ =>
      rw [heval] at hresult
      obtain ⟨m₁, rfl, t₁⟩ := hresult
      have havailable₁ : ∀ id ∈ available ++ trace.step.node.outputs, (p.valueIn? env₁ id).isSome := by
        intro id hid
        refine isSome_valueIn?_of_evaluateStep heval ?_
        rcases List.mem_append.1 hid with hid | hid
        · exact .inr (havailable id hid)
        · exact .inl hid
      obtain ⟨traces, result, hrest, h⟩ := ih (fun _ hx => hsteps (by simp [hx])) hordered havailable₁ t₁
      refine ⟨trace :: traces, result, by simp [hrest], ?_⟩
      rw [evaluateSteps_cons heval]
      cases hrun : p.evaluateSteps rest env₁ with
      | ok env' =>
        rw [hrun] at h
        exact ⟨by simp [h.1], h.2⟩
      | error k =>
        rw [hrun] at h
        exact ⟨by simp [h.1], h.2⟩

/-! ## The start of a run -/

theorem givenValues_eq_ok {inputs : List (NodeId × Value)} (hinputs : (inputs.map (·.1)).Perm p.inputs) :
    p.givenValues inputs = .ok (IdMap.empty.insertAll inputs) := by
  have hfold : ∀ (l : List (NodeId × Value)) (env : IdMap Value), (∀ e ∈ l, e.1 ∈ p.inputs) →
      l.foldlM (fun (env : IdMap Value) (e : NodeId × Value) =>
        if p.inputs.contains e.1 then Except.ok (env.insert e.1 e.2) else Except.error RunError.invalidNode)
        env = Except.ok (env.insertAll l) := by
    intro l
    induction l with
    | nil => intro env _; rfl
    | cons e l ih =>
      intro env h
      rw [List.foldlM_cons, if_pos (by simpa using h e (by simp))]
      exact ih _ fun e he => h e (by simp [he])
  have hmem : ∀ e ∈ inputs, e.1 ∈ p.inputs := fun e he => hinputs.subset (List.mem_map_of_mem he)
  have hnone : p.inputs.find? (fun id => !(IdMap.empty.insertAll inputs).contains id) = none := by
    rw [List.find?_eq_none]
    intro id hid
    have hsome := IdMap.isSome_get?_insertAll IdMap.empty (hinputs.symm.subset hid)
    simp [IdMap.contains, hsome]
  rw [givenValues]
  exact bind_eq_ok.2 ⟨_, hfold inputs IdMap.empty hmem, by rw [hnone]; rfl⟩

theorem start_eq_ok {inputs : List (NodeId × Value)} (hinputs : (inputs.map (·.1)).Perm p.inputs)
    (h : p.start inputs = .ok (given, m)) :
    given = IdMap.empty.insertAll inputs ∧ ∃ symbols, m = { p.startMemory with symbols } := by
  obtain ⟨_, hgiven, h⟩ := bind_eq_ok.1 h
  rw [givenValues_eq_ok hinputs] at hgiven
  cases hgiven
  obtain ⟨m₁, hcheck, h⟩ := bind_eq_ok.1 h
  cases h
  refine ⟨rfl, ?_⟩
  unfold checkInputs at hcheck
  split at hcheck
  · cases hcheck
    exact ⟨_, rfl⟩
  · obtain ⟨symbols, -, hcheck⟩ := bind_eq_ok.1 hcheck
    cases hcheck
    exact ⟨symbols, rfl⟩

theorem start_of_unchecked {inputs : List (NodeId × Value)} (hinputs : (inputs.map (·.1)).Perm p.inputs)
    (hfacts : p.facts = none) : p.start inputs = .ok (IdMap.empty.insertAll inputs, p.startMemory) := by
  rw [start, givenValues_eq_ok hinputs]
  simp only [checkInputs, hfacts]
  rfl

/-- Before the first step, every value that steps compute has as many uses as it will have readers. -/
theorem Tracks.start {inputs : List (NodeId × Value)} (hnodup : (inputs.map (·.1)).Nodup)
    (symbols : SymbolMap) :
    p.Tracks (IdMap.empty.insertAll inputs) p.steps ⟨inputs⟩ { p.startMemory with symbols } := by
  have hcomputed : p.startMemory.computed = {} := Memory.computed_addUses ..
  refine ⟨fun id hid => ?_, fun id v h => ?_, fun id _ => ?_⟩
  · have huses : p.startMemory.usesOf id = _ := Memory.usesOf_addUses ..
    change p.startMemory.usesOf id = _
    rw [huses, List.count_append, List.count_filter (by simpa [computedIds] using hid)]
    simp [demand, Memory.usesOf, IdMap.get?]
  · simp [hcomputed, IdMap.get?] at h
  · simp only [lookup?, valueIn?, hcomputed, IdMap.get?_insertAll_of_nodup inputs hnodup]
    simp [IdMap.get?]

/-! ## Whole runs -/

theorem Tracks.results (t : p.Tracks given [] env m) :
    (p.results given m).toOption = p.outputs.mapM (p.valueIn? env) := by
  rw [Program.results, toOption_mapM]
  refine mapM_congr fun id hid => ?_
  rw [← t.live id (by simpa [demand] using List.count_pos_iff.2 hid)]
  cases p.lookup? given m id <;> rfl

theorem nodeName?_of_results {e : RunError} (h : p.results given m = .error e) : e.nodeName? = none := by
  obtain ⟨id, -, h⟩ := mapM_eq_error h
  cases hlook : p.lookup? given m id with
  | some v => rw [hlook] at h; cases h
  | none => rw [hlook] at h; cases h; rfl

theorem evaluate_eq_ok {inputs : List (NodeId × Value)} {outs : List Value} :
    p.evaluate inputs = .ok outs ↔
      ∃ env, p.evaluateSteps p.steps ⟨inputs⟩ = .ok env ∧ p.outputs.mapM (p.valueIn? env) = some outs := by
  rw [evaluate]
  cases p.evaluateSteps p.steps ⟨inputs⟩ with
  | error k => simp [bind, Except.bind]
  | ok env =>
    cases hout : p.outputs.mapM (p.valueIn? env) with
    | none => simp [hout, bind, Except.bind]
    | some outs => simp [hout, bind, Except.bind]

theorem run_of_start {inputs : List (NodeId × Value)} {traces : List StepTrace} {result : Except RunError Memory}
    (hstart : p.start inputs = .ok (given, m)) (hrun : p.runSteps given p.steps m = (traces, result)) :
    p.run inputs = { trace := traces, result := result.bind (p.results given) } := by
  simp only [run, hstart, hrun]

/-- A run that succeeds returns the outputs of the evaluation. -/
theorem evaluate_of_run {inputs : List (NodeId × Value)} (hnodup : p.inputs.Nodup)
    (hfaithful : ∀ s ∈ p.steps, s.Faithful) (hinputs : (inputs.map (·.1)).Perm p.inputs) {outs : List Value}
    (h : (p.run inputs).result = .ok outs) : p.evaluate inputs = .ok outs := by
  cases hstart : p.start inputs with
  | error e => simp [run, hstart] at h
  | ok start =>
    obtain ⟨given, m⟩ := start
    obtain ⟨rfl, symbols, rfl⟩ := start_eq_ok hinputs hstart
    cases hrun : p.runSteps (IdMap.empty.insertAll inputs) p.steps { p.startMemory with symbols } with
    | mk traces result =>
    rw [run_of_start hstart hrun] at h
    obtain ⟨m', rfl, hresults⟩ := bind_eq_ok.1 h
    obtain ⟨env, hsteps, t⟩ := evaluateSteps_of_runSteps hfaithful (fun _ h => h)
      (Tracks.start (hinputs.nodup_iff.2 hnodup) symbols) hrun
    exact evaluate_eq_ok.2 ⟨env, hsteps, by rw [← t.results, hresults]; rfl⟩

/-- Without checks, a run returns the outputs of the evaluation or fails at the same step. -/
theorem run_of_unchecked {inputs : List (NodeId × Value)} (hplanned : p.Planned)
    (hfaithful : ∀ s ∈ p.steps, s.Faithful) (hinputs : (inputs.map (·.1)).Perm p.inputs)
    (hfacts : p.facts = none) (hunchecked : ∀ s ∈ p.steps, s.isChecked = false) :
    match p.evaluate inputs with
    | .ok outs => (p.run inputs).result = .ok outs
    | .error k => (p.run inputs).trace.map (·.step) = p.steps.take (k + 1) ∧
        ∃ e, (p.run inputs).result = .error e ∧
          e.nodeName? = p.steps[k]?.map fun s => p.graph.nodeName s.id := by
  have hnodup := (Graph.executionPlan_eq_ok.1 hplanned.plan).2.1.1
  have havailable : ∀ id ∈ p.inputs ++ p.graph.constantIds, (p.valueIn? ⟨inputs⟩ id).isSome := by
    intro id hid
    rcases List.mem_append.1 hid with hid | hid
    · obtain ⟨v, hv⟩ := Option.isSome_iff_exists.1
        (IdMap.isSome_get?_insertAll IdMap.empty (hinputs.symm.subset hid))
      rw [IdMap.get?_insertAll_of_nodup inputs (hinputs.nodup_iff.2 hnodup)] at hv
      simp [valueIn?, hv]
    · have hconst := (List.mem_filter.1 hid).2
      cases hget : (IdMap.mk inputs).get? id <;> simp [valueIn?, hget, hconst]
  obtain ⟨traces, result, hrun, h⟩ := runSteps_eq_evaluateSteps hplanned hfaithful hunchecked hfacts
    (fun _ h => h) (Graph.ordered_executionPlan hplanned.plan) havailable
    (Tracks.start (hinputs.nodup_iff.2 hnodup) p.startMemory.symbols)
  rw [run_of_start (start_of_unchecked hinputs hfacts) hrun, evaluate]
  cases hsteps : p.evaluateSteps p.steps ⟨inputs⟩ with
  | error k =>
    rw [hsteps] at h
    obtain ⟨htrace, e, rfl, s, hs, hname⟩ := h
    exact ⟨htrace, e, rfl, by rw [hs, hname]; rfl⟩
  | ok env =>
    rw [hsteps] at h
    obtain ⟨htrace, m', rfl, t⟩ := h
    have hresults := t.results
    cases hout : p.outputs.mapM (p.valueIn? env) with
    | some outs =>
      rw [hout] at hresults
      simpa [bind, Except.bind, hout] using toOption_eq_some.1 hresults
    | none =>
      rw [hout] at hresults
      cases hend : p.results (IdMap.empty.insertAll inputs) m' with
      | ok outs => rw [hend] at hresults; cases hresults
      | error e =>
        simp only [bind, Except.bind, hout, hend]
        refine ⟨?_, e, rfl, ?_⟩
        · rw [htrace, List.take_of_length_le (Nat.le_succ _)]
        · rw [nodeName?_of_results hend, List.getElem?_eq_none (Nat.le_refl _)]
          rfl

/-- Counting uses, freeing and overwriting do not change what a program computes. Without checks the run
of a planned program returns the outputs of the evaluation, or it fails at the step at which the
evaluation fails. With checks it can also fail elsewhere, but returns nothing else. -/
theorem run_eq_evaluate (p : Program) (inputs : List (NodeId × Value)) (hplanned : p.Planned)
    (hfaithful : ∀ s ∈ p.steps, s.Faithful) (hinputs : (inputs.map (·.1)).Perm p.inputs) :
    ((p.facts = none ∧ ∀ s ∈ p.steps, s.isChecked = false) →
      (∀ outs, (p.run inputs).result = .ok outs ↔ p.evaluate inputs = .ok outs) ∧
      ∀ k, p.evaluate inputs = .error k →
        (p.run inputs).trace.map (·.step) = p.steps.take (k + 1) ∧
        ∃ e, (p.run inputs).result = .error e ∧
          e.nodeName? = p.steps[k]?.map fun s => p.graph.nodeName s.id) ∧
    ∀ outs, (p.run inputs).result = .ok outs → p.evaluate inputs = .ok outs := by
  have hnodup := (Graph.executionPlan_eq_ok.1 hplanned.plan).2.1.1
  refine ⟨fun ⟨hfacts, hunchecked⟩ => ?_, fun outs => evaluate_of_run hnodup hfaithful hinputs⟩
  have hrun := run_of_unchecked hplanned hfaithful hinputs hfacts hunchecked
  refine ⟨fun outs => ⟨evaluate_of_run hnodup hfaithful hinputs, fun h => ?_⟩, fun k h => ?_⟩
  · rw [h] at hrun
    exact hrun
  · rw [h] at hrun
    exact hrun

/-! ## A program that overwrites -/

/-- The total number of elements of the inputs. -/
def totalSize : CustomOperator where
  name := "TotalSize"
  maxInputs := none
  commutative := true
  inPlace := true
  run vs := .ok [.ints (.scalar (.ofNat (vs.map Value.size).sum))]
  runInPlace first rest := .ok (.ints (.scalar (.ofNat (first.size + (rest.map Value.size).sum))))

/-- The operator `t` reads `s` twice and must not overwrite it; `u` takes its second input to overwrite. -/
def totals : Graph :=
  let (g, x) := Graph.empty.addValue (some "x") none none
  let (g, s) := g.addSimpleOperator "s" (.custom totalSize) [x, x]
  let (g, t) := g.addSimpleOperator "t" (.custom totalSize) [s, s]
  let (g, u) := g.addSimpleOperator "u" (.custom totalSize) [x, t]
  (g.setInputs [x]).setOutputs [u, s]

def totalsProgram : Program where
  graph := totals
  inputs := totals.inputIds
  outputs := totals.outputIds
  steps := totals.operators.map fun (id, node) => { id, node, impl := .interpreted }
  frees := true
  facts := none

theorem faithful_totalSize (id : NodeId) (node : OperatorNode) (h : node.op = .custom totalSize) :
    (Step.mk id node .interpreted).Faithful where
  overwrite _ first rest _ := by
    simp only [Step.run, Step.runInPlace, h, Operator.run, Operator.runInPlace, totalSize, List.map_cons,
      List.sum_cons]
    rfl
  swap _ vs ws hperm _ := by
    simp only [Step.run, h, Operator.run, totalSize, (hperm.map Value.size).sum_nat]

theorem run_totalsProgram :
    totalsProgram.Planned ∧ (∀ s ∈ totalsProgram.steps, s.Faithful) ∧
      (totalsProgram.run [(0, .ints (.vector #[7, 8, 9]))]).result =
        .ok [.ints (.scalar 4), .ints (.scalar 6)] := by
  have hplanned : totalsProgram.Planned :=
    ⟨rfl, List.forall_mem_map.2 fun _ he => Graph.mem_operators.1 he⟩
  have hops : ∀ e ∈ totals.operators, e.2.op = .custom totalSize :=
    List.forall_iff_forall_mem.1 ⟨rfl, rfl, rfl⟩
  have hfaithful : ∀ s ∈ totalsProgram.steps, s.Faithful :=
    List.forall_mem_map.2 fun e he => faithful_totalSize e.1 e.2 (hops e he)
  have hunchecked : ∀ s ∈ totalsProgram.steps, s.isChecked = false :=
    List.forall_mem_map.2 fun _ _ => rfl
  have h := run_eq_evaluate totalsProgram [(0, .ints (.vector #[7, 8, 9]))] hplanned hfaithful (.refl _)
  exact ⟨hplanned, hfaithful, ((h.1 ⟨rfl, hunchecked⟩).1 _).2 rfl⟩

end Program

end TensorGraph
