import Mathlib.Data.List.Perm.Basic
import Mathlib.Data.Option.Basic
import TensorGraph.Proofs.Program.Memory
import TensorGraph.Proofs.Program.Reference

/-!
# One step of a running program

A running program counts uses, frees values and overwrites them; `Program.evaluate` does not. The
memory of the running program `Tracks` the environment of the evaluation: the uses of every computed
value are counted exactly, and every value with a use is there. A step keeps this (`Tracks.finished`)
and does what the evaluation does (`evaluateStep_of_runStep`, `runStep_of_reads`).
-/

namespace TensorGraph

namespace Program

/-- The values that steps compute. -/
def computedIds (p : Program) : List NodeId := p.steps.flatMap (·.node.outputs)

/-- How often steps read a value, or the program returns it. -/
def demand (p : Program) (steps : List Step) (id : NodeId) : Nat :=
  (steps.flatMap (·.node.inputs)).count id + p.outputs.count id

/-- The memory before the remaining steps, where evaluation that keeps every value has `env`. -/
structure Tracks (p : Program) (given : IdMap Value) (rest : List Step) (env : IdMap Value)
    (m : Memory) : Prop where
  uses : ∀ id ∈ p.computedIds, m.usesOf id = p.demand rest id
  owned : ∀ id v, m.computed.get? id = some v → id ∈ p.computedIds
  live : ∀ id, 0 < p.demand rest id → p.lookup? given m id = p.valueIn? env id

variable {p : Program} {given env : IdMap Value} {m : Memory} {s : Step} {rest : List Step}

theorem demand_cons (p : Program) (s : Step) (rest : List Step) (id : NodeId) :
    p.demand (s :: rest) id = s.node.inputs.count id + p.demand rest id := by
  simp [demand, List.count_append, Nat.add_assoc]

/-! ## The overwritten input -/

/-- A fold that keeps what it has or takes the next element ends with an element. -/
theorem foldl_mem {f : Option NodeId → NodeId → Option NodeId}
    (hf : ∀ best x, f best x = best ∨ f best x = some x) (l : List NodeId) (best : Option NodeId)
    {id : NodeId} (h : l.foldl f best = some id) : best = some id ∨ id ∈ l := by
  induction l generalizing best with
  | nil => exact .inl h
  | cons x l ih =>
    rcases ih _ h with h | h
    · rcases hf best x with hx | hx
      · exact .inl (hx ▸ h)
      · rw [hx, Option.some.injEq] at h
        exact .inr (by simp [h])
    · exact .inr (by simp [h])

theorem largestInput?_mem {id : NodeId} (h : s.largestInput? m = some id) : id ∈ s.node.inputs := by
  refine (foldl_mem (fun best x => ?_) _ _ h).resolve_left nofun
  cases best with
  | none => exact .inr rfl
  | some other => dsimp only; split <;> simp

/-- A step overwrites an input with one use, which is in memory. -/
theorem overwritten?_spec {id : NodeId} {v : Value} (h : s.overwritten? m = some (id, v)) :
    s.mayRunInPlace = true ∧ id ∈ s.node.inputs ∧ m.usesOf id = 1 ∧ m.computed.get? id = some v ∧
      (s.node.op.isCommutative = true ∨ s.node.inputs.head? = some id) := by
  simp only [Step.overwritten?, Option.bind_eq_bind, Option.bind_eq_some_iff] at h
  obtain ⟨target, ht, h⟩ := h
  split at h
  · next huses =>
    simp only [Option.bind_eq_some_iff, Option.pure_def, Option.some.injEq, Prod.mk.injEq] at h
    obtain ⟨_, hv, rfl, rfl⟩ := h
    unfold Step.target? at ht
    split at ht
    · cases ht
    · next hplace =>
      simp only [Bool.not_eq_true', Bool.not_eq_false] at hplace
      split at ht
      · next hcomm => exact ⟨hplace, largestInput?_mem ht, huses, hv, .inl hcomm⟩
      · exact ⟨hplace, List.mem_of_mem_head? ht, huses, hv, .inr ht⟩
  · cases h

namespace Tracks

variable (t : p.Tracks given (s :: rest) env m)
include t

theorem reads {id : NodeId} (h : id ∈ s.node.inputs) : p.lookup? given m id = p.valueIn? env id := by
  refine t.live id ?_
  have := List.count_pos_iff.2 h
  rw [demand_cons]
  omega

/-- The value that a step overwrites is read once, and by nothing else. -/
theorem overwritten_once {id : NodeId} {v : Value} (h : s.overwritten? m = some (id, v)) :
    s.node.inputs.count id = 1 ∧ p.demand rest id = 0 ∧ p.valueIn? env id = some v := by
  obtain ⟨-, hmem, huses, hv, -⟩ := overwritten?_spec h
  have hdemand := t.uses id (t.owned id v hv)
  have hcount := List.count_pos_iff.2 hmem
  rw [huses, demand_cons] at hdemand
  refine ⟨by omega, by omega, ?_⟩
  rw [← t.reads hmem, lookup?, hv]
  rfl

/-- Beside the overwritten input a step finds the values of its other inputs. -/
theorem lookup?_others {id : NodeId}
    (h : id ∈ s.otherInputs ((s.overwritten? m).map (·.1))) :
    p.lookup? given (m.take (s.overwritten? m)) id = p.valueIn? env id := by
  cases ho : s.overwritten? m with
  | none =>
    rw [ho] at h
    exact t.reads h
  | some o =>
    obtain ⟨target, v⟩ := o
    rw [ho] at h
    have hone := (t.overwritten_once ho).1
    have hmem : id ∈ s.node.inputs := List.mem_of_mem_erase h
    have hne : target ≠ id := by
      rintro rfl
      have := List.count_pos_iff.2 h
      simp only [Step.otherInputs, Option.map_some, List.count_erase_self] at this
      omega
    rw [← t.reads hmem, lookup?, lookup?, Memory.get?_take]
    simp [hne]

end Tracks

/-! ## Running one step -/

theorem toOption_operands (ids : List NodeId) :
    (p.operands given m s ids).toOption = ids.mapM (p.lookup? given m) := by
  rw [operands, toOption_mapM]
  congr 1
  funext id
  cases p.lookup? given m id <;> rfl

/-- What a step that reads `vs` is run on: the value that it overwrites, if any, and the others. -/
inductive Given (s : Step) (vs : List Value) : Option Value → List Value → Prop
  | all : Given s vs none vs
  | overwrite {first : Value} {others : List Value} (place : s.mayRunInPlace = true)
      (order : s.node.op.isCommutative = true ∨ vs = first :: others) (perm : vs.Perm (first :: others)) :
      Given s vs (some first) others

/-- A step finds the values of its inputs, if they have values. -/
theorem Tracks.operands (t : p.Tracks given (s :: rest) env m) {vs : List Value}
    (hvs : s.node.inputs.mapM (p.valueIn? env) = some vs) :
    ∃ others, p.operands given (m.take (s.overwritten? m)) s
        (s.otherInputs ((s.overwritten? m).map (·.1))) = .ok others ∧
      Given s vs ((s.overwritten? m).map (·.2)) others := by
  simp only [← toOption_eq_some, toOption_operands, mapM_congr fun _ => t.lookup?_others]
  cases ho : s.overwritten? m with
  | none => exact ⟨vs, hvs, .all⟩
  | some o =>
    obtain ⟨target, v⟩ := o
    obtain ⟨hplace, hmem, -, -, horder⟩ := overwritten?_spec ho
    have hv := (t.overwritten_once ho).2.2
    have hsome := isSome_mapM.1 (Option.isSome_of_mem hvs)
    rw [mapM_eq_some] at hvs
    have hothers : (s.node.inputs.erase target).map (p.valueIn? env) =
        ((s.node.inputs.erase target).map fun id => (p.valueIn? env id).get!).map some := by
      rw [List.map_map]
      exact List.map_congr_left fun id hid =>
        (Option.some_get! _ (hsome id (List.mem_of_mem_erase hid))).symm
    refine ⟨_, mapM_eq_some.2 hothers, .overwrite hplace ?_ ?_⟩
    · refine horder.imp_right fun hhead => ?_
      obtain ⟨ids, hids⟩ := List.head?_eq_some_iff.1 hhead
      rw [hids, List.map_cons, hv] at hvs
      simp only [hids, List.erase_cons_head] at hothers ⊢
      rw [hothers, ← List.map_cons] at hvs
      exact ((Option.some_injective _).list_map hvs).symm
    · have hperm := (List.perm_cons_erase hmem).map (p.valueIn? env)
      rw [hvs, List.map_cons, hv, hothers, ← List.map_cons] at hperm
      exact (List.map_perm_map_iff (Option.some_injective _)).1 hperm

/-- A step that finds its operands would find all its inputs if nothing was freed. -/
theorem Tracks.reads_of_operands (t : p.Tracks given (s :: rest) env m) {others : List Value}
    (h : p.operands given (m.take (s.overwritten? m)) s
      (s.otherInputs ((s.overwritten? m).map (·.1))) = .ok others) :
    (s.node.inputs.mapM (p.valueIn? env)).isSome := by
  rw [← toOption_eq_some, toOption_operands, mapM_congr fun _ => t.lookup?_others] at h
  have hsome := isSome_mapM.1 (Option.isSome_of_mem h)
  rw [isSome_mapM]
  intro id hid
  cases ho : s.overwritten? m with
  | none => exact hsome id (by rwa [ho])
  | some o =>
    by_cases hid' : id = o.1
    · rw [hid', (t.overwritten_once ho).2.2]
      rfl
    · refine hsome id ?_
      rw [ho]
      exact (List.mem_erase_of_ne hid').2 hid

/-- Overwriting an input, a step returns what it returns for all inputs in their order. -/
theorem toOption_execute_some (f : s.Faithful) {vs others : List Value} {first : Value}
    (g : Given s vs (some first) others) (hlen : vs.length = s.node.inputs.length) (name : String) :
    (s.execute name (some first) others).toOption = (s.run vs).toOption := by
  cases g with
  | overwrite hplace horder hperm =>
    have hrest : others.length + 1 = s.node.inputs.length := by rw [← hlen, hperm.length_eq, List.length_cons]
    have hrun : (s.run vs).toOption = (s.run (first :: others)).toOption := by
      rcases horder with hcomm | rfl
      · exact f.swap hcomm _ _ hperm hlen
      · rfl
    rw [hrun, f.overwrite hplace _ _ hrest, Step.execute]
    cases s.runInPlace first others <;> rfl

theorem toOption_execute (f : s.Faithful) {vs others : List Value} {first : Option Value}
    (g : Given s vs first others) (hlen : vs.length = s.node.inputs.length)
    (hunchecked : s.isChecked = false) (name : String) :
    (s.execute name first others).toOption = (s.run vs).toOption := by
  cases first with
  | some first => exact toOption_execute_some f g hlen name
  | none =>
    cases g
    cases himpl : s.impl with
    | interpreted => simp [Step.execute, himpl]
    | native k => simp [Step.execute, himpl]
    | checked k => simp [Step.isChecked, Step.strategy, himpl] at hunchecked

/-- Comparing results does not change them. -/
theorem run_of_runChecked {name : String} {kernel : Option Kernel} {vs outs : List Value}
    (h : s.runChecked name kernel vs = .ok outs) : (s.node.op.run vs).toOption = some outs := by
  obtain ⟨expected, hrun, h⟩ := bind_eq_ok.1 h
  rw [← toOption_eq_some, toOption_mapError] at hrun
  rw [hrun]
  cases kernel with
  | none => exact toOption_eq_some.2 h
  | some k =>
    obtain ⟨actual, -, h⟩ := bind_eq_ok.1 h
    dsimp only at h
    split at h
    · cases h
    · obtain ⟨-, -, h⟩ := bind_eq_ok.1 h
      exact toOption_eq_some.2 h

/-- What a step returns after any checks is what it returns without. -/
theorem run_of_execute (f : s.Faithful) {vs others outs : List Value} {first : Option Value}
    (g : Given s vs first others) (hlen : vs.length = s.node.inputs.length) {name : String}
    (h : s.execute name first others = .ok outs) : (s.run vs).toOption = some outs := by
  cases hchecked : s.isChecked with
  | false => rw [← toOption_execute f g hlen hchecked name, h]; rfl
  | true =>
    cases himpl : s.impl with
    | interpreted => simp [Step.isChecked, Step.strategy, himpl] at hchecked
    | native k => simp [Step.isChecked, Step.strategy, himpl] at hchecked
    | checked kernel =>
      cases g with
      | overwrite hplace _ _ => simp [Step.mayRunInPlace, himpl] at hplace
      | all =>
        have hchecks : s.runChecked name kernel vs = .ok outs := by simpa only [Step.execute, himpl] using h
        simpa only [Step.run, himpl] using run_of_runChecked hchecks

/-- The memory after a step has computed its outputs. -/
def finished (p : Program) (m : Memory) (s : Step) (outputs : List Value) (symbols : SymbolMap) : Memory :=
  s.node.inputs.foldl (Memory.release p.frees)
    { m with computed := m.computed.insertAll (s.node.outputs.zip outputs), symbols }

theorem finishStep_eq_ok {m' : Memory} {outputs : List Value} (h : p.finishStep m s outputs = .ok m') :
    outputs.length = s.node.outputs.length ∧ ∃ symbols, m' = p.finished m s outputs symbols := by
  unfold finishStep at h
  split at h
  · cases h
  · next hlen =>
    simp only [bne_iff_ne, ne_eq, Decidable.not_not] at hlen
    obtain ⟨m₁, hcheck, h⟩ := bind_eq_ok.1 h
    obtain ⟨symbols, rfl⟩ : ∃ symbols, m₁ = { m with symbols } := by
      unfold checkOutputs at hcheck
      split at hcheck
      · cases hcheck
        exact ⟨m.symbols, rfl⟩
      · obtain ⟨symbols, -, hcheck⟩ := bind_eq_ok.1 hcheck
        cases hcheck
        exact ⟨symbols, rfl⟩
    cases h
    exact ⟨hlen, symbols, rfl⟩

theorem finishStep_of_unchecked (hfacts : p.facts = none) (m : Memory) (s : Step) (outputs : List Value) :
    p.finishStep m s outputs =
      if outputs.length = s.node.outputs.length then .ok (p.finished m s outputs m.symbols)
      else .error (.outputCount (p.graph.nodeName s.id) outputs.length s.node.outputs.length) := by
  by_cases h : outputs.length = s.node.outputs.length
  · simp [finishStep, checkOutputs, hfacts, h]
    rfl
  · simp [finishStep, h]
    rfl

/-- Once the inputs of a step are counted off, what is left are the uses in later steps. The count of an overwritten input
is taken back twice; it is zero after the first time. -/
theorem Tracks.uses_sub_count (t : p.Tracks given (s :: rest) env m) {id : NodeId} (hid : id ∈ p.computedIds) :
    (m.take (s.overwritten? m)).usesOf id - s.node.inputs.count id = p.demand rest id := by
  have hall := t.uses id hid
  rw [demand_cons] at hall
  rw [Memory.usesOf_take]
  split
  · next ho =>
    obtain ⟨o, hover, rfl⟩ := Option.map_eq_some_iff.1 ho
    obtain ⟨hone, hzero, -⟩ := t.overwritten_once hover
    omega
  · omega

/-- Only computed values are held. -/
theorem Tracks.mem_computedIds (t : p.Tracks given (s :: rest) env m) (hs : s ∈ p.steps) {outputs : List Value}
    {id : NodeId} {v : Value}
    (h : ((m.take (s.overwritten? m)).computed.insertAll (s.node.outputs.zip outputs)).get? id = some v) :
    id ∈ p.computedIds := by
  rw [IdMap.get?_insertAll, Memory.get?_take] at h
  cases hlook : (s.node.outputs.zip outputs).reverse.lookup id with
  | some w =>
    have hmem := (List.of_mem_zip (List.mem_reverse.1 (mem_of_lookup hlook))).1
    exact List.mem_flatMap.2 ⟨s, hs, hmem⟩
  | none =>
    rw [hlook] at h
    split at h
    · cases h
    · exact t.owned id v h

/-- No value that a later step needs is freed. -/
theorem Tracks.get?_finished (t : p.Tracks given (s :: rest) env m) (hs : s ∈ p.steps) {outputs : List Value}
    {symbols : SymbolMap} {id : NodeId} (hid : 0 < p.demand rest id) :
    (p.finished (m.take (s.overwritten? m)) s outputs symbols).computed.get? id =
      ((m.take (s.overwritten? m)).computed.insertAll (s.node.outputs.zip outputs)).get? id := by
  by_cases hc : id ∈ p.computedIds
  · refine Memory.get?_releaseAll _ _ _ _ (.inr ?_)
    have := t.uses_sub_count hc
    change s.node.inputs.count id < (m.take (s.overwritten? m)).usesOf id
    omega
  · have hempty : ((m.take (s.overwritten? m)).computed.insertAll (s.node.outputs.zip outputs)).get? id = none :=
      Option.eq_none_iff_forall_ne_some.2 fun v h => hc (t.mem_computedIds hs h)
    rw [hempty]
    exact Option.eq_none_iff_forall_ne_some.2 fun v h => hc (t.mem_computedIds hs (Memory.get?_releaseAll_of_some h))

/-- After a step, the memory tracks the values of the evaluation again. -/
theorem Tracks.finished (t : p.Tracks given (s :: rest) env m) (hs : s ∈ p.steps) (outputs : List Value)
    (symbols : SymbolMap) :
    p.Tracks given rest (env.insertAll (s.node.outputs.zip outputs))
      (p.finished (m.take (s.overwritten? m)) s outputs symbols) := by
  refine ⟨fun id hid => ?_, fun id v h => t.mem_computedIds hs (Memory.get?_releaseAll_of_some h), fun id hid => ?_⟩
  · exact (Memory.usesOf_releaseAll ..).trans (t.uses_sub_count hid)
  · rw [lookup?, t.get?_finished hs hid, valueIn?, IdMap.get?_insertAll, IdMap.get?_insertAll]
    cases (s.node.outputs.zip outputs).reverse.lookup id with
    | some v => rfl
    | none =>
      have hlive := t.live id (by rw [demand_cons]; omega)
      rw [lookup?, valueIn?] at hlive
      rw [Memory.get?_take, if_neg]
      · simpa using hlive
      · -- An overwritten input is not needed later.
        intro ho
        obtain ⟨o, hover, rfl⟩ := Option.map_eq_some_iff.1 ho
        have := (t.overwritten_once hover).2.1
        omega

/-! ## One step -/

theorem evaluateStep_eq_some {env' : IdMap Value} : p.evaluateStep env s = some env' ↔
    ∃ vs outs, s.node.inputs.mapM (p.valueIn? env) = some vs ∧ s.run vs = .ok outs ∧
      outs.length = s.node.outputs.length ∧ env' = env.insertAll (s.node.outputs.zip outs) := by
  simp only [evaluateStep, Option.bind_eq_bind, Option.bind_eq_some_iff, toOption_eq_some]
  constructor
  · rintro ⟨vs, hvs, outs, hrun, h⟩
    split at h
    · next hlen => exact ⟨vs, outs, hvs, hrun, hlen, (Option.some.inj h).symm⟩
    · cases h
  · rintro ⟨vs, outs, hvs, hrun, hlen, rfl⟩
    exact ⟨vs, hvs, outs, hrun, if_pos hlen⟩

/-- The error of a step that compares nothing names the step. -/
theorem nodeName?_of_execute (hunchecked : s.isChecked = false) {name : String} {first : Option Value}
    {others : List Value} {e : RunError} (h : s.execute name first others = .error e) :
    e.nodeName? = some name := by
  cases first with
  | some v =>
    rw [Step.execute] at h
    cases hrun : s.runInPlace v others with
    | ok out => rw [hrun] at h; cases h
    | error e => rw [hrun] at h; cases h; rfl
  | none =>
    have hplain : s.execute name none others =
        (s.run others).mapError fun e => .operator name e (others.map Value.info) := by
      cases himpl : s.impl with
      | interpreted => simp [Step.execute, himpl]
      | native k => simp [Step.execute, himpl]
      | checked k => simp [Step.isChecked, Step.strategy, himpl] at hunchecked
    rw [hplain] at h
    cases hrun : s.run others with
    | ok outs => rw [hrun] at h; cases h
    | error e => rw [hrun] at h; cases h; rfl

/-- A step of a running program that succeeds computes what the evaluation computes. -/
theorem evaluateStep_of_runStep (f : s.Faithful) (hs : s ∈ p.steps) (t : p.Tracks given (s :: rest) env m)
    {trace : Option StepTrace} {m' : Memory} (h : p.runStep given m s = (trace, .ok m')) :
    ∃ env', p.evaluateStep env s = some env' ∧ p.Tracks given rest env' m' := by
  unfold runStep at h
  dsimp only at h
  split at h
  · cases h
  · next others hothers =>
    obtain ⟨vs, hvs⟩ := Option.isSome_iff_exists.1 (t.reads_of_operands hothers)
    obtain ⟨_, hothers', g⟩ := t.operands hvs
    cases hothers.symm.trans hothers'
    obtain ⟨outs, hexec, hfinish⟩ := bind_eq_ok.1 (Prod.mk.inj h).2
    obtain ⟨hlen, symbols, rfl⟩ := finishStep_eq_ok hfinish
    have hrun := toOption_eq_some.1 (run_of_execute f g (length_of_mapM hvs) hexec)
    exact ⟨_, evaluateStep_eq_some.2 ⟨vs, outs, hvs, hrun, hlen, rfl⟩, t.finished hs outs symbols⟩

/-- Without checks, a step of a running program does what the evaluation does. -/
theorem runStep_of_reads (f : s.Faithful) (hs : s ∈ p.steps) (hunchecked : s.isChecked = false)
    (hfacts : p.facts = none) (t : p.Tracks given (s :: rest) env m) {vs : List Value}
    (hvs : s.node.inputs.mapM (p.valueIn? env) = some vs) :
    ∃ trace result, p.runStep given m s = (some trace, result) ∧ trace.step = s ∧
      match p.evaluateStep env s with
      | some env' => ∃ m', result = .ok m' ∧ p.Tracks given rest env' m'
      | none => ∃ e, result = .error e ∧ e.nodeName? = some (p.graph.nodeName s.id) := by
  obtain ⟨others, hothers, g⟩ := t.operands hvs
  have hexec := toOption_execute f g (length_of_mapM hvs) hunchecked (p.graph.nodeName s.id)
  unfold runStep
  dsimp only
  rw [hothers]
  refine ⟨_, _, rfl, rfl, ?_⟩
  cases hresult : s.execute (p.graph.nodeName s.id) ((s.overwritten? m).map (·.2)) others with
  | error e =>
    rw [hresult] at hexec
    have hnone : p.evaluateStep env s = none := by
      rw [evaluateStep, hvs, Option.bind_eq_bind, Option.bind_some, ← hexec]
      rfl
    rw [hnone]
    exact ⟨e, rfl, nodeName?_of_execute hunchecked hresult⟩
  | ok outs =>
    have hrun := toOption_eq_some.1 (hexec.symm.trans (toOption_eq_some.2 hresult))
    rw [Except.bind, finishStep_of_unchecked hfacts]
    by_cases hlen : outs.length = s.node.outputs.length
    · rw [evaluateStep_eq_some.2 ⟨vs, outs, hvs, hrun, hlen, rfl⟩, if_pos hlen]
      exact ⟨_, rfl, t.finished hs outs _⟩
    · have hnone : p.evaluateStep env s = none := by
        simp [evaluateStep, hvs, hrun, Except.toOption, hlen]
      rw [hnone, if_neg hlen]
      exact ⟨_, rfl, rfl⟩

end Program

end TensorGraph
