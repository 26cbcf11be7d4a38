import TensorGraph.Proofs.Rewrite.Simulation

/-!
# Failing assertions

An assertion that fails holds back its output, and with it all that is computed from the output (`Graph.Blocked`). What
is held back has no value, so a program cannot return it. A rewrite guards assertions if it uses only values that are
held back in place of such values, and leaves no operator without what it waits for (`Rewrite.Guards`). Then what was
held back remains so (`Rewrite.Guards.blocked`).
-/

namespace TensorGraph

def Operator.IsAssertion : Operator → Prop
  | .assertAll _ => True
  | _ => False

theorem Operator.IsAssertion.name_eq {op : Operator} (h : op.IsAssertion) : op.name = "Assert" := by
  cases op with
  | assertAll message => rfl
  | _ => exact h.elim

theorem Operator.IsAssertion.isDeterministic {op : Operator} (h : op.IsAssertion) : op.isDeterministic = false := by
  cases op with
  | assertAll message => rfl
  | _ => exact h.elim

theorem Operator.IsAssertion.maxInputs {op : Operator} (h : op.IsAssertion) : op.maxInputs = none := by
  cases op with
  | assertAll message => rfl
  | _ => exact h.elim

/-! ## What an assertion holds back -/

namespace Graph

/-- Whether a node is the output of an assertion that fails, or is computed from one. -/
inductive Blocked (g : Graph) (env : IdMap Value) : NodeId → Prop
  | failed {v id : NodeId} {op : OperatorNode} (hop : g.operator? id = some op) (hassert : op.op.IsAssertion)
      (hfails : g.Fails env op) (hv : v ∈ op.outputs) : Blocked g env v
  | waiting {u v id : NodeId} {op : OperatorNode} (hop : g.operator? id = some op) (hu : u ∈ op.inputs)
      (hblocked : Blocked g env u) (hv : v ∈ op.outputs) : Blocked g env v

/-- Whether an operator holds back its outputs, because it is an assertion that fails or because it reads what is held
back. -/
def Blocks (g : Graph) (env : IdMap Value) (op : OperatorNode) : Prop :=
  op.op.IsAssertion ∧ g.Fails env op ∨ ∃ u ∈ op.inputs, g.Blocked env u

variable {g : Graph} {env : IdMap Value} {v id : NodeId} {op : OperatorNode} {x : Value}

theorem blocked_iff : g.Blocked env v ↔ ∃ id op, g.operator? id = some op ∧ v ∈ op.outputs ∧ g.Blocks env op := by
  constructor
  · intro h
    cases h with
    | failed hop hassert hfails hv => exact ⟨_, _, hop, hv, .inl ⟨hassert, hfails⟩⟩
    | waiting hop hu hblocked hv => exact ⟨_, _, hop, hv, .inr ⟨_, hu, hblocked⟩⟩
  · rintro ⟨id, op, hop, hv, ⟨hassert, hfails⟩ | ⟨u, hu, hblocked⟩⟩
    · exact .failed hop hassert hfails hv
    · exact .waiting hop hu hblocked hv

/-- Only the operator that computes a value can hold it back. -/
theorem Blocked.blocks (hv : g.Blocked env v) (hg : g.Indexed) (hop : g.operator? id = some op)
    (hout : v ∈ op.outputs) : g.Blocks env op := by
  obtain ⟨id', op', hop', hout', hblocks⟩ := blocked_iff.1 hv
  have hid : v ∈ g.outputsOf id := outputsOf_of_operator? hop ▸ hout
  have hid' : v ∈ g.outputsOf id' := outputsOf_of_operator? hop' ▸ hout'
  obtain rfl := hg.producer_unique hid hid'
  obtain rfl := Option.some.inj (hop.symm.trans hop')
  exact hblocks

/-- An operator that is no assertion waits for one of its inputs. -/
theorem Blocks.waits (h : g.Blocks env op) (hop : ¬op.op.IsAssertion) : ∃ u ∈ op.inputs, g.Blocked env u := by
  rcases h with ⟨hassert, -⟩ | hwaits
  · exact absurd hassert hop
  · exact hwaits

theorem Blocks.input {u : NodeId} (h : g.Blocks env op) (hop : ¬op.op.IsAssertion) (hinput : op.inputs = [u]) :
    g.Blocked env u := by
  obtain ⟨w, hw, hblocked⟩ := h.waits hop
  rw [hinput, List.mem_singleton] at hw
  exact hw ▸ hblocked

/-- What is held back has no value. -/
theorem Blocked.not_evaluates (hv : g.Blocked env v) (h : g.Linkable) (henv : g.Accepts env) :
    ¬g.Evaluates env v x := by
  induction hv generalizing x with
  | failed hop _ hfails hout =>
    intro hx
    obtain ⟨xs, hxs, hnone⟩ := hfails
    obtain ⟨xs', ys, hxs', hrun, hlen, -⟩ := hx.run h henv hop hout
    obtain rfl := hxs.unique h henv hxs'
    exact hnone ys hrun hlen
  | waiting hop hu _ hout ih =>
    intro hx
    obtain ⟨xs, ys, hxs, -⟩ := hx.run h henv hop hout
    obtain ⟨y, hy⟩ := exists_of_mem hxs hu
    exact ih hy

/-- If outputs depend on what is held back, then an output is held back. -/
theorem Blocked.output (hv : g.Blocked env v) (hneeded : g.Needed v) : ∃ o ∈ g.outputIds, g.Blocked env o := by
  refine hneeded.induction (P := fun v => g.Blocked env v → ∃ o ∈ g.outputIds, g.Blocked env o) ?_ ?_ hv
  · intro o ho hblocked
    exact ⟨o, ho, hblocked⟩
  · rintro v w ⟨id, hread, hout⟩ - ih hblocked
    obtain ⟨op, hop, hout⟩ := mem_outputsOf.1 hout
    rw [inputsOf_of_operator? hop] at hread
    exact ih (.waiting hop hread hblocked hout)

theorem Fails.mapInputs {g' : Graph} {f : NodeId → NodeId} (hfails : g.Fails env op)
    (h : ∀ v ∈ op.inputs, ∀ x, g.Evaluates env v x → g'.Evaluates env (f v) x) : g'.Fails env (op.mapInputs f) := by
  obtain ⟨xs, hxs, hnone⟩ := hfails
  refine ⟨xs, ?_, hnone⟩
  refine List.forall₂_map_left_iff.2 (List.forall₂_iff_zip.2 ⟨hxs.length_eq, fun he => ?_⟩)
  exact h _ (List.of_mem_zip he).1 _ (List.forall₂_zip hxs he)

/-! ## Programs that stop at an assertion -/

/-- A linked program that stops at an assertion has an output that is held back. -/
theorem exists_blocked_of_evaluate (h : g.Linkable) {p : Program}
    (hlink : Linker.interpreted.link g g.inputIds g.outputIds = .ok p) {inputs : List (NodeId × Value)}
    (hinputs : (inputs.map (·.1)).Perm g.inputIds) {k : Nat} (hrun : p.evaluate inputs = .error k) {s : Step}
    (hstep : p.steps[k]? = some s) (hassert : s.node.op.IsAssertion) : ∃ o ∈ g.outputIds, g.Blocked ⟨inputs⟩ o := by
  have hp := interprets_of_link hlink
  obtain ⟨plan, hplan, rfl⟩ := link_eq_ok.1 hlink
  have hplans := plans_steps h.indexed hplan
  have hgiven : ∀ v x, (g.program plan).valueIn? ⟨inputs⟩ v = some x → g.Evaluates ⟨inputs⟩ v x := by
    intro v x hv
    rw [Program.valueIn?_eq hp] at hv
    exact .given hv
  have havailable : ∀ v ∈ g.inputIds ++ g.constantIds, ((g.program plan).valueIn? ⟨inputs⟩ v).isSome := by
    intro v hv
    rw [Program.valueIn?_eq hp, given?]
    rcases mem_inputs_append_constants.1 hv with hinput | hconstant
    · obtain ⟨e, he, rfl⟩ := List.mem_map.1 (hinputs.symm.subset hinput)
      have hsome : ((⟨inputs⟩ : IdMap Value).get? e.1).isSome := by
        by_contra hnone
        simpa using List.lookup_eq_none_iff.1 (Option.not_isSome_iff_eq_none.1 hnone) e he
      obtain ⟨x, hx⟩ := Option.isSome_iff_exists.1 hsome
      simp [hx]
    · simp [hconstant]
  -- The outputs of all steps are there in the end, so it is one of the steps that fails.
  have hsteps : (g.program plan).evaluateSteps (g.program plan).steps ⟨inputs⟩ = .error k := by
    cases hsteps : (g.program plan).evaluateSteps (g.program plan).steps ⟨inputs⟩ with
    | error k' =>
      rw [Program.evaluate, hsteps] at hrun
      exact congrArg Except.error (Except.error.inj hrun)
    | ok env =>
      rw [Program.evaluate, hsteps] at hrun
      simp only [bind, Except.bind] at hrun
      split at hrun
      · cases hrun
      · cases hrun
        rw [List.getElem?_eq_none (Nat.le_refl _)] at hstep
        cases hstep
  obtain ⟨s', hs', hfails⟩ := Program.fails_of_evaluateSteps hp (List.Subset.refl _) hplans.ordered hgiven havailable
    hsteps
  obtain rfl := Option.some.inj (hstep.symm.trans hs')
  have hs := List.mem_of_getElem? hstep
  obtain ⟨v, hmet, -, hv⟩ := (hplans.mem_iff s.id).1 (List.mem_map_of_mem hs)
  have hnode := hp.node s hs
  rw [outputsOf_of_operator? hnode] at hv
  exact Blocked.output (.failed hnode hassert hfails hv) ((met_iff_needed h.indexed h.formed).1 hmet)

/-- A linked program with an output that is held back fails. -/
theorem exists_error_of_blocked (h : g.Linkable) {p : Program}
    (hlink : Linker.interpreted.link g g.inputIds g.outputIds = .ok p) {inputs : List (NodeId × Value)}
    (hinputs : ∀ e ∈ inputs, e.1 ∈ g.inputIds) (hblocked : ∃ o ∈ g.outputIds, g.Blocked ⟨inputs⟩ o) :
    ∃ k, p.evaluate inputs = .error k := by
  have henv : g.Accepts ⟨inputs⟩ := fun v x hv => hinputs _ (mem_of_lookup hv)
  obtain ⟨o, ho, hblocked⟩ := hblocked
  cases hrun : p.evaluate inputs with
  | error k => exact ⟨k, rfl⟩
  | ok outs =>
    obtain ⟨x, hx⟩ := exists_of_mem ((Program.evaluate_iff_evaluates h hinputs hlink).1 hrun) ho
    exact absurd hx (hblocked.not_evaluates h henv)

/-! ## Pruning -/

theorem Blocked.prune (hv : g.Blocked env v) (h : g.Linkable) (hneeded : v ∈ g.neededIds) :
    g.prune.1.Blocked env v := by
  obtain ⟨-, hmarks⟩ := marks_neededIds h.indexed h.formed
  -- An operator with an output that is needed stays, and so does all that it reads.
  have hkept {v id : NodeId} {op : OperatorNode} (hop : g.operator? id = some op) (hout : v ∈ op.outputs)
      (hneeded : v ∈ g.neededIds) : g.prune.1.operator? id = some op ∧ ∀ u ∈ op.inputs, u ∈ g.neededIds := by
    rw [← outputsOf_of_operator? hop] at hout
    have hid : id ∈ g.neededIds := (hmarks.sources v hneeded id hout).resolve_right List.not_mem_nil
    refine ⟨(operator?_prune h.indexed id).trans (if_pos hid) |>.trans hop, fun u hu => hmarks.reads id hid ?_⟩
    rwa [inputsOf_of_operator? hop]
  induction hv with
  | @failed v id op hop hassert hfails hout =>
    obtain ⟨hop', hreads⟩ := hkept hop hout hneeded
    have hfails' : g.prune.1.Fails env (op.mapInputs fun v => v) :=
      hfails.mapInputs fun u hu x hx => hx.prune h (hreads u hu)
    rw [OperatorNode.mapInputs_id] at hfails'
    exact .failed hop' hassert hfails' hout
  | waiting hop hu _ hout ih =>
    obtain ⟨hop', hreads⟩ := hkept hop hout hneeded
    exact .waiting hop' hu (ih (hreads _ hu)) hout

end Graph

/-! ## Rewrites -/

namespace Rewrite

variable {g : Graph} {env : IdMap Value} {removed : List NodeId} {r : Rewrite} {v id : NodeId} {op : OperatorNode}

/-- Whether a rewrite holds back what was held back: in place of it no other values are used, and operators that wait
still do. -/
structure Guards (g : Graph) (env : IdMap Value) (r : Rewrite) : Prop where
  used : ∀ v, g.Blocked env v → g.Blocked env (r.substitute g v)
  changed : ∀ id n, g.operator? id = some n → g.Blocks env n → g.Blocks env (r.change id n)

theorem guards_alias {pairs : List (NodeId × NodeId)}
    (h : ∀ pair ∈ pairs, g.Blocked env pair.1 → g.Blocked env pair.2) : (Rewrite.alias pairs).Guards g env where
  used _ hv := redirectAll_induction h hv
  changed _ _ _ hblocks := hblocks

theorem guards_pair {old new : NodeId} (h : g.Blocked env old → g.Blocked env new) :
    (Rewrite.alias [(old, new)]).Guards g env :=
  guards_alias fun _ hpair => List.mem_singleton.1 hpair ▸ h

theorem guards_constant {c : Value} (h : ¬g.Blocked env id) : (constant id c).Guards g env where
  used v hv := by
    have hne : v ≠ id := fun heq => h (heq ▸ hv)
    rwa [substitute, Graph.redirect, if_neg hne]
  changed _ _ _ hblocks := hblocks

theorem guards_operator {op' : Operator} (hop : g.operator? id = some op) (hassert : ¬op.op.IsAssertion) :
    (replaceOperator id op').Guards g env where
  used _ hv := hv
  changed id' n hn hblocks := by
    simp only [change]
    split
    · next hid =>
      subst hid
      obtain rfl := Option.some.inj (hop.symm.trans hn)
      exact .inr (hblocks.waits hassert)
    · exact hblocks

theorem guards_inputs {op' : Option Operator} {inputs : List NodeId} (hop : g.operator? id = some op)
    (hassert : ¬op.op.IsAssertion)
    (h : (∃ u ∈ op.inputs, g.Blocked env u) → ∃ u ∈ inputs, g.Blocked env u) :
    (replaceInputs id op' inputs).Guards g env where
  used _ hv := hv
  changed id' n hn hblocks := by
    simp only [change]
    split
    · next hid =>
      subst hid
      obtain rfl := Option.some.inj (hop.symm.trans hn)
      exact .inr (h (hblocks.waits hassert))
    · exact hblocks

namespace Guards

variable (hguards : r.Guards g env) (hagrees : r.Agrees g env) (h : g.Linkable) (henv : g.Accepts env)
  (hcheck : r.check g = .ok removed) (hg' : (r.apply g removed).Succeeds g)

include hguards hagrees h henv hcheck hg'

/-- What was held back is held back. -/
theorem blocked (hv : g.Blocked env v) : (r.apply g removed).Blocked env v := by
  -- Replaced inputs can be computed late in the old graph, so the induction is on the new one.
  have hwf := Graph.acyclic_iff_wellFounded.1 hg'.linkable.acyclic
  induction v using hwf.induction with
  | _ v ih =>
    obtain ⟨id, n, hn, hout, hblocks⟩ := Graph.blocked_iff.1 hv
    have hn' := operator?_apply h.indexed h.formed hcheck hagrees.isFusion id
    rw [hn] at hn'
    rw [← r.outputs_change id n] at hout
    rcases hguards.changed id n hn hblocks with ⟨hassert, hfails⟩ | ⟨u, hu, hblocked⟩
    · have hfails' := hfails.mapInputs fun _ _ _ hx => hagrees.evaluates_substitute h henv hcheck hg' hx
      exact .failed hn' hassert hfails' hout
    · have hu' : r.substitute g u ∈ ((r.change id n).mapInputs (r.substitute g)).inputs := List.mem_map_of_mem hu
      refine .waiting hn' hu' (ih _ ⟨id, ?_, ?_⟩ (hguards.used u hblocked)) hout
      · rwa [Graph.inputsOf_of_operator? hn']
      · rwa [Graph.outputsOf_of_operator? hn']

theorem output (houtput : ∃ o ∈ g.outputIds, g.Blocked env o) :
    ∃ o ∈ (r.apply g removed).outputIds, (r.apply g removed).Blocked env o := by
  obtain ⟨o, ho, hblocked⟩ := houtput
  refine ⟨r.substitute g o, ?_, ?_⟩
  · rw [outputIds_apply h.indexed h.formed hcheck hagrees.isFusion]
    exact List.mem_map_of_mem ho
  · exact hguards.blocked hagrees h henv hcheck hg' (hguards.used o hblocked)

end Guards

end Rewrite

end TensorGraph
