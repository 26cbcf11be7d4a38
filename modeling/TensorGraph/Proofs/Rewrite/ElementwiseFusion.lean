import Mathlib.Data.List.Basic
import TensorGraph.Proofs.Program.Execution
import TensorGraph.Proofs.Program.Stability
import TensorGraph.Proofs.Rewrite.ChainValues
import TensorGraph.Proofs.Rewrite.Chains

/-!
# Fused operators compute what they replace

The operators that a fusion of elementwise operators replaces are a program of their own, which computes the output from
the inputs of the fusion. The fused operator returns what this program returns, and fails if the program fails
(`Rules.elementwiseFusion_evaluates`).
-/

namespace TensorGraph

open Shape (canBroadcast)
open Tensor (Combines)

namespace Rules

variable {v : RewriteView} {id : NodeId} {op : OperatorNode}

/-- Values for nodes, as they are given to a program. -/
def assign (ids : List NodeId) (values : NodeId → Value) : List (NodeId × Value) := ids.map fun w => (w, values w)

theorem get?_assign (ids : List NodeId) (values : NodeId → Value) (w : NodeId) :
    (IdMap.mk (assign ids values)).get? w = if w ∈ ids then some (values w) else none := by
  by_cases hw : w ∈ ids
  · rw [if_pos hw]
    exact List.lookup_graph values hw
  · rw [if_neg hw]
    refine List.lookup_eq_none_iff.2 fun e he => ?_
    obtain ⟨w', hw', rfl⟩ := List.mem_map.1 he
    exact bne_iff_ne.2 fun heq => hw (heq ▸ hw')

namespace Chain

/-- The program of the operators that a fusion replaces. -/
def program (c : Chain v id op) (replaced : List NodeId) : Program :=
  v.graph.programFor c.fusion.sources c.fusion.outputs replaced

section

variable (c : Chain v id op) {replaced : List NodeId} {values : NodeId → Value} {env : IdMap Value} {w : NodeId}
  (hg : v.graph.Indexed) (hformed : v.graph.WellFormed) (hacyclic : v.graph.Acyclic)
  (hop : v.graph.operator? id = some op) (hchecked : c.fusion.Checked v.graph replaced)
  (hconstants : ∀ w x, v.graph.constant? w = some x → values w = x)

theorem runs (replaced : List NodeId) : (c.program replaced).Runs v.graph := runs_programFor ..

include hg hchecked in
theorem steps_program : (c.program replaced).steps.map (·.id) = replaced :=
  steps_programFor fun _ ha => hchecked.isSome_operator? hg ha

include hg hformed hacyclic hop hchecked in
theorem mem_absorbed_iff {a : NodeId} : a ∈ c.unfolding.absorbed ↔ ∃ s ∈ (c.program replaced).steps, s.id = a := by
  rw [← c.mem_removed hg hformed hacyclic hop hchecked, ← List.mem_map, c.steps_program hg hchecked]

theorem valueIn?_of_input (hw : w ∈ c.inputs) :
    (c.program replaced).valueIn? ⟨assign c.fusion.sources values⟩ w = some (values w) := by
  have hsource : w ∈ c.fusion.sources := Fusion.mem_sources.2 hw
  rw [Program.valueIn?, get?_assign, if_pos hsource]
  rfl

include hconstants in
theorem valueIn?_of_constant {x : Value} (hx : v.graph.constant? w = some x) :
    (c.program replaced).valueIn? ⟨assign c.fusion.sources values⟩ w = some x := by
  rw [Program.valueIn?, get?_assign]
  split
  · rw [hconstants w x hx]
    rfl
  · exact hx

include hg hformed hacyclic hop hchecked in
/-- No step computes a value that was there from the start. -/
theorem not_mem_outputs (hw : w ∈ c.inputs ∨ (v.graph.constant? w).isSome) :
    ∀ s ∈ (c.program replaced).steps, w ∉ s.node.outputs := by
  intro s hs hmem
  have hnode := (c.runs replaced).node s hs
  rw [← Graph.outputsOf_of_operator? hnode] at hmem
  rcases hw with hw | hw
  · have habsorbed := (c.mem_absorbed_iff hg hformed hacyclic hop hchecked).2 ⟨s, hs, rfl⟩
    exact (c.apart hg hacyclic hop).not_read s.id habsorbed w hmem (c.reads_of_mem_inputs hw)
  · obtain ⟨x, hx⟩ := Option.isSome_iff_exists.1 hw
    simpa [Graph.isValue_of_constant? hx] using ((Graph.wellFormed_iff hg).1 hformed).2.1 s.id w hmem

include hg hformed hacyclic hop hchecked in
/-- After a run the values agree with all operators of the chain. -/
theorem agrees_of_evaluateSteps
    (hrun : (c.program replaced).evaluateSteps (c.program replaced).steps ⟨assign c.fusion.sources values⟩ = .ok env)
    {a : NodeId} (ha : a ∈ c.unfolding.absorbed) {node : OperatorNode} (hnode : v.graph.operator? a = some node) :
    Agrees node ((c.program replaced).valueIn? env) := by
  have hsettled := Program.settled_of_runs hformed (c.runs replaced) (fun w x hx => ?_) hrun
  · obtain ⟨s, hs, rfl⟩ := (c.mem_absorbed_iff hg hformed hacyclic hop hchecked).1 ha
    obtain rfl := Option.some.inj (hnode.symm.trans ((c.runs replaced).node s hs))
    obtain ⟨xs, ys, hxs, hys, hlen, houts⟩ := hsettled.computed s hs
    refine ⟨xs, ys, hxs, hys, hlen, fun w x hx => ?_⟩
    rw [Program.valueIn?, houts w x hx]
    rfl
  · rw [get?_assign] at hx
    split at hx
    · next hw => exact c.not_mem_outputs hg hformed hacyclic hop hchecked (.inl (Fusion.mem_sources.1 hw))
    · cases hx

/-! ### What a run returns -/

variable (hreads : ∀ a node, v.graph.operator? a = some node → node.ReadsInputs) {ts : NodeId → Tensor Single}
  (hvalues : ∀ w ∈ c.inputs, values w = .floats (ts w))

include hvalues in
theorem map_values : c.inputs.map values = (c.inputs.map ts).map .floats := by
  rw [List.map_map]
  exact List.map_congr_left hvalues

include hg hformed hacyclic hop hchecked hconstants hreads hvalues in
theorem run_of_evaluate {outs : List Value}
    (h : (c.program replaced).evaluate (assign c.fusion.sources values) = .ok outs) :
    c.fusion.op.run (c.inputs.map values) = .ok outs := by
  obtain ⟨env, hrun, houts⟩ := Program.evaluate_eq_ok.1 h
  have hstart {w : NodeId} (hw : w ∈ c.inputs ∨ (v.graph.constant? w).isSome) :=
    Program.valueIn?_of_evaluateSteps hrun (c.not_mem_outputs hg hformed hacyclic hop hchecked hw)
  have hread : ∀ w ∈ c.inputs, (c.program replaced).valueIn? env w = some (.floats (ts w)) := fun w hw => by
    rw [hstart (.inl hw), c.valueIn?_of_input hw, hvalues w hw]
  have hconstant : ∀ w x, v.graph.constant? w = some x → (c.program replaced).valueIn? env w = some x :=
    fun w x hx => by
      rw [hstart (.inr (Option.isSome_of_eq_some hx))]
      exact c.valueIn?_of_constant hconstants hx
  obtain ⟨t, ht, hfused⟩ := c.exists_run hg hop hreads hread hconstant
    fun a ha node hnode => c.agrees_of_evaluateSteps hg hformed hacyclic hop hchecked hrun ha hnode
  have houtputs : [c.output].mapM ((c.program replaced).valueIn? env) = some outs := houts
  rw [mapM_eq_some, List.map_singleton, ht] at houtputs
  rw [c.map_values hvalues, hfused]
  exact congrArg _ (List.map_injective_iff.2 (Option.some_injective _) houtputs)

/-- Whether a value is a float tensor that broadcasts to a shape, if an operator of the chain reads it. -/
def FitsTo (target : List Nat) (w : NodeId) (x : Value) : Prop :=
  (∃ a ∈ c.unfolding.absorbed, w ∈ v.graph.inputsOf a) → ∃ t, x = .floats t ∧ canBroadcast t.shape target = true

include hconstants in
theorem isSome_valueIn?_of_mem (hw : w ∈ c.fusion.sources ++ v.graph.constantIds) :
    ((c.program replaced).valueIn? ⟨assign c.fusion.sources values⟩ w).isSome := by
  rcases List.mem_append.1 hw with hw | hw
  · rw [c.valueIn?_of_input (Fusion.mem_sources.1 hw)]
    rfl
  · obtain ⟨x, hx⟩ := Option.isSome_iff_exists.1 (Graph.mem_constantIds.1 hw)
    rw [c.valueIn?_of_constant hconstants hx]
    rfl

include hg hformed hacyclic hop hconstants hvalues in
/-- The values that are there from the start broadcast to every shape that the inputs broadcast to, as constants that
operators of the chain read are scalars. -/
theorem fitsTo_start {target : List Nat} (hfits : ∀ w ∈ c.inputs, canBroadcast (ts w).shape target = true) {x : Value}
    (hx : (c.program replaced).valueIn? ⟨assign c.fusion.sources values⟩ w = some x) : c.FitsTo target w x := by
  rintro ⟨a, ha, hw⟩
  rcases (c.complete hg hop).inputs a ha w hw with hread | hconstant | ⟨b, hb, hout⟩
  · have hw : w ∈ c.inputs := (c.mem_inputs w).2 hread
    rw [c.valueIn?_of_input hw, hvalues w hw] at hx
    exact ⟨ts w, (Option.some.inj hx).symm, hfits w hw⟩
  · obtain ⟨y, hy⟩ := Option.isSome_iff_exists.1 hconstant
    obtain ⟨t, ht, hrank, -⟩ := exists_of_scalarConstant? hy
    rw [c.valueIn?_of_constant hconstants ht] at hx
    refine ⟨t, (Option.some.inj hx).symm, ?_⟩
    rw [List.length_eq_zero_iff.1 hrank]
    exact Shape.nil_canBroadcast target
  · -- Nothing is there yet of what an operator of the chain computes.
    have hsource : w ∉ c.fusion.sources := fun hmem =>
      (c.apart hg hacyclic hop).not_read b hb w hout (c.reads_of_mem_inputs (Fusion.mem_sources.1 hmem))
    have hvalue := ((Graph.wellFormed_iff hg).1 hformed).2.1 b w hout
    rw [Program.valueIn?, get?_assign, if_neg hsource] at hx
    simp [Graph.isValue_of_constant? (show v.graph.constant? w = some x from hx)] at hvalue

include hg hformed hacyclic hop hchecked hreads in
/-- On values that broadcast to a shape each step computes one that does, too. -/
theorem exists_run_of_fits {target : List Nat} {s : Step} (hs : s ∈ (c.program replaced).steps) {xs : List Value}
    (hxs : List.Forall₂ (c.FitsTo target) s.node.inputs xs) :
    ∃ ys, s.run xs = .ok ys ∧ ys.length = s.node.outputs.length ∧
      ∀ w y, (w, y) ∈ s.node.outputs.zip ys → c.FitsTo target w y := by
  have ha := (c.mem_absorbed_iff hg hformed hacyclic hop hchecked).2 ⟨s, hs, rfl⟩
  have hnode := (c.runs replaced).node s hs
  obtain ⟨node, f, output, hnode', houtputs, hf⟩ := c.exists_operator hg hop ha
  obtain rfl := Option.some.inj (hnode.symm.trans hnode')
  have hfloats : ∀ x ∈ xs, ∃ t, x = .floats t ∧ canBroadcast t.shape target = true := by
    intro x hx
    obtain ⟨w, hw, hfits⟩ := exists_of_forall₂ hxs hx
    exact hfits ⟨s.id, ha, by rwa [Graph.inputsOf_of_operator? hnode]⟩
  choose! tensor hfloats hfits using hfloats
  have hargs : xs = (xs.map tensor).map .floats := by
    rw [List.map_map]
    exact (List.map_id xs).symm.trans (List.map_congr_left hfloats)
  obtain ⟨t, ht, htarget⟩ := Tensor.exists_combines f.value (List.forall_mem_map.2 hfits)
  refine ⟨[.floats t], ?_, by simp [houtputs], fun w y hy => ?_⟩
  · rw [Step.run, (c.runs replaced).impl s hs, hargs,
      Fusable.run_map_floats hf (hreads s.id s.node hnode) (by rw [List.length_map, hxs.length_eq])]
    exact ⟨t, rfl, ht⟩
  · simp only [houtputs, List.zip_cons_cons, List.zip_nil_right, List.mem_singleton, Prod.mk.injEq] at hy
    exact fun _ => ⟨t, hy.2, htarget⟩

include hg hformed hacyclic hop hchecked hconstants hreads hvalues in
/-- If what the chain reads broadcasts to some shape, then the operators of the chain do not fail. -/
theorem exists_evaluate {target : List Nat} (hfits : ∀ w ∈ c.inputs, canBroadcast (ts w).shape target = true) :
    ∃ outs, (c.program replaced).evaluate (assign c.fusion.sources values) = .ok outs := by
  have hplans := hchecked.plans hg
  have hordered : v.graph.Ordered (c.fusion.sources ++ v.graph.constantIds)
      ((c.program replaced).steps.map (·.id)) := by
    rw [c.steps_program hg hchecked]
    exact hplans.ordered
  obtain ⟨env, hrun, hall⟩ := Program.exists_evaluateSteps_of_forall (N := fun _ => True) (c.runs replaced).node
    hordered (fun _ _ _ _ => trivial)
    (fun s hs xs hxs => c.exists_run_of_fits hg hformed hacyclic hop hchecked hreads hs hxs)
    (fun w x hx => c.fitsTo_start hg hformed hacyclic hop hconstants hvalues hfits hx)
    fun w hw _ => c.isSome_valueIn?_of_mem hconstants hw
  have houtput : ((c.program replaced).valueIn? env c.output).isSome := by
    refine hall c.output ?_ trivial
    rw [c.steps_program hg hchecked]
    exact hplans.provided (List.mem_singleton_self c.output)
  obtain ⟨x, hx⟩ := Option.isSome_iff_exists.1 houtput
  have houts : [c.output].mapM ((c.program replaced).valueIn? env) = some [x] := by
    rw [mapM_eq_some, List.map_singleton, hx]
    rfl
  exact ⟨[x], Program.evaluate_eq_ok.2 ⟨env, hrun, houts⟩⟩

include hg hformed hacyclic hop hchecked hconstants hreads hvalues in
/-- The fused operator does what the operators of the chain do. -/
theorem evaluate_iff_run {outs : List Value} :
    (c.program replaced).evaluate (assign c.fusion.sources values) = .ok outs ↔
      c.fusion.op.run (c.inputs.map values) = .ok outs := by
  refine ⟨c.run_of_evaluate hg hformed hacyclic hop hchecked hconstants hreads hvalues, fun h => ?_⟩
  have hfused := h
  rw [c.map_values hvalues, c.run_eq_ok hg hop hreads] at hfused
  obtain ⟨t, -, ht⟩ := hfused
  -- The inputs broadcast to the shape of what the fused operator returns.
  obtain ⟨outs', houts'⟩ := c.exists_evaluate hg hformed hacyclic hop hchecked hconstants hreads hvalues
    fun w hw => ht.shape.canBroadcast (List.mem_map_of_mem (List.mem_map_of_mem hw))
  have hsame := c.run_of_evaluate hg hformed hacyclic hop hchecked hconstants hreads hvalues houts'
  rw [houts', Except.ok.inj (hsame.symm.trans h)]

end

end Chain

/-- In a valid graph whose elementwise operators read all their inputs, an admitted fusion of elementwise operators
replaces operators that are a program of their own. On values of which those that are known to be floats are so, and
constants have their own values, the fused operator returns what this program returns, and nothing if it fails. -/
theorem elementwiseFusion_evaluates (v : RewriteView) (id : NodeId) (op : OperatorNode) (r : Rewrite)
    (replaced : List NodeId) (hg : v.graph.Indexed) (hvalid : v.graph.validate = .ok ())
    (hreads : ∀ a node, v.graph.operator? a = some node → node.ReadsInputs) (hop : v.graph.operator? id = some op)
    (hr : elementwiseFusion.propose v id op = .rewrite r) (hcheck : r.check v.graph = .ok replaced) :
    ∃ f e p, r = .fuse f ∧ f.op = .fused (.ofExpr e) ∧
      Linker.interpreted.link v.graph f.sources f.outputs = .ok p ∧ p.steps.map (·.id) = replaced ∧
      ∀ values : NodeId → Value, (∀ w x, v.graph.constant? w = some x → values w = x) →
        (∀ w ∈ f.inputs, v.isFloat w = true → ∃ t, values w = .floats t) →
        ∀ outs, p.evaluate (assign f.sources values) = .ok outs ↔ f.op.run (f.inputs.map values) = .ok outs := by
  obtain ⟨hformed, hacyclic⟩ := (Graph.validate_eq_ok hg).1 hvalid
  obtain ⟨c, rfl⟩ := elementwiseFusion_proposes hr
  have hchecked : c.fusion.Checked v.graph replaced := Fusion.checked_of_check hg hcheck
  refine ⟨c.fusion, _, c.program replaced, rfl, rfl, link_eq_ok_programFor.2 ⟨replaced, hchecked.plan, rfl⟩,
    c.steps_program hg hchecked, fun values hconstants hfloats outs => ?_⟩
  have htensors : ∀ w ∈ c.inputs, ∃ t, values w = .floats t := fun w hw => hfloats w hw (c.isFloat hg hw)
  choose! tensor hvalues using htensors
  exact c.evaluate_iff_run hg hformed hacyclic hop hchecked hconstants hreads hvalues

theorem elementwiseFusion_evaluates_shiftedProduct : shiftedProduct.Indexed ∧ shiftedProduct.validate = .ok () ∧
    (∀ a node, shiftedProduct.operator? a = some node → node.ReadsInputs) ∧
    elementwiseFusion.propose { graph := shiftedProduct, facts := shiftedProductFacts } 6 shiftedProductRoot =
      .rewrite (.fuse shiftedProductFusion) ∧
    (Rewrite.fuse shiftedProductFusion).check shiftedProduct = .ok [5, 6] ∧
    ∃ p, Linker.interpreted.link shiftedProduct [0, 1] [3] = .ok p ∧ p.steps.map (·.id) = [5, 6] ∧
      ∀ x b outs, p.evaluate [(0, .floats x), (1, .floats b)] = .ok outs ↔
        shiftedProductFusion.op.run [.floats x, .floats b] = .ok outs := by
  have hreads : ∀ a node, shiftedProduct.operator? a = some node → node.ReadsInputs := by
    have hall : ∀ e ∈ shiftedProduct.operators, e.2.ReadsInputs := List.forall_iff_forall_mem.1 ⟨rfl, rfl⟩
    exact fun a node hnode => hall (a, node) (Graph.mem_operators.2 hnode)
  obtain ⟨f, e, p, hf, -, hlink, hsteps, hall⟩ := elementwiseFusion_evaluates
    { graph := shiftedProduct, facts := shiftedProductFacts } 6 shiftedProductRoot (.fuse shiftedProductFusion) [5, 6]
    indexed_shiftedProduct validate_shiftedProduct hreads operator?_shiftedProduct propose_shiftedProduct
    check_shiftedProduct
  cases hf
  have hsources : shiftedProductFusion.sources = [0, 1] := by
    rw [Fusion.sources, mergeSort_shiftedProduct]
    rfl
  rw [hsources] at hlink hall
  refine ⟨indexed_shiftedProduct, validate_shiftedProduct, hreads, propose_shiftedProduct, check_shiftedProduct, p,
    hlink, hsteps, fun x b => ?_⟩
  refine hall (fun w => if w = 0 then .floats x else if w = 1 then .floats b else .floats (.scalar .one))
    (fun w y hy => ?_) fun w hw _ => ?_
  · have hw : w ∈ [4] := (Graph.mem_constantIds (g := shiftedProduct)).2 (Option.isSome_of_eq_some hy)
    rw [List.mem_singleton.1 hw] at hy ⊢
    exact Option.some.inj hy
  · rcases List.mem_pair.1 hw with rfl | rfl
    · exact ⟨x, rfl⟩
    · exact ⟨b, rfl⟩

end Rules

end TensorGraph
