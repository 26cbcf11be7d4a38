import Mathlib
import TensorGraph.Proofs.Graph.History
import TensorGraph.Proofs.Graph.Restriction
import TensorGraph.Proofs.Graph.Scheduling
import TensorGraph.Proofs.Rewrite.Pruning

/-!
# Pruned graphs

Pruning keeps the inputs and outputs of a graph, the operators from which an output can be reached, and what these
read and produce (`mem_neededIds_iff`). The graph that it leaves has the same execution plan and passes validation, and
there is nothing more to prune in it (`prune_exact`).
-/

namespace TensorGraph.Graph

open Relation

variable {g : Graph} {pending marked : List NodeId} {v id : NodeId}

/-- Whether an output of the graph can be reached from an operator. -/
def Serves (g : Graph) (id : NodeId) : Prop := ∃ v ∈ g.outputsOf id, g.Needed v

/-- The nodes that are kept: inputs and outputs of the graph, the operators from which an output can be reached, and
what these read and produce. -/
inductive Kept (g : Graph) : NodeId → Prop
  | input {v : NodeId} (hv : v ∈ g.inputIds) : Kept g v
  | output {v : NodeId} (hv : v ∈ g.outputIds) : Kept g v
  | operator {id : NodeId} (hid : g.Serves id) : Kept g id
  | read {id v : NodeId} (hid : g.Serves id) (hv : v ∈ g.inputsOf id) : Kept g v
  | produced {id v : NodeId} (hid : g.Serves id) (hv : v ∈ g.outputsOf id) : Kept g v

/-! ## Marked nodes -/

/-- Marking goes from values on which outputs depend to others, so that no node is marked in vain. -/
theorem kept_of_mem_markNeeded (hg : g.Indexed) (hpending : ∀ v ∈ pending, g.Needed v)
    (hmarked : ∀ id ∈ marked, g.Kept id) (bound : Nat) : ∀ id ∈ g.markNeeded bound pending marked, g.Kept id := by
  induction bound generalizing pending marked with
  | zero => exact hmarked
  | succ bound ih =>
    cases pending with
    | nil => exact hmarked
    | cons v pending =>
      obtain ⟨hv, hpending⟩ := List.forall_mem_cons.1 hpending
      unfold markNeeded
      cases hproducer : g.producer? v with
      | none => exact ih hpending hmarked
      | some p =>
        obtain ⟨id, op⟩ := p
        obtain ⟨hop, hout⟩ := (producer?_eq_some hg).1 hproducer
        dsimp only
        split
        · exact ih hpending hmarked
        · have hserves : g.Serves id := ⟨v, hout, hv⟩
          have hinput (u : NodeId) (hu : u ∈ op.inputs) : u ∈ g.inputsOf id := inputsOf_of_operator? hop ▸ hu
          have houtput (u : NodeId) (hu : u ∈ op.outputs) : u ∈ g.outputsOf id := outputsOf_of_operator? hop ▸ hu
          obtain ⟨-, -, -, hnew, hold, -⟩ := markInputs_spec op.inputs (pending, id :: op.outputs ++ marked)
          refine ih (fun u hu => ?_) fun u hu => ?_
          · exact (hold u hu).elim (hpending u) fun hu => hv.source ⟨id, hinput u hu, hout⟩
          · rcases hnew u hu with hmem | ⟨hmem, -⟩
            · rcases List.mem_append.1 hmem with hmem | hmem
              · rcases List.mem_cons.1 hmem with rfl | hmem
                · exact .operator hserves
                · exact .produced hserves (houtput u hmem)
              · exact hmarked u hmem
            · exact .read hserves (hinput u hmem)

section Valid

variable (hg : g.Indexed) (hformed : g.WellFormed)

include hg hformed

theorem mem_neededIds_iff : id ∈ g.neededIds ↔ g.Kept id := by
  constructor
  · refine kept_of_mem_markNeeded hg (fun v hv => ?_) (fun v hv => ?_) _ id
    · exact ⟨v, List.mem_reverse.1 hv, .refl⟩
    · exact (List.mem_append.1 hv).elim .input .output
  · obtain ⟨hends, hmarks⟩ := marks_neededIds hg hformed
    have hserves {id : NodeId} (hid : g.Serves id) : id ∈ g.neededIds := by
      obtain ⟨v, hv, hneeded⟩ := hid
      exact hneeded.producer_mem hg hformed hv
    intro hid
    cases hid with
    | input hid => exact hends (List.mem_append_left _ hid)
    | output hid => exact hends (List.mem_append_right _ hid)
    | operator hid => exact hserves hid
    | read hid hv => exact hmarks.reads _ (hserves hid) hv
    | produced hid hv => exact hmarks.produces _ (hserves hid) hv

theorem isSome_node?_of_kept (hid : g.Kept id) : (g.node? id).isSome = true := by
  obtain ⟨hreads, hproduces, -, hinputs, houtputs⟩ := (wellFormed_iff hg).1 hformed
  have hreadable {v : NodeId} (hv : g.isReadable v = true) : (g.node? v).isSome = true :=
    Option.isSome_of_any hv
  cases hid with
  | input hid => exact hreadable (isReadable_of_isValue (hinputs id hid).1)
  | output hid => exact hreadable (houtputs id hid)
  | operator hid =>
    obtain ⟨v, hv, -⟩ := hid
    obtain ⟨op, hop, -⟩ := mem_outputsOf.1 hv
    exact node?_isSome_of_operator? hop
  | read hid hv => exact hreadable (hreads _ id hv)
  | produced hid hv => exact hreadable (isReadable_of_isValue (hproduces _ id hv))

/-! ## The graph that is left -/

theorem restricts_prune : g.prune.1.Restricts g g.neededIds.contains := by
  obtain ⟨-, hmarks⟩ := marks_neededIds hg hformed
  refine ⟨fun id => ?_, size_remove .., fun id hid v hv => ?_, fun id hid v hv => ?_, fun v hv id hid => ?_⟩
  · refine (node?_remove _ hg id).trans ?_
    cases hnode : g.node? id with
    | none => simp
    | some node => by_cases hid : id ∈ g.neededIds <;> simp [hid, mem_ids, hnode]
  · simpa using hmarks.reads id (by simpa using hid) hv
  · simpa using hmarks.produces id (by simpa using hid) hv
  · simpa using hmarks.sources v (by simpa using hv) id hid

theorem kept_prune (hid : g.Kept id) : g.prune.1.Kept id := by
  have hserves {id : NodeId} (hid : g.Serves id) : g.prune.1.Serves id := by
    obtain ⟨v, hv, hneeded⟩ := hid
    exact ⟨v, (mem_outputsOf_prune hg).2 ⟨hneeded.producer_mem hg hformed hv, hv⟩, (needed_prune hg hformed).2 hneeded⟩
  have hneeded {id : NodeId} (hid : g.Serves id) : id ∈ g.neededIds := (mem_neededIds_iff hg hformed).2 (.operator hid)
  cases hid with
  | input hid => exact .input (inputIds_prune hg ▸ hid)
  | output hid => exact .output (outputIds_prune hg ▸ hid)
  | operator hid => exact .operator (hserves hid)
  | read hid hv => exact .read (hserves hid) ((mem_inputsOf_prune hg).2 ⟨hneeded hid, hv⟩)
  | produced hid hv => exact .produced (hserves hid) ((mem_outputsOf_prune hg).2 ⟨hneeded hid, hv⟩)

/-- In a pruned graph all nodes are kept. -/
theorem prune_prune : g.prune.1.prune = (g.prune.1, 0) := by
  have hnone : g.prune.1.ids.filter (!g.prune.1.neededIds.contains ·) = [] := by
    refine List.filter_eq_nil_iff.2 fun id hid => ?_
    rw [(restricts_prune hg hformed).ids_eq] at hid
    have hkept : g.Kept id := (mem_neededIds_iff hg hformed).1 (by simpa using (List.mem_filter.1 hid).2)
    simpa using (mem_neededIds_iff (hg.prune hformed) (wellFormed_prune hg hformed)).2 (kept_prune hg hformed hkept)
  rw [Graph.prune, hnone]
  exact congrArg (·, 0) (remove_nil _)

theorem nodeCount_prune : g.prune.1.nodeCount + g.prune.2 = g.nodeCount := by
  rw [nodeCount, (restricts_prune hg hformed).ids_eq, nodeCount]
  exact (List.length_eq_length_filter_add _).symm

end Valid

/-- What pruning a graph leaves, and how many nodes it says to have removed. -/
structure Prunes (g g' : Graph) (removed : Nat) : Prop where
  /-- The nodes that are left are those that are kept, as they were. -/
  isSome_node? : ∀ id, (g'.node? id).isSome = true ↔ g.Kept id
  node? : ∀ id, g.Kept id → g'.node? id = g.node? id
  inputIds : g'.inputIds = g.inputIds
  outputIds : g'.outputIds = g.outputIds
  removed : g'.nodeCount + removed = g.nodeCount
  /-- Planning has the same result, be it a plan or a fault. -/
  executionPlan : g'.executionPlan g.inputIds g.outputIds = g.executionPlan g.inputIds g.outputIds
  indexed : g'.Indexed
  valid : g'.validate = .ok ()
  again : g'.prune = (g', 0)

/-- Pruning a valid graph keeps what its outputs are computed from and no other nodes but its inputs and what is
produced beside. It changes no plan, keeps the graph valid, and leaves nothing to prune. -/
theorem prune_exact (g : Graph) (hg : g.Indexed) (hvalid : g.validate = .ok ()) :
    g.Prunes g.prune.1 g.prune.2 := by
  obtain ⟨hformed, hacyclic⟩ := (validate_eq_ok hg).1 hvalid
  have hrestricts := restricts_prune hg hformed
  have hkept (id : NodeId) : g.neededIds.contains id = true ↔ g.Kept id := by
    rw [List.contains_iff_mem, mem_neededIds_iff hg hformed]
  refine ⟨fun id => ?_, fun id hid => ?_, inputIds_prune hg, outputIds_prune hg, nodeCount_prune hg hformed, ?_,
    hg.prune hformed, ?_, prune_prune hg hformed⟩
  · rw [hrestricts.node?, ← hkept]
    split
    · next hid => exact iff_of_true (isSome_node?_of_kept hg hformed ((hkept id).1 hid)) hid
    · next hid => simpa using hid
  · rw [hrestricts.node?, if_pos ((hkept id).2 hid)]
  · exact hrestricts.executionPlan_eq hg (hg.prune hformed) (fun v hv => (hkept v).2 (.input hv))
      fun v hv => (hkept v).2 (.output hv)
  · exact (validate_eq_ok (hg.prune hformed)).2 ⟨wellFormed_prune hg hformed, hacyclic.prune hg⟩

/-! ## A graph with an unused operator -/

/-- A twin of an input, of whose outputs one is negated in vain. The other one is doubled and is an output as well. -/
def overgrown : Graph :=
  let values := ["x", "y", "a", "b", "n", "d"].foldl (fun g name => (g.addValue name none none).1) Graph.empty
  let twins := (values.addOperator "twin" (.custom twin) [0] [2, 3]).1
  let negated := (twins.addOperator "negate" (.elementwise { fn := .neg }) [2] [4]).1
  let doubled := (negated.addOperator "double" (.elementwise { fn := .add }) [3, 3] [5]).1
  (doubled.setInputs [0, 1]).setOutputs [5, 3]

theorem indexed_overgrown : overgrown.Indexed := by
  refine .setOutputs (.setInputs (.addOperator _ _ _ _ (.addOperator _ _ _ _ (.addOperator _ _ _ _ ?_ ?_) ?_) ?_) _) _
  · exact indexed_empty.addValue .. |>.addValue .. |>.addValue .. |>.addValue .. |>.addValue .. |>.addValue ..
  all_goals decide

/-- The unused input and the other output of the twin stay, the negation and its output do not. -/
theorem prune_overgrown : overgrown.prune.1.ids = [0, 1, 2, 3, 5, 6, 8] ∧ overgrown.prune.2 = 2 ∧
    overgrown.Prunes overgrown.prune.1 2 ∧
    overgrown.prune.1.executionPlan [0, 1] [5, 3] = .ok [6, 8] := by
  have hvalid : overgrown.validate = .ok () := by cbv
  have hcount : overgrown.prune.2 = 2 := by decide +kernel
  have hprunes := prune_exact overgrown indexed_overgrown hvalid
  refine ⟨by decide +kernel, hcount, hcount ▸ hprunes, ?_⟩
  exact hprunes.executionPlan.trans (by decide +kernel)

end TensorGraph.Graph
