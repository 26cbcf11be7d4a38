import TensorGraph.Proofs.Graph.Removal
import TensorGraph.Proofs.Graph.Scheduling
import TensorGraph.Proofs.Graph.Validity
import TensorGraph.Rewrite.Admission

/-!
# Fusions

A fusion replaces the operators that compute its outputs from its inputs by one operator. What the others read is
still computed afterwards, if the outputs are values and none of them is an input.
-/

namespace TensorGraph

theorem mem_dedupSorted {ids : List NodeId} {v : NodeId} : v ∈ dedupSorted ids ↔ v ∈ ids := by
  fun_induction dedupSorted ids with
  | case1 a rest ih => simp [ih]
  | case2 a b rest hne ih => simp [ih]
  | case3 ids h => rfl

namespace Fusion

variable {f : Fusion} {g : Graph} {removed : List NodeId} {v w id : NodeId}

/-- The values from which a fusion computes its outputs, each once. -/
def sources (f : Fusion) : List NodeId := dedupSorted f.inputs.mergeSort

theorem mem_sources : v ∈ f.sources ↔ v ∈ f.inputs := by
  rw [sources, mem_dedupSorted, List.mem_mergeSort]

/-- What holds of a fusion that passes its check. -/
structure Checked (f : Fusion) (g : Graph) (removed : List NodeId) : Prop where
  plan : g.executionPlan f.sources f.outputs = .ok removed
  replaced : removed ≠ []
  /-- Values that are no longer computed are needed by replaced operators only. -/
  intermediates : ∀ id ∈ removed, ∀ v ∈ g.outputsOf id, v ∉ f.outputs →
    v ∉ g.outputIds ∧ ∀ reader, v ∈ g.inputsOf reader → reader ∈ removed

theorem checkIntermediates_eq_ok {op : OperatorNode} (h : f.checkIntermediates g removed op = .ok ())
    (hv : v ∈ op.outputs) (hout : v ∉ f.outputs) :
    v ∉ g.outputIds ∧ ∀ reader ∈ g.consumersOf v, reader ∈ removed := by
  have hcheck := forM_eq_ok.1 h v hv
  rw [if_neg (by simpa using hout)] at hcheck
  by_cases houtput : v ∈ g.outputIds
  · simp [houtput, throw, throwThe, MonadExceptOf.throw, bind, Except.bind] at hcheck
  · by_cases hread : ∃ reader ∈ g.consumersOf v, reader ∉ removed
    · simp [houtput, hread, throw, throwThe, MonadExceptOf.throw] at hcheck
    · refine ⟨houtput, fun reader hreader => ?_⟩
      exact Decidable.byContradiction fun hnot => hread ⟨reader, hreader, hnot⟩

theorem checked_of_check (hg : g.Indexed) (h : f.check g = .ok removed) : f.Checked g removed := by
  unfold check at h
  by_cases hempty : f.outputs.isEmpty
  · simp [hempty, throw, throwThe, MonadExceptOf.throw, bind, Except.bind] at h
  · rw [if_neg hempty] at h
    dsimp only at h
    cases hplan : g.executionPlan (dedupSorted f.inputs.mergeSort) f.outputs with
    | error fault => simp [hplan, throw, throwThe, MonadExceptOf.throw] at h
    | ok replaced =>
      rw [hplan] at h
      dsimp only at h
      by_cases hnone : replaced.isEmpty
      · simp [hnone, throw, throwThe, MonadExceptOf.throw, bind, Except.bind] at h
      · rw [if_neg hnone] at h
        obtain ⟨_, hforM, heq⟩ := bind_eq_ok.1 h
        cases heq
        refine ⟨hplan, by simpa using hnone, fun id hid v hv hout => ?_⟩
        obtain ⟨op, hop, hv⟩ := Graph.mem_outputsOf.1 hv
        have hcheck := forM_eq_ok.1 hforM op (List.mem_filterMap.2 ⟨id, hid, hop⟩)
        obtain ⟨houtput, hread⟩ := checkIntermediates_eq_ok hcheck hv hout
        exact ⟨houtput, fun reader hreader => hread reader (hg.mem_consumersOf.2 hreader)⟩

/-! ## The replaced operators -/

theorem Checked.plans (hg : g.Indexed) (h : f.Checked g removed) :
    g.Plans (f.sources ++ g.constantIds) f.outputs removed :=
  (Graph.executionPlan_spec hg h.plan).2.2.1

theorem Checked.isReadable (hg : g.Indexed) (h : f.Checked g removed) (hv : v ∈ f.inputs) : g.isReadable v = true :=
  (Graph.executionPlan_spec hg h.plan).2.1.2 v (mem_sources.2 hv)

theorem Checked.isSome_operator? (hg : g.Indexed) (h : f.Checked g removed) (hid : id ∈ removed) :
    (g.operator? id).isSome :=
  (((h.plans hg).mem_iff id).1 hid).isSome_operator?

/-- An output that is a value, but no input, is computed by a replaced operator. -/
theorem Checked.exists_producer (hg : g.Indexed) (h : f.Checked g removed) (hv : v ∈ f.outputs)
    (hvalue : g.isValue v = true) (hinput : v ∉ f.inputs) : ∃ id ∈ removed, v ∈ g.outputsOf id := by
  rcases List.mem_append.1 ((h.plans hg).provided hv) with hstart | hplanned
  · rcases List.mem_append.1 hstart with hsource | hconstant
    · exact absurd (mem_sources.1 hsource) hinput
    · obtain ⟨x, hx⟩ := Option.isSome_iff_exists.1 (Graph.mem_constantIds.1 hconstant)
      simp [Graph.isValue_of_constant? hx] at hvalue
  · exact List.mem_flatMap.1 hplanned

/-! ## The changed graph -/

/-- The graph in which one operator takes the place of the replaced ones. -/
abbrev apply (f : Fusion) (g : Graph) (removed : List NodeId) : Graph := (Rewrite.fuse f).apply g removed

/-- The number of the operator that takes the place of others. -/
def newId (g : Graph) (removed : List NodeId) : NodeId := (g.remove removed).nodes.size

theorem node?_newId (hg : g.Indexed) (removed : List NodeId) :
    newId g removed ∈ removed ∨ g.node? (newId g removed) = none := by
  have := Graph.node?_size (g.remove removed)
  rw [Graph.node?_remove removed hg] at this
  split at this
  · next hmem => exact .inl hmem
  · exact .inr this

theorem operator?_apply (hg : g.Indexed) : (f.apply g removed).operator? id =
    if id = newId g removed then some { name := f.name, inputs := f.inputs, outputs := f.outputs, op := f.op }
    else if id ∈ removed then none else g.operator? id := by
  rw [← Graph.operator?_remove removed hg]
  refine (congrArg (·.bind Node.operator?) (Graph.node?_addOperator ..)).trans ?_
  rw [newId]
  split <;> rfl

theorem inputsOf_apply (hg : g.Indexed) : (f.apply g removed).inputsOf id =
    if id = newId g removed then f.inputs else if id ∈ removed then [] else g.inputsOf id := by
  rw [← Graph.inputsOf_remove removed hg]
  exact Graph.inputsOf_addOperator ..

theorem outputsOf_apply (hg : g.Indexed) : (f.apply g removed).outputsOf id =
    if id = newId g removed then f.outputs else if id ∈ removed then [] else g.outputsOf id := by
  rw [← Graph.outputsOf_remove removed hg]
  exact Graph.outputsOf_addOperator ..

theorem inputIds_apply (hg : g.Indexed) : (f.apply g removed).inputIds = g.inputIds := by
  rw [← Graph.inputIds_remove removed hg]
  exact Graph.inputIds_addOperator ..

theorem outputIds_apply (hg : g.Indexed) : (f.apply g removed).outputIds = g.outputIds := by
  rw [← Graph.outputIds_remove removed hg]
  exact Graph.outputIds_addOperator ..

/-- Values and constants stay. -/
theorem Checked.readable?_apply (hg : g.Indexed) (h : f.Checked g removed) :
    (f.apply g removed).readable? id = g.readable? id := by
  refine (Graph.readable?_addOperator ..).trans ?_
  rw [Graph.readable?_remove removed hg]
  split
  · next hid =>
    obtain ⟨op, hop⟩ := Option.isSome_iff_exists.1 (h.isSome_operator? hg hid)
    exact (Graph.readable?_of_operator? hop).symm
  · rfl

/-- An operator that stays has another number than the new one. -/
theorem ne_newId (hg : g.Indexed) (hid : id ∉ removed) (hop : (g.operator? id).isSome) : id ≠ newId g removed := by
  rintro rfl
  rcases node?_newId hg removed with hmem | hnone
  · exact hid hmem
  · simp [Graph.operator?, hnone] at hop

/-- Values are computed by operators that stay, and the outputs of the fusion from its inputs. -/
theorem computes_apply (hg : g.Indexed) : (f.apply g removed).Computes v w ↔
    g.ComputesBeside removed v w ∨ v ∈ f.inputs ∧ w ∈ f.outputs := by
  simp only [Graph.Computes, Graph.ComputesBeside, inputsOf_apply hg, outputsOf_apply hg]
  constructor
  · rintro ⟨id, hv, hw⟩
    by_cases hnew : id = newId g removed
    · rw [if_pos hnew] at hv hw
      exact .inr ⟨hv, hw⟩
    · rw [if_neg hnew] at hv hw
      by_cases hid : id ∈ removed
      · simp [hid] at hv
      · rw [if_neg hid] at hv hw
        exact .inl ⟨id, hid, hv, hw⟩
  · rintro (⟨id, hid, hv, hw⟩ | ⟨hv, hw⟩)
    · have hnew := ne_newId hg hid (Graph.isSome_operator?_of_mem_inputsOf hv)
      exact ⟨id, by simpa [hnew, hid] using hv, by simpa [hnew, hid] using hw⟩
    · exact ⟨newId g removed, by simpa using hv, by simpa using hw⟩

/-- The edge indexes stay right if no operator that stays produces an output of the fusion. -/
theorem Checked.indexed_apply (hg : g.Indexed) (h : f.Checked g removed)
    (hfree : ∀ v ∈ f.outputs, ∀ id, id ∉ removed → v ∉ g.outputsOf id) : (f.apply g removed).Indexed := by
  have hstay : (g.remove removed).Indexed := by
    refine hg.remove removed fun id hid v ⟨hv, hreadable⟩ => ?_
    obtain ⟨op, hop⟩ := Option.isSome_iff_exists.1 (h.isSome_operator? hg hv)
    rw [Graph.isReadable_eq, Graph.readable?_of_operator? hop] at hreadable
    cases hreadable
  refine hstay.addOperator _ _ _ _ fun v hv => Option.eq_none_iff_forall_ne_some.2 fun id hid => ?_
  have hmem := (hstay.sources v id).1 hid
  rw [Graph.outputsOf_remove removed hg] at hmem
  split at hmem
  · cases hmem
  · next hnot => exact hfree v hv id hnot hmem

/-- A fusion whose outputs are values and no inputs keeps a graph well-formed. -/
theorem Checked.wellFormed_apply (hg : g.Indexed) (hformed : g.WellFormed) (h : f.Checked g removed)
    (hvalues : ∀ v ∈ f.outputs, g.isValue v = true) (hinputs : ∀ v ∈ f.outputs, v ∉ f.inputs) :
    (f.apply g removed).Indexed ∧ (f.apply g removed).WellFormed := by
  have hproduced : ∀ v ∈ f.outputs, ∃ id ∈ removed, v ∈ g.outputsOf id := fun v hv =>
    h.exists_producer hg hv (hvalues v hv) (hinputs v hv)
  have hindexed : (f.apply g removed).Indexed := by
    refine h.indexed_apply hg fun v hv id hid hmem => ?_
    obtain ⟨id', hid', hmem'⟩ := hproduced v hv
    exact hid (hg.producer_unique hmem hmem' ▸ hid')
  obtain ⟨hreads, hproduces, hnodup, hgraph, houtputs⟩ := (Graph.wellFormed_iff hg).1 hformed
  refine ⟨hindexed, (Graph.wellFormed_iff hindexed).2 ⟨fun id v hv => ?_, fun id v hv => ?_, fun id => ?_,
    fun v hv => ?_, fun v hv => ?_⟩⟩
  · rw [Graph.isReadable_eq, h.readable?_apply hg, ← Graph.isReadable_eq]
    rw [inputsOf_apply hg] at hv
    split_ifs at hv
    · exact h.isReadable hg hv
    · cases hv
    · exact hreads id v hv
  · rw [Graph.isValue_eq, h.readable?_apply hg, ← Graph.isValue_eq]
    rw [outputsOf_apply hg] at hv
    split_ifs at hv
    · exact hvalues v hv
    · cases hv
    · exact hproduces id v hv
  · rw [outputsOf_apply hg]
    split_ifs
    · exact (Graph.executionPlan_spec hg h.plan).1.1
    · exact List.nodup_nil
    · exact hnodup id
  · rw [inputIds_apply hg] at hv
    refine ⟨?_, fun id hmem => ?_⟩
    · rw [Graph.isValue_eq, h.readable?_apply hg, ← Graph.isValue_eq]
      exact (hgraph v hv).1
    · rw [outputsOf_apply hg] at hmem
      split_ifs at hmem
      · obtain ⟨id', -, hmem'⟩ := hproduced v hmem
        exact (hgraph v hv).2 id' hmem'
      · cases hmem
      · exact (hgraph v hv).2 id hmem
  · rw [Graph.isReadable_eq, h.readable?_apply hg, ← Graph.isReadable_eq]
    rw [outputIds_apply hg] at hv
    exact houtputs v hv

end Fusion

end TensorGraph
