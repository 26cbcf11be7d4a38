import Mathlib.Algebra.GroupWithZero.Nat
import TensorGraph.Proofs.Rewrite.Linkable

/-!
# Pruning

Marking follows the outputs of a graph back until nothing is pending, so that an operator stays together with all
that it reads and produces. Pruning therefore keeps a graph linkable.
-/

namespace TensorGraph.Graph

open Relation

variable {g : Graph} {pending marked : List NodeId} {v id : NodeId}

/-! ## Marked nodes -/

/-- What holds of the nodes that are marked: operators come with what they read and produce, and values with their
producers, unless these are still to be looked for. -/
structure Marks (g : Graph) (pending marked : List NodeId) : Prop where
  subset : pending ⊆ marked
  reads : ∀ id ∈ marked, g.inputsOf id ⊆ marked
  produces : ∀ id ∈ marked, g.outputsOf id ⊆ marked
  sources : ∀ v ∈ marked, ∀ id, v ∈ g.outputsOf id → id ∈ marked ∨ v ∈ pending

/-- The number of inputs of operators that are not marked. -/
def unmarkedReads (g : Graph) (marked : List NodeId) : Nat :=
  ((g.operatorIds.filter (!marked.contains ·)).map fun id => (g.inputsOf id).length).sum

/-- A node that can be read is no operator. -/
theorem edges_of_isReadable (h : g.isReadable v = true) : g.inputsOf v = [] ∧ g.outputsOf v = [] := by
  cases hop : g.operator? v with
  | none => simp [inputsOf, outputsOf, hop]
  | some op => simp [isReadable_eq, readable?_of_operator? hop] at h

/-- Marks inputs of an operator. -/
def markInputs (inputs : List NodeId) (p : List NodeId × List NodeId) : List NodeId × List NodeId :=
  inputs.foldl (fun (pending, marked) input =>
    if marked.contains input then (pending, marked) else (input :: pending, input :: marked)) p

theorem markInputs_spec (inputs : List NodeId) (p : List NodeId × List NodeId) :
    p.1 ⊆ (markInputs inputs p).1 ∧ p.2 ⊆ (markInputs inputs p).2 ∧ inputs ⊆ (markInputs inputs p).2 ∧
      (∀ v ∈ (markInputs inputs p).2, v ∈ p.2 ∨ v ∈ inputs ∧ v ∈ (markInputs inputs p).1) ∧
      (∀ v ∈ (markInputs inputs p).1, v ∈ p.1 ∨ v ∈ inputs) ∧
      (markInputs inputs p).1.length ≤ p.1.length + inputs.length := by
  induction inputs generalizing p with
  | nil => simp [markInputs]
  | cons input inputs ih =>
    obtain ⟨pending, marked⟩ := p
    by_cases hmem : input ∈ marked
    · have hstep : markInputs (input :: inputs) (pending, marked) = markInputs inputs (pending, marked) := by
        simp [markInputs, hmem]
      obtain ⟨hpending, hmarked, hinputs, hnew, hold, hlength⟩ := ih (pending, marked)
      rw [hstep]
      refine ⟨hpending, hmarked, List.cons_subset.2 ⟨hmarked hmem, hinputs⟩, fun v hv => ?_, fun v hv => ?_, ?_⟩
      · exact (hnew v hv).imp_right fun h => ⟨List.mem_cons_of_mem _ h.1, h.2⟩
      · exact (hold v hv).imp_right (List.mem_cons_of_mem _)
      · rw [List.length_cons]
        omega
    · have hstep : markInputs (input :: inputs) (pending, marked) =
          markInputs inputs (input :: pending, input :: marked) := by
        simp [markInputs, hmem]
      obtain ⟨hpending, hmarked, hinputs, hnew, hold, hlength⟩ := ih (input :: pending, input :: marked)
      obtain ⟨hfirst, hpending⟩ := List.cons_subset.1 hpending
      obtain ⟨hfirst', hmarked⟩ := List.cons_subset.1 hmarked
      rw [hstep]
      refine ⟨hpending, hmarked, List.cons_subset.2 ⟨hfirst', hinputs⟩, fun v hv => ?_, fun v hv => ?_, ?_⟩
      · rcases hnew v hv with hmem | ⟨hmem, hthere⟩
        · rcases List.mem_cons.1 hmem with rfl | hmem
          · exact .inr ⟨List.mem_cons_self .., hfirst⟩
          · exact .inl hmem
        · exact .inr ⟨List.mem_cons_of_mem _ hmem, hthere⟩
      · rcases hold v hv with hmem | hmem
        · rcases List.mem_cons.1 hmem with rfl | hmem
          · exact .inr (List.mem_cons_self ..)
          · exact .inl hmem
        · exact .inr (List.mem_cons_of_mem _ hmem)
      · simp only [List.length_cons] at hlength ⊢
        omega

/-- An element that is filtered out later takes its part of a sum away. -/
theorem sum_filter_add_le {l : List NodeId} {p q : NodeId → Bool} (f : NodeId → Nat)
    (hpq : ∀ a, q a = true → p a = true) {a : NodeId} (ha : a ∈ l) (hpa : p a = true) (hqa : q a = false) :
    ((l.filter q).map f).sum + f a ≤ ((l.filter p).map f).sum := by
  have hle (l : List NodeId) : ((l.filter q).map f).sum ≤ ((l.filter p).map f).sum := by
    induction l with
    | nil => simp
    | cons b l ih =>
      simp only [List.filter_cons]
      by_cases hq : q b = true
      · simp [hq, hpq b hq, ih]
      · by_cases hp : p b = true
        · simp only [hq, hp, if_true, Bool.false_eq_true, if_false, List.map_cons, List.sum_cons]
          omega
        · simpa [hq, hp] using ih
  induction l with
  | nil => cases ha
  | cons b l ih =>
    rcases List.mem_cons.1 ha with rfl | ha
    · have := hle l
      simp only [List.filter_cons, hpa, hqa, if_true, Bool.false_eq_true, if_false, List.map_cons, List.sum_cons]
      omega
    · have := ih ha
      simp only [List.filter_cons]
      by_cases hq : q b = true
      · simp only [hq, hpq b hq, if_true, List.map_cons, List.sum_cons]
        omega
      · by_cases hp : p b = true
        · simp only [hq, hp, if_true, Bool.false_eq_true, if_false, List.map_cons, List.sum_cons]
          omega
        · simpa [hq, hp] using this

theorem unmarkedReads_le {marked' : List NodeId} (hsub : marked ⊆ marked') (hop : (g.operator? id).isSome)
    (hid : id ∉ marked) (hid' : id ∈ marked') :
    g.unmarkedReads marked' + (g.inputsOf id).length ≤ g.unmarkedReads marked := by
  refine sum_filter_add_le (fun id => (g.inputsOf id).length) (fun a ha => ?_) (mem_operatorIds.2 hop) ?_ ?_
  · simp only [List.contains_eq_mem, Bool.not_eq_true', decide_eq_false_iff_not] at ha ⊢
    exact fun hmem => ha (hsub hmem)
  · simpa using hid
  · simpa using hid'

/-- Looking at the producer of a pending value. -/
theorem Marks.mark (hg : g.Indexed) (hformed : g.WellFormed) (h : g.Marks (v :: pending) marked) {op : OperatorNode}
    (hop : g.operator? id = some op) (hv : v ∈ g.outputsOf id) :
    g.Marks (markInputs op.inputs (pending, id :: op.outputs ++ marked)).1
      (markInputs op.inputs (pending, id :: op.outputs ++ marked)).2 := by
  obtain ⟨hreads, hproduces, -⟩ := (wellFormed_iff hg).1 hformed
  obtain ⟨hpending, hmarked, hinputs, hnew, hold, -⟩ := markInputs_spec op.inputs (pending, id :: op.outputs ++ marked)
  generalize markInputs op.inputs (pending, id :: op.outputs ++ marked) = p at *
  obtain ⟨hid, hmarked⟩ := List.cons_subset.1 hmarked
  obtain ⟨houtputs, hmarked⟩ := List.append_subset.1 hmarked
  have hins := inputsOf_of_operator? hop
  have houts := outputsOf_of_operator? hop
  have hread (u : NodeId) (hu : u ∈ op.inputs) := edges_of_isReadable (hreads id u (hins ▸ hu))
  have hproduced (u : NodeId) (hu : u ∈ op.outputs) :=
    edges_of_isReadable (isReadable_of_isValue (hproduces id u (houts ▸ hu)))
  have hcases (u : NodeId) (hu : u ∈ p.2) : u = id ∨ u ∈ op.outputs ∨ u ∈ marked ∨ u ∈ op.inputs ∧ u ∈ p.1 := by
    simpa [or_assoc] using hnew u hu
  refine ⟨fun u hu => ?_, fun u hu => ?_, fun u hu => ?_, fun u hu id' hid' => ?_⟩
  · rcases hold u hu with hmem | hmem
    · exact hmarked (h.subset (List.mem_cons_of_mem _ hmem))
    · exact hinputs hmem
  · rcases hcases u hu with rfl | hmem | hmem | ⟨hmem, -⟩
    · rwa [hins]
    · simp [(hproduced u hmem).1]
    · exact List.Subset.trans (h.reads u hmem) hmarked
    · simp [(hread u hmem).1]
  · rcases hcases u hu with rfl | hmem | hmem | ⟨hmem, -⟩
    · rwa [houts]
    · simp [(hproduced u hmem).2]
    · exact List.Subset.trans (h.produces u hmem) hmarked
    · simp [(hread u hmem).2]
  · rcases hcases u hu with rfl | hmem | hmem | ⟨-, hmem⟩
    · rw [(edges_of_isReadable (isReadable_of_isValue (hproduces id' u hid'))).2] at hv
      cases hv
    · exact .inl (hg.producer_unique hid' (houts ▸ hmem) ▸ hid)
    · rcases h.sources u hmem id' hid' with hmem | hmem
      · exact .inl (hmarked hmem)
      · rcases List.mem_cons.1 hmem with rfl | hmem
        · exact .inl (hg.producer_unique hid' hv ▸ hid)
        · exact .inr (hpending hmem)
    · exact .inr hmem

/-- With a bound that allows for all inputs of operators, nothing is pending in the end. -/
theorem Marks.markNeeded (hg : g.Indexed) (hformed : g.WellFormed) (h : g.Marks pending marked) {bound : Nat}
    (hbound : pending.length + g.unmarkedReads marked ≤ bound) :
    marked ⊆ g.markNeeded bound pending marked ∧ g.Marks [] (g.markNeeded bound pending marked) := by
  induction bound generalizing pending marked with
  | zero =>
    have hnil : pending = [] := List.eq_nil_of_length_eq_zero (by omega)
    exact ⟨List.Subset.refl _, hnil ▸ h⟩
  | succ bound ih =>
    cases pending with
    | nil => exact ⟨List.Subset.refl _, h⟩
    | cons v pending =>
      rw [List.length_cons] at hbound
      unfold Graph.markNeeded
      cases hproducer : g.producer? v with
      | none =>
        refine ih ⟨(List.cons_subset.1 h.subset).2, h.reads, h.produces, fun u hu id hid => ?_⟩ (by omega)
        refine (h.sources u hu id hid).imp_right fun hmem => ?_
        rcases List.mem_cons.1 hmem with rfl | hmem
        · exact absurd hid (producer?_eq_none hg hproducer id)
        · exact hmem
      | some p =>
        obtain ⟨id, op⟩ := p
        obtain ⟨hop, hv⟩ := (producer?_eq_some hg).1 hproducer
        dsimp only
        by_cases hid : id ∈ marked
        · rw [if_pos (by simpa using hid)]
          refine ih ⟨(List.cons_subset.1 h.subset).2, h.reads, h.produces, fun u hu id' hid' => ?_⟩ (by omega)
          refine (h.sources u hu id' hid').elim .inl fun hmem => ?_
          rcases List.mem_cons.1 hmem with rfl | hmem
          · exact .inl (hg.producer_unique hid' hv ▸ hid)
          · exact .inr hmem
        · rw [if_neg (by simpa using hid)]
          have hspec := markInputs_spec op.inputs (pending, id :: op.outputs ++ marked)
          obtain ⟨hmem, hsub⟩ := List.cons_subset.1 hspec.2.1
          have hsome : (g.operator? id).isSome := by simp [hop]
          have hless := unmarkedReads_le (List.append_subset.1 hsub).2 hsome hid hmem
          rw [inputsOf_of_operator? hop] at hless
          have hlength := hspec.2.2.2.2.2
          dsimp only at hlength
          obtain ⟨hmore, hmarks⟩ := ih (h.mark hg hformed hop hv) (by omega)
          exact ⟨fun u hu => hmore (hsub (List.mem_append_right _ hu)), hmarks⟩

/-! ## Pruned graphs -/

theorem unmarkedReads_le_total (g : Graph) (marked : List NodeId) :
    g.unmarkedReads marked ≤ total (g.operators.map fun p => p.2.inputs.length) := by
  unfold unmarkedReads operatorIds operators
  induction g.ids with
  | nil => exact Nat.le_refl 0
  | cons id ids ih =>
    cases hop : g.operator? id with
    | none => simpa [hop] using ih
    | some op =>
      by_cases hid : id ∈ marked
      · simpa [hop, hid, total] using Nat.le_trans (by simpa using ih) (Nat.le_add_left _ _)
      · simpa [hop, hid, total, inputsOf] using ih

/-- Inputs, outputs and all that outputs depend on stay, operators together with what they read and produce. -/
theorem marks_neededIds (hg : g.Indexed) (hformed : g.WellFormed) :
    g.inputIds ++ g.outputIds ⊆ g.neededIds ∧ g.Marks [] g.neededIds := by
  obtain ⟨-, -, -, hinputs, houtputs⟩ := (wellFormed_iff hg).1 hformed
  have hleaf (v : NodeId) (hv : v ∈ g.inputIds ++ g.outputIds) : g.inputsOf v = [] ∧ g.outputsOf v = [] := by
    refine edges_of_isReadable ?_
    rcases List.mem_append.1 hv with hv | hv
    · exact isReadable_of_isValue (hinputs v hv).1
    · exact houtputs v hv
  have hstart : g.Marks g.outputIds.reverse (g.inputIds ++ g.outputIds) := by
    refine ⟨fun v hv => List.mem_append_right _ (List.mem_reverse.1 hv), fun v hv => by simp [(hleaf v hv).1],
      fun v hv => by simp [(hleaf v hv).2], fun v hv id hid => ?_⟩
    rcases List.mem_append.1 hv with hv | hv
    · exact absurd hid ((hinputs v hv).2 id)
    · exact .inr (List.mem_reverse.2 hv)
  refine hstart.markNeeded hg hformed ?_
  have := g.unmarkedReads_le_total (g.inputIds ++ g.outputIds)
  rw [List.length_reverse]
  exact Nat.le_succ_of_le (Nat.add_le_add_left this _)

/-! ## What pruning leaves -/

section Prune

variable (hg : g.Indexed)

include hg

theorem operator?_prune (id : NodeId) :
    g.prune.1.operator? id = if id ∈ g.neededIds then g.operator? id else none := by
  refine (operator?_remove _ hg id).trans ?_
  by_cases hid : id ∈ g.neededIds
  · simp [hid]
  · cases hop : g.operator? id with
    | none => simp
    | some op => simp [hid, mem_ids.2 (node?_isSome_of_operator? hop)]

theorem inputsOf_prune (id : NodeId) : g.prune.1.inputsOf id = if id ∈ g.neededIds then g.inputsOf id else [] := by
  rw [inputsOf, operator?_prune hg]
  split <;> rfl

theorem outputsOf_prune (id : NodeId) : g.prune.1.outputsOf id = if id ∈ g.neededIds then g.outputsOf id else [] := by
  rw [outputsOf, operator?_prune hg]
  split <;> rfl

theorem mem_inputsOf_prune : v ∈ g.prune.1.inputsOf id ↔ id ∈ g.neededIds ∧ v ∈ g.inputsOf id := by
  rw [inputsOf_prune hg]
  split <;> simp [*]

theorem mem_outputsOf_prune : v ∈ g.prune.1.outputsOf id ↔ id ∈ g.neededIds ∧ v ∈ g.outputsOf id := by
  rw [outputsOf_prune hg]
  split <;> simp [*]

theorem readable?_prune (hv : v ∈ g.neededIds) : g.prune.1.readable? v = g.readable? v := by
  refine (readable?_remove _ hg v).trans (if_neg ?_)
  simp [hv]

theorem inputIds_prune : g.prune.1.inputIds = g.inputIds := inputIds_remove _ hg

theorem outputIds_prune : g.prune.1.outputIds = g.outputIds := outputIds_remove _ hg

theorem computes_prune {w : NodeId} :
    g.prune.1.Computes v w ↔ ∃ id ∈ g.neededIds, v ∈ g.inputsOf id ∧ w ∈ g.outputsOf id := by
  simp only [Computes, mem_inputsOf_prune hg, mem_outputsOf_prune hg]
  constructor
  · rintro ⟨id, ⟨hid, hv⟩, -, hw⟩
    exact ⟨id, hid, hv, hw⟩
  · rintro ⟨id, hid, hv, hw⟩
    exact ⟨id, ⟨hid, hv⟩, hid, hw⟩

theorem Acyclic.prune (h : g.Acyclic) : g.prune.1.Acyclic := by
  refine fun v hcycle => h v (TransGen.mono (fun v w hstep => ?_) _ _ hcycle)
  obtain ⟨id, -, hv, hw⟩ := (computes_prune hg).1 hstep
  exact ⟨id, hv, hw⟩

variable (hformed : g.WellFormed)

include hformed

theorem Indexed.prune : g.prune.1.Indexed := by
  obtain ⟨-, hmarks⟩ := marks_neededIds hg hformed
  refine hg.remove _ fun id hid v ⟨hv, _⟩ => ?_
  have hv : v ∉ g.neededIds := by simpa using (List.mem_filter.1 hv).2
  have hkept (hop : (g.operator? id).isSome) : id ∈ g.neededIds := by
    obtain ⟨op, hop⟩ := Option.isSome_iff_exists.1 hop
    simpa [mem_ids.2 (node?_isSome_of_operator? hop)] using hid
  constructor
  · exact fun hmem => hv (hmarks.reads id (hkept (isSome_operator?_of_mem_inputsOf hmem)) hmem)
  · exact fun hmem => hv (hmarks.produces id (hkept (isSome_operator?_of_mem_outputsOf hmem)) hmem)

theorem wellFormed_prune : g.prune.1.WellFormed := by
  obtain ⟨hends, hmarks⟩ := marks_neededIds hg hformed
  obtain ⟨hins, houts⟩ := List.append_subset.1 hends
  obtain ⟨hreads, hproduces, hnodup, hinputs, houtputs⟩ := (wellFormed_iff hg).1 hformed
  have hreadable {v : NodeId} (hv : v ∈ g.neededIds) (h : g.isReadable v = true) : g.prune.1.isReadable v = true := by
    rwa [isReadable_eq, readable?_prune hg hv, ← isReadable_eq]
  have hvalue {v : NodeId} (hv : v ∈ g.neededIds) (h : g.isValue v = true) : g.prune.1.isValue v = true := by
    rwa [isValue_eq, readable?_prune hg hv, ← isValue_eq]
  rw [wellFormed_iff (hg.prune hformed), inputIds_prune hg, outputIds_prune hg]
  refine ⟨fun id v hv => ?_, fun id v hv => ?_, fun id => ?_, fun v hv => ?_, fun v hv => ?_⟩
  · obtain ⟨hid, hv⟩ := (mem_inputsOf_prune hg).1 hv
    exact hreadable (hmarks.reads id hid hv) (hreads id v hv)
  · obtain ⟨hid, hv⟩ := (mem_outputsOf_prune hg).1 hv
    exact hvalue (hmarks.produces id hid hv) (hproduces id v hv)
  · rw [outputsOf_prune hg]
    split
    · exact hnodup id
    · exact List.nodup_nil
  · exact ⟨hvalue (hins hv) (hinputs v hv).1, fun id hid => (hinputs v hv).2 id ((mem_outputsOf_prune hg).1 hid).2⟩
  · exact hreadable (houts hv) (houtputs v hv)

/-- What outputs depend on stays. -/
theorem Needed.mem_neededIds (hv : g.Needed v) : v ∈ g.neededIds := by
  obtain ⟨hends, hmarks⟩ := marks_neededIds hg hformed
  refine hv.induction (P := (· ∈ g.neededIds)) (fun o ho => hends (List.mem_append_right _ ho)) ?_
  rintro v w ⟨id, hv, hw⟩ - hmem
  have hid : id ∈ g.neededIds := (hmarks.sources w hmem id hw).resolve_right List.not_mem_nil
  exact hmarks.reads id hid hv

/-- An operator that computes what outputs depend on stays. -/
theorem Needed.producer_mem (hv : g.Needed v) (hid : v ∈ g.outputsOf id) : id ∈ g.neededIds := by
  obtain ⟨-, hmarks⟩ := marks_neededIds hg hformed
  exact (hmarks.sources v (hv.mem_neededIds hg hformed) id hid).resolve_right List.not_mem_nil

theorem needed_prune : g.prune.1.Needed v ↔ g.Needed v := by
  constructor
  · intro hv
    refine hv.induction (P := g.Needed) (fun o ho => ⟨o, outputIds_prune hg ▸ ho, .refl⟩) fun v w hstep _ hw => ?_
    obtain ⟨id, -, hv, hw'⟩ := (computes_prune hg).1 hstep
    exact hw.source ⟨id, hv, hw'⟩
  · intro hv
    refine hv.induction (P := g.prune.1.Needed) (fun o ho => ⟨o, outputIds_prune hg ▸ ho, .refl⟩) ?_
    rintro v w ⟨id, hv, hw⟩ hneeded hpruned
    exact hpruned.source ((computes_prune hg).2 ⟨id, hneeded.producer_mem hg hformed hw, hv, hw⟩)

end Prune

/-- Pruning keeps a graph linkable. -/
theorem Linkable.prune (h : g.Linkable) : g.prune.1.Succeeds g := by
  have hg := h.indexed
  refine ⟨⟨hg.prune h.formed, wellFormed_prune hg h.formed, h.acyclic.prune hg, ?_, fun v hv => ?_⟩,
    inputIds_prune hg, by rw [outputIds_prune hg], operatorCount_le fun id hid => ?_⟩
  · rw [outputIds_prune hg]
    exact h.outputs
  · have hv := (needed_prune hg h.formed).1 hv
    have hmem := hv.mem_neededIds hg h.formed
    rcases h.provided v hv with hinput | hconstant | ⟨id, hid⟩
    · exact .inl (by rwa [inputIds_prune hg])
    · exact .inr (.inl (by rwa [constant?_eq, readable?_prune hg hmem, ← constant?_eq]))
    · exact .inr (.inr ⟨id, (mem_outputsOf_prune hg).2 ⟨hv.producer_mem hg h.formed hid, hid⟩⟩)
  · rw [operator?_prune hg] at hid
    split at hid
    · exact hid
    · cases hid

end TensorGraph.Graph
