import TensorGraph.Proofs.Rewrite.Admission

/-!
# Graphs that can be linked

A graph is `Linkable` if it is valid and its outputs can be planned from its inputs. Rewrites that fit a graph keep
it so: a value is used in place of one that depends on all that it depends on, new inputs of an operator are values
that it depends on already, and a fusion computes its outputs from values that they depend on.
-/

namespace TensorGraph

open Relation

namespace Graph

variable {g g' : Graph} {v w id : NodeId}

/-- Whether an output of the graph depends on a value. -/
def Needed (g : Graph) (v : NodeId) : Prop := ∃ o ∈ g.outputIds, ReflTransGen g.Computes v o

/-- Whether a value is there when the graph runs: an input, a constant, or what an operator produces. -/
def Provided (g : Graph) (v : NodeId) : Prop :=
  v ∈ g.inputIds ∨ (g.constant? v).isSome ∨ ∃ id, v ∈ g.outputsOf id

/-- Whether a graph is valid and its outputs can be computed from its inputs. -/
structure Linkable (g : Graph) : Prop where
  indexed : g.Indexed
  formed : g.WellFormed
  acyclic : g.Acyclic
  outputs : g.outputIds.Nodup
  provided : ∀ v, g.Needed v → g.Provided v

theorem Needed.source (h : g.Needed w) (hv : g.Computes v w) : g.Needed v := by
  obtain ⟨o, ho, hpath⟩ := h
  exact ⟨o, ho, .head hv hpath⟩

theorem Needed.path (h : g.Needed w) (hv : ReflTransGen g.Computes v w) : g.Needed v := by
  obtain ⟨o, ho, hpath⟩ := h
  exact ⟨o, ho, hv.trans hpath⟩

/-- What holds of outputs and of the sources of what it holds of, holds of all values that outputs depend on. -/
theorem Needed.induction {P : NodeId → Prop} (h : g.Needed v) (houtput : ∀ o ∈ g.outputIds, P o)
    (hsource : ∀ v w, g.Computes v w → g.Needed w → P w → P v) : P v := by
  obtain ⟨o, ho, hpath⟩ := h
  induction hpath using ReflTransGen.head_induction_on with
  | refl => exact houtput o ho
  | head hstep hpath ih => exact hsource _ _ hstep ⟨o, ho, hpath⟩ ih

/-! ## Plans -/

theorem Linkable.validate (h : g.Linkable) : g.validate = .ok () :=
  (validate_eq_ok h.indexed).2 ⟨h.formed, h.acyclic⟩

theorem Linkable.exists_topologicalOrder (h : g.Linkable) : ∃ order, g.topologicalOrder = .ok order :=
  (Graph.exists_topologicalOrder h.indexed ((wellFormed_iff h.indexed).1 h.formed).2.2.1).2 h.acyclic

/-- Inputs and constants are not produced by operators. -/
theorem WellFormed.not_available (hg : g.Indexed) (hformed : g.WellFormed) (hv : v ∈ g.outputsOf id) :
    v ∉ g.inputIds ++ g.constantIds := by
  obtain ⟨-, hproduces, -, hinputs, -⟩ := (wellFormed_iff hg).1 hformed
  intro hmem
  rcases List.mem_append.1 hmem with hinput | hconstant
  · exact (hinputs v hinput).2 id hv
  · obtain ⟨x, hx⟩ := Option.isSome_iff_exists.1 (mem_constantIds.1 hconstant)
    simpa [isValue_of_constant? hx] using hproduces id v hv

theorem met_iff_needed (hg : g.Indexed) (hformed : g.WellFormed) :
    g.Met (g.inputIds ++ g.constantIds) g.outputIds v ↔ g.Needed v := by
  constructor
  · intro h
    induction h with
    | output hv => exact ⟨_, hv, .refl⟩
    | input _ _ hid hw ih => exact ih.source ⟨_, hw, hid⟩
  · intro h
    refine h.induction (P := g.Met (g.inputIds ++ g.constantIds) g.outputIds) (fun o ho => .output ho) ?_
    rintro v w ⟨id, hv, hw⟩ - hmet
    exact hmet.input (hformed.not_available hg hw) hw hv

theorem Acyclic.not_waitsFor (h : g.Acyclic) (available : List NodeId) (id : NodeId) :
    ¬TransGen (g.WaitsFor available) id id :=
  fun hcycle => acyclic_iff_not_dependsOn.1 h id
    (TransGen.mono (fun _ _ ⟨v, hv, _, hout⟩ => ⟨v, hv, hout⟩) _ _ hcycle)

theorem mem_inputs_append_constants : v ∈ g.inputIds ++ g.constantIds ↔ v ∈ g.inputIds ∨ (g.constant? v).isSome := by
  rw [List.mem_append, mem_constantIds]

theorem Linkable.exists_plan (h : g.Linkable) (hinputs : g.inputIds.Nodup) :
    ∃ plan, g.executionPlan g.inputIds g.outputIds = .ok plan := by
  refine (exists_executionPlan h.indexed).2 ⟨⟨h.outputs, h.formed.outputs⟩, ⟨hinputs, fun v hv => ?_⟩,
    fun v hv => ?_, fun id _ => h.acyclic.not_waitsFor _ id⟩
  · exact isReadable_of_isValue (h.formed.inputs v hv)
  · rw [mem_inputs_append_constants, or_assoc]
    exact h.provided v ((met_iff_needed h.indexed h.formed).1 hv)

theorem linkable_of_plan (hg : g.Indexed) (hvalid : g.validate = .ok ()) {plan : List NodeId}
    (hplan : g.executionPlan g.inputIds g.outputIds = .ok plan) : g.Linkable ∧ g.inputIds.Nodup := by
  obtain ⟨hformed, hacyclic⟩ := (validate_eq_ok hg).1 hvalid
  obtain ⟨houtputs, hinputs, htrace⟩ := (exists_executionPlan hg).1 ⟨plan, hplan⟩
  refine ⟨⟨hg, hformed, hacyclic, houtputs.1, fun v hv => ?_⟩, hinputs.1⟩
  have := htrace.resolved v ((met_iff_needed hg hformed).2 hv)
  rwa [mem_inputs_append_constants, or_assoc] at this

/-! ## Graphs that take the place of another -/

/-- Whether a graph can be linked and has the inputs, as many outputs as and no more operators than another one. -/
structure Succeeds (g' g : Graph) : Prop where
  linkable : g'.Linkable
  inputIds : g'.inputIds = g.inputIds
  outputs : g'.outputIds.length = g.outputIds.length
  operators : g'.operatorCount ≤ g.operatorCount

theorem Linkable.succeeds (h : g.Linkable) : g.Succeeds g := ⟨h, rfl, rfl, Nat.le_refl _⟩

theorem Succeeds.trans {g'' : Graph} (h' : g''.Succeeds g') (h : g'.Succeeds g) : g''.Succeeds g :=
  ⟨h'.linkable, h'.inputIds.trans h.inputIds, h'.outputs.trans h.outputs, Nat.le_trans h'.operators h.operators⟩

theorem operatorCount_le (h : ∀ id, (g'.operator? id).isSome → (g.operator? id).isSome) :
    g'.operatorCount ≤ g.operatorCount :=
  (List.subperm_of_subset (nodup_operatorIds g') fun id hid =>
    mem_operatorIds.2 (h id (mem_operatorIds.1 hid))).length_le

/-- Other operators that read and produce the same values. -/
theorem Linkable.sameEdges (h : g.Linkable) (hsame : g'.SameEdges g) (hg' : g'.Indexed) : g'.Succeeds g := by
  refine ⟨⟨hg', hsame.wellFormed hg' h.indexed h.formed, ?_, ?_, fun v hv => ?_⟩, hsame.inputIds, ?_,
    operatorCount_le fun id hid => by rwa [hsame.operators] at hid⟩
  · rw [Acyclic, hsame.computes]
    exact h.acyclic
  · rw [hsame.outputIds]
    exact h.outputs
  · rw [Needed, hsame.computes, hsame.outputIds] at hv
    simpa only [Provided, hsame.inputIds, constant?_eq, hsame.readable?, hsame.outputsOf] using h.provided v hv
  · rw [hsame.outputIds]

/-! ## Redirected values -/

/-- Whether a value can be used in place of another: it does not depend on the other, which depends on all that it
depends on, and it is there if the other is needed. -/
structure Replaceable (g : Graph) (old new : NodeId) : Prop where
  acyclic : ¬ReflTransGen g.Computes old new
  sources : ∀ v, g.Computes v new → ReflTransGen g.Computes v old
  provided : g.Needed old → g.Provided new

theorem Replaceable.of_path {old new : NodeId} (h : g.Linkable) (hpath : TransGen g.Computes new old) :
    g.Replaceable old new where
  acyclic hback := h.acyclic old (.trans_right hback hpath)
  sources _ hv := .head hv hpath.to_reflTransGen
  provided hold := h.provided new (hold.path hpath.to_reflTransGen)

theorem needed_replaceValue (hg : g.Indexed) {old new : NodeId} (hreplace : g.Replaceable old new)
    (hv : (g.replaceValue old new).Needed v) : g.Needed v ∨ g.Needed old ∧ v = new := by
  have hredirect {u : NodeId} (hu : g.Needed u) :
      g.Needed (redirect old new u) ∨ g.Needed old ∧ redirect old new u = new := by
    unfold redirect
    split
    · next heq => exact .inr ⟨heq ▸ hu, rfl⟩
    · exact .inl hu
  refine hv.induction (P := fun v => g.Needed v ∨ g.Needed old ∧ v = new) (fun o ho => ?_) fun v w hstep _ ih => ?_
  · rw [outputIds_replaceValue] at ho
    obtain ⟨o', ho', rfl⟩ := List.mem_map.1 ho
    exact hredirect ⟨o', ho', .refl⟩
  · obtain ⟨u, rfl, hu⟩ := (computes_replaceValues hg [(old, new)] v w).1 hstep
    rcases ih with hneeded | ⟨hold, rfl⟩
    · exact hredirect (hneeded.source hu)
    · exact hredirect (hold.path (hreplace.sources u hu))

theorem nodup_map_redirect {old new : NodeId} {outputs : List NodeId} (h : outputs.Nodup)
    (honce : old ∈ outputs → new ∉ outputs) : (outputs.map (redirect old new)).Nodup := by
  refine h.map_on fun a ha b hb heq => ?_
  unfold redirect at heq
  split at heq
  · next hold =>
    split at heq
    · next hold' => exact hold.trans hold'.symm
    · exact absurd (heq ▸ hb) (honce (hold ▸ ha))
  · split at heq
    · next hold => exact absurd (heq ▸ ha) (honce (hold ▸ hb))
    · exact heq

/-- One pair of an alias whose second value can be used in place of the first. -/
theorem Linkable.replaceValue {outputs : List NodeId} {old new : NodeId} (h : g.Linkable)
    (hcheck : Rewrite.checkAlias g g.outputIds (old, new) = .ok outputs) (hreplace : g.Replaceable old new) :
    (g.replaceValue old new).Succeeds g := by
  obtain ⟨hne, -, hnew, -, honce, -⟩ := Rewrite.checkAlias_eq_ok.1 hcheck
  have hformed : (g.replaceValues [(old, new)]).WellFormed :=
    Rewrite.wellFormed_replaceValues h.indexed h.formed (bind_eq_ok.2 ⟨outputs, hcheck, rfl⟩)
  refine ⟨⟨h.indexed.replaceValue old new, hformed,
    (acyclic_replaceValue h.indexed h.acyclic hne).2 hreplace.acyclic, ?_, fun v hv => ?_⟩,
    inputIds_replaceValue g old new, ?_, operatorCount_le fun id hid => ?_⟩
  · rw [outputIds_replaceValue]
    exact nodup_map_redirect h.outputs honce
  · have hprovided : g.Provided v := by
      rcases needed_replaceValue h.indexed hreplace hv with hneeded | ⟨hold, rfl⟩
      · exact h.provided v hneeded
      · exact hreplace.provided hold
    simpa only [Provided, inputIds_replaceValue, constant?_eq, readable?_replaceValue,
      outputsOf_replaceValue old new h.indexed] using hprovided
  · rw [outputIds_replaceValue, List.length_map]
  · simpa [operator?_replaceValue g old new h.indexed] using hid

/-- Whether each pair of an alias names a value that can be used in place of another, once the pairs before it took
effect. -/
def AliasFits (g : Graph) : List (NodeId × NodeId) → Prop
  | [] => True
  | (old, new) :: pairs => g.Replaceable old new ∧ (g.replaceValue old new).AliasFits pairs

theorem Linkable.replaceValues {g₀ : Graph} {outputs : List NodeId} {pairs : List (NodeId × NodeId)} (h : g.Linkable)
    (hreadable : g.isReadable = g₀.isReadable) (hinputs : g.inputIds = g₀.inputIds)
    (hcheck : pairs.foldlM (Rewrite.checkAlias g₀) g.outputIds = .ok outputs) (hfits : g.AliasFits pairs) :
    (g.replaceValues pairs).Succeeds g := by
  induction pairs generalizing g with
  | nil => exact h.succeeds
  | cons pair pairs ih =>
    obtain ⟨old, new⟩ := pair
    obtain ⟨next, hnext, hcheck⟩ := bind_eq_ok.1 hcheck
    have hone : Rewrite.checkAlias g g.outputIds (old, new) = .ok next := by
      rw [Rewrite.checkAlias_eq_ok, hreadable, hinputs]
      exact Rewrite.checkAlias_eq_ok.1 hnext
    obtain ⟨-, -, -, -, -, rfl⟩ := Rewrite.checkAlias_eq_ok.1 hnext
    have hfirst := h.replaceValue hone hfits.1
    refine (ih hfirst.linkable ?_ ?_ ?_ hfits.2).trans hfirst
    · rw [← hreadable]
      funext v
      rw [isReadable_eq, isReadable_eq, readable?_replaceValue]
    · rw [inputIds_replaceValue, hinputs]
    · rwa [outputIds_replaceValue]

/-! ## Constants -/

theorem Linkable.addConstant (h : g.Linkable) (name : Option String) (x : Value) :
    (g.addConstant name x).1.Succeeds g := by
  refine ⟨⟨h.indexed.addConstant name x, wellFormed_addConstant name x h.indexed h.formed, ?_, h.outputs,
    fun v hv => ?_⟩, rfl, rfl, operatorCount_le fun id hid => ?_⟩
  · rw [Acyclic, computes_addConstant]
    exact h.acyclic
  · rw [Needed, computes_addConstant] at hv
    rcases h.provided v hv with hinput | hconstant | ⟨id, hid⟩
    · exact .inl hinput
    · refine .inr (.inl ?_)
      rw [constant?_eq] at hconstant ⊢
      rwa [readable?_addConstant name x (Option.isSome_of_isSome_bind hconstant)]
    · exact .inr (.inr ⟨id, by rwa [Graph.addConstant, outputsOf_addNode g rfl]⟩)
  · rw [operator?, Graph.addConstant, node?_addNode] at hid
    split at hid
    · cases hid
    · exact hid

/-- A constant that is added can be used in place of any other value. -/
theorem Linkable.replaceable_constant (h : g.Linkable) {old new : NodeId} (hnew : (g.constant? new).isSome)
    (hne : old ≠ new) : g.Replaceable old new := by
  obtain ⟨x, hx⟩ := Option.isSome_iff_exists.1 hnew
  have hnone (v : NodeId) : ¬g.Computes v new := by
    rintro ⟨id, -, hid⟩
    simpa [isValue_of_constant? hx] using ((wellFormed_iff h.indexed).1 h.formed).2.1 id new hid
  refine ⟨fun hpath => ?_, fun v hv => absurd hv (hnone v), fun _ => .inr (.inl hnew)⟩
  rcases ReflTransGen.cases_tail hpath with heq | ⟨v, -, hstep⟩
  · exact hne heq.symm
  · exact hnone v hstep

/-! ## Inputs -/

theorem Linkable.replaceInputs (h : g.Linkable) {op : OperatorNode} (hop : g.operator? id = some op)
    {inputs : List NodeId} (hreadable : ∀ v ∈ inputs, g.isReadable v = true)
    (hinputs : ∀ v ∈ inputs, ∃ u ∈ g.inputsOf id, ReflTransGen g.Computes v u) :
    (g.replaceInputs id inputs).Succeeds g := by
  have hcomputes : (g.replaceInputs id inputs).Computes =
      fun v w => g.ComputesBeside [id] v w ∨ v ∈ inputs ∧ w ∈ g.outputsOf id := by
    funext v w
    exact propext (computes_replaceInputs hop inputs v w)
  have hpath (v w : NodeId) (hv : v ∈ inputs) (hw : w ∈ g.outputsOf id) : TransGen g.Computes v w := by
    obtain ⟨u, hu, hpath⟩ := hinputs v hv
    exact .tail' hpath ⟨id, hu, hw⟩
  refine ⟨⟨h.indexed.replaceInputs id inputs hop, wellFormed_replaceInputs h.indexed h.formed hop hreadable, ?_, ?_,
    fun v hv => ?_⟩, inputIds_replaceInputs id inputs hop, ?_, operatorCount_le fun id' hid => ?_⟩
  · rw [Acyclic, hcomputes]
    refine (not_transGen_added (h.acyclic.beside [id])).2 fun v w hv hw hback => ?_
    exact h.acyclic v (.trans_left (hpath v w hv hw)
      (ReflTransGen.mono (fun _ _ => ComputesBeside.computes) _ _ hback))
  · rw [outputIds_replaceInputs id inputs hop]
    exact h.outputs
  · have hneeded : g.Needed v := by
      refine hv.induction (P := g.Needed) (fun o ho => ?_) fun v w hstep _ hw => ?_
      · rw [outputIds_replaceInputs id inputs hop] at ho
        exact ⟨o, ho, .refl⟩
      · rw [hcomputes] at hstep
        rcases hstep with hstep | ⟨hv, hw'⟩
        · exact hw.source hstep.computes
        · exact hw.path (hpath v w hv hw').to_reflTransGen
    simpa only [Provided, inputIds_replaceInputs id inputs hop, constant?_eq, readable?_replaceInputs id inputs hop,
      outputsOf_replaceInputs id inputs hop] using h.provided v hneeded
  · rw [outputIds_replaceInputs id inputs hop]
  · rw [operator?_replaceInputs id inputs hop] at hid
    split at hid
    · next heq => simp [heq, hop]
    · exact hid

end Graph

/-! ## Fusions -/

namespace Fusion

variable {f : Fusion} {g : Graph} {removed : List NodeId}

/-- Whether the outputs of a fusion are values that depend on all its inputs, and none of these is produced by an
operator that computes the outputs. -/
structure Fits (f : Fusion) (g : Graph) : Prop where
  values : ∀ w ∈ f.outputs, g.isValue w = true
  paths : ∀ v ∈ f.inputs, ∀ w ∈ f.outputs, TransGen g.Computes v w
  kept : ∀ id, g.MetOperator (f.sources ++ g.constantIds) f.outputs id → ∀ v ∈ f.inputs, v ∉ g.outputsOf id

/-- A fusion that fits keeps a graph valid. -/
theorem Checked.valid_apply (hg : g.Indexed) (hvalid : g.validate = .ok ()) (h : f.Checked g removed)
    (hfits : f.Fits g) : (f.apply g removed).Indexed ∧ (f.apply g removed).validate = .ok () := by
  obtain ⟨hformed, hacyclic⟩ := (Graph.validate_eq_ok hg).1 hvalid
  have hapart : ∀ v ∈ f.outputs, v ∉ f.inputs := fun v hv hv' => hacyclic v (hfits.paths v hv' v hv)
  refine ⟨(h.wellFormed_apply hg hformed hfits.values hapart).1, (Rewrite.validate_fuse hg hformed hacyclic h).2
    ⟨hfits.values, fun v w hv hw hback => ?_⟩⟩
  exact hacyclic v (.trans_left (hfits.paths v hv w hw)
    (ReflTransGen.mono (fun _ _ => Graph.ComputesBeside.computes) _ _ hback))

/-- A fusion replaces some operators by one. -/
theorem Checked.operatorCount_le (hg : g.Indexed) (h : f.Checked g removed) :
    (f.apply g removed).operatorCount ≤ g.operatorCount := by
  obtain ⟨first, hfirst⟩ := List.exists_mem_of_ne_nil removed h.replaced
  have hmem : first ∈ g.operatorIds := Graph.mem_operatorIds.2 (h.isSome_operator? hg hfirst)
  have hsub : (f.apply g removed).operatorIds ⊆ newId g removed :: g.operatorIds.erase first := by
    intro id hid
    rw [Graph.mem_operatorIds] at hid
    by_cases hnew : id = newId g removed
    · exact hnew ▸ List.mem_cons_self ..
    · refine List.mem_cons_of_mem _ ?_
      rw [operator?_apply hg, if_neg hnew] at hid
      split at hid
      · cases hid
      · next hstay =>
        refine (List.mem_erase_of_ne ?_).2 (Graph.mem_operatorIds.2 hid)
        rintro rfl
        exact hstay hfirst
  have hlength := (List.subperm_of_subset (Graph.nodup_operatorIds _) hsub).length_le
  rw [List.length_cons, List.length_erase_of_mem hmem] at hlength
  have := List.length_pos_of_mem hmem
  unfold Graph.operatorCount
  omega

theorem Checked.linkable (h : g.Linkable) (hcheck : f.Checked g removed) (hfits : f.Fits g) :
    (f.apply g removed).Succeeds g := by
  have hg := h.indexed
  have hcomputes : (f.apply g removed).Computes =
      fun v w => g.ComputesBeside removed v w ∨ v ∈ f.inputs ∧ w ∈ f.outputs := by
    funext v w
    exact propext (Fusion.computes_apply hg)
  have hneeded {v : NodeId} (hv : (f.apply g removed).Needed v) : g.Needed v := by
    refine hv.induction (P := g.Needed) (fun o ho => ?_) fun v w hstep _ hw => ?_
    · rw [outputIds_apply hg] at ho
      exact ⟨o, ho, .refl⟩
    · rw [hcomputes] at hstep
      rcases hstep with hstep | ⟨hv, hw'⟩
      · exact hw.source hstep.computes
      · exact hw.path (hfits.paths v hv w hw').to_reflTransGen
  obtain ⟨hindexed, hvalid⟩ := hcheck.valid_apply hg h.validate hfits
  obtain ⟨hformed, hacyclic⟩ := (Graph.validate_eq_ok hindexed).1 hvalid
  refine ⟨⟨hindexed, hformed, hacyclic, ?_, fun v hv => ?_⟩, inputIds_apply hg, ?_, hcheck.operatorCount_le hg⟩
  · rw [outputIds_apply hg]
    exact h.outputs
  · rcases h.provided v (hneeded hv) with hinput | hconstant | ⟨id, hid⟩
    · exact .inl (by rwa [inputIds_apply hg])
    · exact .inr (.inl (by rwa [Graph.constant?_eq, hcheck.readable?_apply hg, ← Graph.constant?_eq]))
    · refine .inr (.inr ?_)
      by_cases hremoved : id ∈ removed
      · have hinput : v ∉ f.inputs := fun hmem => hfits.kept id (((hcheck.plans hg).mem_iff id).1 hremoved) v hmem hid
        by_cases hout : v ∈ f.outputs
        · exact ⟨newId g removed, by rwa [outputsOf_apply hg, if_pos rfl]⟩
        · -- Nothing that is left needs what only the replaced operators computed.
          obtain ⟨houtput, hread⟩ := hcheck.intermediates id hremoved v hid hout
          obtain ⟨o, ho, hpath⟩ := hv
          rw [outputIds_apply hg] at ho
          rcases ReflTransGen.cases_head hpath with rfl | ⟨w, hstep, -⟩
          · exact absurd ho houtput
          · rw [hcomputes] at hstep
            rcases hstep with ⟨reader, hnot, hreader, -⟩ | ⟨hmem, -⟩
            · exact absurd (hread reader hreader) hnot
            · exact absurd hmem hinput
      · have hne := ne_newId hg hremoved (Graph.isSome_operator?_of_mem_outputsOf hid)
        exact ⟨id, by rwa [outputsOf_apply hg, if_neg hne, if_neg hremoved]⟩
  · rw [outputIds_apply hg]

end Fusion

/-! ## Rewrites -/

namespace Rewrite

variable {g : Graph} {r : Rewrite} {removed : List NodeId}

/-- Whether a rewrite computes values only from what they depend on already. -/
def Fits (g : Graph) : Rewrite → Prop
  | .fuse f => f.Fits g
  | .alias pairs => g.AliasFits pairs
  | .replaceInputs id _ inputs => ∀ v ∈ inputs, ∃ u ∈ g.inputsOf id, ReflTransGen g.Computes v u
  | .constant .. | .replaceOperator .. => True

theorem linkable_constant {id : NodeId} {x : Value} (h : g.Linkable)
    (hcheck : (constant id x).check g = .ok removed) : ((constant id x).apply g removed).Succeeds g := by
  obtain ⟨name, happly, hne, hpair⟩ := constant_eq_alias h.formed hcheck
  have hadded := h.addConstant name x
  have hconstant : ((g.addConstant name x).1.constant? g.nodes.size).isSome := by
    rw [Graph.constant?_eq, Graph.readable?_newConstant]
    rfl
  rw [happly]
  exact (hadded.linkable.replaceValue hpair (hadded.linkable.replaceable_constant hconstant hne)).trans hadded

/-- A rewrite that is admitted and fits a graph keeps it linkable. -/
theorem linkable_apply (h : g.Linkable) (hcheck : r.check g = .ok removed) (hfits : r.Fits g) :
    (r.apply g removed).Succeeds g := by
  cases r with
  | fuse f => exact (Fusion.checked_of_check h.indexed hcheck).linkable h hfits
  | «alias» pairs =>
    obtain ⟨outputs, houtputs, -⟩ := bind_eq_ok.1 hcheck
    exact h.replaceValues rfl rfl houtputs hfits
  | constant id x => exact linkable_constant h hcheck
  | replaceOperator id op =>
    exact h.sameEdges (Graph.sameEdges_replaceOperator g id op) (h.indexed.replaceOperator g id op)
  | replaceInputs id op inputs =>
    obtain ⟨n, hn, hinputs⟩ := check_replaceInputs hcheck
    obtain ⟨g', happly, hg', hsame⟩ := apply_replaceInputs_eq removed h.indexed id op inputs
    obtain ⟨n', hn'⟩ : ∃ n', g'.operator? id = some n' :=
      Option.isSome_iff_exists.1 (by rw [hsame.operators, hn]; rfl)
    have hsucceeds := h.sameEdges hsame hg'
    rw [happly]
    refine (hsucceeds.linkable.replaceInputs hn' (fun v hv => ?_) ?_).trans hsucceeds
    · rw [Graph.isReadable_eq, hsame.readable?, ← Graph.isReadable_eq]
      exact (hinputs v hv).1
    · rw [hsame.inputsOf, hsame.computes]
      exact hfits

end Rewrite

end TensorGraph
