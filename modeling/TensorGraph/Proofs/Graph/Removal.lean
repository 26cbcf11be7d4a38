import TensorGraph.Proofs.Graph.Changes

/-!
# Removed nodes

Removing nodes takes their edges out of the edge indexes. If no operator that stays reads or produces a value or
constant that is removed, the indexes stay right (`Indexed.remove`).
-/

namespace TensorGraph.Graph

variable {g : Graph} {v id : NodeId}

variable {removed : List NodeId} {g' : Graph}

/-! ## One node -/

/-- Whether the edges of a node are erased when the nodes are removed: those of values and constants are. -/
def Erased (g : Graph) (removed : List NodeId) (v : NodeId) : Prop := v ∈ removed ∧ g.isReadable v = true

theorem Erased.mono (h : g.Erased removed v) {more : List NodeId} : g.Erased (removed ++ more) v :=
  ⟨List.mem_append_left _ h.1, h.2⟩

/-- What is left after nodes were removed one by one. -/
structure Removed (g : Graph) (removed : List NodeId) (g' : Graph) : Prop where
  node? : ∀ id, g'.node? id = if id ∈ removed then none else g.node? id
  sources : ∀ v id, g'.sources.get? v = some id → g.sources.get? v = some id ∧ id ∉ removed
  kept : ∀ v id, g.sources.get? v = some id → id ∉ removed → ¬ g.Erased removed v → g'.sources.get? v = some id
  consumers : ∀ v, ¬ g.Erased removed v → g'.consumers.get? v = g.consumers.get? v
  fewer : ∀ v, g'.consumers.get? v = g.consumers.get? v ∨ g'.consumers.get? v = none
  distinct : g'.consumers.Distinct
  inputIds : g'.inputIds = g.inputIds
  outputIds : g'.outputIds = g.outputIds

theorem get?_dropSources (m : IdMap NodeId) (outputs : List NodeId) (id v : NodeId) :
    (outputs.foldl (fun m value => if m.get? value = some id then m.erase value else m) m).get? v =
      if v ∈ outputs ∧ m.get? v = some id then none else m.get? v := by
  induction outputs generalizing m with
  | nil => simp
  | cons output outputs ih =>
    rw [List.foldl_cons, ih]
    by_cases houtput : m.get? output = some id
    · rw [if_pos houtput, IdMap.get?_erase]
      by_cases hv : v = output
      · simp [hv, houtput]
      · simp [hv]
    · rw [if_neg houtput]
      by_cases hv : v = output
      · simp [hv, houtput]
      · simp [hv]

/-- Removing a node that is there, apart from names. -/
theorem removeNode_eq {node : Node} (h : g.node? id = some node) : ∃ names, g.removeNode id =
    { g.setNode id none with
      names
      sources := match node with
        | .operator n =>
          n.outputs.foldl (fun m value => if m.get? value = some id then m.erase value else m) g.sources
        | _ => g.sources.erase id
      consumers := match node with
        | .operator _ => g.consumers
        | _ => g.consumers.erase id } := by
  unfold removeNode
  rw [h]
  cases hname : node.name? with
  | none => cases node <;> exact ⟨_, by simp only [hname]; rfl⟩
  | some name =>
    by_cases hlast : (g.setNode id none).names.lookup name = some id
    · cases node <;> exact ⟨_, by simp only [hname, hlast, if_true]; rfl⟩
    · cases node <;> exact ⟨_, by simp only [hname, hlast, if_false]; rfl⟩

theorem removeNode_of_none (h : g.node? id = none) : g.removeNode id = g := by
  unfold removeNode
  rw [h]

theorem get?_sources_removeNode {node : Node} (h : g.node? id = some node) (v : NodeId) :
    (g.removeNode id).sources.get? v =
      if v ∈ g.outputsOf id ∧ g.sources.get? v = some id ∨ v = id ∧ node.isReadable then none
      else g.sources.get? v := by
  obtain ⟨names, heq⟩ := removeNode_eq h
  have houtputs : g.outputsOf id = (node.operator?.map (·.outputs)).getD [] := by
    rw [outputsOf, operator?, h]
    rfl
  rw [heq, houtputs]
  cases node with
  | operator n => simp [get?_dropSources, Node.operator?, Node.isReadable]
  | constant n => simp [IdMap.get?_erase, Node.operator?, Node.isReadable]
  | value n => simp [IdMap.get?_erase, Node.operator?, Node.isReadable]

theorem get?_consumers_removeNode {node : Node} (h : g.node? id = some node) (v : NodeId) :
    (g.removeNode id).consumers.get? v = if v = id ∧ node.isReadable then none else g.consumers.get? v := by
  obtain ⟨names, heq⟩ := removeNode_eq h
  rw [heq]
  cases node with
  | operator n => simp [Node.isReadable]
  | constant n => simp [IdMap.get?_erase, Node.isReadable]
  | value n => simp [IdMap.get?_erase, Node.isReadable]

theorem distinct_removeNode {node : Node} (h : g.node? id = some node) (hdistinct : g.consumers.Distinct) :
    (g.removeNode id).consumers.Distinct := by
  obtain ⟨names, heq⟩ := removeNode_eq h
  rw [heq]
  cases node with
  | operator n => exact hdistinct
  | constant n => exact hdistinct.erase id
  | value n => exact hdistinct.erase id

theorem not_mem_append_singleton {id' : NodeId} : id' ∉ removed ++ [id] ↔ id' ∉ removed ∧ id' ≠ id := by
  simp

/-- A node that is not there can count as removed. -/
theorem Removed.skip (hg : g.Indexed) (h : g.Removed removed g') (hnode : g'.node? id = none) :
    g.Removed (removed ++ [id]) g' := by
  refine ⟨fun id' => ?_, fun v id' hv => ?_, fun v id' hv hid' hv' =>
    h.kept v id' hv (not_mem_append_singleton.1 hid').1 (hv' ·.mono), fun v hv => h.consumers v (hv ·.mono), h.fewer,
    h.distinct, h.inputIds, h.outputIds⟩
  · by_cases hsame : id' = id
    · simp [hsame, hnode]
    · simp [hsame, h.node?]
  · obtain ⟨hsource, hid'⟩ := h.sources v id' hv
    refine ⟨hsource, not_mem_append_singleton.2 ⟨hid', ?_⟩⟩
    rintro rfl
    have := (hg.sources v id').1 hsource
    rw [h.node?, if_neg hid'] at hnode
    simp [outputsOf, operator?, hnode] at this

/-- A node that is there takes the edges that start at it along. -/
theorem Removed.removePresent (hg : g.Indexed) (h : g.Removed removed g') {node : Node} (hnode : g'.node? id = some node) :
    g.Removed (removed ++ [id]) (g'.removeNode id) := by
  obtain ⟨names, heq⟩ := removeNode_eq hnode
  have hid : id ∉ removed := by
    intro hmem
    rw [h.node?, if_pos hmem] at hnode
    cases hnode
  have hsame : g'.node? id = g.node? id := by rw [h.node?, if_neg hid]
  have houtputs : g'.outputsOf id = g.outputsOf id := outputsOf_of_node? hsame
  have herased (hreadable : node.isReadable = true) : g.Erased (removed ++ [id]) id :=
    ⟨by simp, by rw [isReadable, ← hsame, hnode]; exact hreadable⟩
  constructor
  case node? =>
    intro id'
    rw [heq]
    refine (node?_setNode g' id id' none (by simp [hnode])).trans ?_
    rw [h.node?]
    by_cases hsame : id' = id
    · simp [hsame]
    · simp [hsame]
  case sources =>
    intro v id' hv
    rw [get?_sources_removeNode hnode, houtputs] at hv
    split at hv
    · cases hv
    · next hkept =>
      obtain ⟨hsource, hid'⟩ := h.sources v id' hv
      refine ⟨hsource, not_mem_append_singleton.2 ⟨hid', ?_⟩⟩
      rintro rfl
      exact hkept (.inl ⟨(hg.sources v id').1 hsource, hv⟩)
  case kept =>
    intro v id' hv hid' hv'
    have hsource := h.kept v id' hv (not_mem_append_singleton.1 hid').1 (hv' ·.mono)
    rw [get?_sources_removeNode hnode, hsource, if_neg]
    rintro (⟨-, hid⟩ | ⟨rfl, hreadable⟩)
    · exact (not_mem_append_singleton.1 hid').2 (Option.some.inj hid)
    · exact hv' (herased hreadable)
  case consumers =>
    intro v hv
    rw [get?_consumers_removeNode hnode, if_neg]
    · exact h.consumers v (hv ·.mono)
    · rintro ⟨rfl, hreadable⟩
      exact hv (herased hreadable)
  case fewer =>
    intro v
    rw [get?_consumers_removeNode hnode]
    split
    · exact .inr rfl
    · exact h.fewer v
  case distinct => exact distinct_removeNode hnode h.distinct
  case inputIds => exact heq ▸ h.inputIds
  case outputIds => exact heq ▸ h.outputIds

theorem Removed.removeNode (hg : g.Indexed) (h : g.Removed removed g') (id : NodeId) :
    g.Removed (removed ++ [id]) (g'.removeNode id) := by
  cases hnode : g'.node? id with
  | none =>
    rw [removeNode_of_none hnode]
    exact h.skip hg hnode
  | some node => exact h.removePresent hg hnode

/-! ## Several nodes -/

theorem removed_nil (h : g.consumers.Distinct) : g.Removed [] g :=
  ⟨fun id => by simp, fun v id hv => ⟨hv, by simp⟩, fun v id hv _ _ => hv, fun _ _ => rfl, fun _ => .inl rfl, h,
    rfl, rfl⟩

theorem Removed.removeNodes (hg : g.Indexed) (h : g.Removed removed g') (ids : List NodeId) :
    g.Removed (removed ++ ids) (ids.foldl Graph.removeNode g') := by
  induction ids generalizing removed g' with
  | nil => simpa using h
  | cons id ids ih => simpa using ih (h.removeNode hg id)

/-- The entries of a map that are left when each loses some elements and empty ones go. -/
theorem get?_filterEntries {m : IdMap (List NodeId)} (h : m.Distinct) (p : NodeId → Bool) (v : NodeId) :
    (IdMap.get? ⟨(m.entries.map fun e => (e.1, e.2.filter p)).filter fun e => !e.2.isEmpty⟩ v).getD [] =
      ((m.get? v).getD []).filter p := by
  obtain ⟨entries⟩ := m
  induction entries with
  | nil => simp [IdMap.get?]
  | cons e es ih =>
    obtain ⟨hnot, hes⟩ := List.nodup_cons.1 h
    have hnone : (IdMap.mk es).get? e.1 = none := by
      refine Option.eq_none_iff_forall_ne_some.2 fun l hl => ?_
      exact hnot (List.mem_map.2 ⟨_, mem_of_lookup hl, rfl⟩)
    rw [List.map_cons, List.filter_cons, IdMap.get?_mk_cons]
    by_cases hempty : (e.2.filter p).isEmpty
    · by_cases hv : v = e.1
      · subst hv
        simp only [hempty]
        rw [if_neg (by simp), ih hes, hnone]
        simpa using (List.isEmpty_iff.1 hempty).symm
      · simpa [hempty, hv] using ih hes
    · by_cases hv : v = e.1
      · simp [hempty, hv, IdMap.get?_mk_cons]
      · simpa [hempty, hv, IdMap.get?_mk_cons] using ih hes

section Remove

variable (ids : List NodeId)

/-- Once nodes were removed, no value is left with an empty list of consumers. -/
theorem remove_nil : (g.remove ids).remove [] = g.remove ids := by
  simp [remove, List.filter_filter]

/-- What is left after nodes were removed, apart from the consumers of values. -/
theorem removed_remove (hg : g.Indexed) : ∃ consumers, g.remove ids =
    { ids.foldl removeNode g with consumers } ∧ g.Removed ids (ids.foldl removeNode g) :=
  ⟨_, rfl, by simpa using (removed_nil hg.distinct).removeNodes hg ids⟩

theorem node?_remove (hg : g.Indexed) (id : NodeId) :
    (g.remove ids).node? id = if id ∈ ids then none else g.node? id := by
  obtain ⟨consumers, heq, h⟩ := removed_remove ids hg
  rw [heq]
  exact h.node? id

theorem inputIds_remove (hg : g.Indexed) : (g.remove ids).inputIds = g.inputIds := by
  obtain ⟨consumers, heq, h⟩ := removed_remove ids hg
  rw [heq]
  exact h.inputIds

theorem outputIds_remove (hg : g.Indexed) : (g.remove ids).outputIds = g.outputIds := by
  obtain ⟨consumers, heq, h⟩ := removed_remove ids hg
  rw [heq]
  exact h.outputIds

theorem operator?_remove (hg : g.Indexed) (id : NodeId) :
    (g.remove ids).operator? id = if id ∈ ids then none else g.operator? id := by
  rw [operator?, node?_remove ids hg]
  split <;> rfl

theorem readable?_remove (hg : g.Indexed) (id : NodeId) :
    (g.remove ids).readable? id = if id ∈ ids then none else g.readable? id := by
  rw [readable?, node?_remove ids hg]
  split <;> rfl

theorem inputsOf_remove (hg : g.Indexed) (id : NodeId) :
    (g.remove ids).inputsOf id = if id ∈ ids then [] else g.inputsOf id := by
  rw [inputsOf, operator?_remove ids hg]
  split <;> rfl

theorem outputsOf_remove (hg : g.Indexed) (id : NodeId) :
    (g.remove ids).outputsOf id = if id ∈ ids then [] else g.outputsOf id := by
  rw [outputsOf, operator?_remove ids hg]
  split <;> rfl

/-- Removing nodes keeps the indexes right, if no operator that stays reads or produces a value or constant among
them. -/
theorem Indexed.remove (hg : g.Indexed)
    (hclosed : ∀ id, id ∉ ids → ∀ v, g.Erased ids v → v ∉ g.inputsOf id ∧ v ∉ g.outputsOf id) :
    (g.remove ids).Indexed := by
  have h : g.Removed ids (ids.foldl removeNode g) := by simpa using (removed_nil hg.distinct).removeNodes hg ids
  refine ⟨fun v id => ?_, fun v id => ?_, ?_⟩
  · rw [outputsOf_remove ids hg]
    change (ids.foldl removeNode g).sources.get? v = some id ↔ _
    constructor
    · intro hv
      obtain ⟨hsource, hid⟩ := h.sources v id hv
      rw [if_neg hid]
      exact (hg.sources v id).1 hsource
    · intro hv
      split at hv
      · cases hv
      · next hid => exact h.kept v id ((hg.sources v id).2 hv) hid fun herased => (hclosed id hid v herased).2 hv
  · have hconsumers : (g.remove ids).consumersOf v =
        ((ids.foldl removeNode g).consumersOf v).filter (!ids.contains ·) :=
      get?_filterEntries h.distinct (!ids.contains ·) v
    rw [hconsumers, inputsOf_remove ids hg]
    by_cases hid : id ∈ ids
    · simp [hid, List.count_eq_zero]
    · rw [List.count_filter (by simpa using hid), if_neg hid, ← hg.consumers]
      by_cases hv : g.Erased ids v
      · have hnone : (g.consumersOf v).count id = 0 := by
          rw [hg.consumers, List.count_eq_zero]
          exact (hclosed id hid v hv).1
        rcases h.fewer v with hsame | hgone
        · rw [consumersOf, hsame]
          rfl
        · rw [hnone]
          simp [consumersOf, hgone]
      · rw [consumersOf, h.consumers v hv]
        rfl
  · refine (List.filter_sublist.map _).nodup ?_
    rw [List.map_map]
    exact h.distinct

end Remove

end TensorGraph.Graph
