import TensorGraph.Proofs.Graph.Sorting

/-!
# Changes of a graph

What operators read and produce after a graph was changed, and that its edge indexes stay right.
-/

namespace TensorGraph.Graph

variable {g : Graph} {v id : NodeId}

/-- A node that operators can read. -/
def readable? (g : Graph) (id : NodeId) : Option Node := (g.node? id).filter Node.isReadable

theorem isReadable_eq : g.isReadable id = (g.readable? id).isSome := by
  unfold isReadable readable?
  cases g.node? id with
  | none => rfl
  | some node => cases h : node.isReadable <;> simp [h]

theorem isValue_eq : g.isValue id = (g.readable? id).any Node.isValue := by
  unfold isValue readable?
  cases g.node? id with
  | none => rfl
  | some node => cases node <;> rfl

theorem constant?_eq : g.constant? id = (g.readable? id).bind Node.constant? := by
  unfold constant? readable?
  cases g.node? id with
  | none => rfl
  | some node => cases node <;> rfl

theorem isReadable_of_isValue (h : g.isValue id = true) : g.isReadable id = true := by
  rw [isValue_eq] at h
  rw [isReadable_eq]
  exact Option.isSome_of_any h

theorem readable?_of_operator? {op : OperatorNode} (h : g.operator? id = some op) : g.readable? id = none := by
  obtain ⟨node, hnode, hop⟩ := Option.bind_eq_some_iff.1 h
  unfold readable?
  rw [hnode]
  cases node with
  | operator n => rfl
  | constant n => cases hop
  | value n => cases hop

/-- Whether two graphs differ at most in what their operators are, and not in what these read and produce. -/
structure SameEdges (g' g : Graph) : Prop where
  inputsOf : ∀ id, g'.inputsOf id = g.inputsOf id
  outputsOf : ∀ id, g'.outputsOf id = g.outputsOf id
  readable? : ∀ id, g'.readable? id = g.readable? id
  operators : ∀ id, (g'.operator? id).isSome = (g.operator? id).isSome
  inputIds : g'.inputIds = g.inputIds
  outputIds : g'.outputIds = g.outputIds

theorem SameEdges.refl (g : Graph) : g.SameEdges g := ⟨fun _ => rfl, fun _ => rfl, fun _ => rfl, fun _ => rfl, rfl, rfl⟩

theorem SameEdges.computes {g' : Graph} (h : g'.SameEdges g) : g'.Computes = g.Computes := by
  funext v w
  simp only [Computes, h.inputsOf, h.outputsOf]

/-! ## Added nodes -/

theorem readable?_addNode (g : Graph) {node : Node} (h : node.isReadable = true) (id : NodeId) :
    (g.addNode node).1.readable? id = if id = g.nodes.size then some node else g.readable? id := by
  rw [readable?, node?_addNode]
  by_cases hid : id = g.nodes.size
  · simp [hid, h]
  · simp only [hid, if_false]
    rfl

theorem readable?_addOperator (g : Graph) (name : Option String) (op : Operator) (inputs outputs : List NodeId)
    (id : NodeId) : (g.addOperator name op inputs outputs).1.readable? id = g.readable? id := by
  rw [readable?, node?_addOperator]
  by_cases hid : id = g.nodes.size
  · rw [if_pos hid, readable?, hid, node?_size]
    rfl
  · rw [if_neg hid]
    rfl

/-! ## Changed operators -/

section ModifyOperator

variable (g) (f : OperatorNode → OperatorNode) (id id' : NodeId)

/-- What a graph is after an operator was changed, apart from its nodes. -/
theorem modifyOperator_eq : ∃ nodes, g.modifyOperator id f = { g with nodes } := by
  unfold modifyOperator
  split
  · exact ⟨_, rfl⟩
  · exact ⟨g.nodes, rfl⟩

theorem node?_setNode (node : Option Node) (h : (g.node? id).isSome) :
    (g.setNode id node).node? id' = if id' = id then node else g.node? id' := by
  have hlt : id < g.nodes.size := List.mem_range.1 (List.mem_filter.1 (mem_ids.2 h)).1
  unfold setNode node?
  by_cases hid : id' = id
  · simp [hid, hlt]
  · simp [hid, Ne.symm hid]

theorem operator?_modifyOperator :
    (g.modifyOperator id f).operator? id' = if id' = id then (g.operator? id').map f else g.operator? id' := by
  unfold modifyOperator
  split
  · next n hn =>
    rw [operator?, node?_setNode g id id' _ (node?_isSome_of_operator? hn)]
    by_cases hid : id' = id
    · simp [hid, hn, Node.operator?]
    · simp only [hid, if_false]
      rfl
  · next hn =>
    by_cases hid : id' = id
    · simp [hid, hn]
    · simp [hid]

theorem readable?_modifyOperator : (g.modifyOperator id f).readable? id' = g.readable? id' := by
  cases hn : g.operator? id with
  | none => simp [modifyOperator, hn]
  | some n =>
    by_cases hid : id' = id
    · rw [hid, readable?_of_operator? hn]
      have hchanged : (g.modifyOperator id f).operator? id = some (f n) := by simp [operator?_modifyOperator, hn]
      exact readable?_of_operator? hchanged
    · rw [modifyOperator, hn]
      rw [readable?, node?_setNode g id id' _ (node?_isSome_of_operator? hn), if_neg hid]
      rfl

end ModifyOperator

/-! ## Another operator -/

section ReplaceOperator

variable (g) (id : NodeId) (op : Operator)

theorem operator?_replaceOperator (id' : NodeId) : (g.replaceOperator id op).operator? id' =
    if id' = id then (g.operator? id').map fun n => { n with op } else g.operator? id' :=
  operator?_modifyOperator ..

theorem readable?_replaceOperator (id' : NodeId) : (g.replaceOperator id op).readable? id' = g.readable? id' :=
  readable?_modifyOperator ..

theorem sameEdges_replaceOperator : (g.replaceOperator id op).SameEdges g := by
  obtain ⟨nodes, heq⟩ := modifyOperator_eq g (fun n => { n with op }) id
  refine ⟨fun id' => ?_, fun id' => ?_, readable?_replaceOperator g id op, fun id' => ?_, ?_, ?_⟩
  · rw [inputsOf, inputsOf, operator?_replaceOperator]
    split
    · rw [Option.map_map]
      rfl
    · rfl
  · rw [outputsOf, outputsOf, operator?_replaceOperator]
    split
    · rw [Option.map_map]
      rfl
    · rfl
  · rw [operator?_replaceOperator]
    split <;> simp
  · rw [replaceOperator, heq]
  · rw [replaceOperator, heq]

theorem Indexed.replaceOperator (h : g.Indexed) : (g.replaceOperator id op).Indexed := by
  obtain ⟨nodes, heq⟩ := modifyOperator_eq g (fun n => { n with op }) id
  refine ⟨fun v id' => ?_, fun v id' => ?_, ?_⟩
  · rw [(sameEdges_replaceOperator g id op).outputsOf, ← h.sources, Graph.replaceOperator, heq]
  · rw [(sameEdges_replaceOperator g id op).inputsOf, ← h.consumers, Graph.replaceOperator, heq]
    rfl
  · rw [Graph.replaceOperator, heq]
    exact h.distinct

end ReplaceOperator

/-! ## Another value -/

/-- The value that is read after `new` took the place of `old`. -/
def redirect (old new v : NodeId) : NodeId := if v = old then new else v

section Redirect

variable (old new v : NodeId)

theorem redirect_redirect : redirect old new (redirect old new v) = redirect old new v := by
  unfold redirect
  by_cases h : v = old
  · simp [h]
  · simp [h]

theorem redirect_self : redirect old old v = v := by
  unfold redirect
  split
  · next h => exact h.symm
  · rfl

theorem map_redirect_self (l : List NodeId) : l.map (redirect old old) = l :=
  List.map_id'' (redirect_self old) l

variable {old} in
theorem map_redirect_of_notMem {l : List NodeId} (h : old ∉ l) : l.map (redirect old new) = l := by
  refine (List.map_congr_left fun v hv => ?_).trans (List.map_id l)
  exact if_neg (by rintro rfl; exact h hv)

theorem count_map_redirect (l : List NodeId) (hne : old ≠ new) : (l.map (redirect old new)).count v =
    if v = new then l.count new + l.count old else if v = old then 0 else l.count v := by
  induction l with
  | nil => simp
  | cons a l ih =>
    rw [List.map_cons, List.count_cons, ih, redirect]
    by_cases hnew : v = new
    · by_cases ha : a = old
      · simp [hnew, ha, hne, Nat.add_assoc]
      · by_cases ha' : a = new
        · simp [hnew, ha', hne.symm]
          omega
        · simp [hnew, ha, ha', Ne.symm]
    · by_cases hold : v = old
      · by_cases ha : a = old
        · simp [hold, ha, hne, hne.symm]
        · simp [hold, ha, hne]
      · by_cases ha : a = old
        · simp [hnew, hold, ha, Ne.symm hnew, Ne.symm hold]
        · simp [hnew, hold, ha, List.count_cons]

end Redirect

section ModifyOperators

variable (g) (f : OperatorNode → OperatorNode) (ops : List NodeId)

theorem operator?_modifyOperators (hf : ∀ n, f (f n) = f n) (id : NodeId) :
    (ops.foldl (fun g op => g.modifyOperator op f) g).operator? id =
      if id ∈ ops then (g.operator? id).map f else g.operator? id := by
  induction ops generalizing g with
  | nil => simp
  | cons op ops ih =>
    rw [List.foldl_cons, ih, operator?_modifyOperator]
    by_cases hid : id = op
    · subst hid
      by_cases hmem : id ∈ ops
      · simp [hmem, Function.comp_def, hf]
      · simp [hmem]
    · simp [hid]

theorem readable?_modifyOperators (id : NodeId) :
    (ops.foldl (fun g op => g.modifyOperator op f) g).readable? id = g.readable? id := by
  induction ops generalizing g with
  | nil => rfl
  | cons op ops ih => rw [List.foldl_cons, ih, readable?_modifyOperator]

theorem modifyOperators_eq : ∃ nodes, ops.foldl (fun g op => g.modifyOperator op f) g = { g with nodes } := by
  induction ops generalizing g with
  | nil => exact ⟨g.nodes, rfl⟩
  | cons op ops ih =>
    obtain ⟨nodes, h⟩ := modifyOperator_eq g f op
    rw [List.foldl_cons, h]
    exact ih _

end ModifyOperators

section ReplaceValue

variable (g) (old new : NodeId)

/-- Replacing a value changes the operators that read it, apart from the consumers of values. -/
theorem replaceValue_eq_foldl (hne : old ≠ new) : ∃ consumers, g.replaceValue old new =
    { (g.consumersOf old).foldl
        (fun g op => g.modifyOperator op fun n => { n with inputs := n.inputs.map (redirect old new) })
        { g with outputIds := g.outputIds.map (redirect old new) } with consumers } := by
  unfold replaceValue consumersOf
  rw [if_neg hne]
  cases h : g.consumers.get? old with
  | none => exact ⟨g.consumers, by simp only [h]; rfl⟩
  | some ops => exact ⟨_, by simp only [h]; rfl⟩

theorem consumersOf_replaceValue (hne : old ≠ new) (v : NodeId) : (g.replaceValue old new).consumersOf v =
    if v = new then g.consumersOf new ++ g.consumersOf old else if v = old then [] else g.consumersOf v := by
  unfold replaceValue
  rw [if_neg hne]
  cases h : g.consumers.get? old with
  | none =>
    have hold : g.consumersOf old = [] := by simp [consumersOf, h]
    simp only [h]
    by_cases hv : v = new
    · simp [hv, hold]
      rfl
    · by_cases hv' : v = old
      · simp [hv', hne]
        exact hold
      · simp [hv, hv']
        rfl
  | some ops =>
    obtain ⟨nodes, heq⟩ := modifyOperators_eq { g with outputIds := g.outputIds.map (redirect old new) }
      (fun n => { n with inputs := n.inputs.map (redirect old new) }) ops
    unfold redirect at heq
    simp only [h, heq, consumersOf, IdMap.get?_insert, IdMap.get?_erase]
    by_cases hv : v = new
    · simp [hv, hne.symm]
    · by_cases hv' : v = old
      · simp [hv', hne]
      · simp [hv, hv']

theorem distinct_replaceValue (h : g.consumers.Distinct) : (g.replaceValue old new).consumers.Distinct := by
  unfold replaceValue
  split
  · exact h
  · cases hold : g.consumers.get? old with
    | none =>
      simp only [hold]
      exact h
    | some ops =>
      obtain ⟨nodes, heq⟩ := modifyOperators_eq { g with outputIds := g.outputIds.map (redirect old new) }
        (fun n => { n with inputs := n.inputs.map (redirect old new) }) ops
      unfold redirect at heq
      simp only [hold, heq]
      exact (h.erase old).insert _ _

/-- Operators read `new` where they read `old` before. -/
theorem operator?_replaceValue (hg : g.Indexed) (id : NodeId) : (g.replaceValue old new).operator? id =
    (g.operator? id).map fun n => { n with inputs := n.inputs.map (redirect old new) } := by
  by_cases hne : old = new
  · simp [replaceValue, hne, map_redirect_self]
  · obtain ⟨consumers, heq⟩ := replaceValue_eq_foldl g old new hne
    rw [heq]
    refine (operator?_modifyOperators _ _ _ (fun n => ?_) id).trans ?_
    · simp [Function.comp_def, redirect_redirect]
    · split
      · rfl
      · next hmem =>
        rw [hg.mem_consumersOf] at hmem
        change g.operator? id = _
        cases hop : g.operator? id with
        | none => rfl
        | some n =>
          rw [inputsOf_of_operator? hop] at hmem
          simp [map_redirect_of_notMem _ hmem]

theorem readable?_replaceValue (id : NodeId) : (g.replaceValue old new).readable? id = g.readable? id := by
  by_cases hne : old = new
  · simp [replaceValue, hne]
  · obtain ⟨consumers, heq⟩ := replaceValue_eq_foldl g old new hne
    rw [heq]
    exact readable?_modifyOperators _ _ _ id

/-- What a graph is after a value took the place of another, apart from its operators and their edges. -/
theorem replaceValue_eq : ∃ nodes consumers, g.replaceValue old new =
    { g with outputIds := g.outputIds.map (redirect old new), nodes, consumers } := by
  by_cases hne : old = new
  · exact ⟨g.nodes, g.consumers, by simp [replaceValue, hne, map_redirect_self]⟩
  · obtain ⟨consumers, heq⟩ := replaceValue_eq_foldl g old new hne
    obtain ⟨nodes, heq'⟩ := modifyOperators_eq { g with outputIds := g.outputIds.map (redirect old new) }
      (fun n => { n with inputs := n.inputs.map (redirect old new) }) (g.consumersOf old)
    exact ⟨nodes, consumers, by rw [heq, heq']⟩

theorem inputIds_replaceValue : (g.replaceValue old new).inputIds = g.inputIds := by
  obtain ⟨nodes, consumers, heq⟩ := replaceValue_eq g old new
  rw [heq]

theorem outputIds_replaceValue : (g.replaceValue old new).outputIds = g.outputIds.map (redirect old new) := by
  obtain ⟨nodes, consumers, heq⟩ := replaceValue_eq g old new
  rw [heq]

theorem sources_replaceValue : (g.replaceValue old new).sources = g.sources := by
  obtain ⟨nodes, consumers, heq⟩ := replaceValue_eq g old new
  rw [heq]

variable {g}

theorem inputsOf_replaceValue (hg : g.Indexed) (id : NodeId) :
    (g.replaceValue old new).inputsOf id = (g.inputsOf id).map (redirect old new) := by
  rw [inputsOf, inputsOf, operator?_replaceValue g old new hg]
  cases g.operator? id <;> rfl

theorem outputsOf_replaceValue (hg : g.Indexed) (id : NodeId) :
    (g.replaceValue old new).outputsOf id = g.outputsOf id := by
  rw [outputsOf, outputsOf, operator?_replaceValue g old new hg]
  cases g.operator? id <;> rfl

theorem Indexed.replaceValue (hg : g.Indexed) : (g.replaceValue old new).Indexed := by
  by_cases hne : old = new
  · simpa [Graph.replaceValue, hne] using hg
  · refine ⟨fun v id => ?_, fun v id => ?_, distinct_replaceValue g old new hg.distinct⟩
    · rw [sources_replaceValue, outputsOf_replaceValue old new hg, hg.sources]
    · rw [consumersOf_replaceValue g old new hne, inputsOf_replaceValue old new hg,
        count_map_redirect old new v _ hne]
      by_cases hv : v = new
      · simp [hv, hg.consumers]
      · by_cases hv' : v = old
        · simp [hv', hne]
        · simp [hv, hv', hg.consumers]

end ReplaceValue

/-! ## Other inputs -/

section ReplaceInputs

variable (g) (values : List NodeId) (op : NodeId)

theorem consumersOf_removeConsumer (g : Graph) (value op v : NodeId) : (g.removeConsumer value op).consumersOf v =
    if v = value then (g.consumersOf v).erase op else g.consumersOf v := by
  unfold removeConsumer
  cases h : g.consumers.get? value with
  | none =>
    by_cases hv : v = value
    · simp [hv, consumersOf, h]
    · simp [hv]
  | some ops =>
    by_cases hempty : (ops.erase op).isEmpty
    · simp only [hempty, if_true, consumersOf, IdMap.get?_erase]
      by_cases hv : v = value
      · simp [hv, h, List.isEmpty_iff.1 hempty]
      · simp [hv]
    · simp only [hempty, consumersOf]
      by_cases hv : v = value
      · simp [hv, h, IdMap.get?_insert]
      · simp [hv, IdMap.get?_insert]

theorem distinct_removeConsumer (value : NodeId) (h : g.consumers.Distinct) :
    (g.removeConsumer value op).consumers.Distinct := by
  unfold removeConsumer
  split
  · exact h
  · dsimp only
    split
    · exact h.erase value
    · exact h.insert _ _

theorem removeConsumers_eq : ∃ consumers,
    values.foldl (fun g value => g.removeConsumer value op) g = { g with consumers } := by
  induction values generalizing g with
  | nil => exact ⟨g.consumers, rfl⟩
  | cons value values ih =>
    have hone : ∃ consumers, g.removeConsumer value op = { g with consumers } := by
      unfold removeConsumer
      split
      · exact ⟨g.consumers, rfl⟩
      · exact ⟨_, rfl⟩
    obtain ⟨consumers, h⟩ := hone
    rw [List.foldl_cons, h]
    exact ih _

theorem distinct_removeConsumers (h : g.consumers.Distinct) :
    (values.foldl (fun g value => g.removeConsumer value op) g).consumers.Distinct := by
  induction values generalizing g with
  | nil => exact h
  | cons value values ih => exact ih _ (distinct_removeConsumer g op value h)

theorem count_removeConsumers (v c : NodeId) :
    ((values.foldl (fun g value => g.removeConsumer value op) g).consumersOf v).count c =
      (g.consumersOf v).count c - if c = op then values.count v else 0 := by
  induction values generalizing g with
  | nil => simp
  | cons value values ih =>
    rw [List.foldl_cons, ih, consumersOf_removeConsumer, List.count_cons]
    by_cases hv : v = value
    · by_cases hc : c = op
      · simp [hv, hc]
        omega
      · simp [hv, hc, List.count_erase_of_ne]
    · simp [hv, Ne.symm hv]

variable {g} {op : OperatorNode} (id) (inputs : List NodeId)

/-- Replacing inputs changes one operator, apart from the consumers of values. -/
theorem replaceInputs_eq (h : g.operator? id = some op) : ∃ consumers, g.replaceInputs id inputs =
    { g.modifyOperator id fun n => { n with inputs } with consumers } := by
  obtain ⟨removed, hremoved⟩ := removeConsumers_eq (g.modifyOperator id fun n => { n with inputs }) op.inputs id
  obtain ⟨consumers, hadded⟩ :=
    addConsumers_eq { g.modifyOperator id fun n => { n with inputs } with consumers := removed } inputs id
  exact ⟨consumers, by simp only [replaceInputs, h, hremoved, hadded]⟩

theorem count_consumersOf_replaceInputs (h : g.operator? id = some op) (v c : NodeId) :
    ((g.replaceInputs id inputs).consumersOf v).count c =
      if c = id then (g.consumersOf v).count c - op.inputs.count v + inputs.count v
      else (g.consumersOf v).count c := by
  obtain ⟨nodes, hnodes⟩ := modifyOperator_eq g (fun n => { n with inputs }) id
  simp only [replaceInputs, h, count_addConsumers, count_removeConsumers, hnodes]
  by_cases hc : c = id
  · simp only [hc, if_true]
    rfl
  · simp only [hc, if_false]
    rfl

theorem operator?_replaceInputs (h : g.operator? id = some op) (id' : NodeId) :
    (g.replaceInputs id inputs).operator? id' = if id' = id then some { op with inputs } else g.operator? id' := by
  obtain ⟨consumers, heq⟩ := replaceInputs_eq id inputs h
  rw [heq]
  refine (operator?_modifyOperator g (fun n => { n with inputs }) id id').trans ?_
  by_cases hid : id' = id
  · simp [hid, h]
  · simp [hid]

theorem readable?_replaceInputs (h : g.operator? id = some op) (id' : NodeId) :
    (g.replaceInputs id inputs).readable? id' = g.readable? id' := by
  obtain ⟨consumers, heq⟩ := replaceInputs_eq id inputs h
  rw [heq]
  exact readable?_modifyOperator ..

theorem inputIds_replaceInputs (h : g.operator? id = some op) :
    (g.replaceInputs id inputs).inputIds = g.inputIds := by
  obtain ⟨consumers, heq⟩ := replaceInputs_eq id inputs h
  obtain ⟨nodes, hnodes⟩ := modifyOperator_eq g (fun n => { n with inputs }) id
  rw [heq, hnodes]

theorem outputIds_replaceInputs (h : g.operator? id = some op) :
    (g.replaceInputs id inputs).outputIds = g.outputIds := by
  obtain ⟨consumers, heq⟩ := replaceInputs_eq id inputs h
  obtain ⟨nodes, hnodes⟩ := modifyOperator_eq g (fun n => { n with inputs }) id
  rw [heq, hnodes]

theorem inputsOf_replaceInputs (h : g.operator? id = some op) (id' : NodeId) :
    (g.replaceInputs id inputs).inputsOf id' = if id' = id then inputs else g.inputsOf id' := by
  rw [inputsOf, operator?_replaceInputs id inputs h]
  split <;> rfl

theorem outputsOf_replaceInputs (h : g.operator? id = some op) (id' : NodeId) :
    (g.replaceInputs id inputs).outputsOf id' = g.outputsOf id' := by
  rw [outputsOf, operator?_replaceInputs id inputs h]
  split
  · next heq => simp [heq, outputsOf, h]
  · rfl

theorem Indexed.replaceInputs (hg : g.Indexed) (h : g.operator? id = some op) :
    (g.replaceInputs id inputs).Indexed := by
  refine ⟨fun v id' => ?_, fun v c => ?_, ?_⟩
  · obtain ⟨consumers, heq⟩ := replaceInputs_eq id inputs h
    obtain ⟨nodes, hnodes⟩ := modifyOperator_eq g (fun n => { n with inputs }) id
    rw [outputsOf_replaceInputs id inputs h, ← hg.sources, heq, hnodes]
  · rw [count_consumersOf_replaceInputs id inputs h, inputsOf_replaceInputs id inputs h, hg.consumers]
    by_cases hc : c = id
    · simp [hc, inputsOf_of_operator? h]
    · simp [hc]
  · obtain ⟨nodes, hnodes⟩ := modifyOperator_eq g (fun n => { n with inputs }) id
    simp only [Graph.replaceInputs, h]
    refine distinct_addConsumers (distinct_removeConsumers _ _ _ ?_) _ _
    rw [hnodes]
    exact hg.distinct

end ReplaceInputs

end TensorGraph.Graph
