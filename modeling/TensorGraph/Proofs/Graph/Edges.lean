import TensorGraph.Graph.Plan

/-!
# Nodes and edge indexes

A graph has lists of its nodes, and keeps the producers and the consumers of values beside them. It is `Indexed` if these say what the
nodes say. Nodes and operators that are added keep it so.
-/

namespace TensorGraph

namespace IdMap

variable {α : Type} {m : IdMap α}

/-- Whether a map has one entry for each number. -/
def Distinct (m : IdMap α) : Prop := (m.entries.map (·.1)).Nodup

theorem Distinct.erase (h : m.Distinct) (id : NodeId) : (m.erase id).Distinct :=
  List.Nodup.sublist (List.filter_sublist.map _) h

theorem Distinct.insert (h : m.Distinct) (id : NodeId) (a : α) : (m.insert id a).Distinct := by
  refine List.nodup_cons.2 ⟨?_, h.erase id⟩
  simp [IdMap.erase]

end IdMap

namespace Graph

variable {g : Graph} {v id : NodeId}

/-! ## Lists of nodes -/

theorem mem_ids : id ∈ g.ids ↔ (g.node? id).isSome := by
  simp only [ids, List.mem_filter, List.mem_range, and_iff_right_iff_imp]
  intro h
  refine Nat.lt_of_not_le fun hsize => ?_
  simp [node?, Array.getElem?_eq_none hsize] at h

theorem node?_isSome_of_operator? {op : OperatorNode} (h : g.operator? id = some op) : (g.node? id).isSome := by
  obtain ⟨node, hnode, -⟩ := Option.bind_eq_some_iff.1 h
  simp [hnode]

theorem mem_operatorIds : id ∈ g.operatorIds ↔ (g.operator? id).isSome := by
  simp only [operatorIds, List.mem_filter, and_iff_right_iff_imp, mem_ids]
  intro h
  obtain ⟨op, hop⟩ := Option.isSome_iff_exists.1 h
  exact node?_isSome_of_operator? hop

theorem nodup_operatorIds (g : Graph) : g.operatorIds.Nodup := (List.nodup_range.filter _).filter _

theorem mem_operators {op : OperatorNode} : (id, op) ∈ g.operators ↔ g.operator? id = some op := by
  simp only [operators, List.mem_filterMap, mem_ids, Option.map_eq_some_iff, Prod.mk.injEq]
  constructor
  · rintro ⟨_, -, _, hop, rfl, rfl⟩
    exact hop
  · exact fun hop => ⟨id, node?_isSome_of_operator? hop, op, hop, rfl, rfl⟩

theorem mem_constantIds : id ∈ g.constantIds ↔ (g.constant? id).isSome := by
  simp only [constantIds, List.mem_filter, and_iff_right_iff_imp, mem_ids]
  intro h
  obtain ⟨v, hv⟩ := Option.isSome_iff_exists.1 h
  obtain ⟨node, hnode, -⟩ := Option.bind_eq_some_iff.1 hv
  simp [hnode]

/-- A constant is no value node. -/
theorem isValue_of_constant? {v : Value} (h : g.constant? id = some v) : g.isValue id = false := by
  obtain ⟨node, hnode, hv⟩ := Option.bind_eq_some_iff.1 h
  rw [isValue, hnode]
  cases node with
  | constant n => rfl
  | operator n => cases hv
  | value n => cases hv

/-! ## Edge indexes -/

/-- Whether the recorded producers and consumers of values are those that the nodes name, where an operator
consumes a value as often as it is one of its inputs. The consumers of a value are recorded in one place. -/
structure Indexed (g : Graph) : Prop where
  sources : ∀ v id, g.sources.get? v = some id ↔ v ∈ g.outputsOf id
  consumers : ∀ v id, (g.consumersOf v).count id = (g.inputsOf id).count v
  distinct : g.consumers.Distinct

/-! ## Inputs and outputs of operators -/

theorem inputsOf_of_operator? {op : OperatorNode} (h : g.operator? id = some op) : g.inputsOf id = op.inputs := by
  simp [inputsOf, h]

theorem outputsOf_of_operator? {op : OperatorNode} (h : g.operator? id = some op) : g.outputsOf id = op.outputs := by
  simp [outputsOf, h]

theorem mem_outputsOf : v ∈ g.outputsOf id ↔ ∃ op, g.operator? id = some op ∧ v ∈ op.outputs := by
  cases h : g.operator? id <;> simp [outputsOf, h]

theorem mem_inputsOf : v ∈ g.inputsOf id ↔ ∃ op, g.operator? id = some op ∧ v ∈ op.inputs := by
  cases h : g.operator? id <;> simp [inputsOf, h]

theorem isSome_operator?_of_mem_outputsOf (h : v ∈ g.outputsOf id) : (g.operator? id).isSome := by
  obtain ⟨op, hop, -⟩ := mem_outputsOf.1 h
  simp [hop]

theorem isSome_operator?_of_mem_inputsOf (h : v ∈ g.inputsOf id) : (g.operator? id).isSome := by
  obtain ⟨op, hop, -⟩ := mem_inputsOf.1 h
  simp [hop]

namespace Indexed

theorem source?_eq_some (h : g.Indexed) : g.source? v = some id ↔ v ∈ g.outputsOf id := by
  rw [source?, Option.filter_eq_some_iff, h.sources, and_iff_left_iff_imp]
  exact isSome_operator?_of_mem_outputsOf

theorem source?_eq_none (h : g.Indexed) : g.source? v = none ↔ ∀ id, v ∉ g.outputsOf id := by
  simp only [Option.eq_none_iff_forall_ne_some, ne_eq, h.source?_eq_some]

/-- A value has one producer. -/
theorem producer_unique (h : g.Indexed) {id' : NodeId} (hid : v ∈ g.outputsOf id) (hid' : v ∈ g.outputsOf id') :
    id = id' :=
  Option.some.inj (((h.sources v id).2 hid).symm.trans ((h.sources v id').2 hid'))

theorem mem_consumersOf (h : g.Indexed) : id ∈ g.consumersOf v ↔ v ∈ g.inputsOf id := by
  rw [← List.count_pos_iff, h.consumers, List.count_pos_iff]

end Indexed

theorem producer?_eq_some (hg : g.Indexed) {op : OperatorNode} :
    g.producer? v = some (id, op) ↔ g.operator? id = some op ∧ v ∈ g.outputsOf id := by
  unfold producer?
  constructor
  · intro h
    obtain ⟨source, hsource, h⟩ := Option.bind_eq_some_iff.1 h
    obtain ⟨op', hop, h⟩ := Option.bind_eq_some_iff.1 h
    cases h
    exact ⟨hop, hg.source?_eq_some.1 hsource⟩
  · rintro ⟨hop, hv⟩
    rw [hg.source?_eq_some.2 hv]
    simp [hop]

theorem producer?_eq_none (hg : g.Indexed) (h : g.producer? v = none) (id : NodeId) : v ∉ g.outputsOf id := by
  intro hv
  obtain ⟨op, hop⟩ := Option.isSome_iff_exists.1 (isSome_operator?_of_mem_outputsOf hv)
  rw [(producer?_eq_some hg).2 ⟨hop, hv⟩] at h
  cases h

/-! ## Changed nodes -/

theorem operator?_of_node? {g' : Graph} {id' : NodeId} (h : g'.node? id' = g.node? id) :
    g'.operator? id' = g.operator? id := by
  rw [operator?, h]
  rfl

theorem outputsOf_of_node? {g' : Graph} (h : g'.node? id = g.node? id) : g'.outputsOf id = g.outputsOf id := by
  rw [outputsOf, operator?_of_node? h]
  rfl

theorem node?_size (g : Graph) : g.node? g.nodes.size = none := by
  simp [node?]

theorem node?_addNode (g : Graph) (node : Node) (id : NodeId) :
    (g.addNode node).1.node? id = if id = g.nodes.size then some node else g.node? id := by
  simp only [addNode, node?, Array.getElem?_push]
  split <;> rfl

theorem operator?_addNode (g : Graph) {node : Node} (h : node.operator? = none) (id : NodeId) :
    (g.addNode node).1.operator? id = g.operator? id := by
  rw [operator?, operator?, node?_addNode]
  split
  · next heq => simp [h, heq, node?_size]
  · rfl

theorem inputsOf_addNode (g : Graph) {node : Node} (h : node.operator? = none) (id : NodeId) :
    (g.addNode node).1.inputsOf id = g.inputsOf id := by
  rw [inputsOf, inputsOf, operator?_addNode g h]

theorem outputsOf_addNode (g : Graph) {node : Node} (h : node.operator? = none) (id : NodeId) :
    (g.addNode node).1.outputsOf id = g.outputsOf id := by
  rw [outputsOf, outputsOf, operator?_addNode g h]

theorem indexed_empty : Graph.empty.Indexed :=
  ⟨fun v id => by simp [empty, outputsOf, operator?, node?, IdMap.get?],
    fun v id => by simp [empty, consumersOf, inputsOf, operator?, node?, IdMap.get?], List.nodup_nil⟩

/-- A value or constant that is added has no edges. -/
theorem Indexed.addNode (h : g.Indexed) {node : Node} (hnode : node.operator? = none) :
    (g.addNode node).1.Indexed :=
  ⟨fun v id => by rw [outputsOf_addNode g hnode, ← h.sources]; rfl,
    fun v id => by rw [inputsOf_addNode g hnode, ← h.consumers]; rfl, h.distinct⟩

theorem Indexed.addValue (h : g.Indexed) (name : Option String) (shape : Option (List Dimension))
    (type : Option ElementType) : (g.addValue name shape type).1.Indexed :=
  h.addNode rfl

theorem Indexed.addConstant (h : g.Indexed) (name : Option String) (value : Value) :
    (g.addConstant name value).1.Indexed :=
  h.addNode rfl

theorem Indexed.setInputs (h : g.Indexed) (ids : List NodeId) : (g.setInputs ids).Indexed :=
  ⟨h.sources, h.consumers, h.distinct⟩

theorem Indexed.setOutputs (h : g.Indexed) (ids : List NodeId) : (g.setOutputs ids).Indexed :=
  ⟨h.sources, h.consumers, h.distinct⟩

/-! ## Added operators -/

theorem consumersOf_addConsumer (g : Graph) (value op v : NodeId) :
    (g.addConsumer value op).consumersOf v = if v = value then g.consumersOf v ++ [op] else g.consumersOf v := by
  rw [addConsumer, consumersOf, IdMap.get?_insert]
  by_cases h : v = value
  · simp [h]
  · simp [h, consumersOf]

theorem count_addConsumers (g : Graph) (values : List NodeId) (op v id : NodeId) :
    ((values.foldl (fun g value => g.addConsumer value op) g).consumersOf v).count id =
      (g.consumersOf v).count id + if id = op then values.count v else 0 := by
  induction values generalizing g with
  | nil => simp
  | cons value values ih =>
    rw [List.foldl_cons, ih, consumersOf_addConsumer, List.count_cons]
    by_cases hv : v = value <;> by_cases hid : id = op
    · simp [hv, hid]
      omega
    · simp [hv, hid, Ne.symm hid]
    · simp [hv, hid, Ne.symm hv]
    · simp [hv, hid]

theorem distinct_addConsumers (h : g.consumers.Distinct) (values : List NodeId) (op : NodeId) :
    (values.foldl (fun g value => g.addConsumer value op) g).consumers.Distinct := by
  induction values generalizing g with
  | nil => exact h
  | cons value values ih => exact ih (g := g.addConsumer value op) (h.insert _ _)

/-- What the consumers of values do not change. -/
theorem addConsumers_eq (g : Graph) (values : List NodeId) (op : NodeId) :
    ∃ consumers, values.foldl (fun g value => g.addConsumer value op) g = { g with consumers } := by
  induction values generalizing g with
  | nil => exact ⟨g.consumers, rfl⟩
  | cons value values ih =>
    obtain ⟨consumers, h⟩ := ih (g.addConsumer value op)
    exact ⟨consumers, h⟩

theorem get?_insertSame (m : IdMap NodeId) (values : List NodeId) (id v : NodeId) :
    (values.foldl (fun m value => m.insert value id) m).get? v = if v ∈ values then some id else m.get? v := by
  induction values generalizing m with
  | nil => simp
  | cons value values ih =>
    rw [List.foldl_cons, ih, IdMap.get?_insert]
    by_cases hv : v ∈ values
    · simp [hv]
    · simp [hv]

section AddOperator

variable (name : Option String) (op : Operator) (inputs outputs : List NodeId)

/-- What a graph is after an operator was added, apart from the consumers of values. -/
theorem addOperator_eq : ∃ consumers, (g.addOperator name op inputs outputs).1 =
    { (g.addNode (.operator { name, inputs, outputs, op })).1 with
      sources := outputs.foldl (fun m value => m.insert value g.nodes.size) g.sources, consumers } :=
  addConsumers_eq _ inputs g.nodes.size

theorem node?_addOperator : (g.addOperator name op inputs outputs).1.node? id =
    if id = g.nodes.size then some (.operator { name, inputs, outputs, op }) else g.node? id := by
  obtain ⟨consumers, h⟩ := addOperator_eq (g := g) name op inputs outputs
  rw [h]
  exact node?_addNode g _ id

theorem inputIds_addOperator : (g.addOperator name op inputs outputs).1.inputIds = g.inputIds := by
  obtain ⟨consumers, h⟩ := addOperator_eq (g := g) name op inputs outputs
  rw [h]
  rfl

theorem outputIds_addOperator : (g.addOperator name op inputs outputs).1.outputIds = g.outputIds := by
  obtain ⟨consumers, h⟩ := addOperator_eq (g := g) name op inputs outputs
  rw [h]
  rfl

theorem get?_sources_addOperator (v : NodeId) : (g.addOperator name op inputs outputs).1.sources.get? v =
    if v ∈ outputs then some g.nodes.size else g.sources.get? v := by
  obtain ⟨consumers, h⟩ := addOperator_eq (g := g) name op inputs outputs
  rw [h]
  exact get?_insertSame g.sources outputs g.nodes.size v

theorem count_consumersOf_addOperator (v id : NodeId) :
    ((g.addOperator name op inputs outputs).1.consumersOf v).count id =
      (g.consumersOf v).count id + if id = g.nodes.size then inputs.count v else 0 :=
  count_addConsumers _ inputs g.nodes.size v id

theorem operator?_addOperator :
    (g.addOperator name op inputs outputs).1.operator? g.nodes.size = some { name, inputs, outputs, op } := by
  rw [operator?, node?_addOperator, if_pos rfl]
  rfl

theorem inputsOf_addOperator : (g.addOperator name op inputs outputs).1.inputsOf id =
    if id = g.nodes.size then inputs else g.inputsOf id := by
  rw [inputsOf, operator?, node?_addOperator]
  split <;> rfl

theorem outputsOf_addOperator : (g.addOperator name op inputs outputs).1.outputsOf id =
    if id = g.nodes.size then outputs else g.outputsOf id := by
  rw [outputsOf, operator?, node?_addOperator]
  split <;> rfl

/-- An operator that is added keeps the indexes right, if nothing else produces its outputs. -/
theorem Indexed.addOperator (h : g.Indexed) (hfree : ∀ v ∈ outputs, g.sources.get? v = none) :
    (g.addOperator name op inputs outputs).1.Indexed := by
  have hnew : g.outputsOf g.nodes.size = [] ∧ g.inputsOf g.nodes.size = [] := by
    simp [outputsOf, inputsOf, operator?, node?_size]
  refine ⟨fun v id => ?_, fun v id => ?_, ?_⟩
  · rw [get?_sources_addOperator, outputsOf_addOperator]
    by_cases hv : v ∈ outputs
    · by_cases hid : id = g.nodes.size
      · simp [hv, hid]
      · have hnot : v ∉ g.outputsOf id := by simp [← h.sources, hfree v hv]
        simp [hv, hid, hnot, Ne.symm hid]
    · by_cases hid : id = g.nodes.size
      · rw [if_neg hv, if_pos hid, h.sources, hid, hnew.1]
        simp [hv]
      · simp [hv, hid, h.sources]
  · rw [count_consumersOf_addOperator, inputsOf_addOperator, h.consumers]
    by_cases hid : id = g.nodes.size
    · simp [hid, hnew.2]
    · simp [hid]
  · unfold Graph.addOperator
    exact distinct_addConsumers (g := { (g.addNode _).1 with sources := _ }) h.distinct inputs _

end AddOperator

end Graph

end TensorGraph
