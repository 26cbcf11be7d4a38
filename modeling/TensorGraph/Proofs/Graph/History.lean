import TensorGraph.Proofs.Graph.Removal

/-!
# Histories of graphs

A graph is built and rewritten by a sequence of changes. Callers promise little about them: an operator that is added
produces nothing that another operator produces, and a value or constant is removed together with its producer and
consumers. Main statement: `mirrors_of_permitted`, after any such sequence of changes to the empty graph the recorded
producers and consumers are what the operators say, no two nodes were given the same number, and a change leaves
alone the inputs of the operators that it is not about.
-/

namespace TensorGraph.Graph

/-- A change of a graph. -/
inductive Change where
  | addValue (name : Option String) (shape : Option (List Dimension)) (type : Option ElementType)
  | addConstant (name : Option String) (value : Value)
  | addOperator (name : Option String) (op : Operator) (inputs outputs : List NodeId)
  | replaceValue (old new : NodeId)
  | replaceOperator (id : NodeId) (op : Operator)
  | replaceInputs (id : NodeId) (inputs : List NodeId)
  | remove (ids : List NodeId)

namespace Change

/-- The graph after a change, and the number of the node that was added, if one was. -/
def run (g : Graph) : Change → Graph × Option NodeId
  | .addValue name shape type => (g.addValue name shape type).map id some
  | .addConstant name value => (g.addConstant name value).map id some
  | .addOperator name op inputs outputs => (g.addOperator name op inputs outputs).map id some
  | .replaceValue old new => (g.replaceValue old new, none)
  | .replaceOperator id op => (g.replaceOperator id op, none)
  | .replaceInputs id inputs => (g.replaceInputs id inputs, none)
  | .remove ids => (g.remove ids, none)

/-- What callers promise: outputs of a new operator have no producer yet, and a removed value or constant loses its
producer and its consumers too. -/
def Allowed (g : Graph) : Change → Prop
  | .addOperator _ _ _ outputs => ∀ v ∈ outputs, ∀ op ∈ g.operators, v ∉ op.2.outputs
  | .remove ids => ∀ v ∈ ids, g.isReadable v = true →
      ∀ op ∈ g.operators, v ∈ op.2.inputs ∨ v ∈ op.2.outputs → op.1 ∈ ids
  | _ => True

/-- Whether the inputs of an operator may change: it reads the value that is replaced, or is named. -/
def Concerns (g : Graph) (id : NodeId) : Change → Prop
  | .replaceValue old _ => old ∈ g.inputsOf id
  | .replaceInputs id' _ => id = id'
  | .remove ids => id ∈ ids
  | _ => False

instance (g : Graph) : (c : Change) → Decidable (c.Allowed g)
  | .addOperator _ _ _ outputs =>
    inferInstanceAs (Decidable (∀ v ∈ outputs, ∀ op ∈ g.operators, v ∉ op.2.outputs))
  | .remove ids =>
    inferInstanceAs (Decidable (∀ v ∈ ids, g.isReadable v = true →
      ∀ op ∈ g.operators, v ∈ op.2.inputs ∨ v ∈ op.2.outputs → op.1 ∈ ids))
  | .addValue .. | .addConstant .. | .replaceValue .. | .replaceOperator .. | .replaceInputs .. => .isTrue trivial

end Change

/-- The graph after some changes, and the numbers of the nodes that were added, in order. -/
def runAll (g : Graph) : List Change → Graph × List NodeId
  | [] => (g, [])
  | c :: cs =>
    let (g, added) := c.run g
    let (g, more) := g.runAll cs
    (g, added.toList ++ more)

/-- Whether each change is allowed in the graph that those before it lead to. -/
def Permitted (g : Graph) : List Change → Prop
  | [] => True
  | c :: cs => c.Allowed g ∧ (c.run g).1.Permitted cs

instance decidablePermitted (g : Graph) : (cs : List Change) → Decidable (g.Permitted cs)
  | [] => .isTrue trivial
  | c :: cs => @instDecidableAnd _ _ _ (decidablePermitted (c.run g).1 cs)

variable {g : Graph} {c : Change} {cs : List Change} {v id : NodeId}

/-! ## Numbers of nodes -/

theorem node?_eq_none : g.node? id = none ↔ g.operator? id = none ∧ g.readable? id = none := by
  unfold operator? readable?
  cases g.node? id with
  | none => simp
  | some node => cases node <;> simp [Node.operator?, Node.isReadable]

theorem size_modifyOperator (g : Graph) (id : NodeId) (f : OperatorNode → OperatorNode) :
    (g.modifyOperator id f).nodes.size = g.nodes.size := by
  unfold modifyOperator
  split
  · exact Array.size_setIfInBounds
  · rfl

theorem size_modifyOperators (g : Graph) (ops : List NodeId) (f : OperatorNode → OperatorNode) :
    (ops.foldl (fun g op => g.modifyOperator op f) g).nodes.size = g.nodes.size := by
  induction ops generalizing g with
  | nil => rfl
  | cons op ops ih => rw [List.foldl_cons, ih, size_modifyOperator]

theorem size_addOperator (g : Graph) (name : Option String) (op : Operator) (inputs outputs : List NodeId) :
    (g.addOperator name op inputs outputs).1.nodes.size = g.nodes.size + 1 := by
  obtain ⟨consumers, h⟩ := addOperator_eq (g := g) name op inputs outputs
  rw [h]
  exact Array.size_push _

theorem size_replaceValue (g : Graph) (old new : NodeId) :
    (g.replaceValue old new).nodes.size = g.nodes.size := by
  by_cases hne : old = new
  · simp [replaceValue, hne]
  · obtain ⟨consumers, h⟩ := replaceValue_eq_foldl g old new hne
    rw [h]
    exact size_modifyOperators _ _ _

theorem size_replaceInputs (g : Graph) (id : NodeId) (inputs : List NodeId) :
    (g.replaceInputs id inputs).nodes.size = g.nodes.size := by
  cases hop : g.operator? id with
  | none => simp [replaceInputs, hop]
  | some op =>
    obtain ⟨consumers, h⟩ := replaceInputs_eq id inputs hop
    rw [h]
    exact size_modifyOperator _ _ _

theorem size_removeNode (g : Graph) (id : NodeId) : (g.removeNode id).nodes.size = g.nodes.size := by
  cases hnode : g.node? id with
  | none => rw [removeNode_of_none hnode]
  | some node =>
    obtain ⟨names, h⟩ := removeNode_eq hnode
    rw [h]
    exact Array.size_setIfInBounds

theorem size_remove (g : Graph) (ids : List NodeId) : (g.remove ids).nodes.size = g.nodes.size := by
  change (ids.foldl removeNode g).nodes.size = _
  induction ids generalizing g with
  | nil => rfl
  | cons id ids ih => rw [List.foldl_cons, ih, size_removeNode]

namespace Change

/-- A new node gets the number after that of the last one, and no change gives back a number. -/
theorem run_size (g : Graph) (c : Change) :
    (c.run g).2.toList = List.range' g.nodes.size ((c.run g).1.nodes.size - g.nodes.size) ∧
      g.nodes.size ≤ (c.run g).1.nodes.size := by
  cases c with
  | addValue name shape type => simp [run, Graph.addValue, addNode]
  | addConstant name value => simp [run, Graph.addConstant, addNode]
  | addOperator name op inputs outputs =>
    simp only [run, Prod.map, size_addOperator, id]
    simp [Graph.addOperator, addNode]
  | replaceValue old new => simp [run, size_replaceValue]
  | replaceOperator id op => simp [run, Graph.replaceOperator, size_modifyOperator]
  | replaceInputs id inputs => simp [run, size_replaceInputs]
  | remove ids => simp [run, size_remove]

end Change

theorem runAll_size (g : Graph) (cs : List Change) :
    (g.runAll cs).2 = List.range' g.nodes.size ((g.runAll cs).1.nodes.size - g.nodes.size) ∧
      g.nodes.size ≤ (g.runAll cs).1.nodes.size := by
  induction cs generalizing g with
  | nil => simp [runAll]
  | cons c cs ih =>
    obtain ⟨hadded, hle⟩ := c.run_size g
    obtain ⟨hmore, hle'⟩ := ih (c.run g).1
    refine ⟨?_, hle.trans hle'⟩
    obtain ⟨k, hk⟩ := Nat.exists_eq_add_of_le hle
    obtain ⟨l, hl⟩ := Nat.exists_eq_add_of_le hle'
    simp only [runAll]
    rw [hadded, hmore, hl, hk, Nat.add_sub_cancel_left, Nat.add_sub_cancel_left, List.range'_append_1, Nat.add_assoc,
      Nat.add_sub_cancel_left]

/-! ## One change -/

namespace Change

/-- An allowed change keeps the edge indexes right. -/
theorem indexed_run (hg : g.Indexed) (hc : c.Allowed g) : (c.run g).1.Indexed := by
  cases c with
  | addValue name shape type => exact hg.addValue name shape type
  | addConstant name value => exact hg.addConstant name value
  | addOperator name op inputs outputs =>
    refine hg.addOperator name op inputs outputs fun v hv => ?_
    refine Option.eq_none_iff_forall_ne_some.2 fun id hid => ?_
    obtain ⟨producer, hproducer, hmem⟩ := mem_outputsOf.1 ((hg.sources v id).1 hid)
    exact hc v hv _ (mem_operators.2 hproducer) hmem
  | replaceValue old new => exact hg.replaceValue old new
  | replaceOperator id op => exact hg.replaceOperator g id op
  | replaceInputs id inputs =>
    cases hop : g.operator? id with
    | none => simpa [run, Graph.replaceInputs, hop] using hg
    | some op => exact hg.replaceInputs id inputs hop
  | remove ids =>
    refine hg.remove ids fun id hid v hvalue => ?_
    obtain ⟨hv, hreadable⟩ := hvalue
    constructor
    · intro hmem
      obtain ⟨op, hop, hmem⟩ := mem_inputsOf.1 hmem
      exact hid (hc v hv hreadable _ (mem_operators.2 hop) (.inl hmem))
    · intro hmem
      obtain ⟨op, hop, hmem⟩ := mem_outputsOf.1 hmem
      exact hid (hc v hv hreadable _ (mem_operators.2 hop) (.inr hmem))

/-- A node that was removed does not come back. -/
theorem node?_run_of_none (hg : g.Indexed) (hlt : id < g.nodes.size) (h : g.node? id = none) :
    (c.run g).1.node? id = none := by
  have hnew : id ≠ g.nodes.size := hlt.ne
  obtain ⟨hop, hreadable⟩ := node?_eq_none.1 h
  cases c with
  | addValue name shape type => exact (node?_addNode g _ id).trans (by rw [if_neg hnew, h])
  | addConstant name value => exact (node?_addNode g _ id).trans (by rw [if_neg hnew, h])
  | addOperator name op inputs outputs =>
    exact (node?_addOperator name op inputs outputs).trans (by rw [if_neg hnew, h])
  | replaceValue old new =>
    refine node?_eq_none.2 ⟨?_, ?_⟩
    · simp [run, operator?_replaceValue g old new hg, hop]
    · simp [run, readable?_replaceValue, hreadable]
  | replaceOperator id' op =>
    refine node?_eq_none.2 ⟨?_, ?_⟩
    · simp [run, operator?_replaceOperator, hop]
    · simp [run, readable?_replaceOperator, hreadable]
  | replaceInputs id' inputs =>
    cases hop' : g.operator? id' with
    | none => simpa [run, Graph.replaceInputs, hop'] using h
    | some op =>
      have hne : id ≠ id' := by
        rintro rfl
        rw [hop] at hop'
        cases hop'
      refine node?_eq_none.2 ⟨?_, ?_⟩
      · simp [run, operator?_replaceInputs id' inputs hop', hne, hop]
      · simp [run, readable?_replaceInputs id' inputs hop', hreadable]
  | remove ids => simp [run, node?_remove ids hg, h]

/-- An operator keeps its inputs, unless the change is about them. -/
theorem inputs_run (hg : g.Indexed) {op : OperatorNode} (hop : g.operator? id = some op) (hc : ¬ c.Concerns g id) :
    ((c.run g).1.operator? id).map (·.inputs) = some op.inputs := by
  have hnew : id ≠ g.nodes.size := by
    rintro rfl
    simp [operator?, node?_size] at hop
  cases c with
  | addValue name shape type =>
    have h : ((addValue name shape type).run g).1.node? id = g.node? id := (node?_addNode g _ id).trans (if_neg hnew)
    rw [operator?_of_node? h, hop]
    rfl
  | addConstant name value =>
    have h : ((addConstant name value).run g).1.node? id = g.node? id := (node?_addNode g _ id).trans (if_neg hnew)
    rw [operator?_of_node? h, hop]
    rfl
  | addOperator name op' inputs outputs =>
    have h : ((addOperator name op' inputs outputs).run g).1.node? id = g.node? id :=
      (node?_addOperator name op' inputs outputs).trans (if_neg hnew)
    rw [operator?_of_node? h, hop]
    rfl
  | replaceValue old new =>
    have hmem : old ∉ op.inputs := inputsOf_of_operator? hop ▸ hc
    simp [run, operator?_replaceValue g old new hg, hop, map_redirect_of_notMem new hmem]
  | replaceOperator id' op' =>
    by_cases hid : id = id'
    · simp [run, operator?_replaceOperator, ← hid, hop]
    · simp [run, operator?_replaceOperator, hid, hop]
  | replaceInputs id' inputs =>
    cases hop' : g.operator? id' with
    | none => simp [run, Graph.replaceInputs, hop', hop]
    | some op' =>
      have hne : id ≠ id' := hc
      simp [run, operator?_replaceInputs id' inputs hop', hne, hop]
  | remove ids =>
    have hmem : id ∉ ids := hc
    simp [run, operator?_remove ids hg, hmem, hop]

end Change

/-! ## All changes -/

theorem indexed_runAll (hg : g.Indexed) (hcs : g.Permitted cs) : (g.runAll cs).1.Indexed := by
  induction cs generalizing g with
  | nil => exact hg
  | cons c cs ih => exact ih (Change.indexed_run hg hcs.1) hcs.2

/-- After any permitted changes of the empty graph: a value is consumed by an operator as often as the operator reads
it, it is produced by the operator that names it as an output, no number was given twice, also not to a node that was
removed, and the next change rewires only operators that it concerns. -/
theorem mirrors_of_permitted {g : Graph} {added : List NodeId} {cs : List Change} (hcs : empty.Permitted cs)
    (h : empty.runAll cs = (g, added)) :
    (∀ v id, (g.consumersOf v).count id = (g.inputsOf id).count v) ∧
    (∀ v id op, g.producer? v = some (id, op) ↔ g.operator? id = some op ∧ v ∈ op.outputs) ∧
    added.Nodup ∧ (∀ id, (g.node? id).isSome → id ∈ added) ∧
    ∀ c : Change, c.Allowed g →
      (∀ id ∈ (c.run g).2, id ∉ added) ∧
      (∀ id ∈ added, g.node? id = none → (c.run g).1.node? id = none) ∧
      ∀ id op, g.operator? id = some op → ¬ c.Concerns g id →
        ((c.run g).1.operator? id).map (·.inputs) = some op.inputs := by
  have hg : g.Indexed := by
    have := indexed_runAll indexed_empty hcs
    rwa [h] at this
  have hadded : added = List.range' 0 g.nodes.size := by
    have := (runAll_size empty cs).1
    rw [h] at this
    exact this
  have hmem : ∀ id, id ∈ added ↔ id < g.nodes.size := by simp [hadded, List.mem_range'_1]
  refine ⟨hg.consumers, fun v id op => ?_, ?_, fun id hid => ?_, fun c _ => ⟨fun id hid => ?_, fun id hid hnone => ?_,
    fun id op hop hconcerns => Change.inputs_run hg hop hconcerns⟩⟩
  · rw [producer?_eq_some hg]
    exact and_congr_right fun hop => by rw [outputsOf_of_operator? hop]
  · rw [hadded]
    exact List.nodup_range'
  · exact (hmem id).2 (List.mem_range.1 (List.mem_filter.1 (mem_ids.2 hid)).1)
  · have hrange := (c.run_size g).1
    rw [hmem, not_lt]
    have : id ∈ (c.run g).2.toList := Option.mem_toList.2 hid
    rw [hrange, List.mem_range'_1] at this
    exact this.1
  · exact Change.node?_run_of_none hg ((hmem id).1 hid) hnone

/-- An operator that reads one value twice, a replacement by a value that it reads already, other inputs, and the
removal of an operator whose output gets another producer. -/
def rewired : List Change :=
  [.addValue "x" none none, .addValue "y" none none, .addValue "z" none none,
    .addOperator "double" (.elementwise { fn := .add }) [0, 0] [1],
    .addOperator "sum" (.elementwise { fn := .mul }) [1, 0] [2],
    .replaceValue 1 0, .replaceInputs 4 [0, 1, 1], .replaceOperator 4 (.concat 0), .remove [3],
    .addOperator "again" (.elementwise { fn := .exp }) [0] [1], .remove [2, 4]]

theorem mirrors_rewired : empty.Permitted rewired ∧
    ∃ g added, empty.runAll rewired = (g, added) ∧
      (∀ v id, (g.consumersOf v).count id = (g.inputsOf id).count v) ∧
      g.consumersOf 0 = [5] ∧ g.source? 1 = some 5 ∧ added.Nodup := by
  have hcs : empty.Permitted rewired := by decide
  have h := mirrors_of_permitted hcs rfl
  exact ⟨hcs, _, _, rfl, h.1, by decide, by decide, h.2.2.1⟩

end TensorGraph.Graph
