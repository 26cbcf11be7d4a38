import Mathlib.Data.List.Nodup
import TensorGraph.Graph.Sketch
import TensorGraph.Proofs.Graph.Changes
import TensorGraph.Proofs.Graph.Validity

/-!
# Rendered sketches

`Sketch.graph` adds the nodes of an expression after those that it refers to, under names that are not in use, and
only once however often the expression is referred to. `Builder.Renders` is the invariant of that, which is kept when
an expression is added (`renders_addExpr`).
-/

namespace TensorGraph

/-! ## Names that are not in use -/

namespace Sketch

/-- A name that is tried for a node. -/
def candidate (stem : String) (i : Nat) : String := if i = 0 then stem else stem ++ "_" ++ toString i

theorem candidate_injective (stem : String) : Function.Injective (candidate stem) := by
  have hlonger (n : Nat) : stem ≠ stem ++ "_" ++ toString n := by
    intro heq
    have := congrArg String.length heq
    rw [String.length_append, String.length_append] at this
    have hmark : "_".length = 1 := rfl
    omega
  intro i j h
  unfold candidate at h
  split at h <;> split at h
  · omega
  · exact absurd h (hlonger j)
  · exact absurd h.symm (hlonger i)
  · have hdigits : Nat.toDigits 10 i = Nat.toDigits 10 j := String.ofList_injective (String.append_right_inj _ |>.1 h)
    rw [← @Nat.ofDigitChars_ten_toDigits i, hdigits, Nat.ofDigitChars_ten_toDigits]

/-- One of the first names is not among fewer names. -/
theorem exists_candidate (stem : String) (used : List String) : ∃ i < used.length + 1, candidate stem i ∉ used := by
  by_contra! hall
  have hnodup : ((List.range (used.length + 1)).map (candidate stem)).Nodup :=
    List.nodup_range.map (candidate_injective stem)
  have hsubset : (List.range (used.length + 1)).map (candidate stem) ⊆ used := by
    intro name hname
    obtain ⟨i, hi, rfl⟩ := List.mem_map.1 hname
    exact hall i (List.mem_range.1 hi)
  have := (hnodup.subperm hsubset).length_le
  rw [List.length_map, List.length_range] at this
  omega

namespace Builder

variable {b : Builder} {stem name : String}

theorem freshName_of_find? (h : ((List.range (b.usedNames.length + 1)).map (candidate stem)).find?
    (!b.usedNames.contains ·) = some name) :
    b.freshName stem = (name, { b with usedNames := name :: b.usedNames }) := by
  have heq : b.freshName stem = (fun name => (name, { b with usedNames := name :: b.usedNames }))
      ((((List.range (b.usedNames.length + 1)).map (candidate stem)).find? (!b.usedNames.contains ·)).getD stem) := rfl
  rw [heq, h]
  rfl

theorem freshName_eq (b : Builder) (stem : String) : ∃ name, name ∉ b.usedNames ∧
    b.freshName stem = (name, { b with usedNames := name :: b.usedNames }) := by
  obtain ⟨i, hi, hfree⟩ := exists_candidate stem b.usedNames
  cases hfind : ((List.range (b.usedNames.length + 1)).map (candidate stem)).find? (!b.usedNames.contains ·) with
  | none =>
    have := List.find?_eq_none.1 hfind _ (List.mem_map_of_mem (List.mem_range.2 hi))
    simp [hfree] at this
  | some name => exact ⟨name, by simpa using List.find?_some hfind, freshName_of_find? hfind⟩

/-- A name that is not in use is kept. -/
theorem freshName_of_notMem (h : stem ∉ b.usedNames) :
    b.freshName stem = (stem, { b with usedNames := stem :: b.usedNames }) := by
  refine freshName_of_find? ?_
  rw [List.range_succ_eq_map, List.map_cons, List.find?_cons_of_pos (by simpa [candidate] using h)]
  rfl

end Builder

end Sketch

/-! ## Graphs that grow from the bottom -/

namespace Graph

variable {g g' : Graph} {node : Node} {used : List String} {name : String} {v id : NodeId}

/-- Whether every operator computes one value from values that were added before it. -/
structure Layered (g : Graph) : Prop where
  indexed : g.Indexed
  operators : ∀ id op, g.operator? id = some op →
    ∃ r, op.outputs = [r] ∧ g.isValue r = true ∧ ∀ v ∈ op.inputs, g.isReadable v = true ∧ v < r

/-- Whether nodes have names in use, and no two have the same. -/
structure Named (g : Graph) (used : List String) : Prop where
  named : ∀ id node, g.node? id = some node → ∃ name ∈ used, node.name? = some name
  distinct : ∀ id id' node node', g.node? id = some node → g.node? id' = some node' →
    node.name? = node'.name? → id = id'

/-- Whether a graph has one more node than another one. -/
def Grows (g' g : Graph) (node : Node) : Prop :=
  ∀ id, g'.node? id = if id = g.nodes.size then some node else g.node? id

theorem lt_size_of_node? (h : g.node? id = some node) : id < g.nodes.size := by
  refine Nat.lt_of_not_le fun hle => ?_
  simp [node?, Array.getElem?_eq_none hle] at h

theorem Grows.keeps (h : g'.Grows g node) {node' : Node} (hnode : g.node? id = some node') :
    g'.node? id = some node' := by
  rw [h, if_neg (Nat.ne_of_lt (lt_size_of_node? hnode)), hnode]

theorem Grows.new (h : g'.Grows g node) : g'.node? g.nodes.size = some node := by
  rw [h, if_pos rfl]

theorem Grows.any {p : Node → Bool} (h : g'.Grows g node) (hv : (g.node? v).any p = true) :
    (g'.node? v).any p = true := by
  obtain ⟨node', hnode, hp⟩ := Option.any_eq_true .. |>.1 hv
  rw [h.keeps hnode]
  exact hp

theorem lt_size_of_isReadable (h : g.isReadable v = true) : v < g.nodes.size := by
  obtain ⟨node, hnode, -⟩ := Option.any_eq_true .. |>.1 h
  exact lt_size_of_node? hnode

theorem Named.grow (h : g.Named used) (hgrows : g'.Grows g node) (hfree : name ∉ used)
    (hname : node.name? = some name) : g'.Named (name :: used) := by
  -- An old node has a name that was in use before, so not the new one.
  have hold {id : NodeId} {node' : Node} (hnode : g.node? id = some node') : node'.name? ≠ node.name? := by
    obtain ⟨name', hmem, hname'⟩ := h.named id node' hnode
    rw [hname', hname]
    rintro heq
    cases heq
    exact hfree hmem
  refine ⟨fun id node' hnode => ?_, fun id id' node₁ node₂ hnode₁ hnode₂ heq => ?_⟩
  · rw [hgrows] at hnode
    split at hnode
    · cases hnode
      exact ⟨name, List.mem_cons_self, hname⟩
    · obtain ⟨name', hmem, hname'⟩ := h.named id node' hnode
      exact ⟨name', List.mem_cons_of_mem _ hmem, hname'⟩
  · rw [hgrows] at hnode₁ hnode₂
    split at hnode₁ <;> split at hnode₂
    · next h₁ h₂ => exact h₁.trans h₂.symm
    · cases hnode₁
      exact absurd heq.symm (hold hnode₂)
    · cases hnode₂
      exact absurd heq (hold hnode₁)
    · exact h.distinct id id' node₁ node₂ hnode₁ hnode₂ heq

theorem Named.mono (h : g.Named used) {used' : List String} (hsubset : used ⊆ used') : g.Named used' := by
  refine ⟨fun id node hnode => ?_, h.distinct⟩
  obtain ⟨name, hmem, hname⟩ := h.named id node hnode
  exact ⟨name, hsubset hmem, hname⟩

theorem grows_addNode (g : Graph) (node : Node) : (g.addNode node).1.Grows g node :=
  node?_addNode g node

theorem grows_addOperator (g : Graph) (name : Option String) (op : Operator) (inputs outputs : List NodeId) :
    (g.addOperator name op inputs outputs).1.Grows g (.operator { name, inputs, outputs, op }) :=
  fun _ => node?_addOperator name op inputs outputs

theorem Layered.lt_size (h : g.Layered) (hv : v ∈ g.outputsOf id) : v < g.nodes.size := by
  obtain ⟨op, hop, hv⟩ := mem_outputsOf.1 hv
  obtain ⟨r, houtputs, hr, -⟩ := h.operators id op hop
  rw [houtputs, List.mem_singleton] at hv
  exact hv ▸ lt_size_of_isReadable (isReadable_of_isValue hr)

theorem Layered.addNode (h : g.Layered) (hnode : node.operator? = none) : (g.addNode node).1.Layered := by
  refine ⟨h.indexed.addNode hnode, fun id op hop => ?_⟩
  rw [operator?_addNode g hnode] at hop
  obtain ⟨r, houtputs, hr, hinputs⟩ := h.operators id op hop
  have hgrows := grows_addNode g node
  exact ⟨r, houtputs, hgrows.any hr, fun v hv => ⟨hgrows.any (hinputs v hv).1, (hinputs v hv).2⟩⟩

theorem Layered.addOperator (h : g.Layered) {r : NodeId} (name : Option String) (op : Operator) {inputs : List NodeId}
    (hr : g.isValue r = true) (hfree : ∀ id, r ∉ g.outputsOf id)
    (hinputs : ∀ v ∈ inputs, g.isReadable v = true ∧ v < r) : (g.addOperator name op inputs [r]).1.Layered := by
  have hgrows := grows_addOperator g name op inputs [r]
  refine ⟨h.indexed.addOperator name op inputs [r] fun v hv => ?_, fun id op' hop => ?_⟩
  · rw [List.mem_singleton.1 hv, Option.eq_none_iff_forall_ne_some]
    exact fun id hid => hfree id ((h.indexed.sources r id).1 hid)
  · rw [operator?, hgrows] at hop
    split at hop
    · cases hop
      exact ⟨r, rfl, hgrows.any hr, fun v hv => ⟨hgrows.any (hinputs v hv).1, (hinputs v hv).2⟩⟩
    · obtain ⟨r', houtputs, hr', hinputs'⟩ := h.operators id op' hop
      exact ⟨r', houtputs, hgrows.any hr', fun v hv => ⟨hgrows.any (hinputs' v hv).1, (hinputs' v hv).2⟩⟩

/-- What is computed comes after what it is computed from, so that nothing depends on itself. -/
theorem Layered.acyclic (h : g.Layered) : g.Acyclic := by
  have hlt : ∀ v w, g.Computes v w → v < w := by
    rintro v w ⟨id, hv, hw⟩
    obtain ⟨op, hop, hv⟩ := mem_inputsOf.1 hv
    obtain ⟨r, houtputs, -, hinputs⟩ := h.operators id op hop
    rw [outputsOf_of_operator? hop, houtputs, List.mem_singleton] at hw
    exact hw ▸ (hinputs v hv).2
  refine fun v hcycle => Nat.lt_irrefl v ?_
  have hmono := Relation.TransGen.mono hlt _ _ hcycle
  rwa [Relation.transGen_eq_self] at hmono

end Graph

/-! ## Nodes of expressions -/

/-- Whether a node holds the result of an expression: the value or constant, or what one operator computes from
results of the expressions that it is applied to. -/
def SketchExpr.RenderedAt (g : Graph) (result : ExprId → NodeId → Prop) (r : NodeId) : SketchExpr → Prop
  | .value _ shape type => (∃ name, g.node? r = some (.value { name, shape, type })) ∧ ∀ id, r ∉ g.outputsOf id
  | .constant v => ∃ name, g.node? r = some (.constant { name, value := v })
  | .operator op inputs => ∃ id name ids, List.Forall₂ result inputs ids ∧
    g.operator? id = some { name, inputs := ids, outputs := [r], op }
  | .output .. => False

namespace Sketch

variable {s : Sketch} {b b' : Builder} {id : ExprId} {r : NodeId} {e : SketchExpr}

/-- Whether an expression has one result and refers to earlier ones only. -/
def Refers (id : ExprId) : SketchExpr → Prop
  | .value .. | .constant _ => True
  | .operator op inputs => outputCount op = 1 ∧ ∀ i ∈ inputs, i < id
  | .output .. => False

/-- Whether all expressions have one result and refer to earlier ones only. -/
def Plain (s : Sketch) : Prop := ∀ id e, s.expr? id = some e → Refers id e

namespace Builder

/-- Whether the expression was added, and its result is at the node. -/
def Result (b : Builder) (id : ExprId) (r : NodeId) : Prop := b.built.lookup id = some [r]

/-- Whether the graph has the nodes of the added expressions and no other ones, each once. -/
structure Renders (s : Sketch) (b : Builder) : Prop where
  layered : b.graph.Layered
  named : b.graph.Named b.usedNames
  expr : ∀ id r, b.Result id r → ∃ e, s.expr? id = some e ∧ e.RenderedAt b.graph b.Result r
  unique : ∀ id id' r, b.Result id r → b.Result id' r → id = id'
  readable : ∀ r, b.graph.isReadable r = true ↔ ∃ id, b.Result id r
  single : ∀ id ids, b.built.lookup id = some ids → ∃ r, ids = [r]

/-- Whether one builder has all that another one has. -/
structure Keeps (b' b : Builder) : Prop where
  result : ∀ id r, b.Result id r → b'.Result id r
  node : ∀ id node, b.graph.node? id = some node → b'.graph.node? id = some node

theorem Keeps.refl (b : Builder) : b.Keeps b := ⟨fun _ _ hr => hr, fun _ _ hn => hn⟩

theorem Keeps.trans {b'' : Builder} (h' : b''.Keeps b') (h : b'.Keeps b) : b''.Keeps b :=
  ⟨fun id r hr => h'.result id r (h.result id r hr), fun id node hn => h'.node id node (h.node id node hn)⟩

theorem renders_empty : Builder.Renders s {} := by
  have hnode (id : NodeId) : (Graph.empty).node? id = none := by simp [Graph.empty, Graph.node?]
  refine ⟨⟨Graph.indexed_empty, fun id op hop => ?_⟩, ⟨fun id node h => ?_, fun id _ node _ h => ?_⟩,
    fun id r h => (by cases h), fun id id' r h => (by cases h), fun r => ?_, fun id ids h => (by cases h)⟩
  · change Graph.empty.operator? id = _ at hop
    simp [Graph.operator?, hnode] at hop
  · cases (hnode id).symm.trans h
  · cases (hnode id).symm.trans h
  · change Graph.empty.isReadable r = true ↔ _
    simp [Graph.isReadable, hnode, Result]

/-- What was rendered stays so, while the graph grows and nothing that was there gets a producer. -/
theorem renderedAt_mono {g g' : Graph} {result result' : ExprId → NodeId → Prop}
    (hnode : ∀ id node, g.node? id = some node → g'.node? id = some node)
    (hfree : ∀ id, r ∈ g'.outputsOf id → r ∈ g.outputsOf id) (hresult : ∀ id r, result id r → result' id r)
    (h : e.RenderedAt g result r) : e.RenderedAt g' result' r := by
  cases e with
  | value _ shape type =>
    obtain ⟨⟨name, hr⟩, hsource⟩ := h
    exact ⟨⟨name, hnode r _ hr⟩, fun id hid => hsource id (hfree id hid)⟩
  | constant v =>
    obtain ⟨name, hr⟩ := h
    exact ⟨name, hnode r _ hr⟩
  | operator op inputs =>
    obtain ⟨id, name, ids, hids, hop⟩ := h
    obtain ⟨node, hid, hop⟩ := Option.bind_eq_some_iff.1 hop
    refine ⟨id, name, ids, hids.imp hresult, ?_⟩
    rw [Graph.operator?, hnode id node hid]
    exact hop
  | output op index => exact h

/-- The builder after the nodes of an expression were added. -/
theorem Renders.record (h : b.Renders s) {graph : Graph} {names : List String} (hid : b.built.lookup id = none)
    (he : s.expr? id = some e) (hlayered : graph.Layered) (hnamed : graph.Named names)
    (hnode : ∀ id node, b.graph.node? id = some node → graph.node? id = some node)
    (hfree : ∀ v, b.graph.isReadable v = true → ∀ id, v ∈ graph.outputsOf id → v ∈ b.graph.outputsOf id)
    (hreadable : ∀ v, graph.isReadable v = true ↔ b.graph.isReadable v = true ∨ v = b.graph.nodes.size)
    (hrendered : e.RenderedAt graph b.Result b.graph.nodes.size) :
    Renders s ⟨graph, names, (id, [b.graph.nodes.size]) :: b.built⟩ ∧
      Keeps ⟨graph, names, (id, [b.graph.nodes.size]) :: b.built⟩ b := by
  have hresult (j : ExprId) (r : NodeId) : Result ⟨graph, names, (id, [b.graph.nodes.size]) :: b.built⟩ j r ↔
      j = id ∧ r = b.graph.nodes.size ∨ b.Result j r := by
    unfold Result
    rw [List.lookup_cons]
    by_cases hj : j = id
    · subst hj
      simp [hid, eq_comm]
    · simp [hj, beq_eq_false_iff_ne.2 hj]
  have hmono : ∀ j r, b.Result j r → Result ⟨graph, names, (id, [b.graph.nodes.size]) :: b.built⟩ j r :=
    fun j r hr => (hresult j r).2 (.inr hr)
  have hold {j : ExprId} {r : NodeId} (hr : b.Result j r) : r < b.graph.nodes.size :=
    Graph.lt_size_of_isReadable ((h.readable r).2 ⟨j, hr⟩)
  refine ⟨⟨hlayered, hnamed, fun j r hr => ?_, fun j j' r hr hr' => ?_, fun r => ?_, fun j ids hlookup => ?_⟩,
    ⟨hmono, hnode⟩⟩
  · rcases (hresult j r).1 hr with ⟨rfl, rfl⟩ | hr
    · exact ⟨e, he, renderedAt_mono (fun _ _ hn => hn) (fun _ hr => hr) hmono hrendered⟩
    · obtain ⟨e', he', hrendered'⟩ := h.expr j r hr
      exact ⟨e', he', renderedAt_mono hnode (hfree r ((h.readable r).2 ⟨j, hr⟩)) hmono hrendered'⟩
  · rcases (hresult j r).1 hr with ⟨rfl, rfl⟩ | hr₁ <;> rcases (hresult j' _).1 hr' with ⟨rfl, heq⟩ | hr₂
    · rfl
    · exact absurd (hold hr₂) (Nat.lt_irrefl _)
    · exact absurd (heq ▸ hold hr₁) (Nat.lt_irrefl _)
    · exact h.unique j j' r hr₁ hr₂
  · rw [hreadable, h.readable]
    constructor
    · rintro (⟨j, hr⟩ | rfl)
      · exact ⟨j, hmono j r hr⟩
      · exact ⟨id, (hresult _ _).2 (.inl ⟨rfl, rfl⟩)⟩
    · rintro ⟨j, hr⟩
      rcases (hresult j r).1 hr with ⟨-, rfl⟩ | hr
      · exact .inr rfl
      · exact .inl ⟨j, hr⟩
  · rw [List.lookup_cons] at hlookup
    split at hlookup
    · cases hlookup
      exact ⟨_, rfl⟩
    · exact h.single j ids hlookup

/-- A value or constant is added. -/
theorem Renders.addLeaf (h : b.Renders s) (hid : b.built.lookup id = none) (he : s.expr? id = some e) {name : String}
    (hname : name ∉ b.usedNames) (node : Node) (hnode : node.name? = some name) (hreadable : node.isReadable = true)
    (hrendered : ∀ g : Graph, g.node? b.graph.nodes.size = some node →
      (∀ id, b.graph.nodes.size ∉ g.outputsOf id) → e.RenderedAt g b.Result b.graph.nodes.size) :
    Renders s ⟨(b.graph.addNode node).1, name :: b.usedNames, (id, [b.graph.nodes.size]) :: b.built⟩ ∧
      Keeps ⟨(b.graph.addNode node).1, name :: b.usedNames, (id, [b.graph.nodes.size]) :: b.built⟩ b := by
  have hoperator : node.operator? = none := by
    cases node with
    | operator n => cases hreadable
    | _ => rfl
  have hgrows := Graph.grows_addNode b.graph node
  have houtputs (id : NodeId) : (b.graph.addNode node).1.outputsOf id = b.graph.outputsOf id :=
    Graph.outputsOf_addNode b.graph hoperator id
  refine h.record hid he (h.layered.addNode hoperator) (h.named.grow hgrows hname hnode) (fun _ _ => hgrows.keeps)
    (fun v _ id hv => houtputs id ▸ hv) (fun v => ?_) (hrendered _ hgrows.new fun id hmem => ?_)
  · rw [Graph.isReadable, hgrows]
    by_cases hv : v = b.graph.nodes.size
    · simp [hv, hreadable]
    · simp [hv, Graph.isReadable]
  · exact Nat.lt_irrefl _ (h.layered.lt_size (houtputs id ▸ hmem))

/-- An operator with one output adds a value and the operator. -/
theorem addOperator_eq (b : Builder) {op : Operator} (hone : outputCount op = 1) (ids : List NodeId) :
    ∃ name outName, name ∉ b.usedNames ∧ outName ∉ name :: b.usedNames ∧
      b.addOperator op ids = ([b.graph.nodes.size],
        ⟨((b.graph.addNode (.value ⟨some outName, none, none⟩)).1.addOperator (some name) op ids
          [b.graph.nodes.size]).1, outName :: name :: b.usedNames, b.built⟩) := by
  obtain ⟨name, hname, hfresh⟩ := freshName_eq b op.name
  obtain ⟨outName, hout, hfresh'⟩ := freshName_eq { b with usedNames := name :: b.usedNames } (name ++ "_out")
  refine ⟨name, outName, hname, hout, ?_⟩
  unfold Builder.addOperator
  rw [hfresh, hone]
  dsimp only
  rw [List.range_one, List.foldl_cons, List.foldl_nil]
  dsimp only
  rw [hfresh']
  rfl

/-- An operator is added, and a value for its output. -/
theorem Renders.addOperator (h : b.Renders s) (hid : b.built.lookup id = none) {op : Operator} {inputs : List ExprId}
    (he : s.expr? id = some (.operator op inputs)) (hone : outputCount op = 1) {ids : List NodeId}
    (hids : List.Forall₂ b.Result inputs ids) : ∃ r b', b.addOperator op ids = ([r], b') ∧ b'.built = b.built ∧
      Renders s { b' with built := (id, [r]) :: b'.built } ∧ Keeps { b' with built := (id, [r]) :: b'.built } b := by
  obtain ⟨name, outName, hname, hout, hadd⟩ := b.addOperator_eq hone ids
  refine ⟨_, _, hadd, rfl, ?_⟩
  rw [List.mem_cons, not_or] at hout
  have hvalue := Graph.grows_addNode b.graph (.value ⟨some outName, none, none⟩)
  have houtputs (v : NodeId) : (b.graph.addNode (.value ⟨some outName, none, none⟩)).1.outputsOf v =
      b.graph.outputsOf v := Graph.outputsOf_addNode b.graph rfl v
  have hlayered : (b.graph.addNode (.value ⟨some outName, none, none⟩)).1.Layered := h.layered.addNode rfl
  generalize (b.graph.addNode (.value ⟨some outName, none, none⟩)).1 = g at hvalue houtputs hlayered ⊢
  have hoperator := Graph.grows_addOperator g (some name) op ids [b.graph.nodes.size]
  have hfree : ∀ id, b.graph.nodes.size ∉ g.outputsOf id := fun id hmem =>
    Nat.lt_irrefl _ (h.layered.lt_size (houtputs id ▸ hmem))
  have hinputs : ∀ v ∈ ids, g.isReadable v = true ∧ v < b.graph.nodes.size := by
    intro v hv
    obtain ⟨i, -, hi⟩ := exists_of_forall₂ hids hv
    have hreadable := (h.readable v).2 ⟨i, hi⟩
    exact ⟨hvalue.any hreadable, Graph.lt_size_of_isReadable hreadable⟩
  have hlayered := hlayered.addOperator (some name) op (by simp [Graph.isValue, hvalue.new, Node.isValue]) hfree hinputs
  have hnamed := ((h.named.grow hvalue hout.2 rfl).grow hoperator (by simp [Ne.symm hout.1, hname]) rfl).mono
    (List.Perm.swap outName name b.usedNames).subset
  refine h.record hid he hlayered hnamed (fun _ _ hn => hoperator.keeps (hvalue.keeps hn)) (fun v hv id hmem => ?_)
    (fun v => ?_) ⟨g.nodes.size, some name, ids, hids, Graph.operator?_addOperator ..⟩
  · rw [Graph.outputsOf_addOperator] at hmem
    split at hmem
    · exact absurd (List.mem_singleton.1 hmem) (Nat.ne_of_lt (Graph.lt_size_of_isReadable hv))
    · exact houtputs id ▸ hmem
  · have hlt : b.graph.nodes.size < g.nodes.size := Graph.lt_size_of_node? hvalue.new
    rw [Graph.isReadable, hoperator, hvalue]
    by_cases hv : v = g.nodes.size
    · subst hv
      have hnot : b.graph.isReadable g.nodes.size ≠ true := fun hread =>
        Nat.lt_asymm hlt (Graph.lt_size_of_isReadable hread)
      simpa [Node.isReadable] using ⟨Bool.eq_false_iff.2 hnot, Nat.ne_of_gt hlt⟩
    · by_cases hv' : v = b.graph.nodes.size
      · simp [hv', Nat.ne_of_lt hlt, Node.isReadable]
      · simp [hv, hv', Graph.isReadable]

theorem lookup_first (built : List (ExprId × List NodeId)) {ids : List NodeId} :
    ((id, ids) :: built).lookup id = some ids := by
  rw [List.lookup_cons, beq_self_eq_true]

theorem lookup_later (built : List (ExprId × List NodeId)) {ids : List NodeId} {j : ExprId} (hj : id < j) :
    ((id, ids) :: built).lookup j = built.lookup j := by
  rw [List.lookup_cons, beq_eq_false_iff_ne.2 (Nat.ne_of_gt hj)]

/-- Whether adding an expression gives the node of its result and leaves later expressions alone. -/
structure Adds (s : Sketch) (b : Builder) (id : ExprId) (r : NodeId) (b' : Builder) : Prop where
  renders : b'.Renders s
  keeps : b'.Keeps b
  result : b'.Result id r
  later : ∀ j, id < j → b'.built.lookup j = b.built.lookup j

/-- Expressions are added one after the other. -/
theorem renders_addInputs {bound : Nat} (hadd : ∀ {id : ExprId} {b : Builder}, id < bound → id < s.exprs.size →
    b.Renders s → ∃ r b', s.addExpr bound id b = ([r], b') ∧ Adds s b id r b') {last : ExprId} {inputs : List ExprId}
    (hinputs : ∀ i ∈ inputs, i < last ∧ i < bound ∧ i < s.exprs.size) (hb : b.Renders s) (acc : List NodeId) :
    ∃ rs b', inputs.foldl (fun (ids, b) input =>
        let (more, b) := s.addExpr bound input b
        (ids ++ more, b)) (acc, b) = (acc ++ rs, b') ∧
      b'.Renders s ∧ b'.Keeps b ∧ List.Forall₂ b'.Result inputs rs ∧
      ∀ j, last ≤ j → b'.built.lookup j = b.built.lookup j := by
  induction inputs generalizing b acc with
  | nil => exact ⟨[], b, by simp, hb, .refl b, .nil, fun _ _ => rfl⟩
  | cons i inputs ih =>
    obtain ⟨⟨hlast, hbound, hsize⟩, hinputs⟩ := List.forall_mem_cons.1 hinputs
    obtain ⟨r, b', hadded, hadds⟩ := hadd hbound hsize hb
    obtain ⟨rs, b'', hrest, hrenders, hkeeps, hresults, hlater⟩ := ih hinputs hadds.renders (acc ++ [r])
    refine ⟨r :: rs, b'', ?_, hrenders, hkeeps.trans hadds.keeps, .cons (hkeeps.result i r hadds.result) hresults,
      fun j hj => (hlater j hj).trans (hadds.later j (Nat.lt_of_lt_of_le hlast hj))⟩
    rw [List.foldl_cons]
    dsimp only
    rw [hadded]
    dsimp only
    rw [hrest, List.append_assoc]
    rfl

/-- Adding an expression keeps the invariant and gives the node of its result. -/
theorem renders_addExpr (hs : s.Plain) {bound : Nat} {id : ExprId} {b : Builder} (hbound : id < bound)
    (hsize : id < s.exprs.size) (hb : b.Renders s) : ∃ r b', s.addExpr bound id b = ([r], b') ∧ Adds s b id r b' := by
  induction bound generalizing id b with
  | zero => exact absurd hbound (Nat.not_lt_zero _)
  | succ bound ih =>
    rw [addExpr]
    cases hid : b.built.lookup id with
    | some ids =>
      obtain ⟨r, rfl⟩ := hb.single id ids hid
      exact ⟨r, b, rfl, hb, .refl b, hid, fun _ _ => rfl⟩
    | none =>
      obtain ⟨e, he⟩ : ∃ e, s.expr? id = some e := ⟨_, Array.getElem?_eq_getElem hsize⟩
      have hrefers := hs id e he
      have hadds {r : NodeId} {g : Graph} {names : List String} (hnew : Renders s ⟨g, names, (id, [r]) :: b.built⟩ ∧
          Keeps ⟨g, names, (id, [r]) :: b.built⟩ b) : Adds s b id r ⟨g, names, (id, [r]) :: b.built⟩ :=
        ⟨hnew.1, hnew.2, lookup_first b.built, fun j hj => lookup_later b.built hj⟩
      rw [he]
      cases e with
      | value name shape type =>
        obtain ⟨name', hname, hfresh⟩ := freshName_eq b name
        dsimp only
        rw [hfresh]
        exact ⟨_, _, rfl, hadds (hb.addLeaf hid he hname (.value ⟨some name', shape, type⟩) rfl rfl
          fun g hnode hfree => ⟨⟨_, hnode⟩, hfree⟩)⟩
      | constant v =>
        obtain ⟨name, hname, hfresh⟩ := freshName_eq b "const"
        dsimp only
        rw [hfresh]
        exact ⟨_, _, rfl, hadds (hb.addLeaf hid he hname (.constant ⟨some name, v⟩) rfl rfl
          fun g hnode hfree => ⟨_, hnode⟩)⟩
      | operator op inputs =>
        obtain ⟨hone, hearlier⟩ := hrefers
        obtain ⟨ids, b', hfold, hb', hkeeps', hids, hlater'⟩ := renders_addInputs ih (fun i hi =>
          ⟨hearlier i hi, Nat.lt_of_lt_of_le (hearlier i hi) (Nat.le_of_lt_succ hbound),
            Nat.lt_trans (hearlier i hi) hsize⟩) hb []
        dsimp only
        rw [hfold, List.nil_append]
        dsimp only
        obtain ⟨r, b'', hadd, hbuilt, hrenders, hkeeps⟩ :=
          hb'.addOperator ((hlater' id (Nat.le_refl _)).trans hid) he hone hids
        rw [hadd]
        refine ⟨r, _, rfl, hrenders, hkeeps.trans hkeeps', lookup_first _, fun j hj => ?_⟩
        rw [lookup_later _ hj, hbuilt, hlater' j (Nat.le_of_lt hj)]
      | output op index => exact hrefers.elim

/-! ## Inputs -/

/-- The builder after a value was added under its own name. -/
def withValue (b : Builder) (id : ExprId) (name : String) (shape : Option (List Dimension)) (type : Option ElementType) :
    Builder :=
  ⟨(b.graph.addNode (.value ⟨some name, shape, type⟩)).1, name :: b.usedNames, (id, [b.graph.nodes.size]) :: b.built⟩

/-- A value whose name is not used keeps it. -/
theorem renders_addValue {id : ExprId} {name : String} {shape : Option (List Dimension)} {type : Option ElementType}
    {b : Builder} (he : s.expr? id = some (.value name shape type)) (hname : name ∉ b.usedNames) (hb : b.Renders s)
    (hid : b.built.lookup id = none) :
    s.addExpr s.exprs.size id b = ([b.graph.nodes.size], withValue b id name shape type) ∧
      (withValue b id name shape type).Renders s ∧ (withValue b id name shape type).Keeps b := by
  obtain ⟨bound, hbound⟩ : ∃ bound, s.exprs.size = bound + 1 :=
    Nat.exists_eq_add_one.2 (Nat.zero_lt_of_lt (Array.getElem?_eq_some_iff.1 he).1)
  refine ⟨?_, hb.addLeaf hid he hname (.value ⟨some name, shape, type⟩) rfl rfl
    fun g hnode hfree => ⟨⟨_, hnode⟩, hfree⟩⟩
  rw [hbound, addExpr, hid, he]
  dsimp only
  rw [freshName_of_notMem hname]
  rfl

/-- Values with different names are added one after the other, and keep their names. -/
theorem renders_addValues {ids done : List ExprId} {names : List String} {b : Builder}
    (hvalues : List.Forall₂ (fun id name => ∃ shape type, s.expr? id = some (.value name shape type)) ids names)
    (hids : (done ++ ids).Nodup) (hnames : names.Nodup) (hunused : ∀ name ∈ names, name ∉ b.usedNames)
    (hb : b.Renders s) (hbuilt : ∀ id, (b.built.lookup id).isSome → id ∈ done) {acc : List NodeId}
    (hacc : List.Forall₂ b.Result done acc) :
    ∃ rs b', ids.foldl (fun (nodes, b) id =>
        let (more, b) := s.addExpr s.exprs.size id b
        (more.foldl (fun nodes n => if nodes.contains n then nodes else nodes ++ [n]) nodes, b)) (acc, b) =
          (acc ++ rs, b') ∧
      b'.Renders s ∧ b'.Keeps b ∧ List.Forall₂ b'.Result ids rs ∧
      List.Forall₂ (fun r name => ∃ node, b'.graph.node? r = some node ∧ node.name? = some name) rs names := by
  induction hvalues generalizing b done acc with
  | nil => exact ⟨[], b, by simp, hb, .refl b, .nil, .nil⟩
  | @cons id name ids names hvalue hvalues ih =>
    obtain ⟨shape, type, he⟩ := hvalue
    obtain ⟨hname, hunused⟩ := List.forall_mem_cons.1 hunused
    obtain ⟨hnot, hnames⟩ := List.nodup_cons.1 hnames
    have hfresh : id ∉ done := by
      intro hmem
      exact (List.nodup_append.1 hids).2.2 id hmem id List.mem_cons_self rfl
    have hid : b.built.lookup id = none := by
      rw [← Option.not_isSome_iff_eq_none]
      exact fun hsome => hfresh (hbuilt id hsome)
    obtain ⟨hadd, hrenders, hkeeps⟩ := renders_addValue he hname hb hid
    have hnew : b.graph.nodes.size ∉ acc := by
      intro hmem
      obtain ⟨i, -, hi⟩ := exists_of_forall₂ hacc hmem
      exact Nat.lt_irrefl _ (Graph.lt_size_of_isReadable ((hb.readable _).2 ⟨i, hi⟩))
    have hunused' : ∀ name' ∈ names, name' ∉ (b.withValue id name shape type).usedNames := by
      intro name' hmem
      rw [withValue, List.mem_cons, not_or]
      exact ⟨fun heq => hnot (heq ▸ hmem), hunused name' hmem⟩
    have hbuilt' : ∀ j, ((b.withValue id name shape type).built.lookup j).isSome → j ∈ done ++ [id] := by
      intro j hj
      rw [withValue, List.lookup_cons] at hj
      split at hj
      · next heq => simp [eq_of_beq heq]
      · exact List.mem_append_left _ (hbuilt j hj)
    obtain ⟨rs, b', hfold, hb', hkeeps', hrs, hnamed⟩ := ih (by simpa using hids) hnames hunused' hrenders hbuilt'
      (List.rel_append (hacc.imp hkeeps.result) (.cons (lookup_first b.built) .nil))
    refine ⟨b.graph.nodes.size :: rs, b', ?_, hb', hkeeps'.trans hkeeps,
      .cons (hkeeps'.result _ _ (lookup_first b.built)) hrs,
      .cons ⟨_, hkeeps'.node _ _ (Graph.grows_addNode b.graph _).new, rfl⟩ hnamed⟩
    rw [List.foldl_cons]
    dsimp only
    rw [hadd]
    dsimp only
    rw [List.foldl_cons, List.foldl_nil, if_neg (by simpa using hnew), hfold, List.append_assoc]
    rfl

end Builder

/-! ## Whole graphs -/

/-- Whether the first expression is an operator that is applied to the second one. -/
def Applies (s : Sketch) (i j : ExprId) : Prop := ∃ op inputs, s.expr? i = some (.operator op inputs) ∧ j ∈ inputs

/-- Whether every expression has its result at one node of a graph, and every value and constant of the graph is the
result of one expression. -/
structure RenderedBy (s : Sketch) (g : Graph) (result : ExprId → NodeId) : Prop where
  expr : ∀ id e, s.expr? id = some e → e.RenderedAt g (fun i r => r = result i) (result id)
  unique : ∀ id id', id < s.exprs.size → id' < s.exprs.size → result id = result id' → id = id'
  readable : ∀ r, g.isReadable r = true → ∃ id < s.exprs.size, r = result id

theorem Builder.Renders.reached (h : b.Renders s) (hr : b.Result id r) {j : ExprId}
    (hj : Relation.ReflTransGen s.Applies id j) : ∃ r', b.Result j r' := by
  induction hj with
  | refl => exact ⟨r, hr⟩
  | tail _ hstep ih =>
    obtain ⟨r, hr⟩ := ih
    obtain ⟨op, inputs, he, hmem⟩ := hstep
    obtain ⟨e, he', hrendered⟩ := h.expr _ r hr
    obtain rfl := Option.some.inj (he.symm.trans he')
    obtain ⟨-, -, ids, hids, -⟩ := hrendered
    obtain ⟨r', -, hr'⟩ := exists_of_forall₂ hids.flip hmem
    exact ⟨r', hr'⟩

/-- A builder with all expressions has rendered the sketch. -/
theorem Builder.Renders.renderedBy (h : b.Renders s) (hall : ∀ id < s.exprs.size, ∃ r, b.Result id r) :
    ∃ result, s.RenderedBy b.graph result ∧ ∀ id r, b.Result id r → r = result id := by
  have hresult (id : ExprId) : ∃ r, id < s.exprs.size → b.Result id r := by
    by_cases hid : id < s.exprs.size
    · obtain ⟨r, hr⟩ := hall id hid
      exact ⟨r, fun _ => hr⟩
    · exact ⟨0, fun hid' => absurd hid' hid⟩
  choose result hresult using hresult
  have hlt {id : ExprId} {r : NodeId} (hr : b.Result id r) : id < s.exprs.size := by
    obtain ⟨e, he, -⟩ := h.expr id r hr
    exact (Array.getElem?_eq_some_iff.1 he).1
  have hunique : ∀ id r, b.Result id r → r = result id := by
    intro id r hr
    have := hr.symm.trans (hresult id (hlt hr))
    simpa using this
  refine ⟨result, ⟨fun id e he => ?_, fun id id' hid hid' heq => ?_, fun r hr => ?_⟩, hunique⟩
  · obtain ⟨e', he', hrendered⟩ := h.expr id _ (hresult id (Array.getElem?_eq_some_iff.1 he).1)
    obtain rfl := Option.some.inj (he.symm.trans he')
    exact Builder.renderedAt_mono (fun _ _ hn => hn) (fun _ hr => hr) hunique hrendered
  · exact h.unique id id' _ (hresult id hid) (heq ▸ hresult id' hid')
  · obtain ⟨id, hid⟩ := (h.readable r).1 hr
    exact ⟨id, hlt hid, hunique id r hid⟩

end Sketch

end TensorGraph
