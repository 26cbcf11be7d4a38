import TensorGraph.Proofs.Graph.Rendering
import TensorGraph.Proofs.Rewrite.Evaluation

/-!
# Graphs of sketches

The graph of a `Complete` sketch has one node for each expression and can be linked (`Complete.exists_graphs`,
`Graphs.linkable`). Its nodes evaluate to what the expressions say: a value to what is given, a constant to itself,
and an operator to what it computes from its inputs.
-/

namespace TensorGraph.Sketch

variable {s : Sketch} {inputs : List ExprId} {names : List String} {out id : ExprId} {g : Graph}
  {result : ExprId → NodeId}

/-! ## The graph of a sketch -/

/-- Whether a sketch describes one output and has the inputs, with their names, and what the output needs. -/
structure Complete (s : Sketch) (inputs : List ExprId) (names : List String) (out : ExprId) : Prop where
  plain : s.Plain
  values : List.Forall₂ (fun id name => ∃ shape type, s.expr? id = some (.value name shape type)) inputs names
  inputsNodup : inputs.Nodup
  namesNodup : names.Nodup
  given : ∀ id name shape type, s.expr? id = some (.value name shape type) → id ∈ inputs
  output : out < s.exprs.size
  reached : ∀ id < s.exprs.size, id ∈ inputs ∨ Relation.ReflTransGen s.Applies out id

/-- Whether a graph is that of a sketch, and where it has the results of expressions. -/
structure Graphs (s : Sketch) (inputs : List ExprId) (names : List String) (out : ExprId) (g : Graph)
    (result : ExprId → NodeId) : Prop where
  rendered : s.RenderedBy g result
  layered : g.Layered
  named : ∃ used, g.Named used
  inputIds : g.inputIds = inputs.map result
  outputIds : g.outputIds = [result out]
  inputNames : List.Forall₂ (fun r name => ∃ node, g.node? r = some node ∧ node.name? = some name) g.inputIds names

theorem Complete.exists_graphs (h : s.Complete inputs names out) :
    ∃ result, s.Graphs inputs names out (s.graph inputs [out]) result := by
  obtain ⟨inputIds, b, hadded, hb, -, hresults, hnamed⟩ := Builder.renders_addValues h.values
    (show ([] ++ inputs).Nodup from h.inputsNodup) h.namesNodup (fun _ _ => by simp) Builder.renders_empty (by simp) .nil
  obtain ⟨r, b', hadded', hadds⟩ := Builder.renders_addExpr h.plain h.output h.output hb
  have hresults := hresults.imp hadds.keeps.result
  obtain ⟨result, hrendered, hresult⟩ := hadds.renders.renderedBy fun id hid => by
    rcases h.reached id hid with hmem | hreached
    · obtain ⟨r', -, hr'⟩ := exists_of_forall₂ hresults.flip hmem
      exact ⟨r', hr'⟩
    · exact hadds.renders.reached hadds.result hreached
  have hgraph : s.graph inputs [out] = (b'.graph.setInputs inputIds).setOutputs [r] := by
    rw [List.nil_append] at hadded
    unfold Sketch.graph addExprs
    rw [hadded]
    dsimp only
    rw [List.foldl_cons, List.foldl_nil]
    dsimp only
    rw [hadded']
    rfl
  have hmap : inputIds = inputs.map result := by
    rw [← List.forall₂_eq_eq_eq, List.forall₂_map_right_iff]
    exact hresults.flip.imp fun r id hr => hresult id r hr
  rw [hgraph]
  refine ⟨result, ⟨hrendered.expr, hrendered.unique, hrendered.readable⟩, ⟨?_, hadds.renders.layered.operators⟩,
    ⟨_, hadds.renders.named.named, hadds.renders.named.distinct⟩, hmap, ?_, ?_⟩
  · exact (hadds.renders.layered.indexed.setInputs inputIds).setOutputs [r]
  · exact congrArg (fun r => [r]) (hresult out r hadds.result)
  · exact hnamed.imp fun r name ⟨node, hnode, hname⟩ => ⟨node, hadds.keeps.node r node hnode, hname⟩

namespace Graphs

/-- A node computes the result of an operator from the results that it is applied to. -/
theorem exists_operator (h : s.Graphs inputs names out g result) {op : Operator} {args : List ExprId}
    (he : s.expr? id = some (.operator op args)) : ∃ node name,
      g.operator? node = some { name, inputs := args.map result, outputs := [result id], op } := by
  obtain ⟨node, name, ids, hids, hop⟩ := h.rendered.expr id _ he
  obtain rfl : ids = args.map result := by
    rw [← List.forall₂_eq_eq_eq, List.forall₂_map_right_iff]
    exact hids.flip
  exact ⟨node, name, hop⟩

/-- What an expression is, and what is at the node of its result. -/
theorem result_cases (h : s.Graphs inputs names out g result) (hid : id < s.exprs.size) :
    (∃ name shape type, s.expr? id = some (.value name shape type) ∧
      (∃ name', g.node? (result id) = some (.value { name := name', shape, type })) ∧
        ∀ node, result id ∉ g.outputsOf node) ∨
    (∃ v name, s.expr? id = some (.constant v) ∧ g.node? (result id) = some (.constant { name, value := v })) ∨
    ∃ op args node name, s.expr? id = some (.operator op args) ∧
      g.operator? node = some { name, inputs := args.map result, outputs := [result id], op } := by
  obtain ⟨e, he⟩ : ∃ e, s.expr? id = some e := ⟨_, Array.getElem?_eq_getElem hid⟩
  have hrendered := h.rendered.expr id e he
  cases e with
  | value name shape type => exact .inl ⟨name, shape, type, he, hrendered⟩
  | constant v =>
    obtain ⟨name, hnode⟩ := hrendered
    exact .inr (.inl ⟨v, name, he, hnode⟩)
  | operator op args =>
    obtain ⟨node, name, hop⟩ := h.exists_operator he
    exact .inr (.inr ⟨op, args, node, name, he, hop⟩)
  | output op index => exact hrendered.elim

theorem isReadable (h : s.Graphs inputs names out g result) (hid : id < s.exprs.size) : g.isReadable (result id) = true := by
  rcases h.result_cases hid with ⟨_, _, _, -, ⟨name, hnode⟩, -⟩ | ⟨v, name, -, hnode⟩ | ⟨op, args, node, name, -, hop⟩
  · simp [Graph.isReadable, hnode, Node.isReadable]
  · simp [Graph.isReadable, hnode, Node.isReadable]
  · obtain ⟨r, houtputs, hr, -⟩ := h.layered.operators node _ hop
    rw [List.singleton_inj.1 houtputs]
    exact Graph.isReadable_of_isValue hr

section

variable (hs : s.Complete inputs names out) (h : s.Graphs inputs names out g result)
include hs h

/-- An input is a value that no operator computes. -/
theorem input {v : NodeId} (hv : v ∈ g.inputIds) : g.isValue v = true ∧ ∀ id, v ∉ g.outputsOf id := by
  rw [h.inputIds] at hv
  obtain ⟨i, hi, rfl⟩ := List.mem_map.1 hv
  obtain ⟨name, -, shape, type, he⟩ := exists_of_forall₂ hs.values.flip hi
  obtain ⟨⟨name', hnode⟩, hfree⟩ := h.rendered.expr i _ he
  exact ⟨by simp [Graph.isValue, hnode, Node.isValue], hfree⟩

theorem wellFormed : g.WellFormed := by
  have hreads : ∀ id, ∀ v ∈ g.inputsOf id, g.isReadable v = true := by
    intro id v hv
    obtain ⟨op, hop, hv⟩ := Graph.mem_inputsOf.1 hv
    obtain ⟨r, -, -, hinputs⟩ := h.layered.operators id op hop
    exact (hinputs v hv).1
  have houtputs : ∀ id, g.outputsOf id = [] ∨ ∃ r, g.outputsOf id = [r] ∧ g.isValue r = true := by
    intro id
    cases hop : g.operator? id with
    | none => exact .inl (by simp [Graph.outputsOf, hop])
    | some op =>
      obtain ⟨r, houtputs, hr, -⟩ := h.layered.operators id op hop
      exact .inr ⟨r, (Graph.outputsOf_of_operator? hop).trans houtputs, hr⟩
  rw [Graph.wellFormed_iff h.layered.indexed]
  refine ⟨hreads, fun id v hv => ?_, fun id => ?_, fun v hv => input hs h hv, fun v hv => ?_⟩
  · rcases houtputs id with hnil | ⟨r, hr, hvalue⟩
    · rw [hnil] at hv
      cases hv
    · rw [hr] at hv
      exact List.mem_singleton.1 hv ▸ hvalue
  · rcases houtputs id with hnil | ⟨r, hr, -⟩
    · simp [hnil]
    · simp [hr]
  · rw [h.outputIds] at hv
    exact List.mem_singleton.1 hv ▸ h.isReadable hs.output

/-- The graph of a sketch can be linked: all that is read was added for an expression. -/
theorem linkable : g.Linkable := by
  have hformed := wellFormed hs h
  refine ⟨h.layered.indexed, hformed, h.layered.acyclic, ?_, fun v hv => ?_⟩
  · rw [h.outputIds]
    exact List.nodup_singleton _
  have hreadable : g.isReadable v = true := hv.induction (P := fun v => g.isReadable v = true) hformed.outputs
    fun v w ⟨id, hv, _⟩ _ _ => by
      obtain ⟨op, hop, hv⟩ := Graph.mem_inputsOf.1 hv
      exact hformed.reads id op hop v hv
  obtain ⟨id, hid, rfl⟩ := h.rendered.readable v hreadable
  rcases h.result_cases hid with ⟨name, shape, type, he, -⟩ | ⟨v, name, -, hnode⟩ | ⟨op, args, node, name, -, hop⟩
  · exact .inl (h.inputIds ▸ List.mem_map_of_mem (hs.given id name shape type he))
  · exact .inr (.inl (by simp [Graph.constant?, hnode, Node.constant?]))
  · exact .inr (.inr ⟨node, Graph.mem_outputsOf.2 ⟨_, hop, List.mem_singleton_self _⟩⟩)

end

/-! ## The values of expressions -/

section

variable {env : IdMap Value} {x : Value}

theorem evaluates_value (h : s.Graphs inputs names out g result) {name : String} {shape : Option (List Dimension)}
    {type : Option ElementType} (he : s.expr? id = some (.value name shape type)) :
    g.Evaluates env (result id) x ↔ env.get? (result id) = some x := by
  obtain ⟨⟨name', hnode⟩, hfree⟩ := h.rendered.expr id _ he
  have hgiven : g.given? env (result id) = env.get? (result id) := by
    simp [Graph.given?, Graph.constant?, hnode, Node.constant?]
  constructor
  · intro hx
    cases hx with
    | given hx => rwa [hgiven] at hx
    | @computed _ node _ op _ _ hop _ _ _ _ hmem =>
      exact absurd (Graph.mem_outputsOf.2 ⟨op, hop, (List.of_mem_zip hmem).1⟩) (hfree node)
  · exact fun hx => .given (hgiven.trans hx)

theorem evaluates_constant (hs : s.Complete inputs names out) (h : s.Graphs inputs names out g result)
    (henv : g.Accepts env) {v : Value} (he : s.expr? id = some (.constant v)) :
    g.Evaluates env (result id) x ↔ v = x := by
  obtain ⟨name, hnode⟩ := h.rendered.expr id _ he
  have hconstant : g.constant? (result id) = some v := by simp [Graph.constant?, hnode, Node.constant?]
  have hgiven : g.given? env (result id) = some v := by
    have hnone : env.get? (result id) = none := by
      rw [Option.eq_none_iff_forall_ne_some]
      intro y hy
      have hvalue := (input hs h (henv _ y hy)).1
      rw [Graph.isValue_of_constant? hconstant] at hvalue
      cases hvalue
    rw [Graph.given?, hnone, hconstant]
    rfl
  have heval : g.Evaluates env (result id) v := .given hgiven
  constructor
  · exact fun hx => heval.unique (linkable hs h) henv hx
  · rintro rfl
    exact heval

theorem evaluates_operator (hs : s.Complete inputs names out) (h : s.Graphs inputs names out g result)
    (henv : g.Accepts env) {op : Operator} {args : List ExprId} (he : s.expr? id = some (.operator op args)) :
    g.Evaluates env (result id) x ↔ ∃ xs, g.EvaluatesAll env (args.map result) xs ∧ op.run xs = .ok [x] := by
  obtain ⟨node, name, hop⟩ := h.exists_operator he
  constructor
  · intro hx
    obtain ⟨xs, ys, hxs, hrun, hcount, hmem⟩ := hx.run (linkable hs h) henv hop (List.mem_singleton_self _)
    obtain ⟨y, rfl⟩ := List.length_eq_one_iff.1 hcount
    have : x = y := by simpa using hmem
    exact ⟨xs, hxs, this ▸ hrun⟩
  · rintro ⟨xs, hxs, hrun⟩
    exact .of_run hop hxs hrun rfl (by simp)

end

end Graphs

end TensorGraph.Sketch
