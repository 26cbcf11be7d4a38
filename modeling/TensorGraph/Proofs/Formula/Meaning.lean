import TensorGraph.Proofs.Formula.Building

/-!
# The meaning of formulas

`Formula.evaluate` says what a formula means without a graph: operands are evaluated from the left and operators are
applied to their values. Main statement: `meantBy_graph`, the graph of a formula over inputs with different names is
valid, has one node for each input and each application of an operator, and computes what the formula means.
-/

namespace TensorGraph

/-! ## Values of formulas -/

/-- The output of an operator that has one. -/
def Operator.output? (op : Operator) (xs : List Value) : Option Value :=
  match op.run xs with
  | .ok [y] => some y
  | _ => none

theorem Operator.output?_eq_some {op : Operator} {xs : List Value} {y : Value} :
    op.output? xs = some y ↔ op.run xs = .ok [y] := by
  unfold output?
  split <;> simp_all

namespace Formula

mutual

/-- The value of a formula for values of its names. -/
def evaluate (values : List (String × Value)) : Formula → Option Value
  | .number x => some (.floats (.scalar x))
  | .name ident => values.lookup ident
  | .list items => some (.ints (.vector items.toArray))
  | .neg x => do
    let x ← x.evaluate values
    Operator.output? (.elementwise { fn := .neg }) [x]
  | .binary op lhs rhs => do
    let lhs ← lhs.evaluate values
    let rhs ← rhs.evaluate values
    Operator.output? (.elementwise { fn := op.fn }) [lhs, rhs]
  | .call function args keywords => do
    let (op, count) ← (CallArguments.operator { function, args, keywords }).toOption
    let operands ← evaluateFirst values count args
    op.output? operands

/-- The values of the first formulas of a list. -/
def evaluateFirst (values : List (String × Value)) : Nat → List Formula → Option (List Value)
  | count + 1, x :: xs => do
    let x ← x.evaluate values
    return x :: (← evaluateFirst values count xs)
  | _, _ => some []

end

theorem evaluateFirst_zero {values : List (String × Value)} (args : List Formula) :
    evaluateFirst values 0 args = some [] := by
  rw [evaluateFirst]
  simp

theorem evaluateFirst_nil {values : List (String × Value)} (count : Nat) : evaluateFirst values count [] = some [] := by
  rw [evaluateFirst]
  simp

variable {inputs : List (String × ExprId)} {s : Sketch}

/-! ## What is computed -/

section Values

variable {whole : Sketch} {ins : List ExprId} {names : List String} {out : ExprId} {g : Graph}
  {result : ExprId → NodeId} {env : IdMap Value} {values : List (String × Value)}

theorem evaluates_pushed (h : whole.Extends (s.push e).2) : whole.expr? s.exprs.size = some e :=
  h.expr _ _ (by rw [Sketch.expr?_push, if_pos rfl])

theorem evaluatesAll_nil (xs : List Value) : g.EvaluatesAll env [] xs ↔ some [] = some xs := by
  rw [Graph.EvaluatesAll, List.forall₂_nil_left_iff, Option.some.injEq, eq_comm]

/-- Values of several nodes, the first of which is known. -/
theorem evaluatesAll_cons {v : NodeId} {vs : List NodeId} {first : Option Value} {rest : Option (List Value)}
    (hfirst : ∀ y, g.Evaluates env v y ↔ first = some y) (hrest : ∀ ys, g.EvaluatesAll env vs ys ↔ rest = some ys)
    (xs : List Value) : g.EvaluatesAll env (v :: vs) xs ↔ (first.bind fun y => rest.map (y :: ·)) = some xs := by
  simp only [Graph.EvaluatesAll, List.forall₂_cons_left_iff, Option.bind_eq_some_iff, Option.map_eq_some_iff,
    ← hfirst, ← hrest]
  constructor
  · rintro ⟨y, ys, hy, hys, rfl⟩
    exact ⟨y, hy, ys, hys, rfl⟩
  · rintro ⟨y, hy, ys, hys, rfl⟩
    exact ⟨y, ys, hy, hys, rfl⟩

variable (hs : whole.Complete ins names out) (hg : whole.Graphs ins names out g result) (henv : g.Accepts env)
  (hnames : ∀ ident id, inputs.lookup ident = some id →
    ∀ x, g.Evaluates env (result id) x ↔ values.lookup ident = some x)
include hs hg henv hnames

omit hnames in
/-- An operator is applied to the values of its operands. -/
theorem evaluates_applied {id : ExprId} {op : Operator} {os : List ExprId} {operands : Option (List Value)} {x : Value}
    (he : whole.expr? id = some (.operator op os))
    (hos : ∀ xs, g.EvaluatesAll env (os.map result) xs ↔ operands = some xs) :
    g.Evaluates env (result id) x ↔ operands.bind op.output? = some x := by
  rw [hg.evaluates_operator hs henv he, Option.bind_eq_some_iff]
  simp only [hos, Operator.output?_eq_some]

-- The linter does not see that the recursive calls use the hypotheses.
set_option linter.unusedSectionVars false in
mutual

/-- The expression of a formula evaluates to what the formula means. -/
theorem evaluates_build {s s' : Sketch} {o : ExprId} (hinputs : Within inputs s) :
    {f : Formula} → f.build inputs s = .ok (o, s') → whole.Extends s' →
      ∀ x, g.Evaluates env (result o) x ↔ f.evaluate values = some x
  | .number y, h, hwhole, x => by
    rw [build] at h
    obtain ⟨rfl, rfl⟩ := run_push.1 h
    rw [hg.evaluates_constant hs henv (evaluates_pushed hwhole), evaluate, Option.some.injEq]
  | .name ident, h, hwhole, x => by
    obtain ⟨hlookup, rfl⟩ := build_name.1 h
    exact hnames ident _ hlookup x
  | .list items, h, hwhole, x => by
    rw [build] at h
    obtain ⟨rfl, rfl⟩ := run_push.1 h
    rw [hg.evaluates_constant hs henv (evaluates_pushed hwhole), evaluate, Option.some.injEq]
  | .neg y, h, hwhole, x => by
    obtain ⟨a, t, hy, rfl, rfl⟩ := build_neg.1 h
    have hy' := evaluates_build hinputs hy (hwhole.trans (Sketch.extends_push _ _))
    rw [evaluates_applied hs hg henv (evaluates_pushed hwhole) (evaluatesAll_cons hy' evaluatesAll_nil), evaluate]
    cases y.evaluate values <;> rfl
  | .binary op lhs rhs, h, hwhole, x => by
    obtain ⟨a, t, hl, b, t', hr, rfl, rfl⟩ := build_binary.1 h
    have hwhole' := hwhole.trans (Sketch.extends_push _ _)
    have hinputs' := hinputs.mono (builds_build hinputs hl).keeps
    have hl' := evaluates_build hinputs hl (hwhole'.trans (builds_build hinputs' hr).keeps)
    have hr' := evaluates_build hinputs' hr hwhole'
    rw [evaluates_applied hs hg henv (evaluates_pushed hwhole)
      (evaluatesAll_cons hl' (evaluatesAll_cons hr' evaluatesAll_nil)), evaluate]
    cases lhs.evaluate values <;> cases rhs.evaluate values <;> rfl
  | .call function args keywords, h, hwhole, x => by
    obtain ⟨op, count, hop, os, t, hos, rfl, rfl⟩ := build_call.1 h
    have hoperands := evaluates_buildFirst hinputs hos (hwhole.trans (Sketch.extends_push _ _))
    rw [evaluates_applied hs hg henv (evaluates_pushed hwhole) hoperands, evaluate, hop]
    rfl

theorem evaluates_buildFirst {s s' : Sketch} {os : List ExprId} (hinputs : Within inputs s) :
    {count : Nat} → {args : List Formula} → buildFirst inputs count args s = .ok (os, s') → whole.Extends s' →
      ∀ xs, g.EvaluatesAll env (os.map result) xs ↔ evaluateFirst values count args = some xs
  | 0, args, h, hwhole, xs => by
    obtain ⟨rfl, rfl⟩ := (buildFirst_zero args).1 h
    rw [evaluateFirst_zero]
    exact evaluatesAll_nil xs
  | count + 1, [], h, hwhole, xs => by
    obtain ⟨rfl, rfl⟩ := (buildFirst_nil (count + 1)).1 h
    rw [evaluateFirst_nil]
    exact evaluatesAll_nil xs
  | count + 1, y :: ys, h, hwhole, xs => by
    obtain ⟨a, t, hy, more, hmore, rfl⟩ := buildFirst_cons.1 h
    have hinputs' := hinputs.mono (builds_build hinputs hy).keeps
    have hy' := evaluates_build hinputs hy (hwhole.trans (builds_buildFirst hinputs' hmore).1.keeps)
    have hmore' := evaluates_buildFirst hinputs' hmore hwhole
    rw [List.map_cons, evaluatesAll_cons hy' hmore', evaluateFirst]
    cases y.evaluate values <;> cases evaluateFirst values count ys <;> rfl

end

end Values

end Formula

/-! ## Operator nodes -/

namespace Sketch

/-- Whether an expression is an operator, and a node applies it to the results of its operands. -/
def OperatorAt (s : Sketch) (g : Graph) (result : ExprId → NodeId) (id : ExprId) (node : NodeId) : Prop :=
  ∃ op args name, s.expr? id = some (.operator op args) ∧
    g.operator? node = some { name, inputs := args.map result, outputs := [result id], op }

variable {s : Sketch} {ins : List ExprId} {names : List String} {out id : ExprId} {g : Graph}
  {result : ExprId → NodeId} {node : NodeId}

theorem OperatorAt.outputsOf (h : s.OperatorAt g result id node) : g.outputsOf node = [result id] := by
  obtain ⟨op, args, name, -, hop⟩ := h
  exact Graph.outputsOf_of_operator? hop

theorem Graphs.exists_operatorAt (h : s.Graphs ins names out g result) {op : Operator} {args : List ExprId}
    (he : s.expr? id = some (.operator op args)) : ∃ node, s.OperatorAt g result id node := by
  obtain ⟨node, name, hop⟩ := h.exists_operator he
  exact ⟨node, op, args, name, he, hop⟩

/-- Every operator expression has one node. -/
theorem Graphs.existsUnique_node (h : s.Graphs ins names out g result) {op : Operator} {args : List ExprId}
    (he : s.expr? id = some (.operator op args)) : ∃! node, s.OperatorAt g result id node := by
  obtain ⟨node, hnode⟩ := h.exists_operatorAt he
  refine ⟨node, hnode, fun node' hnode' => ?_⟩
  exact h.layered.indexed.producer_unique (hnode'.outputsOf ▸ List.mem_singleton_self _)
    (hnode.outputsOf ▸ List.mem_singleton_self _)

/-- Every operator node is that of one expression. -/
theorem Graphs.existsUnique_expr (h : s.Graphs ins names out g result) {op : OperatorNode}
    (hop : g.operator? node = some op) : ∃! id, s.OperatorAt g result id node := by
  obtain ⟨r, houtputs, hr, -⟩ := h.layered.operators node op hop
  obtain ⟨id, hid, rfl⟩ := h.rendered.readable r (Graph.isReadable_of_isValue hr)
  have hmem : result id ∈ g.outputsOf node := by
    rw [Graph.outputsOf_of_operator? hop, houtputs]
    exact List.mem_singleton_self _
  obtain ⟨node', hnode'⟩ : ∃ node', s.OperatorAt g result id node' := by
    rcases h.result_cases hid with ⟨_, _, _, -, -, hfree⟩ | ⟨v, name, -, hnode⟩ | ⟨op', args, node', name, he, hop'⟩
    · exact absurd hmem (hfree node)
    · simp [Graph.isValue, hnode, Node.isValue] at hr
    · exact ⟨node', op', args, name, he, hop'⟩
  obtain rfl := h.layered.indexed.producer_unique hmem (hnode'.outputsOf ▸ List.mem_singleton_self _)
  refine ⟨id, hnode', fun id' hid' => ?_⟩
  have heq := List.singleton_inj.1 (hid'.outputsOf.symm.trans hnode'.outputsOf)
  obtain ⟨_, _, _, he', -⟩ := hid'
  exact h.rendered.unique id' id (lt_size_of_expr? he') hid heq

end Sketch

/-! ## The graph of a formula -/

namespace Formula

variable {f : Formula} {specs : List InputSpec} {g : Graph} {s : Sketch} {out : ExprId} {result : ExprId → NodeId}

/-- Whether a graph is what a formula over declared inputs means. -/
structure MeantBy (g : Graph) (f : Formula) (specs : List InputSpec) : Prop where
  valid : g.validate = .ok ()
  /-- Nodes have different names. -/
  named : ∀ id node, g.node? id = some node → ∃ name, node.name? = some name ∧
    ∀ id' node', g.node? id' = some node' → node'.name? = some name → id' = id
  requires : ∀ id op, g.operator? id = some op → op.op.Requires op.inputs.length
  /-- The inputs of the graph are those that are declared. -/
  inputs : g.inputIds.Nodup ∧ List.Forall₂ (fun id spec => ∃ shape type,
    inputExpr spec = .value spec.name shape type ∧ g.node? id = some (.value { name := some spec.name, shape, type }))
    g.inputIds specs
  /-- There is one operator node for every operator expression. -/
  operators : ∃ out s result, f.build (inputNames specs) (inputSketch specs) = .ok (out, s) ∧
    (∀ id op args, s.expr? id = some (.operator op args) → ∃! node, s.OperatorAt g result id node) ∧
    ∀ node op, g.operator? node = some op → ∃! id, s.OperatorAt g result id node
  /-- The graph computes the value of the formula, or nothing if there is none. -/
  value : ∃ p, Linker.interpreted.link g g.inputIds g.outputIds = .ok p ∧ ∀ values, values.length = specs.length →
    (p.evaluate (g.inputIds.zip values)).toOption = (f.evaluate ((specs.map (·.name)).zip values)).map ([·])

theorem requires_of_graphs (hbuilds : (inputSketch specs).Builds [out] s)
    (hg : s.Graphs (List.range specs.length) (specs.map (·.name)) out g result) {id : NodeId} {op : OperatorNode}
    (hop : g.operator? id = some op) : op.op.Requires op.inputs.length := by
  obtain ⟨e, ⟨op', args, name, he, hop'⟩, -⟩ := hg.existsUnique_expr hop
  obtain rfl := Option.some.inj (hop.symm.trans hop')
  have hle : (inputSketch specs).exprs.size ≤ e := by
    rw [size_inputSketch]
    refine Nat.le_of_not_lt fun hlt => ?_
    obtain ⟨shape, type, heq⟩ := inputExpr_eq specs[e]
    have := he.symm.trans (expr?_input hbuilds hlt)
    rw [heq] at this
    cases this
  simpa using (hbuilds.built e _ hle he).2.1

theorem inputs_of_graphs (hbuilds : (inputSketch specs).Builds [out] s)
    (hg : s.Graphs (List.range specs.length) (specs.map (·.name)) out g result) :
    List.Forall₂ (fun id spec => ∃ shape type, inputExpr spec = .value spec.name shape type ∧
      g.node? id = some (.value { name := some spec.name, shape, type })) g.inputIds specs := by
  have hnames := hg.inputNames
  rw [hg.inputIds, List.forall₂_map_left_iff, List.forall₂_map_right_iff] at hnames
  rw [hg.inputIds, List.forall₂_map_left_iff]
  refine List.forall₂_iff_get.2 ⟨hnames.length_eq, fun i hi hi' => ?_⟩
  obtain ⟨shape, type, heq⟩ := inputExpr_eq specs[i]
  obtain ⟨⟨name, hvalue⟩, -⟩ := hg.rendered.expr i _ (heq ▸ expr?_input hbuilds hi')
  obtain ⟨node, hnode, hname⟩ := hnames.get hi hi'
  simp only [List.get_eq_getElem, List.getElem_range] at hnode ⊢
  obtain rfl := Option.some.inj (hvalue.symm.trans hnode)
  obtain rfl : name = some specs[i].name := hname
  exact ⟨shape, type, heq, hvalue⟩

theorem nodup_inputIds (hs : s.Complete (List.range specs.length) (specs.map (·.name)) out)
    (hg : s.Graphs (List.range specs.length) (specs.map (·.name)) out g result) : g.inputIds.Nodup := by
  have hlt : ∀ id ∈ List.range specs.length, id < s.exprs.size := fun id hid => by
    obtain ⟨name, -, shape, type, he⟩ := exists_of_forall₂ hs.values.flip hid
    exact Sketch.lt_size_of_expr? he
  rw [hg.inputIds]
  exact List.nodup_range.map_on fun id hid id' hid' => hg.rendered.unique id id' (hlt id hid) (hlt id' hid')

/-- The value of an input is given by its name. -/
theorem values_of_graphs (hbuilds : (inputSketch specs).Builds [out] s)
    (hs : s.Complete (List.range specs.length) (specs.map (·.name)) out)
    (hg : s.Graphs (List.range specs.length) (specs.map (·.name)) out g result) {values : List Value}
    (hvalues : values.length = specs.length) {ident : String} {id : ExprId}
    (hid : (inputNames specs).lookup ident = some id) (x : Value) :
    g.Evaluates ⟨g.inputIds.zip values⟩ (result id) x ↔ ((specs.map (·.name)).zip values).lookup ident = some x := by
  have hname := of_lookup_inputNames hid
  have hlt : id < specs.length := by simpa using (List.getElem?_eq_some_iff.1 hname).1
  obtain ⟨shape, type, heq⟩ := inputExpr_eq specs[id]
  have hplace : g.inputIds[id]? = some (result id) := by
    rw [hg.inputIds, List.getElem?_map, List.getElem?_range hlt]
    rfl
  have hlength : g.inputIds.length = values.length := by
    rw [hg.inputIds, List.length_map, List.length_range, hvalues]
  rw [hg.evaluates_value (heq ▸ expr?_input hbuilds hlt), IdMap.get?,
    lookup_zip (nodup_inputIds hs hg) hlength hplace,
    lookup_zip hs.namesNodup (by rw [List.length_map, hvalues]) hname]

/-- The graph of a formula over inputs with different names is what the formula means. -/
theorem meantBy_graph (hspecs : (specs.map (·.name)).Nodup) (h : f.graph specs = .ok g) : MeantBy g f specs := by
  obtain ⟨out, s, hbuild, rfl⟩ := graph_eq_ok.1 h
  have hbuilds := builds_formula hbuild
  have hs := complete_build hspecs hbuild
  obtain ⟨result, hg⟩ := hs.exists_graphs
  generalize s.graph (List.range specs.length) [out] = g at h hg ⊢
  have hlinkable := hg.linkable hs
  have hinputs := nodup_inputIds hs hg
  obtain ⟨plan, hplan⟩ := hlinkable.exists_plan hinputs
  have hlink := link_eq_ok.2 ⟨plan, hplan, rfl⟩
  refine ⟨hlinkable.validate, fun id node hnode => ?_, fun id op => requires_of_graphs hbuilds hg,
    ⟨hinputs, inputs_of_graphs hbuilds hg⟩,
    ⟨out, s, result, hbuild, fun id op args => hg.existsUnique_node, fun node op => hg.existsUnique_expr⟩,
    ⟨_, hlink, fun values hvalues => ?_⟩⟩
  · obtain ⟨used, hnamed⟩ := hg.named
    obtain ⟨name, -, hname⟩ := hnamed.named id node hnode
    exact ⟨name, hname, fun id' node' hnode' hname' =>
      hnamed.distinct id' id node' node hnode' hnode (hname'.trans hname.symm)⟩
  · have henv : ∀ e ∈ g.inputIds.zip values, e.1 ∈ g.inputIds := fun e he => (List.of_mem_zip he).1
    have hmeans := evaluates_build hs hg (fun v x hv => henv _ (mem_of_lookup hv))
      (fun ident id => values_of_graphs hbuilds hs hg hvalues) (within_inputNames specs) hbuild (.refl s)
    ext xs
    rw [toOption_eq_some, Program.evaluate_iff_evaluates hlinkable henv hlink, hg.outputIds, Graph.evaluatesAll_one,
      Option.map_eq_some_iff]
    exact exists_congr fun y => and_comm.trans (and_congr (hmeans y) eq_comm)

/-- The input `x` of `matmul(x + y, x)` is shared. -/
theorem meantBy_graph_matMul : ∃ g,
    graph (.call "matmul" [.binary .add (.name "x") (.name "y"), .name "x"] [])
      [⟨"x", .float32, none⟩, ⟨"y", .float32, none⟩] = .ok g ∧
    MeantBy g (.call "matmul" [.binary .add (.name "x") (.name "y"), .name "x"] [])
      [⟨"x", .float32, none⟩, ⟨"y", .float32, none⟩] := by
  have hsome : (graph (.call "matmul" [.binary .add (.name "x") (.name "y"), .name "x"] [])
      [⟨"x", .float32, none⟩, ⟨"y", .float32, none⟩]).toOption.isSome := by decide +kernel
  obtain ⟨g, hg⟩ := Option.isSome_iff_exists.1 hsome
  have hgraph := toOption_eq_some.1 hg
  exact ⟨g, hgraph, meantBy_graph (by decide) hgraph⟩

end Formula

end TensorGraph
