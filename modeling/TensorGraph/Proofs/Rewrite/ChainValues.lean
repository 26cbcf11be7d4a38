import TensorGraph.Proofs.Rewrite.Chains

/-!
# Values of chains

A tensor is what an expression yields if it has the shape that the inputs of the expression broadcast to, and in every
larger shape has the values of the expression at the elements of the inputs there. Operators of a chain yield what
their expressions yield (`Rules.Unfolds.exists_yields`), and the fused operator returns what the expression of the
whole chain yields (`Rules.Chain.exists_run`).
-/

namespace TensorGraph

open Shape (canBroadcast)
open Tensor (Combines)

/-! ## Operators that read all their inputs -/

/-- Whether an elementwise or fused operator has the right number of inputs and reads all of them. -/
def OperatorNode.ReadsInputs (op : OperatorNode) : Prop :=
  match op.op with
  | .elementwise e => op.inputs.length = e.fn.arity
  | .fused e => op.inputs.length = e.numInputs ∧ ∀ i, e.expr.Reads i ↔ i < e.numInputs
  | _ => True

namespace Rules

variable {f : Fusable} {op : OperatorNode}

namespace Fusable

theorem ofOperator?_cases {o : Operator} (h : ofOperator? o = some f) :
    (∃ e : Elementwise, o = .elementwise e ∧ f = .function e.fn) ∨
      ∃ e : FusedElementwise, o = .fused e ∧ f = .expression e.expr := by
  unfold ofOperator? at h
  split at h
  · next e =>
    split at h
    · cases h
    · cases h
      exact .inl ⟨e, rfl, rfl⟩
  · next e =>
    split at h
    · cases h
    · cases h
      exact .inr ⟨e, rfl, rfl⟩
  · cases h

theorem readsAll (h : ofOperator? op.op = some f) (hreads : op.ReadsInputs) : f.ReadsAll op.inputs.length := by
  rcases ofOperator?_cases h with ⟨e, ho, rfl⟩ | ⟨e, ho, rfl⟩
  · trivial
  · simp only [OperatorNode.ReadsInputs, ho] at hreads
    intro i hi
    exact (hreads.2 i).2 (hreads.1 ▸ hi)

theorem isSome_expr? (h : ofOperator? op.op = some f) (hreads : op.ReadsInputs) {args : List ScalarExpr}
    (hargs : args.length = op.inputs.length) : (f.expr? args).isSome := by
  rcases ofOperator?_cases h with ⟨e, ho, rfl⟩ | ⟨e, ho, rfl⟩
  · simp only [OperatorNode.ReadsInputs, ho] at hreads
    rcases e.fn.arity_eq with harity | harity
    · obtain ⟨x, rfl⟩ := List.length_eq_one_iff.1 (hargs.trans (hreads.trans harity))
      simp [expr?, harity]
    · obtain ⟨a, b, rfl⟩ := List.length_eq_two.1 (hargs.trans (hreads.trans harity))
      simp [expr?, harity]
  · simp only [OperatorNode.ReadsInputs, ho] at hreads
    have hle : e.expr.numInputs ≤ args.length :=
      ScalarExpr.numInputs_le_iff.2 fun i hi => by rw [hargs, hreads.1]; exact (hreads.2 i).1 hi
    simp [expr?, Nat.not_lt.2 hle]

/-- An operator with the right number of inputs is not refused. -/
theorem Unfolds.expr?_ne_none {us : List Unfolding} (hinputs : f.Unfolds op.inputs us)
    (h : ofOperator? op.op = some f) (hreads : op.ReadsInputs) : f.expr? (us.map (·.expr)) ≠ none := by
  have hlength : (us.map (·.expr)).length = op.inputs.length := by rw [List.length_map, hinputs.length_eq]
  exact Option.isSome_iff_ne_none.1 (isSome_expr? h hreads hlength)

/-- On float tensors, the operator combines their elements. -/
theorem run_map_floats (h : ofOperator? op.op = some f) (hreads : op.ReadsInputs) {args : List (Tensor Single)}
    (hargs : args.length = op.inputs.length) {ys : List Value} :
    op.op.run (args.map .floats) = .ok ys ↔ ∃ t, ys = [.floats t] ∧ Combines f.value args t := by
  have hone (r : OpResult Value) (hr : ∀ x, r = .ok x ↔ ∃ t, x = .floats t ∧ Combines f.value args t) :
      (do return [← r] : OpResult (List Value)) = .ok ys ↔ ∃ t, ys = [.floats t] ∧ Combines f.value args t := by
    refine bind_eq_ok.trans ⟨?_, ?_⟩
    · rintro ⟨x, hx, hys⟩
      cases hys
      obtain ⟨t, rfl, ht⟩ := (hr x).1 hx
      exact ⟨t, rfl, ht⟩
    · rintro ⟨t, rfl, ht⟩
      exact ⟨.floats t, (hr _).2 ⟨t, rfl, ht⟩, rfl⟩
  rcases ofOperator?_cases h with ⟨e, ho, rfl⟩ | ⟨e, ho, rfl⟩
  · simp only [OperatorNode.ReadsInputs, ho] at hreads
    rw [ho]
    exact hone _ fun x => e.run_map_floats (hargs.trans hreads)
  · simp only [OperatorNode.ReadsInputs, ho] at hreads
    rw [ho]
    exact hone _ fun x => e.run_map_floats (hargs.trans hreads.1)

end Fusable

/-! ## What an expression yields -/

/-- Whether a tensor has the shape and the elements of an expression over tensors. -/
structure Yields (ts : Nat → Tensor Single) (e : ScalarExpr) (t : Tensor Single) : Prop where
  shape : ∀ target, canBroadcast t.shape target = true ↔ ∀ w, e.Reads w → canBroadcast (ts w).shape target = true
  read : ∀ target, canBroadcast t.shape target = true → ∀ i < volume target,
    t.readIn target i = e.evalWith fun w => (ts w).readIn target i

variable {ts : Nat → Tensor Single} {e : ScalarExpr} {t : Tensor Single}

theorem yields_input (ts : Nat → Tensor Single) (w : Nat) : Yields ts (.input w) (ts w) :=
  ⟨fun target => by simp, fun target _ i _ => rfl⟩

theorem yields_constant (ts : Nat → Tensor Single) {x : Single} (hrank : t.rank = 0) (hitem : t.item? = some x) :
    Yields ts (.constant x) t := by
  have hshape : t.shape = [] := List.length_eq_zero_iff.1 hrank
  refine ⟨fun target => ?_, fun target _ i _ => Tensor.readIn_of_item? hitem target i⟩
  simp [hshape, Shape.nil_canBroadcast]

/-- An operator yields its expression, if its arguments yield theirs and it reads all of them. -/
theorem yields_of_combines {exprs : List ScalarExpr} {args : List (Tensor Single)}
    (hall : f.ReadsAll exprs.length) (he : f.expr? exprs = some e) (hargs : List.Forall₂ (Yields ts) exprs args)
    (h : Combines f.value args t) : Yields ts e t := by
  have hshape (target : List Nat) :
      canBroadcast t.shape target = true ↔ ∀ a ∈ args, canBroadcast a.shape target = true :=
    (h.shape target).trans List.forall_mem_map
  constructor
  · -- Broadcasting together what the arguments broadcast to is broadcasting together all that they read.
    intro target
    rw [hshape]
    constructor
    · intro hfit w hw
      obtain ⟨x, hx, hw⟩ := Fusable.mem_of_reads he hw
      obtain ⟨a, ha, hxa⟩ := exists_of_forall₂ hargs.flip hx
      exact ((hxa.shape target).1 (hfit a ha)) w hw
    · intro hfit a ha
      obtain ⟨x, hx, hxa⟩ := exists_of_forall₂ hargs ha
      exact (hxa.shape target).2 fun w hw => hfit w (Fusable.reads_of_mem hall he hx hw)
  · intro target htarget i hi
    have hvalues : args.map (·.readIn target i) = exprs.map (·.evalWith fun w => (ts w).readIn target i) := by
      rw [← List.forall₂_eq_eq_eq, List.forall₂_map_left_iff, List.forall₂_map_right_iff]
      refine (List.forall₂_iff_zip.2 ⟨hargs.length_eq.symm, fun {a x} hax => ?_⟩)
      have ha : a ∈ args := (List.of_mem_zip hax).1
      exact ((List.forall₂_zip hargs.flip hax).read target ((hshape target).1 htarget a ha) i hi)
    rw [h.readIn htarget hi, hvalues, Fusable.evalWith_of_expr? he]

/-! ## Expressions over numbered inputs -/

section Renumber

variable {inputs : List NodeId} (hnodup : inputs.Nodup) (hreads : ∀ w, e.Reads w ↔ w ∈ inputs)

include hnodup hreads in
theorem reads_renumber {i : Nat} : (renumber inputs e).Reads i ↔ i < inputs.length := by
  simp only [renumber, ScalarExpr.reads_mapInputs, hreads, ScalarExpr.reads_input]
  constructor
  · rintro ⟨w, hw, rfl⟩
    exact List.idxOf_lt_length_of_mem hw
  · intro hi
    exact ⟨inputs[i], List.getElem_mem hi, (hnodup.idxOf_getElem i hi).symm⟩

include hnodup hreads in
theorem numInputs_renumber : (renumber inputs e).numInputs = inputs.length := by
  refine Nat.le_antisymm (ScalarExpr.numInputs_le_iff.2 fun i hi => (reads_renumber hnodup hreads).1 hi) ?_
  by_contra hlt
  have hlast := (reads_renumber hnodup hreads).2 (Nat.lt_of_not_le hlt)
  exact Nat.lt_irrefl _ (ScalarExpr.numInputs_le_iff.1 (Nat.le_refl _) _ hlast)

include hreads in
theorem eval_renumber (x : NodeId → Single) : (renumber inputs e).eval (inputs.map x) = e.evalWith x := by
  rw [renumber, ScalarExpr.eval_eq, ScalarExpr.evalWith_mapInputs]
  refine ScalarExpr.evalWith_congr fun w hw => ?_
  have hlt := List.idxOf_lt_length_of_mem ((hreads w).1 hw)
  simp [ScalarExpr.evalWith, hlt]

include hreads in
/-- A fused operator returns what its expression yields. -/
theorem combines_renumber (h : Yields ts e t) :
    Combines (fun xs => (renumber inputs e).eval xs) (inputs.map ts) t := by
  constructor
  · intro target
    rw [h.shape target, List.map_map, List.forall_mem_map]
    exact forall_congr' fun w => imp_congr_left (hreads w)
  · intro i hi
    have hread := h.read t.shape (Shape.canBroadcast_refl t.shape) i hi
    rw [t.readIn_shape hi] at hread
    rw [hread, List.map_map]
    exact (eval_renumber hreads _).symm

end Renumber

/-! ## Values that agree with operators -/

/-- Whether the values of an operator's outputs are those that it computes from the values of its inputs. -/
def Agrees (op : OperatorNode) (values : NodeId → Option Value) : Prop :=
  ∃ xs ys, op.inputs.mapM values = some xs ∧ op.op.run xs = .ok ys ∧ ys.length = op.outputs.length ∧
    ∀ w x, (w, x) ∈ op.outputs.zip ys → values w = some x

variable {v : RewriteView} {values : NodeId → Option Value} {id reader output : NodeId} {u : Unfolding}
  {us : List Unfolding}

theorem exists_yields_output (houtputs : op.outputs = [output]) (hf : Fusable.ofOperator? op.op = some f)
    (hreads : op.ReadsInputs) (hinputs : f.Unfolds op.inputs us) (hexpr : f.expr? (us.map (·.expr)) = some e)
    (hagrees : Agrees op values) (hus : ∀ u ∈ us, ∃ t, values u.value = some (.floats t) ∧ Yields ts u.expr t) :
    ∃ t, values output = some (.floats t) ∧ Yields ts e t := by
  choose! tensor hvalue hyields using hus
  obtain ⟨xs, ys, hxs, hys, -, houts⟩ := hagrees
  have hargs : xs = (us.map tensor).map .floats := by
    refine List.map_injective_iff.2 (Option.some_injective _) ?_
    rw [← mapM_eq_some.1 hxs, ← hinputs.values, List.map_map, List.map_map, List.map_map]
    exact List.map_congr_left hvalue
  rw [hargs, Fusable.run_map_floats hf hreads (by rw [List.length_map, hinputs.length_eq])] at hys
  obtain ⟨t, rfl, ht⟩ := hys
  refine ⟨t, houts output (.floats t) (by simp [houtputs]), yields_of_combines ?_ hexpr ?_ ht⟩
  · rw [List.length_map, hinputs.length_eq]
    exact Fusable.readsAll hf hreads
  · rw [List.forall₂_map_left_iff, List.forall₂_map_right_iff, List.forall₂_same]
    exact hyields

theorem reads_output (hf : Fusable.ofOperator? op.op = some f) (hreads : op.ReadsInputs)
    (hinputs : f.Unfolds op.inputs us) (hexpr : f.expr? (us.map (·.expr)) = some e)
    (hus : ∀ u ∈ us, ∀ w ∈ u.reads, u.expr.Reads w) {w : NodeId} (hw : w ∈ us.flatMap (·.reads)) : e.Reads w := by
  obtain ⟨u, hu, hw⟩ := List.mem_flatMap.1 hw
  refine Fusable.reads_of_mem ?_ hexpr (List.mem_map_of_mem hu) (hus u hu w hw)
  rw [List.length_map, hinputs.length_eq]
  exact Fusable.readsAll hf hreads

/-- The expression reads all values at which unfolding stopped. -/
theorem Unfolds.reads_of_mem (hg : v.graph.Indexed)
    (hreads : ∀ a op, v.graph.operator? a = some op → op.ReadsInputs) (h : Unfolds v reader u) {w : NodeId}
    (hw : w ∈ u.reads) : u.expr.Reads w := by
  induction h generalizing w with
  | read reader value => exact ScalarExpr.reads_input.2 (List.mem_singleton.1 hw)
  | constant h => cases hw
  | absorbed h hinputs hus hexpr ih =>
    have habsorb := absorbable_of_eq_some hg h
    exact reads_output habsorb.fusable (hreads _ _ habsorb.operator) hinputs hexpr (fun u hu w hw => ih u hu hw) hw
  | refused h hinputs hus hexpr ih =>
    -- The operator has the right number of inputs.
    have habsorb := absorbable_of_eq_some hg h
    exact absurd hexpr (hinputs.expr?_ne_none habsorb.fusable (hreads _ _ habsorb.operator))

/-- A value that can be unfolded is the tensor that its expression yields. -/
theorem Unfolds.exists_yields (hg : v.graph.Indexed)
    (hreads : ∀ a op, v.graph.operator? a = some op → op.ReadsInputs) (h : Unfolds v reader u)
    (hread : ∀ w ∈ u.reads, values w = some (.floats (ts w)))
    (hconstant : ∀ w x, v.graph.constant? w = some x → values w = some x)
    (hagrees : ∀ a ∈ u.absorbed, ∀ op, v.graph.operator? a = some op → Agrees op values) :
    ∃ t, values u.value = some (.floats t) ∧ Yields ts u.expr t := by
  induction h with
  | read reader value => exact ⟨ts value, hread value (List.mem_singleton_self value), yields_input ts value⟩
  | constant h =>
    obtain ⟨t, ht, hrank, hitem⟩ := exists_of_scalarConstant? h
    exact ⟨t, hconstant _ _ ht, yields_constant ts hrank hitem⟩
  | @absorbed reader value id op f us e h hinputs hus hexpr ih =>
    have habsorb := absorbable_of_eq_some hg h
    refine exists_yields_output habsorb.outputs habsorb.fusable (hreads id op habsorb.operator) hinputs hexpr
      (hagrees id (List.mem_cons_self ..) op habsorb.operator) fun u hu => ih u hu (fun w hw => ?_) fun a ha => ?_
    · exact hread w (List.mem_flatMap.2 ⟨u, hu, hw⟩)
    · exact hagrees a (List.mem_cons_of_mem _ (List.mem_flatMap.2 ⟨u, hu, ha⟩))
  | refused h hinputs hus hexpr ih =>
    have habsorb := absorbable_of_eq_some hg h
    exact absurd hexpr (hinputs.expr?_ne_none habsorb.fusable (hreads _ _ habsorb.operator))

/-! ## Chains -/

namespace Chain

variable (c : Chain v id op)

theorem reads_iff (hg : v.graph.Indexed) (hop : v.graph.operator? id = some op)
    (hreads : ∀ a op, v.graph.operator? a = some op → op.ReadsInputs) (w : NodeId) :
    c.expr.Reads w ↔ w ∈ c.inputs := by
  rw [c.mem_inputs]
  constructor
  · intro hw
    obtain ⟨e, he, hw⟩ := Fusable.mem_of_reads c.args_expr hw
    obtain ⟨u, hu, rfl⟩ := List.mem_map.1 he
    exact List.mem_flatMap.2 ⟨u, hu, (c.args_unfolds u hu).mem_reads hw⟩
  · exact reads_output c.fusable (hreads id op hop) c.args_inputs c.args_expr fun u hu w hw =>
      (c.args_unfolds u hu).reads_of_mem hg hreads hw

/-- On float tensors for the values that the chain reads, the fused operator combines their elements. -/
theorem run_eq_ok (hg : v.graph.Indexed) (hop : v.graph.operator? id = some op)
    (hreads : ∀ a op, v.graph.operator? a = some op → op.ReadsInputs) {ys : List Value} :
    c.fusion.op.run ((c.inputs.map ts).map .floats) = .ok ys ↔
      ∃ t, ys = [.floats t] ∧ Combines (fun xs => (renumber c.inputs c.expr).eval xs) (c.inputs.map ts) t := by
  have hiff := c.reads_iff hg hop hreads
  have hnode : OperatorNode.ReadsInputs { name := none, inputs := c.inputs, outputs := [], op := c.fusion.op } := by
    have hcount := numInputs_renumber c.inputs_nodup hiff
    exact ⟨hcount.symm, fun i => (reads_renumber c.inputs_nodup hiff).trans (by rw [← hcount]; rfl)⟩
  exact Fusable.run_map_floats (f := .expression (renumber c.inputs c.expr)) rfl hnode (List.length_map _)

/-- If the values agree with all operators of the chain, then the output is what the fused operator returns. -/
theorem exists_run (hg : v.graph.Indexed) (hop : v.graph.operator? id = some op)
    (hreads : ∀ a op, v.graph.operator? a = some op → op.ReadsInputs)
    (hread : ∀ w ∈ c.inputs, values w = some (.floats (ts w)))
    (hconstant : ∀ w x, v.graph.constant? w = some x → values w = some x)
    (hagrees : ∀ a ∈ c.unfolding.absorbed, ∀ op, v.graph.operator? a = some op → Agrees op values) :
    ∃ t, values c.output = some (.floats t) ∧
      c.fusion.op.run ((c.inputs.map ts).map .floats) = .ok [.floats t] := by
  obtain ⟨t, ht, hyields⟩ := exists_yields_output c.outputs c.fusable (hreads id op hop) c.args_inputs c.args_expr
    (hagrees id (List.mem_cons_self ..) op hop) fun u hu => (c.args_unfolds u hu).exists_yields hg hreads
      (fun w hw => hread w ((c.mem_inputs w).2 (List.mem_flatMap.2 ⟨u, hu, hw⟩))) hconstant
      fun a ha => hagrees a (List.mem_cons_of_mem _ (List.mem_flatMap.2 ⟨u, hu, ha⟩))
  exact ⟨t, ht, (c.run_eq_ok hg hop hreads).2 ⟨t, rfl, combines_renumber (c.reads_iff hg hop hreads) hyields⟩⟩

end Chain

end Rules

end TensorGraph
