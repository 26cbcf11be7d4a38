import Mathlib.Data.List.Pairwise
import TensorGraph.Proofs.Graph.Edges
import TensorGraph.Proofs.Graph.Sorting

/-!
# Valid graphs

What a graph satisfies that passes validation (`Graph.WellFormed`): operators read and produce existing values,
every value has at most one producer, and the inputs of the graph have none. A graph whose edge indexes are right
passes exactly if it is well-formed and no value depends on itself (`validate_eq_ok`).
-/

namespace TensorGraph.Graph

variable {g : Graph}

/-- What validation checks, apart from the order of operators. -/
structure WellFormed (g : Graph) : Prop where
  reads : ∀ id op, g.operator? id = some op → ∀ v ∈ op.inputs, g.isReadable v = true
  produces : ∀ id op, g.operator? id = some op → ∀ v ∈ op.outputs, g.isValue v = true
  outputsNodup : ∀ id op, g.operator? id = some op → op.outputs.Nodup
  oneProducer : ∀ id op id' op' v, g.operator? id = some op → g.operator? id' = some op' →
    v ∈ op.outputs → v ∈ op'.outputs → id = id'
  inputs : ∀ v ∈ g.inputIds, g.isValue v = true
  inputsFree : ∀ v ∈ g.inputIds, ∀ id op, g.operator? id = some op → v ∉ op.outputs
  outputs : ∀ v ∈ g.outputIds, g.isReadable v = true

/-! ## Checks in a loop -/

/-- A loop that only checks succeeds if every check does. -/
theorem check_of_forIn {α ε : Type} {l : List α} {bad : α → Bool} {e : α → ε} {r : PUnit.{1}}
    (h : (forIn l PUnit.unit fun a _ => do
      if bad a then throw (e a)
      pure (ForInStep.yield PUnit.unit) : Except ε PUnit.{1}) = .ok r) : ∀ a ∈ l, bad a = false := by
  induction l with
  | nil => simp
  | cons a l ih =>
    rw [List.forIn_cons] at h
    obtain ⟨step, hstep, h⟩ := bind_eq_ok.1 h
    split at hstep
    · obtain ⟨_, hthrow, -⟩ := bind_eq_ok.1 hstep
      cases hthrow
    · next hgood =>
      cases hstep
      exact List.forall_mem_cons.2 ⟨Bool.eq_false_iff.2 hgood, ih h⟩

/-! ## Producers -/

/-- Records the producer of an output. -/
def addProducer (g : Graph) (id : NodeId) (producers : IdMap NodeId) (output : NodeId) :
    Except PlanningFault (IdMap NodeId) := do
  if !g.isValue output then throw (.producesNoValue (g.nodeName output) (g.nodeName id))
  if let some other := producers.get? output then
    throw (.twoProducers (g.nodeName output) (g.nodeName other) (g.nodeName id))
  return producers.insert output id

theorem addProducer_eq_ok {id output : NodeId} {before after : IdMap NodeId}
    (h : g.addProducer id before output = .ok after) :
    g.isValue output = true ∧ before.get? output = none ∧ after = before.insert output id := by
  unfold addProducer at h
  dsimp only at h
  split at h
  · obtain ⟨_, hthrow, -⟩ := bind_eq_ok.1 h
    cases hthrow
  · next hvalue =>
    split at h
    · obtain ⟨_, hthrow, -⟩ := bind_eq_ok.1 h
      cases hthrow
    · next hnone =>
      cases h
      rw [Bool.not_eq_true', Bool.not_eq_false] at hvalue
      exact ⟨hvalue, Option.eq_none_iff_forall_ne_some.2 hnone, rfl⟩

theorem addProducers_eq_ok {id : NodeId} {outputs : List NodeId} {before after : IdMap NodeId}
    (h : outputs.foldlM (g.addProducer id) before = .ok after) :
    outputs.Nodup ∧ (∀ v ∈ outputs, g.isValue v = true ∧ before.get? v = none) ∧
      ∀ v, (after.get? v).isSome ↔ (before.get? v).isSome ∨ v ∈ outputs := by
  induction outputs generalizing before with
  | nil =>
    cases h
    simp
  | cons output outputs ih =>
    obtain ⟨next, hnext, h⟩ := bind_eq_ok.1 h
    obtain ⟨hvalue, hnone, rfl⟩ := addProducer_eq_ok hnext
    obtain ⟨hnodup, hfree, hafter⟩ := ih h
    have hne : ∀ v ∈ outputs, v ≠ output := by
      rintro v hv rfl
      have := (hfree v hv).2
      simp [IdMap.get?_insert] at this
    refine ⟨List.nodup_cons.2 ⟨fun hmem => hne output hmem rfl, hnodup⟩,
      List.forall_mem_cons.2 ⟨⟨hvalue, hnone⟩, fun v hv => ?_⟩, fun v => ?_⟩
    · have := hfree v hv
      rwa [IdMap.get?_insert, if_neg (hne v hv)] at this
    · rw [hafter, IdMap.get?_insert, List.mem_cons]
      by_cases hv : v = output
      · simp [hv]
      · simp [hv]

theorem validateOperator_eq_ok {id : NodeId} {op : OperatorNode} {before after : IdMap NodeId}
    (h : g.validateOperator before id op = .ok after) : (∀ v ∈ op.inputs, g.isReadable v = true) ∧
      op.outputs.foldlM (g.addProducer id) before = .ok after := by
  obtain ⟨r, hreads, h⟩ := bind_eq_ok.1 h
  refine ⟨fun v hv => ?_, h⟩
  simpa using check_of_forIn hreads v hv

theorem validateOperators_eq_ok {ops : List (NodeId × OperatorNode)} {before after : IdMap NodeId}
    (h : ops.foldlM (fun producers (p : NodeId × OperatorNode) => g.validateOperator producers p.1 p.2) before =
      .ok after) :
    (∀ p ∈ ops, (∀ v ∈ p.2.inputs, g.isReadable v = true) ∧ p.2.outputs.Nodup ∧
      ∀ v ∈ p.2.outputs, g.isValue v = true ∧ before.get? v = none) ∧
      ops.Pairwise (fun p q => ∀ v ∈ p.2.outputs, v ∉ q.2.outputs) ∧
      ∀ v, (after.get? v).isSome ↔ (before.get? v).isSome ∨ ∃ p ∈ ops, v ∈ p.2.outputs := by
  induction ops generalizing before with
  | nil =>
    cases h
    simp
  | cons p ops ih =>
    obtain ⟨next, hnext, h⟩ := bind_eq_ok.1 h
    obtain ⟨hreads, hadd⟩ := validateOperator_eq_ok hnext
    obtain ⟨hnodup, hfree, hnext⟩ := addProducers_eq_ok hadd
    obtain ⟨hall, hpairs, hafter⟩ := ih h
    have hkeep {q : NodeId × OperatorNode} (hq : q ∈ ops) {v : NodeId} (hv : v ∈ q.2.outputs) :
        before.get? v = none ∧ v ∉ p.2.outputs := by
      have hnone : ¬(next.get? v).isSome := by simp [((hall q hq).2.2 v hv).2]
      rw [hnext v, not_or] at hnone
      exact ⟨by simpa using hnone.1, hnone.2⟩
    refine ⟨List.forall_mem_cons.2 ⟨⟨hreads, hnodup, hfree⟩, fun q hq => ?_⟩, List.pairwise_cons.2
      ⟨fun q hq v hv hv' => (hkeep hq hv').2 hv, hpairs⟩, fun v => ?_⟩
    · obtain ⟨hreads, hnodup, hvalues⟩ := hall q hq
      exact ⟨hreads, hnodup, fun v hv => ⟨(hvalues v hv).1, (hkeep hq hv).1⟩⟩
    · rw [hafter, hnext]
      simp [or_assoc]

theorem wellFormed_of_validate (h : g.validate = .ok ()) : g.WellFormed := by
  obtain ⟨producers, hproducers, h⟩ := bind_eq_ok.1 h
  obtain ⟨_, hinputs, h⟩ := bind_eq_ok.1 h
  obtain ⟨_, houtputs, -⟩ := bind_eq_ok.1 h
  obtain ⟨hall, hpairs, hafter⟩ := validateOperators_eq_ok hproducers
  have hinput : ∀ v ∈ g.inputIds, g.isValue v = true ∧ producers.get? v = none := by
    intro v hv
    simpa [IdMap.contains] using check_of_forIn hinputs v hv
  refine ⟨fun id op hop => (hall _ (mem_operators.2 hop)).1, fun id op hop v hv =>
    ((hall _ (mem_operators.2 hop)).2.2 v hv).1, fun id op hop => (hall _ (mem_operators.2 hop)).2.1,
    fun id op id' op' v hop hop' hv hv' => ?_, fun v hv => (hinput v hv).1, fun v hv id op hop hmem => ?_,
    fun v hv => by simpa using check_of_forIn houtputs v hv⟩
  · refine Decidable.byContradiction fun hne => ?_
    have : Std.Symm fun p q : NodeId × OperatorNode => ∀ v ∈ p.2.outputs, v ∉ q.2.outputs :=
      ⟨fun p q hpq v hv hv' => hpq v hv' hv⟩
    exact hpairs.forall (mem_operators.2 hop) (mem_operators.2 hop') (fun heq => hne (congrArg Prod.fst heq)) v hv hv'
  · have hsome := (hafter v).2 (.inr ⟨_, mem_operators.2 hop, hmem⟩)
    rw [(hinput v hv).2] at hsome
    cases hsome

/-! ## Checks that succeed -/

/-- A loop that only checks succeeds if every check does. -/
theorem forIn_of_check {α ε : Type} {l : List α} {bad : α → Bool} {e : α → ε} (h : ∀ a ∈ l, bad a = false) :
    (forIn l PUnit.unit fun a _ => do
      if bad a then throw (e a)
      pure (ForInStep.yield PUnit.unit) : Except ε PUnit.{1}) = .ok PUnit.unit := by
  induction l with
  | nil => rfl
  | cons a l ih =>
    obtain ⟨ha, hl⟩ := List.forall_mem_cons.1 h
    rw [List.forIn_cons, ha]
    exact ih hl

theorem addProducer_of_free {id output : NodeId} {before : IdMap NodeId} (hvalue : g.isValue output = true)
    (hfree : before.get? output = none) :
    g.addProducer id before output = .ok (before.insert output id) := by
  unfold addProducer
  simp [hvalue, hfree]
  rfl

theorem exists_addProducers {id : NodeId} {outputs : List NodeId} {before : IdMap NodeId} (hnodup : outputs.Nodup)
    (hfree : ∀ v ∈ outputs, g.isValue v = true ∧ before.get? v = none) :
    ∃ after, outputs.foldlM (g.addProducer id) before = .ok after := by
  induction outputs generalizing before with
  | nil => exact ⟨before, rfl⟩
  | cons output outputs ih =>
    obtain ⟨hnot, hnodup⟩ := List.nodup_cons.1 hnodup
    obtain ⟨⟨hvalue, hnone⟩, hrest⟩ := List.forall_mem_cons.1 hfree
    rw [List.foldlM_cons, addProducer_of_free hvalue hnone]
    refine ih hnodup fun v hv => ⟨(hrest v hv).1, ?_⟩
    rw [IdMap.get?_insert, if_neg (by rintro rfl; exact hnot hv)]
    exact (hrest v hv).2

theorem exists_validateOperators {ops : List (NodeId × OperatorNode)} {before : IdMap NodeId}
    (hall : ∀ p ∈ ops, (∀ v ∈ p.2.inputs, g.isReadable v = true) ∧ p.2.outputs.Nodup ∧
      ∀ v ∈ p.2.outputs, g.isValue v = true ∧ before.get? v = none)
    (hpairs : ops.Pairwise (fun p q => ∀ v ∈ p.2.outputs, v ∉ q.2.outputs)) :
    ∃ after, ops.foldlM (fun producers (p : NodeId × OperatorNode) => g.validateOperator producers p.1 p.2) before =
      .ok after := by
  induction ops generalizing before with
  | nil => exact ⟨before, rfl⟩
  | cons p ops ih =>
    obtain ⟨⟨hreads, hnodup, hfree⟩, hrest⟩ := List.forall_mem_cons.1 hall
    obtain ⟨hhead, hpairs⟩ := List.pairwise_cons.1 hpairs
    obtain ⟨next, hnext⟩ : ∃ next, p.2.outputs.foldlM (g.addProducer p.1) before = .ok next :=
      exists_addProducers hnodup hfree
    have hoperator : g.validateOperator before p.1 p.2 = .ok next := by
      refine bind_eq_ok.2 ⟨_, forIn_of_check fun v hv => ?_, hnext⟩
      simpa using hreads v hv
    rw [List.foldlM_cons, hoperator]
    refine ih (fun q hq => ⟨(hrest q hq).1, (hrest q hq).2.1, fun v hv => ⟨((hrest q hq).2.2 v hv).1, ?_⟩⟩) hpairs
    have hnot : ¬(next.get? v).isSome := by
      rw [(addProducers_eq_ok hnext).2.2 v, ((hrest q hq).2.2 v hv).2]
      simpa using fun hv' => hhead q hq v hv' hv
    simpa using hnot

theorem validate_of_wellFormed (h : g.WellFormed) {order : List NodeId} (horder : g.topologicalOrder = .ok order) :
    g.validate = .ok () := by
  have hpairs : g.operators.Pairwise (fun p q => ∀ v ∈ p.2.outputs, v ∉ q.2.outputs) := by
    refine (List.pairwise_map.1 (nodup_operators g)).imp_of_mem fun {p q} hp hq hne v hv hv' => hne ?_
    exact h.oneProducer p.1 p.2 q.1 q.2 v (mem_operators.1 hp) (mem_operators.1 hq) hv hv'
  obtain ⟨producers, hproducers⟩ := exists_validateOperators (fun p hp => ⟨h.reads p.1 p.2 (mem_operators.1 hp),
    h.outputsNodup p.1 p.2 (mem_operators.1 hp), fun v hv =>
      ⟨h.produces p.1 p.2 (mem_operators.1 hp) v hv, IdMap.get?_empty v⟩⟩) hpairs
  refine bind_eq_ok.2 ⟨producers, hproducers, bind_eq_ok.2 ⟨_, forIn_of_check fun v hv => ?_,
    bind_eq_ok.2 ⟨_, forIn_of_check fun v hv => ?_, ?_⟩⟩⟩
  · have hfree : ¬(producers.get? v).isSome := by
      rw [(validateOperators_eq_ok hproducers).2.2 v, IdMap.get?_empty]
      simpa using fun id op hop => h.inputsFree v hv id op (mem_operators.1 hop)
    simpa [h.inputs v hv, IdMap.contains] using hfree
  · simpa using h.outputs v hv
  · rw [horder]
    rfl

/-! ## Well-formed graphs -/

/-- What well-formedness says about the values that operators read and produce. -/
theorem wellFormed_iff (hg : g.Indexed) : g.WellFormed ↔
    (∀ id, ∀ v ∈ g.inputsOf id, g.isReadable v = true) ∧ (∀ id, ∀ v ∈ g.outputsOf id, g.isValue v = true) ∧
    (∀ id, (g.outputsOf id).Nodup) ∧ (∀ v ∈ g.inputIds, g.isValue v = true ∧ ∀ id, v ∉ g.outputsOf id) ∧
    ∀ v ∈ g.outputIds, g.isReadable v = true := by
  constructor
  · intro h
    refine ⟨fun id v hv => ?_, fun id v hv => ?_, fun id => ?_, fun v hv => ⟨h.inputs v hv, fun id hid => ?_⟩,
      h.outputs⟩
    · obtain ⟨op, hop, hv⟩ := mem_inputsOf.1 hv
      exact h.reads id op hop v hv
    · obtain ⟨op, hop, hv⟩ := mem_outputsOf.1 hv
      exact h.produces id op hop v hv
    · cases hop : g.operator? id with
      | none => simp [outputsOf, hop]
      | some op => simpa [outputsOf, hop] using h.outputsNodup id op hop
    · obtain ⟨op, hop, hv'⟩ := mem_outputsOf.1 hid
      exact h.inputsFree v hv id op hop hv'
  · rintro ⟨hreads, hproduces, hnodup, hinputs, houtputs⟩
    refine ⟨fun id op hop v hv => hreads id v (mem_inputsOf.2 ⟨op, hop, hv⟩),
      fun id op hop v hv => hproduces id v (mem_outputsOf.2 ⟨op, hop, hv⟩),
      fun id op hop => outputsOf_of_operator? hop ▸ hnodup id,
      fun id op id' op' v hop hop' hv hv' =>
        hg.producer_unique (mem_outputsOf.2 ⟨op, hop, hv⟩) (mem_outputsOf.2 ⟨op', hop', hv'⟩),
      fun v hv => (hinputs v hv).1,
      fun v hv id op hop hv' => (hinputs v hv).2 id (mem_outputsOf.2 ⟨op, hop, hv'⟩), houtputs⟩

/-- A graph passes validation exactly if it is well-formed and no value depends on itself. -/
theorem validate_eq_ok (hg : g.Indexed) : g.validate = .ok () ↔ g.WellFormed ∧ g.Acyclic := by
  constructor
  · intro h
    have hformed := wellFormed_of_validate h
    obtain ⟨_, -, h⟩ := bind_eq_ok.1 h
    obtain ⟨_, -, h⟩ := bind_eq_ok.1 h
    obtain ⟨_, -, h⟩ := bind_eq_ok.1 h
    obtain ⟨order, horder, -⟩ := bind_eq_ok.1 h
    exact ⟨hformed, (exists_topologicalOrder hg ((wellFormed_iff hg).1 hformed).2.2.1).1 ⟨order, horder⟩⟩
  · rintro ⟨hformed, hacyclic⟩
    obtain ⟨order, horder⟩ := (exists_topologicalOrder hg ((wellFormed_iff hg).1 hformed).2.2.1).2 hacyclic
    exact validate_of_wellFormed hformed horder

end TensorGraph.Graph
