import Mathlib
import TensorGraph.Proofs.Graph.Changes
import TensorGraph.Proofs.Graph.Inference
import TensorGraph.Proofs.Graph.Validity

/-!
# Annotated graphs

Annotating a graph with what was inferred changes declared shapes and types only. Inference reads them where a value
has no producer, and where an operator leaves something of its outputs unknown; there annotation has written down what
was declared before. So inference of an annotated graph finds the same again, and annotating it again changes nothing
(`infer_annotate`), as long as the producers of all outputs are recorded. Otherwise outputs also start out as what they
are declared to be, and operators can be inferred before the producers of their inputs (`infer_annotate_detached`).
-/

namespace TensorGraph

namespace Dimension

/-- Whether a fixed size is at most as large as the largest word. -/
def FitsWord : Dimension → Prop
  | .fixed size => size ≤ 2147483647
  | .symbolic _ => True

instance : DecidablePred FitsWord
  | .fixed size => inferInstanceAs (Decidable (size ≤ 2147483647))
  | .symbolic _ => inferInstanceAs (Decidable True)

/-- Inference reads back what annotation writes for a declared dimension. -/
theorem ofSizeExpr_sizeExpr {d : Dimension} (h : d.FitsWord) : ofSizeExpr d.sizeExpr = d := by
  cases d with
  | fixed size =>
    have hsize : size ≤ 2147483647 := h
    have hsaturated : Word.saturate size = Int32.ofInt size := by
      rw [Word.saturate]
      congr 1
      omega
    have hword : (Int32.ofInt size).toInt = size := Int32.toInt_ofInt_of_le (by omega) (by omega)
    simp only [sizeExpr, ofSizeExpr, Word.toCount?, hsaturated, hword]
    rw [if_pos (Int.natCast_nonneg size)]
    rfl
  | symbolic name => rfl

end Dimension

namespace Graph

variable {g : Graph} {strict : Bool} {f f₁ f₂ : InferredFacts} {s s₁ : SymbolSupply} {id v : NodeId} {n : ValueNode}

/-! ## Annotated nodes -/

/-- A node after a change of value nodes. -/
def changedNode (h : ValueNode → ValueNode) : Node → Node
  | .value n => .value (h n)
  | node => node

/-- A value with what was inferred about it. -/
def annotatedValue (f : InferredFacts) (id : NodeId) (n : ValueNode) : ValueNode :=
  { n with shape := f.dims? id <|> n.shape, type := f.type? id <|> n.type }

/-- A node with what was inferred, if it is a value and not an input of the graph. -/
def annotatedNode (inputIds : List NodeId) (f : InferredFacts) (id : NodeId) (node : Node) : Node :=
  if id ∈ inputIds then node else changedNode (annotatedValue f id) node

/-- A change of a value as a change of the array of nodes, which composes with others. -/
theorem modifyValue_eq (g : Graph) (id : NodeId) (h : ValueNode → ValueNode) : g.modifyValue id h =
    { g with nodes := g.nodes.mapIdx fun i node => if i = id then node.map (changedNode h) else node } := by
  unfold modifyValue
  split
  · next n hn =>
    refine congrArg (fun nodes => { g with nodes }) (Array.ext_getElem? fun i => ?_)
    have hentry : g.nodes[id]? = some (some (.value n)) := Option.join_eq_some_iff.1 hn
    rw [Array.getElem?_setIfInBounds, Array.getElem?_mapIdx]
    by_cases hi : id = i
    · subst hi
      obtain ⟨hlt, -⟩ := Array.getElem?_eq_some_iff.1 hentry
      rw [if_pos rfl, if_pos hlt, hentry, Option.map_some, if_pos rfl]
      rfl
    · simp only [if_neg hi, if_neg (Ne.symm hi), Option.map_id']
  · next hnot =>
    refine congrArg (fun nodes => { g with nodes }) (Array.ext_getElem? fun i => ?_)
    rw [Array.getElem?_mapIdx]
    by_cases hi : i = id
    · subst hi
      rcases hentry : g.nodes[i]? with _ | _ | _ | _ | n
      · rfl
      · simp
      · simp [changedNode]
      · simp [changedNode]
      · exact (hnot n (Option.join_eq_some_iff.2 hentry)).elim
    · simp only [if_neg hi, Option.map_id']

theorem foldl_modifyValue (g : Graph) (h : NodeId → ValueNode → ValueNode) {ids : List NodeId} (hnodup : ids.Nodup) :
    ids.foldl (fun g id => g.modifyValue id (h id)) g =
      { g with nodes := g.nodes.mapIdx fun i node => if i ∈ ids then node.map (changedNode (h i)) else node } := by
  induction ids generalizing g with
  | nil =>
    refine congrArg (fun nodes => { g with nodes }) (Array.ext_getElem? fun i => ?_)
    simp
  | cons id ids ih =>
    obtain ⟨hid, hnodup⟩ := List.nodup_cons.1 hnodup
    rw [List.foldl_cons, ih _ hnodup, modifyValue_eq]
    dsimp only
    rw [Array.mapIdx_mapIdx]
    congr 2
    funext i node
    dsimp only [Function.comp_def]
    by_cases hi : i = id
    · subst hi
      rw [if_neg hid, if_pos rfl, if_pos List.mem_cons_self]
    · simp only [List.mem_cons, hi, false_or, if_false]

theorem annotate_eq (g : Graph) (f : InferredFacts) : g.annotate f =
    { g with nodes := g.nodes.mapIdx fun id node => node.map (annotatedNode g.inputIds f id) } := by
  have hnodup : (g.ids.filter fun id => g.isValue id && !g.inputIds.contains id).Nodup :=
    (List.nodup_range.filter _).filter _
  refine (foldl_modifyValue g (annotatedValue f) hnodup).trans ?_
  refine congrArg (fun nodes => { g with nodes }) (Array.ext_getElem? fun i => ?_)
  rw [Array.getElem?_mapIdx, Array.getElem?_mapIdx]
  rcases hentry : g.nodes[i]? with _ | _ | node
  · rfl
  · simp
  · have hnode : g.node? i = some node := by
      rw [node?, hentry]
      rfl
    have hmem : i ∈ g.ids.filter (fun id => g.isValue id && !g.inputIds.contains id) ↔
        node.isValue = true ∧ i ∉ g.inputIds := by
      simp [mem_ids, isValue, hnode]
    simp only [hmem, Option.map_some, annotatedNode]
    by_cases hi : i ∈ g.inputIds
    · simp [hi]
    · cases node <;> simp [hi, Node.isValue, changedNode]

theorem node?_annotate (g : Graph) (f : InferredFacts) (id : NodeId) :
    (g.annotate f).node? id = (g.node? id).map (annotatedNode g.inputIds f id) := by
  rw [annotate_eq, node?, node?, Array.getElem?_mapIdx]
  rcases g.nodes[id]? with _ | _ | node <;> rfl

section Annotate

variable (g f id)

theorem operator?_annotatedNode (inputIds : List NodeId) (node : Node) :
    (annotatedNode inputIds f id node).operator? = node.operator? := by
  unfold annotatedNode
  split
  · rfl
  · cases node <;> rfl

theorem name?_annotatedNode (inputIds : List NodeId) (node : Node) :
    (annotatedNode inputIds f id node).name? = node.name? := by
  unfold annotatedNode
  split
  · rfl
  · cases node <;> rfl

theorem operator?_annotate : (g.annotate f).operator? id = g.operator? id := by
  unfold operator?
  rw [node?_annotate]
  cases g.node? id with
  | none => rfl
  | some node => exact operator?_annotatedNode f id g.inputIds node

theorem nodeName_annotate : (g.annotate f).nodeName id = g.nodeName id := by
  unfold nodeName
  rw [node?_annotate]
  cases g.node? id with
  | none => rfl
  | some node => exact congrArg (Option.getD · _) (name?_annotatedNode f id g.inputIds node)

theorem ids_annotate : (g.annotate f).ids = g.ids := by
  have hsize : (g.annotate f).nodes.size = g.nodes.size := by rw [annotate_eq, Array.size_mapIdx]
  simp only [ids, hsize, node?_annotate, Option.isSome_map]

theorem source?_annotate : (g.annotate f).source? id = g.source? id := by
  simp only [source?, operator?_annotate]
  rw [annotate_eq]

theorem consumersOf_annotate : (g.annotate f).consumersOf id = g.consumersOf id := by
  rw [annotate_eq]
  rfl

theorem sortReady_annotate (fuel : Nat) (ready : List NodeId) (pending : IdMap Nat) :
    (g.annotate f).sortReady fuel ready pending = g.sortReady fuel ready pending := by
  induction fuel generalizing ready pending with
  | zero => rfl
  | succ fuel ih =>
    cases ready with
    | nil => rfl
    | cons id ready =>
      have hconsumers : (g.annotate f).consumersOf = g.consumersOf := funext (consumersOf_annotate g f)
      simp only [sortReady, operator?_annotate, hconsumers, ih]

/-- Annotation does not change the order of operators. -/
theorem topologicalOrder_annotate : (g.annotate f).topologicalOrder = g.topologicalOrder := by
  simp only [topologicalOrder, operators, operatorCount, operatorIds, pendingCount, ids_annotate, operator?_annotate,
    source?_annotate, sortReady_annotate, nodeName_annotate]

end Annotate

/-- Annotating again with the same facts changes nothing. -/
theorem annotate_annotate (g : Graph) (f : InferredFacts) : (g.annotate f).annotate f = g.annotate f := by
  have hvalue (id : NodeId) (n : ValueNode) : annotatedValue f id (annotatedValue f id n) = annotatedValue f id n := by
    simp only [annotatedValue]
    cases f.dims? id <;> cases f.type? id <;> rfl
  have hnode (id : NodeId) (node : Node) : annotatedNode g.inputIds f id (annotatedNode g.inputIds f id node) =
      annotatedNode g.inputIds f id node := by
    unfold annotatedNode
    split
    · rfl
    · cases node with
      | value n => exact congrArg Node.value (hvalue id n)
      | _ => rfl
  rw [annotate_eq (g.annotate f), annotate_eq g]
  dsimp only
  rw [Array.mapIdx_mapIdx]
  simp only [Function.comp_def, Option.map_map, hnode]

/-! ## Operators -/

/-- An operator changes nothing of what is known of values that it does not produce. -/
theorem inferOperator_other (hdraws : Draws (g.inferOperator strict f₁ id) s₁ f₂ s) (hv : v ∉ g.outputsOf id) :
    f₂.facts.get? v = f₁.facts.get? v ∧ f₂.types.get? v = f₁.types.get? v := by
  unfold inferOperator at hdraws
  split at hdraws
  · obtain ⟨rfl, rfl⟩ := draws_pure.1 hdraws
    exact ⟨rfl, rfl⟩
  · next op hop =>
    obtain ⟨outs, _, -, hrecord⟩ := draws_bind.1 hdraws
    obtain ⟨rfl, -⟩ := draws_pure.1 hrecord
    rw [outputsOf_of_operator? hop] at hv
    exact recordOutputs_other f₁ op outs hv

theorem foldlM_inferOperator_other {ids : List NodeId}
    (hdraws : Draws (ids.foldlM (g.inferOperator strict) f₁) s₁ f₂ s) (hv : ∀ id ∈ ids, v ∉ g.outputsOf id) :
    f₂.facts.get? v = f₁.facts.get? v ∧ f₂.types.get? v = f₁.types.get? v := by
  induction ids generalizing f₁ s₁ with
  | nil =>
    obtain ⟨rfl, -⟩ := draws_pure.1 hdraws
    exact ⟨rfl, rfl⟩
  | cons id ids ih =>
    obtain ⟨hid, hids⟩ := List.forall_mem_cons.1 hv
    rw [List.foldlM_cons] at hdraws
    obtain ⟨f', s', hfirst, hrest⟩ := draws_bind.1 hdraws
    obtain ⟨hfacts, htypes⟩ := inferOperator_other hfirst hid
    obtain ⟨hfacts', htypes'⟩ := ih hrest hids
    exact ⟨hfacts'.trans hfacts, htypes'.trans htypes⟩

/-! ## What is declared after annotation -/

/-- Whether all fixed sizes that are declared for values fit in a word. -/
def SizesFit (g : Graph) : Prop := ∀ id ∈ g.ids, ∀ d ∈ (g.declaredShape? id).getD [], d.FitsWord

instance (g : Graph) : Decidable g.SizesFit :=
  inferInstanceAs (Decidable (∀ id ∈ g.ids, ∀ d ∈ (g.declaredShape? id).getD [], d.FitsWord))

theorem SizesFit.fitsWord (h : g.SizesFit) (hn : g.node? id = some (.value n)) {dims : List Dimension}
    (hdims : n.shape = some dims) {d : Dimension} (hd : d ∈ dims) : d.FitsWord := by
  refine h id (mem_ids.2 (by rw [hn]; rfl)) d ?_
  simpa only [declaredShape?, hn, hdims, Option.getD_some] using hd

/-- Whether a producer is recorded for every value that operators produce. -/
def SourcesKnown (g : Graph) : Prop := ∀ e ∈ g.operators, ∀ v ∈ e.2.outputs, (g.source? v).isSome

instance (g : Graph) : Decidable g.SourcesKnown :=
  inferInstanceAs (Decidable (∀ e ∈ g.operators, ∀ v ∈ e.2.outputs, (g.source? v).isSome))

theorem SourcesKnown.source? (h : g.SourcesKnown) (hv : v ∈ g.outputsOf id) : (g.source? v).isSome := by
  obtain ⟨op, hop, hmem⟩ := mem_outputsOf.1 hv
  exact h (id, op) (mem_operators.2 hop) v hmem

/-- Facts that repeat the declared shape are annotated as the declared shape. -/
theorem dims?_of_declared (hsizes : g.SizesFit) (hn : g.node? id = some (.value n))
    (hfacts : ∀ t, f.facts.get? id = some t → t = .ofDeclared n.shape) : (f.dims? id <|> n.shape) = n.shape := by
  unfold InferredFacts.dims? InferredFacts.get?
  cases ht : f.facts.get? id with
  | none => rfl
  | some t =>
    obtain rfl := hfacts t ht
    cases hshape : n.shape with
    | none => rfl
    | some dims =>
      have hdims : (dims.map Dimension.sizeExpr).map Dimension.ofSizeExpr = dims := by
        rw [List.map_map]
        refine (List.map_congr_left fun d hd => ?_).trans (List.map_id dims)
        exact Dimension.ofSizeExpr_sizeExpr (hsizes.fitsWord hn hshape hd)
      exact congrArg some hdims

theorem exists_value (h : g.isValue id = true) : ∃ n, g.node? id = some (.value n) := by
  unfold isValue at h
  rcases hnode : g.node? id with _ | _ | _ | n
  · simp [hnode] at h
  · simp [hnode, Node.isValue] at h
  · simp [hnode, Node.isValue] at h
  · exact ⟨n, rfl⟩

/-- What an operator leaves unknown of an output is declared after annotation as it was before. -/
theorem recordedFacts_annotated (hsizes : g.SizesFit) (hn : g.node? id = some (.value n)) {t? : Option TensorFacts}
    (hfacts : f.facts.get? id = some (recordedFacts n.shape t?)) :
    recordedFacts (f.dims? id <|> n.shape) t? = recordedFacts n.shape t? := by
  have hdeclared (h : recordedFacts n.shape t? = .ofDeclared n.shape) : (f.dims? id <|> n.shape) = n.shape :=
    dims?_of_declared hsizes hn fun t ht => (Option.some.inj (ht.symm.trans hfacts)).trans h
  cases t? with
  | none => rw [hdeclared rfl]
  | some t =>
    cases hunknown : t.isUnknown with
    | true => rw [hdeclared (by rw [recordedFacts, if_pos hunknown])]
    | false => simp [recordedFacts, hunknown]

/-- If an operator's outputs are known in the end as they are recorded, then annotation does not change what is
recorded. -/
theorem recordOutputs_annotate (hwell : g.WellFormed) (hsizes : g.SizesFit) {op : OperatorNode}
    (hop : g.operator? id = some op) {outs : List TensorFacts} (hfree : ∀ v ∈ op.outputs, f₁.types.get? v = none)
    (hkept : ∀ v ∈ op.outputs, f.facts.get? v = (g.recordOutputs f₁ op outs).facts.get? v ∧
      f.types.get? v = (g.recordOutputs f₁ op outs).types.get? v) :
    (g.annotate f).recordOutputs f₁ op outs = g.recordOutputs f₁ op outs := by
  rw [recordOutputs_eq, recordOutputs_eq]
  refine List.foldl_ext _ _ _ fun f' e he => ?_
  have hmem : e.1 ∈ op.outputs := List.fst_mem_of_mem_zipIdx he
  obtain ⟨n, hn⟩ := exists_value (hwell.produces id op hop e.1 hmem)
  have hinput : e.1 ∉ g.inputIds := fun h => hwell.inputsFree e.1 h id op hop hmem
  have hannotated : (g.annotate f).node? e.1 = some (.value (annotatedValue f e.1 n)) := by
    rw [node?_annotate, hn, Option.map_some, annotatedNode, if_neg hinput]
    rfl
  -- What is known in the end of the output is what is recorded here, as nothing else records it.
  obtain ⟨hfacts, htypes⟩ := hkept e.1 hmem
  obtain ⟨hrecorded, hrecordedType⟩ := recordOutputs_output f₁ outs (hwell.outputsNodup id op hop) he
  rw [hrecorded] at hfacts
  rw [hrecordedType, hfree e.1 hmem] at htypes
  simp only [recordedFactsAt, declaredShape?, recordedTypeAt?, hn, hannotated, annotatedValue, Option.bind_some,
    Node.type?] at hfacts htypes ⊢
  rw [recordedFacts_annotated hsizes hn hfacts, InferredFacts.type?, htypes]
  congr 1
  cases (op.op.outputTypes (op.inputs.map f₁.type?))[e.2]?.join <;> cases n.type <;> rfl

theorem ruleFacts_annotate (op : OperatorNode) (inputs : List TensorFacts) :
    (g.annotate f).ruleFacts strict id op inputs = g.ruleFacts strict id op inputs := by
  simp only [ruleFacts, nodeName_annotate]

/-- Inference of the remaining operators gives the same for the graph that is annotated with all that it finds. The
induction is on the operators that are left; what is known in the end stays fixed. -/
theorem foldlM_inferOperator_annotate (hwell : g.WellFormed) (hsizes : g.SizesFit) {ids : List NodeId}
    (hnodup : ids.Nodup) (hfree : ∀ id ∈ ids, ∀ v ∈ g.outputsOf id, f₁.types.get? v = none)
    (hdraws : Draws (ids.foldlM (g.inferOperator strict) f₁) s₁ f s) :
    Draws (ids.foldlM ((g.annotate f).inferOperator strict) f₁) s₁ f s := by
  induction ids generalizing f₁ s₁ with
  | nil => exact hdraws
  | cons id ids ih =>
    obtain ⟨hid, hnodup⟩ := List.nodup_cons.1 hnodup
    obtain ⟨hfirstFree, hrestFree⟩ := List.forall_mem_cons.1 hfree
    rw [List.foldlM_cons] at hdraws ⊢
    obtain ⟨f₂, s₂, hfirst, hrest⟩ := draws_bind.1 hdraws
    -- No later operator produces what this one does, and this one nothing that a later one does.
    have hapart : ∀ other ∈ ids, ∀ v ∈ g.outputsOf id, v ∉ g.outputsOf other := by
      intro other hother v hv hv'
      obtain ⟨op, hop, hmem⟩ := mem_outputsOf.1 hv
      obtain ⟨op', hop', hmem'⟩ := mem_outputsOf.1 hv'
      exact hid (hwell.oneProducer id op other op' v hop hop' hmem hmem' ▸ hother)
    refine draws_bind.2 ⟨f₂, s₂, ?_, ih hnodup (fun other hother v hv => ?_) hrest⟩
    · unfold inferOperator at hfirst ⊢
      rw [operator?_annotate]
      split at hfirst
      · exact hfirst
      · next op hop =>
        obtain ⟨outs, s', houts, hrecord⟩ := draws_bind.1 hfirst
        obtain ⟨rfl, rfl⟩ := draws_pure.1 hrecord
        rw [outputsOf_of_operator? hop] at hfirstFree hapart
        refine draws_bind.2 ⟨outs, s', (ruleFacts_annotate op _).symm ▸ houts, draws_pure.2 ⟨?_, rfl⟩⟩
        refine recordOutputs_annotate hwell hsizes hop hfirstFree fun v hv => ?_
        exact foldlM_inferOperator_other hrest fun other hother => hapart other hother v hv
    · have hnot : v ∉ g.outputsOf id := fun hv' => hapart other hother v hv' hv
      rw [(inferOperator_other hfirst hnot).2]
      exact hrestFree other hother v hv

/-! ## Whole graphs -/

/-- Nothing is known at first of values with a recorded producer. -/
theorem types_initialFacts_of_source (hvalue : g.isValue v = true) (hsource : (g.source? v).isSome) :
    g.initialFacts.types.get? v = none := by
  obtain ⟨n, hn⟩ := exists_value hvalue
  unfold initialFacts
  refine List.foldlRecOn g.ids _ (motive := fun f : InferredFacts => f.types.get? v = none) rfl fun f hf id _ => ?_
  have hinsert (t : TensorFacts) (type? : Option ElementType) (hne : v ≠ id) :
      (f.insert id t type?).types.get? v = none := by
    rwa [InferredFacts.types_insert, if_neg hne]
  split
  · next c hc =>
    refine hinsert _ _ ?_
    rintro rfl
    rw [hn] at hc
    cases hc
  · split
    · next hnone =>
      refine hinsert _ _ ?_
      rintro rfl
      rw [Option.isNone_iff_eq_none] at hnone
      rw [hnone] at hsource
      cases hsource
    · exact hf
  · exact hf

/-- What is known in the end of a value that no operator produces is what is declared. -/
theorem annotatedValue_of_initial (hsizes : g.SizesFit) (hn : g.node? id = some (.value n))
    (hfacts : f.facts.get? id = g.initialFacts.facts.get? id)
    (htypes : f.types.get? id = g.initialFacts.types.get? id) : annotatedValue f id n = n := by
  have hinitial := initial_initialFacts g
  have hshape : (f.dims? id <|> n.shape) = n.shape := by
    refine dims?_of_declared hsizes hn fun t ht => ?_
    rcases hinitial.facts id t (hfacts ▸ ht) with ⟨c, hc, -⟩ | ⟨n', hn', rfl⟩
    · rw [hn] at hc
      cases hc
    · rw [hn] at hn'
      cases hn'
      rfl
  have htype : (f.type? id <|> n.type) = n.type := by
    unfold InferredFacts.type?
    cases ht : f.types.get? id with
    | none => rfl
    | some type =>
      rcases hinitial.types id type (htypes ▸ ht) with ⟨c, hc, -⟩ | ⟨n', hn', htype⟩
      · rw [hn] at hc
        cases hc
      · rw [hn] at hn'
        cases hn'
        exact htype.symm
  rw [annotatedValue, hshape, htype]

/-- Values without a recorded producer are not changed by annotation, so they are known at first as before. -/
theorem initialFacts_annotate (hsizes : g.SizesFit)
    (hkept : ∀ id, g.source? id = none → f.facts.get? id = g.initialFacts.facts.get? id ∧
      f.types.get? id = g.initialFacts.types.get? id) : (g.annotate f).initialFacts = g.initialFacts := by
  unfold initialFacts
  rw [ids_annotate]
  refine List.foldl_ext _ _ _ fun f' id _ => ?_
  rw [node?_annotate, source?_annotate]
  cases hn : g.node? id with
  | none => rfl
  | some node =>
    rw [Option.map_some, annotatedNode]
    by_cases hinput : id ∈ g.inputIds
    · rw [if_pos hinput]
    · rw [if_neg hinput]
      cases node with
      | value n =>
        cases hsource : g.source? id with
        | some source => rfl
        | none =>
          obtain ⟨hfacts, htypes⟩ := hkept id hsource
          dsimp only [changedNode]
          rw [annotatedValue_of_initial hsizes hn hfacts htypes]
      | _ => rfl

theorem infer_of_draws {order : List NodeId} (horder : g.topologicalOrder = .ok order)
    (hdraws : Draws (order.foldlM (g.inferOperator strict) g.initialFacts) {} f s) : g.infer strict = .ok f := by
  unfold infer
  rw [horder]
  exact congrArg Prod.fst hdraws

/-- If the producers of all outputs are recorded, then inference of an annotated graph finds the same facts and types
as before, and annotating with them again changes nothing. -/
theorem infer_annotate (hvalid : g.validate = .ok ()) (hsources : g.SourcesKnown) (hsizes : g.SizesFit)
    (hinfer : g.infer strict = .ok f) :
    (g.annotate f).infer strict = .ok f ∧ (g.annotate f).annotate f = g.annotate f := by
  have hwell := wellFormed_of_validate hvalid
  obtain ⟨order, s, horder, hdraws⟩ := draws_of_infer hinfer
  refine ⟨infer_of_draws (s := s) ((topologicalOrder_annotate g f).trans horder) ?_, annotate_annotate g f⟩
  have hinitial : (g.annotate f).initialFacts = g.initialFacts := by
    refine initialFacts_annotate hsizes fun id hsource => foldlM_inferOperator_other hdraws fun other _ hv => ?_
    have hsome := hsources.source? hv
    rw [hsource] at hsome
    cases hsome
  rw [hinitial]
  refine foldlM_inferOperator_annotate hwell hsizes (nodup_topologicalOrder horder) (fun id _ v hv => ?_) hdraws
  obtain ⟨op, hop, hmem⟩ := mem_outputsOf.1 hv
  exact types_initialFacts_of_source (hwell.produces id op hop v hmem) (hsources.source? hv)

/-- A vector that is appended to itself; of the distinct elements only a declared shape is known. -/
def distinctElements : Graph :=
  let input := (Graph.empty.addValue (some "x") (some [.symbolic "n"]) (some .float32)).1
  let twice := (input.addValue (some "twice") none none).1
  let distinct := (twice.addValue (some "distinct") (some [.symbolic "m"]) none).1
  let negated := (distinct.addValue (some "negated") none none).1
  let first := (negated.addOperator none (.concat 0) [0, 0] [1]).1
  let second := (first.addOperator none (.custom { name := "Unique", maxInputs := some 1, run := .ok }) [1] [2]).1
  let third := (second.addOperator none (.elementwise { fn := .neg }) [2] [3]).1
  (third.setInputs [0]).setOutputs [3]

/-- The size of the appended vectors is written down as a name, which is not read again. -/
theorem infer_annotate_distinctElements : distinctElements.validate = .ok () ∧ distinctElements.SourcesKnown ∧
    distinctElements.SizesFit ∧ ∃ f, distinctElements.infer false = .ok f ∧
      [1, 2, 3].map f.dims? = [some [.symbolic "n + n"], some [.symbolic "m"], some [.symbolic "m"]] ∧
      (distinctElements.annotate f).infer false = .ok f ∧
      (distinctElements.annotate f).annotate f = distinctElements.annotate f := by
  have hvalid : distinctElements.validate = .ok () := by decide +kernel
  have hsources : distinctElements.SourcesKnown := by decide +kernel
  have hsizes : distinctElements.SizesFit := by decide +kernel
  have hdims : (distinctElements.infer false).toOption.map (fun f => [1, 2, 3].map f.dims?) =
      some [some [.symbolic "n + n"], some [.symbolic "m"], some [.symbolic "m"]] := by
    cbv
  cases hinfer : distinctElements.infer false with
  | error e =>
    rw [hinfer] at hdims
    cases hdims
  | ok f =>
    rw [hinfer] at hdims
    exact ⟨hvalid, hsources, hsizes, f, rfl, Option.some.inj hdims, infer_annotate hvalid hsources hsizes hinfer⟩

/-- The first of two operators that compute the same value, while the second was recorded as its producer. -/
def detached : Graph :=
  let input := (Graph.empty.addValue (some "x") (some [.symbolic "n"]) (some .float32)).1
  let values := ["v", "y"].foldl (fun g name => (g.addValue (some name) none none).1) input
  let reader := (values.addOperator (some "reader") (.elementwise { fn := .neg }) [1] [2]).1
  let first := (reader.addOperator (some "first") (.elementwise { fn := .neg }) [0] [1]).1
  let second := (first.addOperator (some "second") (.elementwise { fn := .neg }) [0] [1]).1
  ((second.remove [5]).setInputs [0]).setOutputs [2]

/-- An operator that is inferred before the producer of its input finds what the annotated graph declares for it. -/
theorem infer_annotate_detached : detached.validate = .ok () ∧ detached.SizesFit ∧
    ∃ f f', detached.infer false = .ok f ∧ (detached.annotate f).infer false = .ok f' ∧
      f.dims? 2 = none ∧ f'.dims? 2 = some [.symbolic "n"] := by
  have hdims : ((detached.infer false).toOption.map fun f =>
      (f.dims? 2, ((detached.annotate f).infer false).toOption.map (·.dims? 2))) =
      some (none, some (some [.symbolic "n"])) := by
    decide +kernel
  refine ⟨by decide +kernel, by decide +kernel, ?_⟩
  cases hinfer : detached.infer false with
  | error e =>
    rw [hinfer] at hdims
    cases hdims
  | ok f =>
    rw [hinfer] at hdims
    obtain ⟨hbefore, hafter⟩ := Prod.mk.inj (Option.some.inj hdims)
    cases hagain : (detached.annotate f).infer false with
    | error e =>
      rw [hagain] at hafter
      cases hafter
    | ok f' =>
      rw [hagain] at hafter
      exact ⟨f, f', rfl, hagain, hbefore, Option.some.inj hafter⟩

end Graph

end TensorGraph
