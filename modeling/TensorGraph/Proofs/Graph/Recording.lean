import TensorGraph.Graph.Infer
import TensorGraph.Proofs.Facts.Description
import TensorGraph.Proofs.Program.Binding
import TensorGraph.Proofs.Tensor.Elements

/-!
# Recorded facts

What inference records before it looks at operators, which describes constants and declared values, and for
the outputs of an operator.
-/

namespace TensorGraph

/-! ## Maps of facts -/

namespace InferredFacts

theorem facts_insert (f : InferredFacts) (id : NodeId) (t : TensorFacts) (type : Option ElementType) (id' : NodeId) :
    (f.insert id t type).facts.get? id' = if id' = id then some t else f.facts.get? id' :=
  IdMap.get?_insert _ _ _ _

theorem types_insert (f : InferredFacts) (id : NodeId) (t : TensorFacts) (type : Option ElementType) (id' : NodeId) :
    (f.insert id t type).types.get? id' = ((if id' = id then type else none) <|> f.types.get? id') := by
  unfold insert
  cases type with
  | none => simp
  | some type =>
    dsimp only
    rw [IdMap.get?_insert]
    by_cases h : id' = id
    · rw [if_pos h, if_pos h]
      rfl
    · rw [if_neg h, if_neg h]
      rfl

theorem foldl_insert_other {l : List (NodeId × Nat)} (facts : NodeId × Nat → TensorFacts)
    (type? : NodeId × Nat → Option ElementType) {id : NodeId} (h : id ∉ l.map Prod.fst) (f : InferredFacts) :
    (l.foldl (fun f' e => f'.insert e.1 (facts e) (type? e)) f).facts.get? id = f.facts.get? id ∧
      (l.foldl (fun f' e => f'.insert e.1 (facts e) (type? e)) f).types.get? id = f.types.get? id := by
  refine List.foldlRecOn l _ (motive := fun f' : InferredFacts =>
    f'.facts.get? id = f.facts.get? id ∧ f'.types.get? id = f.types.get? id) ⟨rfl, rfl⟩ fun f' hf' e he => ?_
  have hne : id ≠ e.1 := by
    rintro rfl
    exact h (List.mem_map_of_mem he)
  rwa [facts_insert, types_insert, if_neg hne, if_neg hne]

end InferredFacts

/-! ## What is known at first -/

variable {σ : Assignment}

theorem TensorFacts.describes_ofFixedShape {v : Value} (hfit : Shape.Fits v.shape) :
    (TensorFacts.ofFixedShape v.shape).Describes σ v := by
  refine List.forall₂_map_left_iff.2 (List.forall₂_same.2 fun n hn => ?_)
  exact SizeExpr.denotes_ofSize (hfit n hn).2

theorem denoteWords_values (ws : List Int32) : DenoteWords σ (ws.map .value) ws :=
  List.forall₂_map_left_iff.2 (List.forall₂_same.2 fun w _ => SizeExpr.denotes_value w)

theorem TensorFacts.describes_ofValue {v : Value} (hfit : Shape.Fits v.shape) :
    (TensorFacts.ofValue v).Describes σ v := by
  cases v with
  | floats t => exact describes_ofFixedShape hfit
  | ints t =>
    rw [ofValue]
    split
    · next hshape =>
      refine ⟨t, rfl, hshape, ?_⟩
      obtain ⟨w, hw⟩ : ∃ w, t.data.toList = [w] := List.length_eq_one_iff.1 (by
        rw [Array.length_toList, t.size_data, hshape]
        rfl)
      rw [hw, Tensor.read_zero hw]
      exact denoteWords_values [w]
    · next n hshape =>
      split
      · refine ⟨t, rfl, ?_, denoteWords_values _⟩
        rw [hshape, List.length_map, Array.length_toList, t.size_data, hshape]
        exact congrArg (fun n => [n]) (Nat.mul_one n).symm
      · rw [← hshape]
        exact describes_ofFixedShape hfit
    · exact describes_ofFixedShape hfit

theorem TensorFacts.describes_ofDeclared {m : SymbolMap} (hσ : σ.Extends m) {v : Value} (hfit : Shape.Fits v.shape)
    {dims? : Option (List Dimension)}
    (hdims : ∀ dims, dims? = some dims → List.Forall₂ (fun d n => Dimension.Holds m n d) dims v.shape) :
    (TensorFacts.ofDeclared dims?).Describes σ v := by
  cases dims? with
  | none => trivial
  | some dims =>
    have hholds := hdims dims rfl
    clear hdims
    rw [ofDeclared, Describes]
    generalize v.shape = shape at hfit hholds
    induction hholds with
    | nil => exact .nil
    | @cons d n dims shape hd _ ih =>
      obtain ⟨hn, hfit⟩ := List.forall_mem_cons.1 hfit
      refine .cons ?_ (ih hfit)
      cases d with
      | fixed size =>
        cases (show n = size from hd)
        have hword : max (-2147483648) (min 2147483647 (n : Int)) = n := by omega
        rw [Dimension.sizeExpr, Word.saturate, hword]
        exact SizeExpr.denotes_ofSize hn.2
      | symbolic name =>
        obtain ⟨w, hw, hwn⟩ := hd
        rw [← hwn, ← hσ name w hw]
        exact SizeExpr.denotes_posVar name

namespace Graph

variable {g : Graph}

/-- Whether all facts are about constants and declared values. -/
structure Initial (g : Graph) (f : InferredFacts) : Prop where
  facts : ∀ id t, f.facts.get? id = some t → (∃ n, g.node? id = some (.constant n) ∧ t = .ofValue n.value) ∨
    ∃ n, g.node? id = some (.value n) ∧ t = .ofDeclared n.shape
  types : ∀ id type, f.types.get? id = some type → (∃ n, g.node? id = some (.constant n) ∧ type = n.value.type) ∨
    ∃ n, g.node? id = some (.value n) ∧ n.type = some type

theorem Initial.insert {f : InferredFacts} (h : g.Initial f) {id : NodeId} {t : TensorFacts}
    {type? : Option ElementType} (ht : (∃ n, g.node? id = some (.constant n) ∧ t = .ofValue n.value) ∨
      ∃ n, g.node? id = some (.value n) ∧ t = .ofDeclared n.shape)
    (htype : ∀ type, type? = some type → (∃ n, g.node? id = some (.constant n) ∧ type = n.value.type) ∨
      ∃ n, g.node? id = some (.value n) ∧ n.type = some type) : g.Initial (f.insert id t type?) := by
  refine ⟨fun id' t' h' => ?_, fun id' type h' => ?_⟩
  · rw [InferredFacts.facts_insert] at h'
    split at h'
    · next heq =>
      cases h'
      rwa [heq]
    · exact h.facts id' t' h'
  · rw [InferredFacts.types_insert] at h'
    split at h'
    · next heq =>
      cases type? with
      | none => exact h.types id' type h'
      | some type' =>
        cases h'
        rw [heq]
        exact htype type rfl
    · exact h.types id' type h'

theorem initial_initialFacts (g : Graph) : g.Initial g.initialFacts := by
  have hnone : g.Initial {} := ⟨fun _ _ h => (by cases h), fun _ _ h => (by cases h)⟩
  refine List.foldlRecOn g.ids _ hnone fun f hf id _ => ?_
  split
  · next n hn =>
    refine hf.insert (.inl ⟨n, hn, rfl⟩) fun type h => .inl ⟨n, hn, ?_⟩
    cases h
    rfl
  · next n hn =>
    split
    · exact hf.insert (.inr ⟨n, hn, rfl⟩) fun type h => .inr ⟨n, hn, h⟩
    · exact hf
  · exact hf

/-! ## Recorded outputs -/

/-- The facts that are recorded for an output. -/
def recordedFacts (declared : Option (List Dimension)) (t? : Option TensorFacts) : TensorFacts :=
  match t? with
  | some t => if t.isUnknown then .ofDeclared declared else t
  | none => .ofDeclared declared

/-- The shape that is declared for a value. -/
def declaredShape? (g : Graph) (id : NodeId) : Option (List Dimension) :=
  match g.node? id with
  | some (.value n) => n.shape
  | _ => none

/-- The facts that are recorded for an output and its position, if the rule gives the given facts. -/
def recordedFactsAt (g : Graph) (outs : List TensorFacts) (e : NodeId × Nat) : TensorFacts :=
  recordedFacts (g.declaredShape? e.1) outs[e.2]?

/-- The type that is recorded for an output and its position, if there is one. -/
def recordedTypeAt? (g : Graph) (types : List (Option ElementType)) (e : NodeId × Nat) : Option ElementType :=
  types[e.2]?.join <|> (g.node? e.1).bind Node.type?

theorem recordOutputs_eq (g : Graph) (f : InferredFacts) (op : OperatorNode) (outs : List TensorFacts) :
    g.recordOutputs f op outs = op.outputs.zipIdx.foldl (fun f' e =>
      f'.insert e.1 (g.recordedFactsAt outs e) (g.recordedTypeAt? (op.op.outputTypes (op.inputs.map f.type?)) e)) f :=
  rfl

theorem recordOutputs_other (f : InferredFacts) (op : OperatorNode) (outs : List TensorFacts) {id : NodeId}
    (h : id ∉ op.outputs) : (g.recordOutputs f op outs).facts.get? id = f.facts.get? id ∧
      (g.recordOutputs f op outs).types.get? id = f.types.get? id := by
  rw [recordOutputs_eq]
  refine InferredFacts.foldl_insert_other _ _ ?_ f
  rwa [List.zipIdx_map_fst]

/-- Each output has what is recorded for it at its position. -/
theorem recordOutputs_output (f : InferredFacts) {op : OperatorNode} (outs : List TensorFacts)
    (hnodup : op.outputs.Nodup) {e : NodeId × Nat} (he : e ∈ op.outputs.zipIdx) :
    (g.recordOutputs f op outs).facts.get? e.1 = some (g.recordedFactsAt outs e) ∧
      (g.recordOutputs f op outs).types.get? e.1 =
        (g.recordedTypeAt? (op.op.outputTypes (op.inputs.map f.type?)) e <|> f.types.get? e.1) := by
  rw [recordOutputs_eq]
  generalize g.recordedTypeAt? (op.op.outputTypes (op.inputs.map f.type?)) = type?
  generalize g.recordedFactsAt outs = facts
  have hkeys : (op.outputs.zipIdx.map Prod.fst).Nodup := by rwa [List.zipIdx_map_fst]
  -- Neither the entries before this one nor those after it are about the same output.
  obtain ⟨before, after, hsplit⟩ := List.append_of_mem he
  rw [hsplit, List.map_append, List.map_cons, List.nodup_middle, List.nodup_cons, List.mem_append, not_or] at hkeys
  obtain ⟨⟨hbefore, hafter⟩, -⟩ := hkeys
  rw [hsplit, List.foldl_append, List.foldl_cons]
  obtain ⟨hfacts, htypes⟩ := InferredFacts.foldl_insert_other facts type? hafter
    ((before.foldl (fun f' e => f'.insert e.1 (facts e) (type? e)) f).insert e.1 (facts e) (type? e))
  rw [hfacts, htypes, InferredFacts.facts_insert, InferredFacts.types_insert, if_pos rfl, if_pos rfl,
    (InferredFacts.foldl_insert_other facts type? hbefore f).2]
  exact ⟨rfl, rfl⟩

theorem recordOutputs_single (f : InferredFacts) (op : OperatorNode) (outs : List TensorFacts) {id : NodeId}
    {n : ValueNode} (hn : g.node? id = some (.value n)) (hid : op.outputs = [id]) :
    g.recordOutputs f op outs = f.insert id (recordedFacts n.shape outs.head?)
      (((op.op.outputTypes (op.inputs.map f.type?))[0]?).join <|> n.type) := by
  unfold recordOutputs
  rw [hid]
  simp only [List.zipIdx_cons, List.zipIdx_nil, List.foldl_cons, List.foldl_nil, hn, Option.bind_some, Node.type?]
  rw [List.head?_eq_getElem?]
  rfl

end Graph

end TensorGraph
