import TensorGraph.Proofs.Facts.Symbols
import TensorGraph.Proofs.Graph.Inference

/-!
# Generated symbols

Inference mentions no symbols but the declared dimension names and those that it has generated so far
(`mentions_of_foldlM`). Generated symbols are numbered, so no two are the same; one that is no declared name is
also unknown to everything that was inferred before (`generated_fresh`). Nothing keeps a graph from declaring a
dimension with the name of a generated symbol, and then the two are taken for one size.
-/

namespace TensorGraph

/-- Whether the names of all symbols in what is known have a property. -/
def InferredFacts.Over (N : String → Prop) (f : InferredFacts) : Prop := ∀ id t, f.facts.get? id = some t → t.Over N

/-- The size of one dimension of a value, if the rank is known and the dimension exists. -/
def InferredFacts.size? (f : InferredFacts) (id : NodeId) (i : Nat) : Option SizeExpr := (f.get? id).bind (·.size? i)

namespace Graph

variable {g : Graph} {strict : Bool} {f f' : InferredFacts} {s s' : SymbolSupply} {N : String → Prop} {id : NodeId}

/-- Whether a dimension in some declared shape has the name. -/
def Declares (g : Graph) (name : String) : Prop :=
  ∃ id n dims, g.node? id = some (.value n) ∧ n.shape = some dims ∧ .symbolic name ∈ dims

/-- Whether custom shape rules, like the built-in ones, draw all symbols from the supply that are not symbols of
their inputs. -/
def DrawsFromSupply (g : Graph) : Prop := ∀ id node op rule, g.operator? id = some node → node.op = .custom op →
  op.shapeRule? = some rule → ShapeRule.IsConfined rule

/-- Whether the symbol with number `k` that inference generates has the given name, and `f` is known when the
operator is looked at for which it is generated. -/
def Generates (g : Graph) (strict : Bool) (f : InferredFacts) (k : Nat) (name : String) : Prop :=
  ∃ before id after s f' s', g.topologicalOrder = .ok (before ++ id :: after) ∧
    Draws (before.foldlM (g.inferOperator strict) g.initialFacts) {} f s ∧
    Draws (g.inferOperator strict f id) s f' s' ∧ s.count < k ∧ k ≤ s'.count ∧ name = s.nameOf k

/-- Whether a symbol is declared, or was drawn before the supply got to `s`. -/
def Known (g : Graph) (s : SymbolSupply) (name : String) : Prop :=
  g.Declares name ∨ ∃ k, k ≤ s.count ∧ name = s.nameOf k

/-! ## Recorded facts -/

theorem over_ofDeclared {n : ValueNode} (hn : g.node? id = some (.value n)) :
    (TensorFacts.ofDeclared n.shape).Over g.Declares := by
  cases hshape : n.shape with
  | none => trivial
  | some dims =>
    refine List.forall_mem_map.2 fun d hd => ?_
    cases d with
    | fixed size => trivial
    | symbolic name => exact ⟨id, n, dims, hn, hshape, hd⟩

theorem over_ofValue (v : Value) : (TensorFacts.ofValue v).Over N := by
  have hfixed (sizes : List Nat) : (TensorFacts.ofFixedShape sizes).Over N :=
    List.forall_mem_map.2 fun n _ => trivial
  cases v with
  | floats t => exact hfixed _
  | ints t =>
    rw [TensorFacts.ofValue]
    split
    · trivial
    · split
      · exact List.forall_mem_map.2 fun w _ => trivial
      · exact hfixed _
    · exact hfixed _

theorem over_initialFacts (g : Graph) : g.initialFacts.Over g.Declares := by
  intro id t ht
  rcases (initial_initialFacts g).facts id t ht with ⟨n, -, rfl⟩ | ⟨n, hn, rfl⟩
  · exact over_ofValue n.value
  · exact over_ofDeclared hn

theorem over_recordedFacts {declared : Option (List Dimension)} {t? : Option TensorFacts}
    (hdeclared : (TensorFacts.ofDeclared declared).Over N) (ht : ∀ t, t? = some t → t.Over N) :
    (recordedFacts declared t?).Over N := by
  cases t? with
  | none => exact hdeclared
  | some t =>
    rw [recordedFacts]
    split
    · exact hdeclared
    · exact ht t rfl

theorem over_recordOutputs (hdeclared : ∀ name, g.Declares name → N name) (hf : f.Over N) (op : OperatorNode)
    {outs : List TensorFacts} (houts : AllOver N outs) : (g.recordOutputs f op outs).Over N := by
  unfold recordOutputs
  refine List.foldlRecOn op.outputs.zipIdx _ (motive := InferredFacts.Over N) hf fun f hf e _ => ?_
  intro id t ht
  rw [InferredFacts.facts_insert] at ht
  split at ht
  · cases ht
    -- An output gets the facts that the rule gives for it, and if there are none, those that are declared.
    refine over_recordedFacts ?_ fun t' ht' => houts _ (List.mem_of_getElem? ht')
    split
    · next n hn => exact (over_ofDeclared hn).mono hdeclared
    · trivial
  · exact hf id t ht

theorem over_inputFacts (hf : f.Over N) (op : OperatorNode) : AllOver N (inputFacts f op) := by
  refine List.forall_mem_map.2 fun id _ => ?_
  cases ht : f.facts.get? id with
  | none => trivial
  | some t => exact hf id t ht

/-! ## One operator -/

theorem DrawsFromSupply.isConfined (h : g.DrawsFromSupply) {node : OperatorNode} (hop : g.operator? id = some node) :
    ShapeRule.IsConfined node.op.outputFacts := by
  refine Operator.isConfined_outputFacts fun rule hrule => ?_
  cases hkind : node.op with
  | custom op =>
    rw [hkind] at hrule
    exact h id node op rule hop hkind hrule
  | _ => exact Operator.isConfined_of_isBuiltin (hkind ▸ trivial) hrule

/-- An operator adds no symbols but declared names and those that its rule draws. -/
theorem over_inferOperator (hrules : g.DrawsFromSupply) (hdraws : Draws (g.inferOperator strict f id) s f' s') :
    s.Before s' ∧ ((∀ name, g.Declares name → N name) → (∀ k, s.count < k → k ≤ s'.count → N (s.nameOf k)) →
      f.Over N → f'.Over N) := by
  unfold inferOperator at hdraws
  split at hdraws
  · obtain ⟨rfl, rfl⟩ := draws_pure.1 hdraws
    exact ⟨.refl s, fun _ _ hf => hf⟩
  · next op hop =>
    obtain ⟨outs, s₁, houts, hrecord⟩ := draws_bind.1 hdraws
    obtain ⟨rfl, rfl⟩ := draws_pure.1 hrecord
    have hconfined := hrules.isConfined hop
    -- A rule that fails may have drawn symbols before, but leaves nothing to be recorded.
    rcases draws_ruleFacts houts with hrule | ⟨rfl, rfl⟩
    · refine ⟨hrule.before (hconfined.advances _), fun hdeclared hdrawn hf => ?_⟩
      exact over_recordOutputs hdeclared hf op
        (hconfined.confined N _ (over_inputFacts hf op) s outs s₁ hrule hdrawn)
    · refine ⟨hconfined.advances _ s, fun hdeclared _ hf => ?_⟩
      exact over_recordOutputs hdeclared hf op (List.forall_mem_nil _)

/-! ## All operators -/

/-- What is inferred mentions no symbols but declared names and those that were drawn so far. -/
theorem mentions_of_foldlM (hrules : g.DrawsFromSupply) {order : List NodeId} :
    ∀ {f s}, Draws (order.foldlM (g.inferOperator strict) g.initialFacts) {} f s →
      ({} : SymbolSupply).Before s ∧ f.Over (g.Known s) := by
  induction order using List.reverseRecOn with
  | nil =>
    intro f s hdraws
    obtain ⟨rfl, rfl⟩ := draws_pure.1 hdraws
    exact ⟨.refl _, fun id t ht => (over_initialFacts g id t ht).mono fun _ => .inl⟩
  | append_singleton order id ih =>
    intro f s hdraws
    obtain ⟨f₁, s₁, hbefore, hstep⟩ := draws_foldlM_concat.1 hdraws
    obtain ⟨hfirst, hover⟩ := ih hbefore
    obtain ⟨hnext, hkeep⟩ := over_inferOperator (N := g.Known s) hrules hstep
    refine ⟨hfirst.trans hnext, hkeep (fun _ => .inl) (fun k _ hk => .inr ⟨k, hk, (hnext.nameOf k).symm⟩) ?_⟩
    refine fun id t ht => (hover id t ht).mono fun name hname => hname.imp_right ?_
    rintro ⟨k, hk, rfl⟩
    exact ⟨k, hk.trans hnext.count, (hnext.nameOf k).symm⟩

theorem alike_of_alikeAll {as bs : List SizeExpr} (h : TensorFacts.alikeAll as bs = true) {i : Nat} {x y : SizeExpr}
    (hx : as[i]? = some x) (hy : bs[i]? = some y) : x.alike y = true := by
  fun_induction TensorFacts.alikeAll as bs generalizing i with
  | case1 => cases hx
  | case2 a as b bs ih =>
    simp only [Bool.and_eq_true] at h
    cases i with
    | zero =>
      cases hx
      cases hy
      exact h.1
    | succ i => exact ih h.2 hx hy
  | case3 => cases h

/-- Sizes at one position of shapes that are taken for the same have the same symbols when they are simplified. -/
theorem over_of_sameShape {a b : NodeId} {i : Nat} {x y : SizeExpr} (h : f.sameShape a b = true)
    (hx : f.size? a i = some x) (hy : f.size? b i = some y) : x.simplify.Over N = y.simplify.Over N := by
  obtain ⟨t, ht, hx⟩ := Option.bind_eq_some_iff.1 hx
  obtain ⟨u, hu, hy⟩ := Option.bind_eq_some_iff.1 hy
  obtain ⟨as, has, hx⟩ := Option.bind_eq_some_iff.1 hx
  obtain ⟨bs, hbs, hy⟩ := Option.bind_eq_some_iff.1 hy
  simp only [InferredFacts.sameShape, ht, hu, TensorFacts.sameShape, has, hbs] at h
  refine SizeExpr.over_of_alike (alike_of_alikeAll h (i := i) ?_ ?_)
  · rw [List.getElem?_map, hx]
    rfl
  · rw [List.getElem?_map, hy]
    rfl

/-- A generated symbol that is no declared dimension name is no other generated symbol either, is not mentioned by
anything that was known before, and is not left in any size that is taken for one of declared names. -/
theorem generated_fresh {k : Nat} {name : String} (hrules : g.DrawsFromSupply) (hgen : g.Generates strict f k name)
    (hnew : ¬g.Declares name) :
    (∀ f₁ j name', g.Generates strict f₁ j name' → j ≠ k → name' ≠ name) ∧ f.Over (· ≠ name) ∧
      ∀ f', g.infer strict = .ok f' → ∀ a b i x y, f'.sameShape a b = true → f'.size? a i = some x →
        f'.size? b i = some y →
        (x.Over g.Declares → name ∉ y.simplify.symbols) ∧ (y.Over g.Declares → name ∉ x.simplify.symbols) := by
  obtain ⟨before, id, after, s, f₂, s', -, hbefore, hstep, hlt, -, rfl⟩ := hgen
  -- Everything known mentions declared names and symbols with smaller numbers only.
  obtain ⟨hfirst, hover⟩ := mentions_of_foldlM hrules hbefore
  refine ⟨?_, fun id t ht => (hover id t ht).mono ?_, fun f' _ a b i x y hsame hx hy => ⟨fun hdecl hmem => ?_,
    fun hdecl hmem => ?_⟩⟩
  · rintro f₁ j - ⟨before', id', after', s₁, f₃, s₁', -, hbefore', -, -, -, rfl⟩ hne heq
    rw [(mentions_of_foldlM hrules hbefore').1.nameOf, hfirst.nameOf] at heq
    exact hne (nameOf_inj heq)
  · rintro name (hdecl | ⟨j, hj, rfl⟩) heq
    · exact hnew (heq ▸ hdecl)
    · exact Nat.not_lt.2 hj (nameOf_inj heq ▸ hlt)
  · have hsimp : y.simplify.Over g.Declares := over_of_sameShape hsame hx hy ▸ SizeExpr.over_simplifyBy _ hdecl
    exact hnew (SizeExpr.over_iff.1 hsimp _ hmem)
  · have hsimp : x.simplify.Over g.Declares := (over_of_sameShape hsame hx hy).symm ▸ SizeExpr.over_simplifyBy _ hdecl
    exact hnew (SizeExpr.over_iff.1 hsimp _ hmem)

/-! ## A target shape that is read -/

/-- A matrix whose sizes have the given names, in a shape that is known only when the graph runs. -/
def reshapedMatrix (rows columns : String) : Graph :=
  let (g, x) := Graph.empty.addValue (some "x") (some [.symbolic rows, .symbolic columns]) (some .float32)
  let (g, t) := g.addValue (some "t") (some [.fixed 2]) (some .int32)
  let (g, y) := g.addSimpleOperator "y" .reshape [x, t]
  (g.setInputs [x, t]).setOutputs [y]

theorem generated_fresh_reshapedMatrix : let g := reshapedMatrix "n" "m"
    (∀ f₁ j name', g.Generates true f₁ j name' → j ≠ 1 → name' ≠ "unknown_1") ∧
      g.initialFacts.Over (· ≠ "unknown_1") ∧
      ∀ f', g.infer true = .ok f' → ∀ a b i x y, f'.sameShape a b = true → f'.size? a i = some x →
        f'.size? b i = some y → (x.Over g.Declares → "unknown_1" ∉ y.simplify.symbols) ∧
          (y.Over g.Declares → "unknown_1" ∉ x.simplify.symbols) := by
  have hlt {id : NodeId} {node : Node} (hn : (reshapedMatrix "n" "m").node? id = some node) : id < 4 := by
    refine Nat.lt_of_not_le fun hsize => ?_
    rw [node?, Array.getElem?_eq_none hsize] at hn
    cases hn
  have hrules : (reshapedMatrix "n" "m").DrawsFromSupply := by
    intro id node op rule hop hkind
    have hreshape : (reshapedMatrix "n" "m").operators.Forall fun e => e.2.op = .reshape := rfl
    cases (List.forall_iff_forall_mem.1 hreshape _ (mem_operators.2 hop)).symm.trans hkind
  have hgen : (reshapedMatrix "n" "m").Generates true (reshapedMatrix "n" "m").initialFacts 1 "unknown_1" :=
    ⟨[], 3, [], {}, _, ⟨"unknown", 2⟩, by decide +kernel, draws_pure.2 ⟨rfl, rfl⟩, rfl, by decide, by decide, by decide⟩
  have hnew : ¬(reshapedMatrix "n" "m").Declares "unknown_1" := by
    rintro ⟨id, n, dims, hn, hdims, hmem⟩
    rcases id with _ | _ | _ | _ | id
    · cases hn
      cases hdims
      simp at hmem
    · cases hn
      cases hdims
      simp at hmem
    · cases hn
      cases hdims
    · cases hn
    · exact absurd (hlt hn) (Nat.not_lt.2 (Nat.le_add_left 4 id))
  exact generated_fresh hrules hgen hnew

/-- If the matrix has the generated names itself, its shape is taken for the one that is read. -/
example : ((reshapedMatrix "unknown_1" "unknown_2").infer true).toOption.map (·.sameShape 0 2) = some true := by
  decide +kernel

end Graph

end TensorGraph
