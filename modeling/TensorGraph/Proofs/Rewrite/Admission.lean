import TensorGraph.Proofs.Rewrite.Aliases
import TensorGraph.Proofs.Rewrite.Fusions

/-!
# Admitted rewrites

The check of a rewrite looks at single nodes and edges, so that a rewrite which passes it may still make a value
depend on itself. `Rewrite.KeepsOrder` says exactly when it does not (`Rewrite.validate_apply_iff`).
-/

namespace TensorGraph

open Relation

namespace Graph

variable {g : Graph} {old new id : NodeId}

/-! ## Redirected values -/

/-- A value can take the place of another without a cycle exactly if it does not depend on it. -/
theorem not_transGen_redirect (hacyclic : g.Acyclic) (hne : old ≠ new) :
    (∀ v, ¬TransGen (fun v w => ∃ u, redirect old new u = v ∧ g.Computes u w) v v) ↔
      ¬ReflTransGen g.Computes old new := by
  constructor
  · intro hredirected hpath
    rcases reflTransGen_iff_eq_or_transGen.1 hpath with heq | hpath
    · exact hne heq.symm
    · -- The path from `old` is also one from `new`, as it does not come back to `old`.
      refine hredirected new (?_ : TransGen _ new new)
      have hmove : ∀ x, TransGen g.Computes old x →
          TransGen (fun v w => ∃ u, redirect old new u = v ∧ g.Computes u w) new x := by
        intro x hx
        induction hx with
        | single hstep => exact .single ⟨old, if_pos rfl, hstep⟩
        | @tail y z hy hstep ih =>
          refine ih.tail ⟨y, if_neg ?_, hstep⟩
          rintro rfl
          exact hacyclic y hy
      exact hmove new hpath
  · intro hpath v hcycle
    refine (not_transGen_added (p := (· = new)) (q := g.Computes old) hacyclic).2 ?_ v
      (TransGen.mono (fun a b hab => ?_) _ _ hcycle)
    · rintro a b rfl hb hback
      exact hpath (.head hb hback)
    · obtain ⟨u, hu, hub⟩ := hab
      unfold redirect at hu
      split at hu
      · next heq => exact .inr ⟨hu.symm, heq ▸ hub⟩
      · exact .inl (hu ▸ hub)

theorem acyclic_replaceValues (hg : g.Indexed) (pairs : List (NodeId × NodeId)) : (g.replaceValues pairs).Acyclic ↔
    ∀ v, ¬TransGen (fun v w => ∃ u, redirectAll pairs u = v ∧ g.Computes u w) v v := by
  have heq : (g.replaceValues pairs).Computes = fun v w => ∃ u, redirectAll pairs u = v ∧ g.Computes u w := by
    funext v w
    exact propext (computes_replaceValues hg pairs v w)
  rw [Acyclic, heq]

/-- A value can take the place of another one exactly if it does not depend on it. -/
theorem acyclic_replaceValue (hg : g.Indexed) (hacyclic : g.Acyclic) (hne : old ≠ new) :
    (g.replaceValue old new).Acyclic ↔ ¬ReflTransGen g.Computes old new :=
  (acyclic_replaceValues hg [(old, new)]).trans (not_transGen_redirect hacyclic hne)

/-! ## Added constants -/

section AddConstant

variable (name : Option String) (x : Value)

/-- The number of a constant that is added is new. -/
theorem readable?_addConstant (h : (g.readable? id).isSome) :
    (g.addConstant name x).1.readable? id = g.readable? id := by
  refine (readable?_addNode g rfl id).trans (if_neg ?_)
  rintro rfl
  simp [readable?, node?_size] at h

theorem readable?_newConstant :
    (g.addConstant name x).1.readable? g.nodes.size = some (.constant { name, value := x }) :=
  (readable?_addNode g rfl _).trans (if_pos rfl)

theorem computes_addConstant : (g.addConstant name x).1.Computes = g.Computes := by
  funext v w
  have hnode : (Node.constant { name, value := x }).operator? = none := rfl
  simp only [Computes, addConstant, inputsOf_addNode g hnode, outputsOf_addNode g hnode]

theorem wellFormed_addConstant (hg : g.Indexed) (hformed : g.WellFormed) :
    (g.addConstant name x).1.WellFormed := by
  obtain ⟨hreads, hproduces, hnodup, hinputs, houtputs⟩ := (wellFormed_iff hg).1 hformed
  have hreadable (v : NodeId) (hv : g.isReadable v = true) : (g.addConstant name x).1.isReadable v = true := by
    rw [isReadable_eq] at hv ⊢
    rwa [readable?_addConstant name x hv]
  have hvalue (v : NodeId) (hv : g.isValue v = true) : (g.addConstant name x).1.isValue v = true := by
    rw [isValue_eq] at hv ⊢
    rwa [readable?_addConstant name x (Option.isSome_of_any hv)]
  refine (wellFormed_iff (hg.addConstant name x)).2 ⟨fun id v hv => ?_, fun id v hv => ?_, fun id => ?_,
    fun v hv => ⟨hvalue v (hinputs v hv).1, fun id hid => ?_⟩, fun v hv => hreadable v (houtputs v hv)⟩
  · rw [addConstant, inputsOf_addNode g rfl] at hv
    exact hreadable v (hreads id v hv)
  · rw [addConstant, outputsOf_addNode g rfl] at hv
    exact hvalue v (hproduces id v hv)
  · rw [addConstant, outputsOf_addNode g rfl]
    exact hnodup id
  · rw [addConstant, outputsOf_addNode g rfl] at hid
    exact (hinputs v hv).2 id hid

end AddConstant

/-! ## Replaced operators -/

theorem SameEdges.wellFormed {g' : Graph} (h : g'.SameEdges g) (hg' : g'.Indexed) (hg : g.Indexed)
    (hformed : g.WellFormed) : g'.WellFormed := by
  rw [wellFormed_iff hg']
  simpa only [isReadable_eq, isValue_eq, h.inputsOf, h.outputsOf, h.readable?, h.inputIds, h.outputIds] using
    (wellFormed_iff hg).1 hformed

theorem computes_replaceInputs {op : OperatorNode} (h : g.operator? id = some op) (inputs : List NodeId)
    (v w : NodeId) : (g.replaceInputs id inputs).Computes v w ↔
      g.ComputesBeside [id] v w ∨ v ∈ inputs ∧ w ∈ g.outputsOf id := by
  simp only [Computes, ComputesBeside, inputsOf_replaceInputs id inputs h, outputsOf_replaceInputs id inputs h,
    List.mem_singleton]
  constructor
  · rintro ⟨id', hv, hw⟩
    by_cases hid : id' = id
    · rw [if_pos hid] at hv
      exact .inr ⟨hv, hid ▸ hw⟩
    · rw [if_neg hid] at hv
      exact .inl ⟨id', hid, hv, hw⟩
  · rintro (⟨id', hid, hv, hw⟩ | ⟨hv, hw⟩)
    · exact ⟨id', by rwa [if_neg hid], hw⟩
    · exact ⟨id, by rwa [if_pos rfl], hw⟩

theorem wellFormed_replaceInputs (hg : g.Indexed) (hformed : g.WellFormed) {op : OperatorNode}
    (h : g.operator? id = some op) {inputs : List NodeId} (hinputs : ∀ v ∈ inputs, g.isReadable v = true) :
    (g.replaceInputs id inputs).WellFormed := by
  obtain ⟨hreads, hrest⟩ := (wellFormed_iff hg).1 hformed
  rw [wellFormed_iff (hg.replaceInputs id inputs h)]
  simp only [isReadable_eq, isValue_eq, inputsOf_replaceInputs id inputs h, outputsOf_replaceInputs id inputs h,
    readable?_replaceInputs id inputs h, inputIds_replaceInputs id inputs h, outputIds_replaceInputs id inputs h]
  simp only [← isReadable_eq, ← isValue_eq]
  refine ⟨fun id' v hv => ?_, hrest⟩
  split at hv
  · exact hinputs v hv
  · exact hreads id' v hv

end Graph

namespace Rewrite

variable {g : Graph} {r : Rewrite} {removed : List NodeId}

/-- Whether no value depends on itself through what a rewrite changes: no input of a fusion depends on an output
beside the replaced operators, no value on itself after values were redirected, and no new input of an operator on
its outputs. The outputs of a fusion must also be values. -/
def KeepsOrder (g : Graph) (removed : List NodeId) : Rewrite → Prop
  | .fuse f => (∀ w ∈ f.outputs, g.isValue w = true) ∧
    ∀ v w, v ∈ f.inputs → w ∈ f.outputs → ¬ReflTransGen (g.ComputesBeside removed) w v
  | .alias pairs => ∀ v, ¬TransGen (fun v w => ∃ u, redirectAll pairs u = v ∧ g.Computes u w) v v
  | .replaceInputs id _ inputs =>
    ∀ v w, v ∈ inputs → w ∈ g.outputsOf id → ¬ReflTransGen (g.ComputesBeside [id]) w v
  | .constant .. | .replaceOperator .. => True

/-! ## Kinds of rewrites -/

theorem validate_fuse {f : Fusion} (hg : g.Indexed) (hformed : g.WellFormed) (hacyclic : g.Acyclic)
    (hcheck : f.Checked g removed) :
    (f.apply g removed).validate = .ok () ↔ (fuse f).KeepsOrder g removed := by
  have hcomputes : (f.apply g removed).Computes =
      fun v w => g.ComputesBeside removed v w ∨ v ∈ f.inputs ∧ w ∈ f.outputs := by
    funext v w
    exact propext (Fusion.computes_apply hg)
  have horder : (f.apply g removed).Acyclic ↔
      ∀ v w, v ∈ f.inputs → w ∈ f.outputs → ¬ReflTransGen (g.ComputesBeside removed) w v := by
    rw [Graph.Acyclic, hcomputes]
    exact Graph.not_transGen_added (hacyclic.beside removed)
  constructor
  · intro hvalid
    have hformed' := Graph.wellFormed_of_validate hvalid
    have hnew : (f.apply g removed).operator? (Fusion.newId g removed) =
        some { name := f.name, inputs := f.inputs, outputs := f.outputs, op := f.op } :=
      Graph.operator?_addOperator ..
    have hindexed : (f.apply g removed).Indexed := by
      refine hcheck.indexed_apply hg fun w hw id hid hmem => ?_
      have hne := Fusion.ne_newId hg hid (Graph.isSome_operator?_of_mem_outputsOf hmem)
      obtain ⟨op, hop, hmem⟩ := Graph.mem_outputsOf.1
        ((Fusion.outputsOf_apply hg (f := f)).trans (by rw [if_neg hne, if_neg hid]) ▸ hmem)
      exact hne (hformed'.oneProducer id op _ _ w hop hnew hmem hw)
    refine ⟨fun w hw => ?_, horder.1 ((Graph.validate_eq_ok hindexed).1 hvalid).2⟩
    have hvalue := hformed'.produces _ _ hnew w hw
    rwa [Graph.isValue_eq, hcheck.readable?_apply hg, ← Graph.isValue_eq] at hvalue
  · rintro ⟨hvalues, hback⟩
    obtain ⟨hindexed, hformed'⟩ := hcheck.wellFormed_apply hg hformed hvalues fun w hw hw' => hback w w hw' hw .refl
    exact (Graph.validate_eq_ok hindexed).2 ⟨hformed', horder.2 hback⟩

theorem validate_alias {pairs : List (NodeId × NodeId)} (hg : g.Indexed) (hformed : g.WellFormed)
    (hcheck : (Rewrite.alias pairs).check g = .ok removed) :
    ((Rewrite.alias pairs).apply g removed).validate = .ok () ↔ (Rewrite.alias pairs).KeepsOrder g removed := by
  obtain ⟨outputs, houtputs, -⟩ := bind_eq_ok.1 hcheck
  refine (Graph.validate_eq_ok (hg.replaceValues pairs)).trans ?_
  rw [Graph.acyclic_replaceValues hg, and_iff_right (wellFormed_replaceValues hg hformed houtputs)]
  rfl

theorem check_constant {id : NodeId} {x : Value} (h : (constant id x).check g = .ok removed) :
    g.isValue id = true ∧ id ∉ g.inputIds := by
  simp only [check] at h
  split at h
  · cases h
  · next hok => simpa using hok

/-- What a constant does is an alias to a new node. -/
theorem constant_eq_alias {id : NodeId} {x : Value} (hformed : g.WellFormed)
    (hcheck : (constant id x).check g = .ok removed) : ∃ name,
    (constant id x).apply g removed = (g.addConstant name x).1.replaceValue id g.nodes.size ∧ id ≠ g.nodes.size ∧
      checkAlias (g.addConstant name x).1 g.outputIds (id, g.nodes.size) =
        .ok (g.outputIds.map (Graph.redirect id g.nodes.size)) := by
  obtain ⟨hvalue, hinput⟩ := check_constant hcheck
  have hreadable : (g.readable? id).isSome := Option.isSome_of_any (Graph.isValue_eq ▸ hvalue)
  refine ⟨(g.node? id).bind Node.name?, rfl, ?_⟩
  have hne : id ≠ g.nodes.size := by
    rintro rfl
    simp [Graph.readable?, Graph.node?_size] at hreadable
  refine ⟨hne, checkAlias_eq_ok.2 ⟨hne, ?_, ?_, hinput, fun _ hmem => ?_, rfl⟩⟩
  · rwa [Graph.isReadable_eq, Graph.readable?_addConstant _ x hreadable]
  · simp [Graph.isReadable_eq, Graph.readable?_newConstant]
  · have := hformed.outputs _ hmem
    simp [Graph.isReadable, Graph.node?_size] at this

/-- On a constant that takes the place of a value only readers of the value depend. -/
theorem validate_constant {id : NodeId} {x : Value} (hg : g.Indexed) (hformed : g.WellFormed) (hacyclic : g.Acyclic)
    (hcheck : (constant id x).check g = .ok removed) : ((constant id x).apply g removed).validate = .ok () := by
  obtain ⟨name, happly, hne, hpair⟩ := constant_eq_alias hformed hcheck
  have hindexed := hg.addConstant name x
  have hformed' : ((g.addConstant name x).1.replaceValues [(id, g.nodes.size)]).WellFormed :=
    wellFormed_replaceValues hindexed (Graph.wellFormed_addConstant name x hg hformed) (bind_eq_ok.2 ⟨_, hpair, rfl⟩)
  rw [happly, Graph.validate_eq_ok (hindexed.replaceValue _ _)]
  refine ⟨hformed', (Graph.acyclic_replaceValue hindexed ?_ hne).2 ?_⟩
  · rwa [Graph.Acyclic, Graph.computes_addConstant]
  · rw [Graph.computes_addConstant]
    intro hpath
    rcases ReflTransGen.cases_tail hpath with heq | ⟨v, -, source, -, hout⟩
    · exact hne heq.symm
    · have := ((Graph.wellFormed_iff hg).1 hformed).2.1 source _ hout
      simp [Graph.isValue, Graph.node?_size] at this

theorem check_replaceInputs {id : NodeId} {op : Option Operator} {inputs : List NodeId}
    (h : (replaceInputs id op inputs).check g = .ok removed) : ∃ n, g.operator? id = some n ∧
      ∀ v ∈ inputs, g.isReadable v = true ∧ v ∉ g.outputsOf id := by
  unfold check at h
  cases hop : g.operator? id with
  | none => simp [hop, throw, throwThe, MonadExceptOf.throw] at h
  | some n =>
    simp only [hop] at h
    obtain ⟨_, hloop, -⟩ := bind_eq_ok.1 h
    refine ⟨n, rfl, fun v hv => ?_⟩
    simpa [Graph.outputsOf, hop] using Graph.check_of_forIn hloop v hv

/-- Another operator at a node whose inputs are replaced changes no further edges. -/
theorem apply_replaceInputs_eq (removed : List NodeId) (hg : g.Indexed) (id : NodeId) (op : Option Operator)
    (inputs : List NodeId) : ∃ g' : Graph,
      (replaceInputs id op inputs).apply g removed = g'.replaceInputs id inputs ∧ g'.Indexed ∧ g'.SameEdges g := by
  cases op with
  | none => exact ⟨g, rfl, hg, .refl g⟩
  | some op => exact ⟨g.replaceOperator id op, rfl, hg.replaceOperator g id op, Graph.sameEdges_replaceOperator g id op⟩

theorem validate_replaceInputs {id : NodeId} {op : Option Operator} {inputs : List NodeId} (hg : g.Indexed)
    (hformed : g.WellFormed) (hacyclic : g.Acyclic) (hcheck : (replaceInputs id op inputs).check g = .ok removed) :
    ((replaceInputs id op inputs).apply g removed).validate = .ok () ↔
      (replaceInputs id op inputs).KeepsOrder g removed := by
  obtain ⟨n, hn, hinputs⟩ := check_replaceInputs hcheck
  obtain ⟨g', happly, hg', hsame⟩ := apply_replaceInputs_eq removed hg id op inputs
  obtain ⟨n', hn'⟩ : ∃ n', g'.operator? id = some n' := Option.isSome_iff_exists.1 (by rw [hsame.operators, hn]; rfl)
  have hcomputes : (g'.replaceInputs id inputs).Computes =
      fun v w => g.ComputesBeside [id] v w ∨ v ∈ inputs ∧ w ∈ g.outputsOf id := by
    funext v w
    simpa only [Graph.ComputesBeside, hsame.inputsOf, hsame.outputsOf] using
      propext (Graph.computes_replaceInputs hn' inputs v w)
  have hreadable : ∀ v ∈ inputs, g'.isReadable v = true := by
    intro v hv
    rw [Graph.isReadable_eq, hsame.readable?, ← Graph.isReadable_eq]
    exact (hinputs v hv).1
  rw [happly, Graph.validate_eq_ok (hg'.replaceInputs id inputs hn'), Graph.Acyclic, hcomputes,
    and_iff_right (Graph.wellFormed_replaceInputs hg' (hsame.wellFormed hg' hg hformed) hn' hreadable)]
  exact Graph.not_transGen_added (hacyclic.beside [id])

/-- An admitted rewrite keeps a graph valid exactly if it keeps the order of values. -/
theorem validate_apply_iff (g : Graph) (r : Rewrite) (removed : List NodeId) (hg : g.Indexed)
    (hvalid : g.validate = .ok ()) (hcheck : r.check g = .ok removed) :
    (r.apply g removed).validate = .ok () ↔ r.KeepsOrder g removed := by
  obtain ⟨hformed, hacyclic⟩ := (Graph.validate_eq_ok hg).1 hvalid
  cases r with
  | fuse f => exact validate_fuse hg hformed hacyclic (Fusion.checked_of_check hg hcheck)
  | «alias» pairs => exact validate_alias hg hformed hcheck
  | constant id x => exact iff_of_true (validate_constant hg hformed hacyclic hcheck) trivial
  | replaceOperator id op =>
    have hsame := Graph.sameEdges_replaceOperator g id op
    have hg' := hg.replaceOperator g id op
    refine iff_of_true ((Graph.validate_eq_ok hg').2 ⟨hsame.wellFormed hg' hg hformed, ?_⟩) trivial
    rwa [Graph.Acyclic, hsame.computes]
  | replaceInputs id op inputs => exact validate_replaceInputs hg hformed hacyclic hcheck

/-! ## A value used in place of its source -/

/-- The exponential of a negation. -/
def chained : Graph :=
  let values := ["x", "n", "e"].foldl (fun g name => (g.addValue name none none).1) Graph.empty
  let negated := (values.addOperator "negate" (.elementwise { fn := .neg }) [0] [1]).1
  ((negated.addOperator "exp" (.elementwise { fn := .exp }) [1] [2]).1.setInputs [0]).setOutputs [2]

theorem indexed_chained : chained.Indexed := by
  refine .setOutputs (.setInputs (.addOperator _ _ _ _ (.addOperator _ _ _ _ ?_ ?_) ?_) _) _
  · exact Graph.indexed_empty.addValue .. |>.addValue .. |>.addValue ..
  all_goals decide

/-- The input can be used in place of its negation, but the exponential cannot, though both pass the check. -/
theorem validate_apply_chained : chained.Indexed ∧ chained.validate = .ok () ∧
    (Rewrite.alias [(1, 0)]).check chained = .ok [] ∧ (Rewrite.alias [(1, 0)]).KeepsOrder chained [] ∧
    (Rewrite.alias [(1, 2)]).check chained = .ok [] ∧ ¬(Rewrite.alias [(1, 2)]).KeepsOrder chained [] := by
  have hvalid : chained.validate = .ok () := by decide +kernel
  have hback : (Rewrite.alias [(1, 0)]).check chained = .ok [] := rfl
  have hforth : (Rewrite.alias [(1, 2)]).check chained = .ok [] := rfl
  have hkept : ((Rewrite.alias [(1, 0)]).apply chained []).validate = .ok () := by decide +kernel
  have hcycle : ((Rewrite.alias [(1, 2)]).apply chained []).validate ≠ .ok () := by decide +kernel
  exact ⟨indexed_chained, hvalid, hback, (validate_apply_iff chained _ [] indexed_chained hvalid hback).1 hkept,
    hforth, fun horder => hcycle ((validate_apply_iff chained _ [] indexed_chained hvalid hforth).2 horder)⟩

end Rewrite

end TensorGraph
