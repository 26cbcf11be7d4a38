import Mathlib.Data.List.Induction
import TensorGraph.Proofs.Facts.Supply
import TensorGraph.Proofs.Graph.Recording
import TensorGraph.Proofs.Program.Stability

/-!
# Inferred facts describe values

Inference follows a graph from operator to operator while a run computes values. What it records of a value
describes the value in every run, for some sizes of the symbols (`Graph.infer_matches`). The symbols of declared
dimensions have the sizes that the inputs have; the fresh ones get sizes as they are drawn, which depend on
nothing but the run.
-/

namespace TensorGraph

/-! ## Graphs and runs -/

/-- Whether a graph consists of built-in operators with as many inputs as they take, declares nothing but its
inputs, and uses no names of fresh symbols. -/
structure Graph.Plain (g : Graph) : Prop where
  builtin : ∀ id op, g.operator? id = some op → op.op.IsBuiltin
  takes : ∀ id op, g.operator? id = some op → op.op.Takes op.inputs.length
  undeclared : ∀ id n, g.node? id = some (.value n) → id ∉ g.inputIds → n.shape = none ∧ n.type = none
  unreserved : ∀ id n dims k, g.node? id = some (.value n) → n.shape = some dims →
    .symbolic ("unknown_" ++ toString (k : Nat)) ∉ dims

/-- Whether a value occurs in a run: it is given or computed, or a step reads it. -/
def Program.Occurs (p : Program) (env : IdMap Value) (id : NodeId) (v : Value) : Prop :=
  p.valueIn? env id = some v ∧ ((env.get? id).isSome ∨ ∃ s ∈ p.steps, id ∈ s.node.inputs)

/-- Whether all sizes that occur in a run are positive words, and no integer arithmetic wraps. -/
structure Program.Tame (p : Program) (env : IdMap Value) : Prop where
  fits : ∀ id v, p.Occurs env id v → Shape.Fits v.shape
  noWrap : ∀ s ∈ p.steps, ∀ vs, s.node.inputs.mapM (p.valueIn? env) = some vs → s.node.op.NoWrap vs

/-- Whether `f` is what is known when an operator is inferred. -/
def Graph.KnownBefore (g : Graph) (strict : Bool) (id : NodeId) (f : InferredFacts) : Prop :=
  ∃ before after s, g.topologicalOrder = .ok (before ++ id :: after) ∧
    Draws (before.foldlM (g.inferOperator strict) g.initialFacts) {} f s

/-- Whether every entry -1 of a target shape that a step reads is known to be -1 when the step is inferred. -/
def Program.KnownTargets (p : Program) (strict : Bool) (env : IdMap Value) : Prop :=
  ∀ s ∈ p.steps, ∀ f, p.graph.KnownBefore strict s.id f → ∀ vs, s.node.inputs.mapM (p.valueIn? env) = some vs →
    s.node.op.KnownTarget (Graph.inputFacts f s.node) vs

/-- Whether inference gives the same facts if simplification drops a constant from a maximum or minimum only
where another operand dominates it for all sizes that are possible in the run. -/
def Program.DropsDominated (p : Program) (strict : Bool) (m : SymbolMap) (env : IdMap Value) : Prop :=
  ∀ s ∈ p.steps, ∀ f, p.graph.KnownBefore strict s.id f → ∀ vs, s.node.inputs.mapM (p.valueIn? env) = some vs →
    ∀ σ : Assignment, σ.Extends m → DescribesAll σ (Graph.inputFacts f s.node) vs →
    s.node.op.outputFactsBy σ.drops (Graph.inputFacts f s.node) = s.node.op.outputFacts (Graph.inputFacts f s.node)

namespace Graph

variable {g : Graph} {p : Program} {strict : Bool} {m : SymbolMap} {env : IdMap Value} {f f' : InferredFacts}
  {s s' : SymbolSupply} {sizes : Nat → Nat} {id : NodeId} {op : OperatorNode}

/-- What is known is right for all sizes of symbols that agree with the map and, for the symbols drawn so far,
with the given sizes. -/
structure SoundSoFar (p : Program) (env : IdMap Value) (m : SymbolMap) (f : InferredFacts) (s : SymbolSupply)
    (sizes : Nat → Nat) : Prop where
  before : ({} : SymbolSupply).Before s
  facts : ∀ σ : Assignment, σ.Extends m → σ.Names {} s sizes →
    ∀ id v t, p.Occurs env id v → f.facts.get? id = some t → t.Describes σ v
  types : ∀ id v type, p.Occurs env id v → f.types.get? id = some type → type = v.type

/-! ## One operator -/

/-- What the rule of an operator gives, or nothing if it rejects the inputs and inference is not strict. -/
theorem run_ruleFacts (g : Graph) (strict : Bool) (id : NodeId) (op : OperatorNode) (inputs : List TensorFacts)
    (s : SymbolSupply) : (g.ruleFacts strict id op inputs).run.run s =
      match (op.op.outputFacts inputs).run.run s with
      | (.ok outs, s₁) => (.ok outs, s₁)
      | (.error e, s₁) => if strict then (.error (.rule (g.nodeName id) e), s₁) else (.ok [], s₁) := by
  unfold ruleFacts
  rw [run_bind]
  have hlift : (liftM (op.op.outputFacts inputs).run : ExceptT InferenceError (StateM SymbolSupply) _).run.run s =
      (.ok ((op.op.outputFacts inputs).run.run s).1, ((op.op.outputFacts inputs).run.run s).2) := rfl
  rw [hlift]
  rcases (op.op.outputFacts inputs).run.run s with ⟨e | found, s₁⟩
  · cases strict <;> rfl
  · rfl

theorem draws_ruleFacts {inputs outs : List TensorFacts} (h : Draws (g.ruleFacts strict id op inputs) s outs s') :
    Draws (op.op.outputFacts inputs) s outs s' ∨ outs = [] ∧ ((op.op.outputFacts inputs).run.run s).2 = s' := by
  unfold Draws at h ⊢
  rw [run_ruleFacts] at h
  rcases hr : (op.op.outputFacts inputs).run.run s with ⟨e | found, s₁⟩
  · rw [hr] at h
    dsimp only at h
    split at h
    · cases h
    · cases h
      exact .inr ⟨rfl, rfl⟩
  · rw [hr] at h
    cases h
    exact .inl rfl

/-- An operator that does not run produces nothing that occurs. -/
theorem not_mem_outputs_of_skipped (hwell : g.WellFormed) (hp : p.Interprets g) {start : IdMap Value}
    (hsettled : p.Settled start env p.steps) (hstart : ∀ id v, start.get? id = some v → id ∈ g.inputIds)
    (hop : g.operator? id = some op) (hskip : ∀ st ∈ p.steps, st.id ≠ id) {id' : NodeId} {v : Value}
    (hocc : p.Occurs env id' v) : id' ∉ op.outputs := by
  intro hmem
  have hv := hocc.1
  unfold Program.valueIn? at hv
  cases hget : env.get? id' with
  | some w =>
    rcases hsettled.origin id' w hget with hinput | ⟨st, hst, hmem'⟩
    · exact hwell.inputsFree id' (hstart id' w hinput) id op hop hmem
    · exact hskip st hst (hwell.oneProducer _ _ _ _ id' (hp.node st hst) hop hmem' hmem)
  | none =>
    rw [hget, hp.graph] at hv
    exact absurd (hwell.produces id op hop id' hmem) (Bool.eq_false_iff.1 (isValue_of_constant? hv))

theorem SoundSoFar.skip (h : SoundSoFar p env m f s sizes) (hbefore : s.Before s') {outs : List TensorFacts}
    (hout : ∀ id' v, p.Occurs env id' v → id' ∉ op.outputs) :
    SoundSoFar p env m (g.recordOutputs f op outs) s' sizes := by
  refine ⟨h.before.trans hbefore, fun σ hm hσ id' v t hocc ht => ?_, fun id' v type hocc htype => ?_⟩
  · rw [(recordOutputs_other f op outs (hout id' v hocc)).1] at ht
    exact h.facts σ hm (fun k hk hk' => hσ k hk (Nat.le_trans hk' hbefore.count)) id' v t hocc ht
  · rw [(recordOutputs_other f op outs (hout id' v hocc)).2] at htype
    exact h.types id' v type hocc htype

/-- The facts about the inputs of a step describe their values. -/
theorem describesAll_inputFacts (hfacts : ∀ id v t, p.Occurs env id v → f.facts.get? id = some t →
    TensorFacts.Describes σ v t) {vs : List Value} (hvs : op.inputs.mapM (p.valueIn? env) = some vs)
    (hread : ∀ id ∈ op.inputs, ∃ s ∈ p.steps, id ∈ s.node.inputs) : DescribesAll σ (inputFacts f op) vs := by
  refine List.forall₂_map_left_iff.2 (forall₂_of_mapM hvs fun id hid v hv => ?_)
  cases ht : f.facts.get? id with
  | some t => exact hfacts id v t ⟨hv, .inr (hread id hid)⟩ ht
  | none => trivial

theorem typesOf_inputs (htypes : ∀ id v type, p.Occurs env id v → f.types.get? id = some type → type = v.type)
    {vs : List Value} (hvs : op.inputs.mapM (p.valueIn? env) = some vs)
    (hread : ∀ id ∈ op.inputs, ∃ s ∈ p.steps, id ∈ s.node.inputs) : TypesOf (op.inputs.map f.type?) vs := by
  refine List.forall₂_map_left_iff.2 (forall₂_of_mapM hvs fun id hid v hv type htype => ?_)
  exact htypes id v type ⟨hv, .inr (hread id hid)⟩ htype

theorem describes_recordedFacts {σ : Assignment} {outs : List TensorFacts} {v : Value}
    (h : FirstDescribes σ outs v) : (recordedFacts none outs.head?).Describes σ v := by
  unfold recordedFacts
  split
  · next t ht =>
    split
    · trivial
    · exact h t ht
  · trivial

theorem names_split {σ : Assignment} {sizes sizes' : Nat → Nat} (hstart : ({} : SymbolSupply).Before s)
    (hbefore : s.Before s') (hσ : σ.Names {} s' fun k => if k ≤ s.count then sizes k else sizes' k) :
    σ.Names {} s sizes ∧ σ.Names s s' sizes' := by
  refine ⟨fun k hk hk' => ?_, fun k hk hk' => ?_⟩
  · exact (hσ k hk (Nat.le_trans hk' hbefore.count)).trans (if_pos hk')
  · rw [hstart.nameOf]
    have hpos : ({} : SymbolSupply).count < k := Nat.lt_of_le_of_lt (Nat.zero_le _) hk
    exact (hσ k hpos hk').trans (if_neg (by omega))

/-- A rule only draws fresh symbols, also if it rejects the inputs. -/
theorem before_outputFacts {op : Operator} (hbuiltin : op.IsBuiltin) {inputs outs : List TensorFacts}
    (h : Draws (op.outputFacts inputs) s outs s' ∨ outs = [] ∧ ((op.outputFacts inputs).run.run s).2 = s') :
    s.Before s' := by
  have hadvances := advances_outputFacts hbuiltin boundsDominate inputs
  rcases h with hdraws | ⟨-, rfl⟩
  · exact hdraws.before hadvances
  · exact hadvances s

/-- What a step of a run reads and computes. -/
structure Performs (g : Graph) (p : Program) (env : IdMap Value) (op : OperatorNode) (vs : List Value) (oid : NodeId)
    (out : Value) : Prop where
  inputs : op.inputs.mapM (p.valueIn? env) = some vs
  outputs : op.outputs = [oid]
  occurs : p.Occurs env oid out
  returns : op.op.Returns vs out
  /-- Nothing is declared of the output. -/
  undeclared : ∃ n, g.node? oid = some (.value n) ∧ n.shape = none ∧ n.type = none

theorem exists_performs {start : IdMap Value} (hwell : g.WellFormed) (hplain : g.Plain) (hp : p.Interprets g)
    (hsettled : p.Settled start env p.steps) {st : Step} (hst : st ∈ p.steps) :
    ∃ vs oid out, Performs g p env st.node vs oid out := by
  have hop := hp.node st hst
  obtain ⟨vs, results, hvs, hrun, hlen, hget⟩ := hsettled.computed st hst
  have htakes : st.node.op.Takes vs.length := by
    rw [length_of_mapM hvs]
    exact hplain.takes _ _ hop
  obtain ⟨out, rfl, hreturns⟩ := Operator.returns_of_run (hplain.builtin _ _ hop) htakes hrun
  obtain ⟨oid, hoid⟩ := List.length_eq_one_iff.1 hlen.symm
  have hproduced : oid ∈ st.node.outputs := hoid ▸ List.mem_singleton_self oid
  have hout : env.get? oid = some out := hget oid out (by simp [hoid])
  obtain ⟨n, hn⟩ : ∃ n, g.node? oid = some (.value n) := by
    have hvalue := hwell.produces _ _ hop oid hproduced
    unfold isValue at hvalue
    cases hnode : g.node? oid with
    | none => simp [hnode] at hvalue
    | some node =>
      cases node with
      | value n => exact ⟨n, rfl⟩
      | _ => simp [hnode, Node.isValue] at hvalue
  refine ⟨vs, oid, out, hvs, hoid, ⟨?_, .inl (by rw [hout]; rfl)⟩, hreturns, n, hn, ?_⟩
  · rw [Program.valueIn?, hout]
    rfl
  · exact hplain.undeclared oid n hn fun hmem => hwell.inputsFree oid hmem _ _ hop hproduced

/-- The rule of a step that runs describes its output, under sizes of the symbols that are fresh there. -/
theorem Performs.follows {vs : List Value} {oid : NodeId} {out : Value} (h : Performs g p env op vs oid out)
    (hread : ∀ id ∈ op.inputs, ∃ st ∈ p.steps, id ∈ st.node.inputs) (htame : p.Tame env) (hwrap : op.op.NoWrap vs)
    (hknown : op.op.KnownTarget (inputFacts f op) vs) :
    Follows (fun drops => op.op.outputFactsBy drops (inputFacts f op)) (inputFacts f op) vs out := by
  refine h.returns.follows_outputFacts ?_ (fun v hv => ?_) (htame.fits oid out h.occurs) hwrap hknown
  · rw [inputFacts, List.length_map, length_of_mapM h.inputs]
  · have hmem : some v ∈ vs.map some := List.mem_map_of_mem hv
    rw [← mapM_eq_some.1 h.inputs] at hmem
    obtain ⟨id, hid, hval⟩ := List.mem_map.1 hmem
    exact htame.fits id v ⟨hval, .inr (hread id hid)⟩

theorem Performs.eq_out {vs : List Value} {oid : NodeId} {out v : Value} (h : Performs g p env op vs oid out)
    (hocc : p.Occurs env oid v) : v = out :=
  Option.some.inj (hocc.1.symm.trans h.occurs.1)

/-- The symbols that are drawn for a step get sizes for which what is recorded of its output describes it. The older ones
keep theirs, so that what was known before stays right. -/
theorem SoundSoFar.execute {start : IdMap Value} (hwell : g.WellFormed) (hplain : g.Plain) (hp : p.Interprets g)
    (hsettled : p.Settled start env p.steps) (htame : p.Tame env) (hknown : p.KnownTargets strict env)
    (hdrops : p.DropsDominated strict m env) (h : SoundSoFar p env m f s sizes) {st : Step} (hst : st ∈ p.steps)
    (hbefore : g.KnownBefore strict st.id f) {outs : List TensorFacts}
    (hdraws : Draws (st.node.op.outputFacts (inputFacts f st.node)) s outs s' ∨
      outs = [] ∧ ((st.node.op.outputFacts (inputFacts f st.node)).run.run s).2 = s') :
    ∃ sizes', SoundSoFar p env m (g.recordOutputs f st.node outs) s' sizes' := by
  have hgraph : p.graph.KnownBefore strict st.id f := hp.graph.symm ▸ hbefore
  have hread : ∀ id ∈ st.node.inputs, ∃ s ∈ p.steps, id ∈ s.node.inputs := fun id hid => ⟨st, hst, hid⟩
  obtain ⟨vs, oid, out, hstep⟩ := exists_performs hwell hplain hp hsettled hst
  obtain ⟨n, hn, hnshape, hntype⟩ := hstep.undeclared
  have hadvance : s.Before s' := before_outputFacts (hplain.builtin _ _ (hp.node st hst)) hdraws
  have hvs := hstep.inputs
  obtain ⟨fresh, hfresh⟩ := hstep.follows hread htame (htame.noWrap st hst vs hvs) (hknown st hst f hgraph vs hvs) s
  refine ⟨fun k => if k ≤ s.count then sizes k else fresh k, h.before.trans hadvance,
    fun σ hm hσ id v t hocc ht => ?_, fun id v type hocc htype => ?_⟩
  · obtain ⟨hold, hnew⟩ := names_split h.before hadvance hσ
    have hfacts := h.facts σ hm hold
    rw [recordOutputs_single f st.node outs hn hstep.outputs, InferredFacts.facts_insert] at ht
    split at ht
    · next heq =>
      cases ht
      subst heq
      obtain rfl := hstep.eq_out hocc
      have hall := describesAll_inputFacts hfacts hvs hread
      rw [hnshape]
      refine describes_recordedFacts ?_
      rcases hdraws with hdraws | ⟨rfl, -⟩
      · rw [← hdrops st hst f hgraph vs hvs σ hm hall] at hdraws
        exact hfresh σ.drops outs s' hdraws σ hnew SizeExpr.soundDrops_bothDominate hall
      · exact fun t ht => by cases ht
    · exact hfacts id v t hocc ht
  · rw [recordOutputs_single f st.node outs hn hstep.outputs, InferredFacts.types_insert] at htype
    split at htype
    · next heq =>
      subst heq
      obtain rfl := hstep.eq_out hocc
      rw [hntype] at htype
      cases hinferred : ((st.node.op.outputTypes (st.node.inputs.map f.type?))[0]?).join with
      | some type' =>
        rw [hinferred] at htype
        cases htype
        exact hstep.returns.type_eq (typesOf_inputs h.types hvs hread) hinferred
      | none =>
        rw [hinferred] at htype
        exact h.types id v type hocc htype
    · exact h.types id v type hocc htype

/-! ## All operators -/

theorem SoundSoFar.step {start : IdMap Value} (hwell : g.WellFormed) (hplain : g.Plain) (hp : p.Interprets g)
    (hsettled : p.Settled start env p.steps) (hstart : ∀ id v, start.get? id = some v → id ∈ g.inputIds)
    (htame : p.Tame env) (hknown : p.KnownTargets strict env) (hdrops : p.DropsDominated strict m env)
    (h : SoundSoFar p env m f s sizes) (hbefore : g.KnownBefore strict id f)
    (hdraws : Draws (g.inferOperator strict f id) s f' s') : ∃ sizes', SoundSoFar p env m f' s' sizes' := by
  unfold inferOperator at hdraws
  split at hdraws
  · obtain ⟨rfl, rfl⟩ := draws_pure.1 hdraws
    exact ⟨sizes, h⟩
  · next op hop =>
    obtain ⟨outs, s₁, houts, hrecord⟩ := draws_bind.1 hdraws
    obtain ⟨rfl, rfl⟩ := draws_pure.1 hrecord
    have hfound := draws_ruleFacts houts
    by_cases hexec : ∃ st ∈ p.steps, st.id = id
    · obtain ⟨st, hst, rfl⟩ := hexec
      obtain rfl : op = st.node := Option.some.inj (hop.symm.trans (hp.node st hst))
      exact h.execute hwell hplain hp hsettled htame hknown hdrops hst hbefore hfound
    · have hskip : ∀ st ∈ p.steps, st.id ≠ id := fun st hst heq => hexec ⟨st, hst, heq⟩
      exact ⟨sizes, h.skip (before_outputFacts (hplain.builtin id op hop) hfound) fun id' v hocc =>
        not_mem_outputs_of_skipped hwell hp hsettled hstart hop hskip hocc⟩

theorem draws_foldlM_concat {α β ε : Type} {f : β → α → ExceptT ε (StateM SymbolSupply) β} {l : List α} {a : α}
    {b b' : β} : Draws ((l ++ [a]).foldlM f b) s b' s' ↔
      ∃ b₁ s₁, Draws (l.foldlM f b) s b₁ s₁ ∧ Draws (f b₁ a) s₁ b' s' := by
  rw [List.foldlM_append, draws_bind]
  refine exists_congr fun b₁ => exists_congr fun s₁ => and_congr_right fun _ => ?_
  rw [List.foldlM_cons, draws_bind]
  constructor
  · rintro ⟨b₂, s₂, hf, hrest⟩
    obtain ⟨rfl, rfl⟩ := draws_pure.1 hrest
    exact hf
  · exact fun hf => ⟨b', s', hf, draws_pure.2 ⟨rfl, rfl⟩⟩

theorem soundSoFar_of_foldlM {start : IdMap Value} (hwell : g.WellFormed) (hplain : g.Plain) (hp : p.Interprets g)
    (hsettled : p.Settled start env p.steps) (hstart : ∀ id v, start.get? id = some v → id ∈ g.inputIds)
    (htame : p.Tame env) (hknown : p.KnownTargets strict env) (hdrops : p.DropsDominated strict m env)
    (hinitial : SoundSoFar p env m g.initialFacts {} fun _ => 0) {order : List NodeId}
    (horder : g.topologicalOrder = .ok order) {before : List NodeId} :
    ∀ {after f s}, order = before ++ after →
      Draws (before.foldlM (g.inferOperator strict) g.initialFacts) {} f s →
      ∃ sizes, SoundSoFar p env m f s sizes := by
  induction before using List.reverseRecOn with
  | nil =>
    intro after f s _ hdraws
    obtain ⟨rfl, rfl⟩ := draws_pure.1 hdraws
    exact ⟨_, hinitial⟩
  | append_singleton before id ih =>
    intro after f s hsplit hdraws
    obtain ⟨f₁, s₁, hbefore, hstep⟩ := draws_foldlM_concat.1 hdraws
    rw [List.append_assoc, List.singleton_append] at hsplit
    obtain ⟨sizes, hsound⟩ := ih hsplit hbefore
    exact hsound.step hwell hplain hp hsettled hstart htame hknown hdrops
      ⟨before, after, s₁, hsplit ▸ horder, hbefore⟩ hstep

/-- What occurs for an input of the graph is the value that was bound to it. -/
theorem declared_of_occurs {inputs : List Value} (hwell : g.WellFormed) (hp : p.Interprets g)
    (hbind : p.bindInputs inputs = .ok m) (hsettled : p.Settled ⟨g.inputIds.zip inputs⟩ env p.steps)
    (hid : id ∈ g.inputIds) {v : Value} (hocc : p.Occurs env id v) : p.Declared m id v := by
  obtain ⟨-, hdeclared, -⟩ := Program.bindInputs_eq_ok hbind
  have hv := hocc.1
  unfold Program.valueIn? at hv
  cases hget : env.get? id with
  | some w =>
    rw [hget] at hv
    cases hv
    rcases hsettled.origin id v hget with hstart | ⟨st, hst, hmem⟩
    · have hmem : (id, v) ∈ g.inputIds.zip inputs := mem_of_lookup hstart
      exact hdeclared (id, v) (hp.inputs.symm ▸ hmem)
    · exact absurd hmem (hwell.inputsFree id hid _ _ (hp.node st hst))
  | none =>
    rw [hget, hp.graph] at hv
    exact absurd (hwell.inputs id hid) (Bool.eq_false_iff.1 (isValue_of_constant? hv))

theorem eq_of_occurs_constant {start : IdMap Value} (hwell : g.WellFormed) (hp : p.Interprets g)
    (hstart : ∀ id v, start.get? id = some v → id ∈ g.inputIds) (hsettled : p.Settled start env p.steps)
    {c v : Value} (hc : g.constant? id = some c) (hocc : p.Occurs env id v) : v = c := by
  have hv := hocc.1
  unfold Program.valueIn? at hv
  cases hget : env.get? id with
  | some w =>
    have hnovalue := isValue_of_constant? hc
    rcases hsettled.origin id w hget with hinput | ⟨st, hst, hmem⟩
    · rw [hwell.inputs id (hstart id w hinput)] at hnovalue
      cases hnovalue
    · rw [hwell.produces _ _ (hp.node st hst) id hmem] at hnovalue
      cases hnovalue
  | none =>
    rw [hget, hp.graph] at hv
    exact Option.some.inj ((show g.constant? id = some v from hv).symm.trans hc)

/-- What is known at first describes constants and the inputs, under the sizes that the inputs have. -/
theorem soundSoFar_initial {inputs : List Value} (hwell : g.WellFormed) (hplain : g.Plain) (hp : p.Interprets g)
    (hbind : p.bindInputs inputs = .ok m) (hstart : ∀ id v, (IdMap.mk (g.inputIds.zip inputs)).get? id = some v →
      id ∈ g.inputIds) (hsettled : p.Settled ⟨g.inputIds.zip inputs⟩ env p.steps) (htame : p.Tame env) :
    SoundSoFar p env m g.initialFacts {} fun _ => 0 := by
  have hinitial := initial_initialFacts g
  have hconstant {id : NodeId} {n : ConstantNode} {v : Value} (hn : g.node? id = some (.constant n))
      (hocc : p.Occurs env id v) : v = n.value := by
    refine eq_of_occurs_constant hwell hp hstart hsettled ?_ hocc
    rw [constant?, hn]
    rfl
  have hdeclared {id : NodeId} {n : ValueNode} {v : Value} (hn : g.node? id = some (.value n))
      (hocc : p.Occurs env id v) : (∀ type, n.type = some type → v.type = type) ∧
      ∀ dims, n.shape = some dims → List.Forall₂ (fun d n => Dimension.Holds m n d) dims v.shape := by
    by_cases hid : id ∈ g.inputIds
    · have hv := declared_of_occurs hwell hp hbind hsettled hid hocc
      exact ⟨fun type => hv.type n type (hp.graph.symm ▸ hn), fun dims => hv.shape n dims (hp.graph.symm ▸ hn)⟩
    · obtain ⟨hshape, htype⟩ := hplain.undeclared id n hn hid
      exact ⟨fun type h => absurd h (by simp [htype]), fun dims h => absurd h (by simp [hshape])⟩
  refine ⟨.refl _, fun σ hm _ id v t hocc ht => ?_, fun id v type hocc htype => ?_⟩
  · rcases hinitial.facts id t ht with ⟨n, hn, rfl⟩ | ⟨n, hn, rfl⟩
    · obtain rfl := hconstant hn hocc
      exact TensorFacts.describes_ofValue (htame.fits id _ hocc)
    · exact TensorFacts.describes_ofDeclared hm (htame.fits id v hocc) (hdeclared hn hocc).2
  · rcases hinitial.types id type htype with ⟨n, hn, rfl⟩ | ⟨n, hn, htype⟩
    · rw [hconstant hn hocc]
    · exact ((hdeclared hn hocc).1 type htype).symm

/-! ## Sizes of all symbols -/

theorem nameOf_inj {j k : Nat} (h : s.nameOf j = s.nameOf k) : j = k := by
  have hdigits := congrArg String.toList (String.append_right_inj _ |>.1 h)
  simp only [Nat.toString_eq_repr, Nat.toList_repr] at hdigits
  rw [← Nat.ofDigitChars_ten_toDigits (n := j), hdigits, Nat.ofDigitChars_ten_toDigits]

/-- There are sizes of all symbols that agree with a map without names of fresh symbols, and with given sizes of
the fresh ones. -/
theorem exists_assignment (m : SymbolMap) (hpos : ∀ name w, m.get? name = some w → 0 ≤ w.toInt)
    (hfresh : ∀ k : Nat, m.get? (({} : SymbolSupply).nameOf k) = none) (s' : SymbolSupply) (sizes : Nat → Nat) :
    ∃ σ : Assignment, σ.Extends m ∧ σ.Names {} s' sizes := by
  classical
  refine ⟨fun name => if h : ∃ k, ({} : SymbolSupply).nameOf k = name then sizes h.choose else
    ((m.get? name).getD 0).toInt.toNat, fun name w hw => ?_, fun k _ _ => ?_⟩
  · beta_reduce
    rw [dif_neg, hw, Option.getD_some, Int.toNat_of_nonneg (hpos name w hw)]
    rintro ⟨k, rfl⟩
    rw [hfresh k] at hw
    cases hw
  · have h : ∃ j, ({} : SymbolSupply).nameOf j = ({} : SymbolSupply).nameOf k := ⟨k, rfl⟩
    beta_reduce
    rw [dif_pos h, nameOf_inj h.choose_spec]

/-- Inference follows the operators in topological order. -/
theorem draws_of_infer (h : g.infer strict = .ok f) : ∃ order s, g.topologicalOrder = .ok order ∧
    Draws (order.foldlM (g.inferOperator strict) g.initialFacts) {} f s := by
  unfold infer at h
  dsimp only at h
  split at h
  · next order horder => exact ⟨order, _, horder, Prod.ext h rfl⟩
  · obtain ⟨_, hthrow, -⟩ := bind_eq_ok.1 h
    cases hthrow

/-- If simplification drops only dominated constants, there are sizes of all symbols, those of the inputs among
them, under which everything that is inferred about values is what the run finds. -/
theorem infer_matches {inputs : List Value} {outputs : List NodeId} (hvalid : g.validate = .ok ())
    (hplain : g.Plain) (hlink : Linker.interpreted.link g g.inputIds outputs = .ok p)
    (hbind : p.bindInputs inputs = .ok m) (hrun : p.evaluateSteps p.steps ⟨g.inputIds.zip inputs⟩ = .ok env)
    (htame : p.Tame env) (hknown : p.KnownTargets strict env) (hdrops : p.DropsDominated strict m env)
    (hinfer : g.infer strict = .ok f) : ∃ σ : Assignment, σ.Extends m ∧ ∀ id v, p.Occurs env id v →
      (∀ t, f.facts.get? id = some t → t.Matches σ v) ∧ ∀ type, f.types.get? id = some type → type = v.type := by
  have hwell := wellFormed_of_validate hvalid
  have hp := interprets_of_link hlink
  have hstart : ∀ id v, (IdMap.mk (g.inputIds.zip inputs)).get? id = some v → id ∈ g.inputIds :=
    fun id v h => (List.of_mem_zip (mem_of_lookup h)).1
  have hsettled := Program.settled_of_evaluateSteps hwell hp hstart hrun
  have hinitial := soundSoFar_initial hwell hplain hp hbind hstart hsettled htame
  obtain ⟨order, s, horder, hdraws⟩ := draws_of_infer hinfer
  obtain ⟨sizes, hsound⟩ := soundSoFar_of_foldlM hwell hplain hp hsettled hstart htame hknown hdrops hinitial horder
    (List.append_nil order).symm hdraws
  obtain ⟨-, -, hnames⟩ := Program.bindInputs_eq_ok hbind
  have hfresh (k : Nat) : m.get? (({} : SymbolSupply).nameOf k) = none := by
    refine Option.eq_none_iff_forall_ne_some.2 fun w hw => ?_
    obtain ⟨⟨id, -, n, dims, hn, hdims, hmem⟩, -⟩ := hnames _ w hw
    exact hplain.unreserved id n dims k (hp.graph ▸ hn) hdims hmem
  obtain ⟨σ, hm, hσ⟩ := exists_assignment m (fun name w hw => (hnames name w hw).2) hfresh _ sizes
  refine ⟨σ, hm, fun id v hocc => ⟨fun t ht => ?_, fun type htype => hsound.types id v type hocc htype⟩⟩
  exact (hsound.facts σ hm hσ id v t hocc ht).matches (htame.fits id v hocc)

/-! ## A graph of a symbolic size -/

/-- A tensor of ones with the shape of the input, whose size `n` is known when the graph runs. -/
def onesLike : Graph :=
  let (g, x) := Graph.empty.addValue (some "x") (some [.symbolic "n"]) (some .float32)
  let (g, t) := g.addSimpleOperator "t" .shape [x]
  let (g, y) := g.addSimpleOperator "y" (.fill .one) [t]
  (g.setInputs [x]).setOutputs [y]

def onesLikeProgram : Program where
  graph := onesLike
  inputs := onesLike.inputIds
  outputs := onesLike.outputIds
  steps := onesLike.operators.map fun (id, node) => { id, node, impl := .interpreted }
  frees := true
  facts := none

def onesLikeFacts : InferredFacts where
  facts := ⟨[(3, .shape [.posVar "n"]), (1, .vector [.posVar "n"]), (0, .shape [.posVar "n"])]⟩
  types := ⟨[(3, .float32), (1, .int32), (0, .float32)]⟩

/-- The values of a run on an input of size 2. -/
def onesLikeValues : IdMap Value :=
  ⟨[(3, .floats (.full [2] .one)), (1, .ints (.vector #[2])), (0, .floats (.vector #[.zero, .one]))]⟩

def onesLikeInput : Value := .floats (.vector #[.zero, .one])

theorem onesLike_plain : onesLike.Plain := by
  have hops {P : OperatorNode → Prop} (h : onesLike.operators.Forall fun e => P e.2) (id : NodeId) (op : OperatorNode)
      (hop : onesLike.operator? id = some op) : P op := List.forall_iff_forall_mem.1 h _ (mem_operators.2 hop)
  have hlt {id : NodeId} {node : Node} (hn : onesLike.node? id = some node) : id < 5 := by
    refine Nat.lt_of_not_le fun hsize => ?_
    rw [node?, Array.getElem?_eq_none hsize] at hn
    cases hn
  refine ⟨hops ⟨trivial, trivial⟩, hops ⟨fun m h => ?_, fun m h => ?_⟩, ?_, ?_⟩
  · cases h
    rfl
  · cases h
    rfl
  · intro id n hn hid
    rcases id with _ | _ | _ | _ | _ | id
    · exact absurd (List.mem_singleton_self 0) hid
    · cases hn
      exact ⟨rfl, rfl⟩
    · cases hn
    · cases hn
      exact ⟨rfl, rfl⟩
    · cases hn
    · exact absurd (hlt hn) (Nat.not_lt.2 (Nat.le_add_left 5 id))
  · intro id n dims k hn hdims hmem
    rcases id with _ | _ | _ | _ | _ | id
    · cases hn
      cases hdims
      have hname := Dimension.symbolic.inj (List.mem_singleton.1 hmem)
      have hchars := congrArg String.toList hname
      simp at hchars
    · cases hn
      cases hdims
    · cases hn
    · cases hn
      cases hdims
    · cases hn
    · exact absurd (hlt hn) (Nat.not_lt.2 (Nat.le_add_left 5 id))

theorem infer_matches_onesLike : ∃ σ : Assignment, σ.Extends ⟨[("n", 2)]⟩ ∧
    ∀ id v, onesLikeProgram.Occurs onesLikeValues id v →
      (∀ t, onesLikeFacts.facts.get? id = some t → t.Matches σ v) ∧
      ∀ type, onesLikeFacts.types.get? id = some type → type = v.type := by
  have hvalues : ∀ id v, onesLikeProgram.Occurs onesLikeValues id v → v ∈ onesLikeValues.entries.map (·.2) := by
    rintro id v ⟨hv, -⟩
    unfold Program.valueIn? at hv
    cases hget : onesLikeValues.get? id with
    | some w =>
      rw [hget] at hv
      cases hv
      exact List.mem_map_of_mem (f := Prod.snd) (mem_of_lookup hget)
    | none =>
      rw [hget] at hv
      have hmem := mem_constantIds.2 (Option.isSome_of_eq_some hv)
      cases hmem
  have htame : onesLikeProgram.Tame onesLikeValues := by
    refine ⟨fun id v hocc => ?_, List.forall_mem_map.2 (List.forall_iff_forall_mem.1 ⟨?_, ?_⟩)⟩
    · have hfits : ∀ v ∈ onesLikeValues.entries.map (·.2), ∀ n ∈ v.shape, 1 ≤ n ∧ n ≤ 2147483647 := by decide
      exact hfits v (hvalues id v hocc)
    · exact fun _ _ => trivial
    · exact fun _ _ => trivial
  have hknown : onesLikeProgram.KnownTargets false onesLikeValues := by
    refine List.forall_mem_map.2 (List.forall_iff_forall_mem.1 ⟨?_, ?_⟩)
    · exact fun _ _ _ _ => trivial
    · exact fun _ _ _ _ => trivial
  have hsorted : onesLike.topologicalOrder = .ok [2, 4] := by decide +kernel
  have hdrops : onesLikeProgram.DropsDominated false ⟨[("n", 2)]⟩ onesLikeValues := by
    refine List.forall_mem_map.2 (List.forall_iff_forall_mem.1 ⟨?_, ?_⟩)
    · rintro f ⟨before, after, s, horder, hdraws⟩ vs _ σ _ _
      have hsplit := Except.ok.inj (hsorted.symm.trans horder)
      obtain rfl : before = [] := by
        rcases before with _ | ⟨a, _ | ⟨b, _ | ⟨c, before⟩⟩⟩ <;> simp_all
      obtain ⟨rfl, -⟩ := draws_pure.1 hdraws
      rfl
    · rintro f ⟨before, after, s, horder, hdraws⟩ vs _ σ _ _
      have hsplit := Except.ok.inj (hsorted.symm.trans horder)
      obtain rfl : before = [2] := by
        rcases before with _ | ⟨a, _ | ⟨b, _ | ⟨c, before⟩⟩⟩ <;> simp_all
      cases hdraws
      rfl
  have hlink : Linker.interpreted.link onesLike onesLike.inputIds onesLike.outputIds = .ok onesLikeProgram := rfl
  have hbind : onesLikeProgram.bindInputs [onesLikeInput] = .ok ⟨[("n", 2)]⟩ := rfl
  have hrun : onesLikeProgram.evaluateSteps onesLikeProgram.steps ⟨onesLike.inputIds.zip [onesLikeInput]⟩ =
    .ok onesLikeValues := rfl
  have hinfer : onesLike.infer false = .ok onesLikeFacts := by
    unfold infer
    rw [hsorted]
    rfl
  exact infer_matches (by decide +kernel) onesLike_plain hlink hbind hrun htame hknown hdrops hinfer

end Graph

end TensorGraph
