import TensorGraph.Proofs.Facts.Comparison
import TensorGraph.Proofs.Operator.Identities
import TensorGraph.Proofs.Rewrite.Simulation
import TensorGraph.Proofs.Rewrite.StandardRules

/-!
# Exact rules

A rule is exact if what it proposes agrees with every graph of built-in operators in which no float that is known
is the negative zero, and about which the inferred facts are right. Then the rule changes no result, not even by
rounding.
-/

namespace TensorGraph

/-- Whether facts are right about the values that nodes are known to have. -/
def InferredFacts.Right (f : InferredFacts) (known : NodeId → Value → Prop) : Prop :=
  ∃ σ : Assignment, ∀ v x, known v x →
    (∀ t, f.get? v = some t → t.Matches σ x ∧ t.simplify.Matches σ x) ∧ ∀ type, f.type? v = some type → type = x.type

theorem InferredFacts.Right.shape_eq {f : InferredFacts} {known : NodeId → Value → Prop} (h : f.Right known)
    {v w : NodeId} {x y : Value} (hsame : f.sameShape v w = true) (hx : known v x) (hy : known w y) :
    x.shape = y.shape := by
  obtain ⟨σ, hright⟩ := h
  unfold sameShape at hsame
  split at hsame
  · next t u ht hu =>
    exact TensorFacts.shape_eq_of_sameShape hsame ((hright v x hx).1 t ht).2 ((hright w y hy).1 u hu).2
  · cases hsame

/-- What an exact rule relies on. -/
structure RewriteView.Exact (v : RewriteView) (env : IdMap Value) : Prop where
  linkable : v.graph.Linkable
  accepts : v.graph.Accepts env
  builtin : ∀ id n, v.graph.operator? id = some n → n.op.IsBuiltin ∧ n.op.hasNegZero = false
  constants : ∀ id c, v.graph.constant? id = some c → c.hasNegZero = false
  facts : v.facts.Right (v.graph.Evaluates env)

namespace Rewrite

/-- The operator that a rewrite makes a part of the graph. -/
def operator? : Rewrite → Option Operator
  | .fuse f => some f.op
  | .replaceOperator _ op => some op
  | .replaceInputs _ op _ => op
  | _ => none

/-- Whether a rewrite agrees with a graph, introduces no operator but built-in ones, and gives operators as many inputs
as they take. -/
structure Exact (g : Graph) (env : IdMap Value) (r : Rewrite) : Prop where
  agrees : r.Agrees g env
  builtin : ∀ op, r.operator? = some op → op.IsBuiltin ∧ op.hasNegZero = false
  takes : ∀ id n, g.operator? id = some n → n.op.Takes n.inputs.length →
    (r.change id n).op.Takes (r.change id n).inputs.length

variable {g : Graph} {env : IdMap Value} {id : NodeId} {op : OperatorNode}

theorem exact_alias {pairs : List (NodeId × NodeId)}
    (h : ∀ pair ∈ pairs, ∀ x, g.Evaluates env pair.1 x → g.Evaluates env pair.2 x) :
    (Rewrite.alias pairs).Exact g env where
  agrees := agrees_alias h
  builtin _ hop := by cases hop
  takes _ _ _ htakes := htakes

theorem exact_pair {old new : NodeId} (h : ∀ x, g.Evaluates env old x → g.Evaluates env new x) :
    (Rewrite.alias [(old, new)]).Exact g env :=
  exact_alias fun _ hpair => List.mem_singleton.1 hpair ▸ h

theorem exact_constant {c : Value} (h : ∀ x, g.Evaluates env id x → x = c) : (constant id c).Exact g env where
  agrees := h
  builtin _ hop := by cases hop
  takes _ _ _ htakes := htakes

theorem takes_replaceInputs {op' : Option Operator} {inputs : List NodeId} (hop : g.operator? id = some op)
    (htakes : (op'.getD op.op).Takes inputs.length) (id' : NodeId) (n : OperatorNode) (hn : g.operator? id' = some n)
    (hbefore : n.op.Takes n.inputs.length) : ((replaceInputs id op' inputs).change id' n).op.Takes
      ((replaceInputs id op' inputs).change id' n).inputs.length := by
  simp only [change]
  split
  · next hid =>
    subst hid
    obtain rfl := Option.some.inj (hop.symm.trans hn)
    exact htakes
  · exact hbefore

theorem exact_inputs {inputs : List NodeId} (hop : g.operator? id = some op) (htakes : op.op.Takes inputs.length)
    (h : ∀ xs ys, g.EvaluatesAll env op.inputs xs → op.op.run xs = .ok ys →
      ∃ xs', g.EvaluatesAll env inputs xs' ∧ op.op.run xs' = .ok ys) : (replaceInputs id none inputs).Exact g env where
  agrees n xs ys hn := by
    obtain rfl := Option.some.inj (hop.symm.trans hn)
    exact h xs ys
  builtin _ hop := by cases hop
  takes := takes_replaceInputs hop htakes

end Rewrite

/-- Whether all rewrites that a rule proposes are exact. -/
def RewriteRule.Exact (rule : RewriteRule) : Prop :=
  ∀ (v : RewriteView) (env : IdMap Value) (id : NodeId) (op : OperatorNode) (r : Rewrite), v.Exact env →
    v.graph.operator? id = some op → rule.propose v id op = .rewrite r → r.Exact v.graph env

namespace Graph

variable {g : Graph} {env : IdMap Value} {id w : NodeId} {c x : Value}

theorem evaluates_constant (h : g.Linkable) (henv : g.Accepts env) (hc : g.constant? id = some c) :
    g.Evaluates env id c := by
  apply Evaluates.given
  have hget : env.get? id = none := by
    rw [Option.eq_none_iff_forall_ne_some]
    intro y hy
    have hvalue := h.formed.inputs id (henv id y hy)
    rw [isValue_of_constant? hc] at hvalue
    cases hvalue
  rw [given?, hget, hc]
  rfl

theorem evaluatesAll_constants (h : g.Linkable) (henv : g.Accepts env) {ids : List NodeId} {cs : List Value}
    (hcs : ids.mapM g.constant? = some cs) : g.EvaluatesAll env ids cs :=
  forall₂_of_mapM hcs fun _ _ _ => evaluates_constant h henv

end Graph

namespace RewriteView.Exact

variable {v : RewriteView} {env : IdMap Value} {id w : NodeId} {op : OperatorNode} {x : Value}

/-- A built-in operator computes one output. -/
theorem run (h : v.Exact env) (hop : v.graph.operator? id = some op) (hw : w ∈ op.outputs)
    (hx : v.graph.Evaluates env w x) : ∃ xs, v.graph.EvaluatesAll env op.inputs xs ∧ op.op.run xs = .ok [x] ∧
      op.outputs = [w] := by
  obtain ⟨xs, ys, hxs, hrun, hlen, hmem⟩ := hx.run h.linkable h.accepts hop hw
  obtain ⟨y, rfl⟩ := Operator.run_eq_singleton (h.builtin id op hop).1 hrun
  obtain ⟨w', hw'⟩ := List.length_eq_one_iff.1 hlen.symm
  rw [hw'] at hmem
  obtain ⟨rfl, rfl⟩ : w = w' ∧ x = y := by simpa using hmem
  exact ⟨xs, hxs, hrun, hw'⟩

theorem run_producer (h : v.Exact env) {source : OperatorNode} (hsource : v.graph.producer? w = some (id, source))
    (hx : v.graph.Evaluates env w x) :
    ∃ xs, v.graph.EvaluatesAll env source.inputs xs ∧ source.op.run xs = .ok [x] := by
  obtain ⟨hop, hw⟩ := (Graph.producer?_eq_some h.linkable.indexed).1 hsource
  obtain ⟨xs, hxs, hrun, -⟩ := h.run hop (Graph.outputsOf_of_operator? hop ▸ hw) hx
  exact ⟨xs, hxs, hrun⟩

theorem eq_of_evaluates (h : v.Exact env) {y : Value} (hx : v.graph.Evaluates env w x)
    (hy : v.graph.Evaluates env w y) : x = y :=
  hx.unique h.linkable h.accepts hy

end RewriteView.Exact

namespace Rules

variable {v : RewriteView} {env : IdMap Value} {id output input : NodeId} {op : OperatorNode} {r : Rewrite}

/-- An operator that returns its first input can be bypassed. -/
theorem exact_bypass (h : v.Exact env) (hop : v.graph.operator? id = some op)
    (houtput : op.singleOutput? = some output) (hinput : op.inputs.head? = some input)
    (hreturns : ∀ x y rest, v.graph.Evaluates env output x → v.graph.Evaluates env input y →
      op.op.run (y :: rest) = .ok [x] → x = y) : (Rewrite.alias [(output, input)]).Exact v.graph env := by
  apply Rewrite.exact_pair
  intro x hx
  have hmem : output ∈ op.outputs := by simp [singleOutput?_eq_some.1 houtput]
  obtain ⟨xs, hxs, hrun, -⟩ := h.run hop hmem hx
  obtain ⟨rest, hrest⟩ := List.head?_eq_some_iff.1 hinput
  rw [hrest] at hxs
  cases hxs with
  | cons hy _ => rwa [hreturns x _ _ hx hy hrun]

/-! ## Operators without effect -/

theorem removeIdentity_exact : removeIdentity.Exact := by
  intro v env id op r h hop hr
  obtain ⟨output, input, houtput, hinput, hreturns, rfl⟩ := removeIdentity_proposes hr
  obtain ⟨σ, hright⟩ := h.facts
  apply exact_bypass h hop houtput hinput
  intro x y rest hx hy hrun
  unfold returnsInput at hreturns
  split at hreturns
  · next heq =>
    rw [heq] at hrun
    exact (Except.ok.inj (singleton_eq_ok.1 hrun)).symm
  · next type heq =>
    rw [heq] at hrun
    apply Layout.cast_same (singleton_eq_ok.1 hrun)
    exact (hright input y hy).2 type (eq_of_beq hreturns)
  · next perm heq =>
    rw [heq] at hrun
    have hrun := singleton_eq_ok.1 hrun
    apply Layout.transpose_same hrun
    obtain ⟨y', perm', hy', hperm, -⟩ := Layout.transpose_iff.1 hrun
    cases hy'
    -- A permutation has as many entries as there are dimensions.
    obtain ⟨rfl, hpermutes⟩ := Layout.resolvePermutation_eq_ok.1 hperm
    have hlen : perm'.length = y.rank := by simpa using hpermutes.length_eq
    rw [Option.getD_some, ← hlen]
    exact eq_of_beq hreturns
  · next heq =>
    rw [heq] at hrun
    apply Layout.transpose_same (singleton_eq_ok.1 hrun)
    obtain ⟨n, hn, hle⟩ := (Option.any_eq_true ..).1 hreturns
    obtain ⟨t, ht, hrank⟩ := Option.bind_eq_some_iff.1 hn
    apply Layout.reverse_range_of_le
    rw [((hright input y hy).1 t ht).1.rank_eq hrank]
    simpa using hle
  · cases hreturns

theorem doubleNegation_exact : doubleNegation.Exact := by
  intro v env id op r h hop hr
  obtain ⟨output, inner, x, -, ⟨outerId, outer, houter, hout, hname, hinner⟩,
    ⟨innerId, negation, hnegation, hout', hname', hinput⟩, rfl⟩ :=
    doubleNegation_proposes h.linkable.indexed h.linkable.formed hop hr
  apply Rewrite.exact_pair
  intro y hy
  -- The value is computed by two negations.
  obtain ⟨ys, hys, hrun, -⟩ := h.run houter hout hy
  rw [hinner] at hys
  obtain ⟨z, rfl, hz⟩ := Graph.evaluatesAll_one.1 hys
  obtain ⟨zs, hzs, hrun', -⟩ := h.run hnegation hout' hz
  rw [hinput] at hzs
  obtain ⟨w, rfl, hw⟩ := Graph.evaluatesAll_one.1 hzs
  rwa [Operator.run_neg_neg (h.builtin _ _ hnegation).1 (h.builtin _ _ houter).1 hname' hname hrun' hrun]

/-- How an operator may run does not matter for its result. -/
theorem inPlaceVariant?_eq_some {op variant : Operator} (h : inPlaceVariant? op = some variant) :
    variant.run = op.run ∧ variant.IsBuiltin ∧ variant.hasNegZero = op.hasNegZero ∧
      variant.maxInputs = op.maxInputs := by
  unfold inPlaceVariant? at h
  split at h
  · split at h
    · cases h
    · cases h
      exact ⟨rfl, trivial, rfl, rfl⟩
  · split at h
    · cases h
    · cases h
      exact ⟨rfl, trivial, rfl, rfl⟩
  · cases h

theorem inPlaceElementwise_exact : inPlaceElementwise.Exact := by
  intro v env id op r h hop hr
  obtain ⟨output, variant, value, -, hvariant, -, -, rfl⟩ := inPlaceElementwise_proposes hr
  obtain ⟨hsame, hbuiltin, hzero, hmax⟩ := inPlaceVariant?_eq_some hvariant
  refine ⟨fun n xs ys hn hrun => ?_, fun op' hop' => ?_, fun id' n hn htakes => ?_⟩
  · obtain rfl := Option.some.inj (hop.symm.trans hn)
    rwa [hsame]
  · cases hop'
    exact ⟨hbuiltin, hzero.trans (h.builtin id op hop).2⟩
  · simp only [Rewrite.change]
    split
    · next hid =>
      subst hid
      obtain rfl := Option.some.inj (hop.symm.trans hn)
      rwa [Operator.Takes, hmax]
    · exact htakes

/-! ## Folding and merging -/

theorem constantFolding_exact : constantFolding.Exact := by
  intro v env id op r h hop hr
  obtain ⟨output, inputs, x, rest, -, houtput, hinputs, hrun, -, rfl⟩ := constantFolding_proposes hr
  apply Rewrite.exact_constant
  intro y hy
  have hmem : output ∈ op.outputs := by simp [singleOutput?_eq_some.1 houtput]
  obtain ⟨ys, hys, hrun', -⟩ := h.run hop hmem hy
  have hconstants := Graph.evaluatesAll_constants h.linkable h.accepts hinputs
  obtain rfl := hys.unique h.linkable h.accepts hconstants
  rw [hrun] at hrun'
  cases hrun'
  rfl

theorem merge_exact : merge.Exact := by
  intro v env id op r h hop hr
  rcases merge_proposes hr with ⟨input, c, older, d, hc, hd, hequal, -, rfl⟩ |
    ⟨otherId, other, -, -, hother, hinputs, hlen, hsame, rfl⟩
  · apply Rewrite.exact_pair
    intro x hx
    have hconstant := Graph.evaluates_constant h.linkable h.accepts hc
    obtain rfl := h.eq_of_evaluates hx hconstant
    rw [← Value.eq_of_eq hequal (h.constants older d hd) (h.constants input x hc)]
    exact Graph.evaluates_constant h.linkable h.accepts hd
  · have heq := Operator.eq_of_sameAs hsame (h.builtin id op hop).2 (h.builtin otherId other hother).2
    apply Rewrite.exact_alias
    intro pair hpair x hx
    obtain ⟨xs, hxs, hrun, hout⟩ := h.run hop (List.of_mem_zip hpair).1 hx
    obtain ⟨w, hw⟩ : ∃ w, other.outputs = [w] := List.length_eq_one_iff.1 (by rw [hlen, hout]; rfl)
    have hpair : pair.2 = w := by
      have hmem := (List.of_mem_zip hpair).2
      rwa [hw, List.mem_singleton] at hmem
    rw [← hinputs] at hxs
    rw [heq] at hrun
    refine .of_run hother hxs hrun (by rw [hw]; rfl) ?_
    rw [hw, hpair]
    exact List.mem_singleton_self _

/-! ## Shapes -/

/-- A value is known if its elements are. -/
theorem eq_constantValue {σ : Assignment} {t : TensorFacts} {x : Value} {known : IntConstant} (h : t.Matches σ x)
    (hknown : t.toConstant? = some known) : x = constantValue known := by
  cases t with
  | scalar e =>
    obtain ⟨w, hw, rfl⟩ := Option.map_eq_some_iff.1 hknown
    obtain ⟨u, rfl, hu⟩ := h.elements [e] rfl
    have hshape := h.shape [] rfl
    rw [SizeExpr.eq_value_of_asValue? hw] at hu
    have hdata : u.data.toList = [w] := by
      apply (List.map_inj_right fun _ _ => Int32.toInt_inj.1).1
      exact (Option.some.inj hu).symm
    have hnil : u.shape = [] := by simpa [Value.shape] using hshape
    exact congrArg Value.ints (Tensor.eq_of_data hnil hdata)
  | vector es =>
    obtain ⟨ws, hws, rfl⟩ := Option.map_eq_some_iff.1 hknown
    obtain ⟨u, rfl, hu⟩ := h.elements es rfl
    rw [SizeExpr.eq_map_value_of_mapM hws, SizeExpr.mapM_exactValue?_values] at hu
    have hdata : u.data.toList = ws := by
      apply (List.map_inj_right fun _ _ => Int32.toInt_inj.1).1
      exact (Option.some.inj hu).symm
    have hone : u.shape = [ws.toArray.size] := by
      obtain ⟨n, hn⟩ := List.length_eq_one_iff.1 (h.rank_eq rfl)
      have hn : u.shape = [n] := hn
      have hsize := u.size_data
      rw [hn] at hsize ⊢
      simp only [volume, Nat.mul_one] at hsize
      rw [← hsize, ← hdata]
    exact congrArg Value.ints (Tensor.eq_of_data hone (by simpa [Tensor.vector] using hdata))
  | shape dims => cases hknown
  | unknown note => cases hknown

theorem run_of_readsShapeOnly {op : Operator} (h : readsShapeOnly op = true) {x y : Value}
    (hshape : x.shape = y.shape) : op.run [x] = op.run [y] := by
  unfold readsShapeOnly at h
  split at h
  · simp only [Operator.run, ShapeAccess.shape_congr hshape]
  · simp only [Operator.run, ShapeAccess.size_congr hshape]
  · cases h

theorem takes_of_readsShapeOnly {op : Operator} (h : readsShapeOnly op = true) : op.Takes 1 := by
  unfold readsShapeOnly at h
  split at h
  · exact fun _ hmax => Option.some.inj hmax
  · exact fun _ hmax => Option.some.inj hmax
  · cases h

theorem shapeToConstant_exact : shapeToConstant.Exact := by
  intro v env id op r h hop hr
  obtain ⟨output, facts, known, -, -, -, hfacts, hknown, rfl⟩ := shapeToConstant_proposes hr
  obtain ⟨σ, hright⟩ := h.facts
  apply Rewrite.exact_constant
  intro x hx
  exact eq_constantValue ((hright output x hx).1 facts hfacts).1 hknown

theorem shapeLift_exact : shapeLift.Exact := by
  intro v env id op r h hop hr
  obtain ⟨input, sourceId, source, lifted, hreads, hinputs, hsource, -, hlifted, hsame, rfl⟩ := shapeLift_proposes hr
  refine Rewrite.exact_inputs hop (takes_of_readsShapeOnly hreads) fun xs ys hxs hrun => ?_
  rw [hinputs] at hxs
  obtain ⟨x, rfl, hx⟩ := Graph.evaluatesAll_one.1 hxs
  obtain ⟨zs, hzs, -⟩ := h.run_producer hsource hx
  obtain ⟨z, hz⟩ := Graph.exists_of_mem hzs hlifted
  refine ⟨[z], Graph.evaluatesAll_one.2 ⟨z, rfl, hz⟩, ?_⟩
  have hshape : z.shape = x.shape := h.facts.shape_eq hsame hz hx
  rw [← hrun]
  exact run_of_readsShapeOnly hreads hshape

theorem uselessSpecifyShape_exact : uselessSpecifyShape.Exact := by
  intro v env id op r h hop hr
  obtain ⟨spec, output, input, facts, dims, heq, houtput, hinput, -, -, -, rfl⟩ := uselessSpecifyShape_proposes hr
  apply exact_bypass h hop houtput hinput
  intro x y rest hx hy hrun
  rw [heq] at hrun
  exact (Option.some.inj (ShapeAccess.specify_eq_ok (singleton_eq_ok.1 hrun)).1).symm

theorem uselessReshape_exact : uselessReshape.Exact := by
  intro v env id op r h hop hr
  obtain ⟨output, input, heq, houtput, hinput, hsame, rfl⟩ := uselessReshape_proposes hr
  apply exact_bypass h hop houtput hinput
  intro x y rest hx hy hrun
  rw [heq] at hrun
  exact Layout.reshape_same (singleton_eq_ok.1 hrun) (h.facts.shape_eq hsame hx hy)

theorem reshapeChain_exact : reshapeChain.Exact := by
  intro v env id op r h hop hr
  obtain ⟨input, shape, innerId, inner, first, heq, hinputs, hinner, hreshape, hfirst, rfl⟩ :=
    reshapeChain_proposes hr
  have htakes : op.op.Takes 2 := heq ▸ fun _ hmax => Option.some.inj hmax
  refine Rewrite.exact_inputs hop htakes fun xs ys hxs hrun => ?_
  obtain ⟨rest, hrest⟩ := List.head?_eq_some_iff.1 hfirst
  obtain ⟨z, rfl⟩ := Operator.run_eq_singleton (h.builtin id op hop).1 hrun
  rw [hinputs] at hxs
  rw [heq] at hrun
  cases hxs with
  | cons hx hxs =>
    obtain ⟨target, rfl, htarget⟩ := Graph.evaluatesAll_one.1 hxs
    obtain ⟨us, hus, hrun'⟩ := h.run_producer hinner hx
    rw [hrest] at hus
    rw [hreshape] at hrun'
    cases hus with
    | cons hu _ =>
      refine ⟨_, .cons hu (Graph.evaluatesAll_one.2 ⟨target, rfl, htarget⟩), ?_⟩
      rw [heq]
      apply singleton_eq_ok.2
      exact Layout.reshape_reshape (singleton_eq_ok.1 hrun') (singleton_eq_ok.1 hrun)

/-! ## Transposes -/

theorem resolvePermutation?_eq {perm? : Option (List Nat)} {rank? : Option Nat} {rank : Nat} {perm perm' : List Nat}
    (h : resolvePermutation? perm? rank? = some perm) (hrank : ∀ n, rank? = some n → n = rank)
    (h' : Layout.resolvePermutation perm? rank = .ok perm') : perm = perm' := by
  obtain ⟨hperm', -⟩ := Layout.resolvePermutation_eq_ok.1 h'
  cases perm? with
  | some p =>
    cases h
    exact hperm'.symm
  | none =>
    obtain ⟨n, hn, rfl⟩ := Option.map_eq_some_iff.1 h
    rw [hrank n hn]
    exact hperm'.symm

theorem composePermutations?_eq {inner outer perm : List Nat} (h : composePermutations? inner outer = some perm) :
    perm = Shape.pick outer inner := by
  unfold composePermutations? at h
  split at h
  · rw [mapM_eq_some] at h
    have hpick := congrArg (List.filterMap id) h
    simpa [Shape.pick, List.filterMap_map] using hpick.symm
  · cases h

/-- What two transposes compute is what one computes. -/
theorem permutes_of_transposes (h : v.Exact env) {first : NodeId} {perm : List Nat}
    (joined : JoinedTransposes v op first perm) {ys : List Value} {z : Value}
    (hys : v.graph.EvaluatesAll env op.inputs ys) (hrun : op.op.run ys = .ok [z]) :
    ∃ x, v.graph.Evaluates env first x ∧ perm.Perm (List.range x.rank) ∧ Layout.permuteValue perm x = z := by
  obtain ⟨rest, hrest⟩ := List.head?_eq_some_iff.1 joined.head_eq
  obtain ⟨rest', hrest'⟩ := List.head?_eq_some_iff.1 joined.first_eq
  rw [hrest] at hys
  rw [joined.op_eq] at hrun
  cases hys with
  | cons hy _ =>
    obtain ⟨xs, hxs, hrun'⟩ := h.run_producer joined.producer_eq hy
    rw [hrest'] at hxs
    rw [joined.source_eq] at hrun'
    cases hxs with
    | @cons _ x _ _ hx _ =>
      obtain ⟨inner, outer, hinner, houter, hpermutes⟩ :=
        Layout.transpose_transpose (singleton_eq_ok.1 hrun') (singleton_eq_ok.1 hrun)
      obtain ⟨σ, hright⟩ := h.facts
      have hrank (n : Nat) (hn : v.rank? first = some n) : n = x.rank := by
        obtain ⟨t, ht, hn⟩ := Option.bind_eq_some_iff.1 hn
        exact (((hright first x hx).1 t ht).1.rank_eq hn).symm
      -- The permutations that are known are those of the run.
      obtain rfl := resolvePermutation?_eq joined.resolve_inner hrank hinner
      have hlen : joined.inner.length = x.rank := by
        simpa using (Layout.resolvePermutation_eq_ok.1 hinner).2.length_eq
      obtain rfl := resolvePermutation?_eq joined.resolve_outer (fun n hn => Option.some.inj hn ▸ hlen) houter
      rw [composePermutations?_eq joined.compose]
      exact ⟨x, hx, hpermutes⟩

theorem transposeChain_exact : transposeChain.Exact := by
  intro v env id op r h hop hr
  obtain ⟨output, first, perm, houtput, ⟨joined⟩, rfl⟩ := transposeChain_proposes hr
  split
  · next hidentity =>
    apply Rewrite.exact_pair
    intro z hz
    have hmem : output ∈ op.outputs := by simp [singleOutput?_eq_some.1 houtput]
    obtain ⟨ys, hys, hrun, -⟩ := h.run hop hmem hz
    obtain ⟨x, hx, hpermutes, rfl⟩ := permutes_of_transposes h joined hys hrun
    have hlen : perm.length = x.rank := by simpa using hpermutes.length_eq
    have hrange : perm = List.range x.rank := hlen ▸ eq_of_beq hidentity
    rwa [hrange, Layout.permuteValue_range]
  · refine ⟨fun n ys zs hn hys hrun => ?_, fun op' hop' => ?_,
      Rewrite.takes_replaceInputs hop fun _ hmax => Option.some.inj hmax⟩
    · obtain rfl := Option.some.inj (hop.symm.trans hn)
      obtain ⟨z, rfl⟩ := Operator.run_eq_singleton (h.builtin id op hop).1 hrun
      obtain ⟨x, hx, hpermutes, hz⟩ := permutes_of_transposes h joined hys hrun
      refine ⟨[x], Graph.evaluatesAll_one.2 ⟨x, rfl, hx⟩, singleton_eq_ok.2 ?_⟩
      exact Layout.transpose_iff.2 ⟨x, perm, rfl, Layout.resolvePermutation_eq_ok.2 ⟨rfl, hpermutes⟩, hz⟩
    · cases hop'
      exact ⟨trivial, rfl⟩

/-! ## Assertions -/

theorem evaluatesAll_filter {g : Graph} (p : NodeId → Bool) {ids : List NodeId} {xs : List Value}
    (h : g.EvaluatesAll env ids xs) : ∃ xs', g.EvaluatesAll env (ids.filter p) xs' ∧ xs' ⊆ xs := by
  induction h with
  | nil => exact ⟨[], .nil, List.Subset.refl _⟩
  | @cons id x ids xs hx _ ih =>
    obtain ⟨xs', hxs', hsub⟩ := ih
    by_cases hp : p id = true
    · refine ⟨x :: xs', ?_, List.cons_subset_cons x hsub⟩
      rw [List.filter_cons_of_pos hp]
      exact .cons hx hxs'
    · refine ⟨xs', ?_, List.subset_cons_of_subset x hsub⟩
      rwa [List.filter_cons_of_neg hp]

theorem uselessAssert_exact : uselessAssert.Exact := by
  intro v env id op r h hop hr
  obtain ⟨message, input, conditions, output, heq, hinputs, houtput, hr⟩ := uselessAssert_proposes hr
  rcases hr with ⟨-, rfl⟩ | rfl
  · apply exact_bypass h hop houtput (by rw [hinputs]; rfl)
    intro x y rest hx hy hrun
    rw [heq] at hrun
    exact (ShapeAccess.assertAll_iff.1 (singleton_eq_ok.1 hrun)).1
  · have htakes (n : Nat) : op.op.Takes n := heq ▸ fun _ hmax => by cases hmax
    refine Rewrite.exact_inputs hop (htakes _) fun xs ys hxs hrun => ?_
    obtain ⟨y, rfl⟩ := Operator.run_eq_singleton (h.builtin id op hop).1 hrun
    rw [hinputs] at hxs
    rw [heq] at hrun
    cases hxs with
    | cons hx hcs =>
      obtain ⟨cs', hcs', hsub⟩ := evaluatesAll_filter (!conditionHolds v ·) hcs
      obtain ⟨rfl, hall⟩ := ShapeAccess.assertAll_iff.1 (singleton_eq_ok.1 hrun)
      refine ⟨_, .cons hx hcs', ?_⟩
      rw [heq]
      apply singleton_eq_ok.2
      exact ShapeAccess.assertAll_iff.2 ⟨rfl, fun c hc => hall c (hsub hc)⟩

end Rules

end TensorGraph
