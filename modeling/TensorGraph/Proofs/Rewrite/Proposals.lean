import Mathlib.Data.List.TakeWhile
import TensorGraph.Proofs.Operator.NumericEquality
import TensorGraph.Proofs.Rewrite.Matching
import TensorGraph.Rewrite.Standard

/-!
# What the rules propose

For each rule: when it proposes a rewrite, and which. What is proved about a rule uses this lemma and not the code of
the rule.

Constants and operators are merged if they compare equal as numbers. Constants that are merged are the same to the bit,
and operators return the same on all inputs, exactly if they do not have zeros of different signs
(`Rules.merge_redirects`).
-/

namespace TensorGraph

theorem Proposal.ofOption_eq_rewrite {o : Option Rewrite} {r : Rewrite} :
    Proposal.ofOption o = .rewrite r ↔ o = some r := by
  cases o <;> simp [Proposal.ofOption]

/-- Whether a value is computed from another one by negation. -/
def Graph.Negates (g : Graph) (input output : NodeId) : Prop :=
  ∃ id op, g.operator? id = some op ∧ output ∈ op.outputs ∧ op.op.name = "Neg" ∧ op.inputs = [input]

namespace Rules

variable {v : RewriteView} {g : Graph} {id output : NodeId} {op : OperatorNode} {r : Rewrite}

theorem singleOutput?_eq_some : op.singleOutput? = some output ↔ op.outputs = [output] := by
  unfold OperatorNode.singleOutput?
  split <;> simp_all

/-! ## Operators without effect -/

theorem removeIdentity_proposes (hr : removeIdentity.propose v id op = .rewrite r) : ∃ output input,
    op.singleOutput? = some output ∧ op.inputs.head? = some input ∧ returnsInput v op.op input = true ∧
      r = .alias [(output, input)] := by
  have hr := Proposal.ofOption_eq_rewrite.1 hr
  unfold bypassIdentity at hr
  obtain ⟨output, houtput, hr⟩ := Option.bind_eq_some_iff.1 hr
  obtain ⟨input, hinput, hr⟩ := Option.bind_eq_some_iff.1 hr
  split at hr
  · next hreturns =>
    cases hr
    exact ⟨output, input, houtput, hinput, hreturns, rfl⟩
  · cases hr

theorem doubleNegation_proposes (hg : v.graph.Indexed) (hformed : v.graph.WellFormed)
    (hop : v.graph.operator? id = some op) (hr : doubleNegation.propose v id op = .rewrite r) : ∃ output inner x,
    op.singleOutput? = some output ∧ v.graph.Negates inner output ∧ v.graph.Negates x inner ∧
      r = .alias [(output, x)] := by
  have hr := Proposal.ofOption_eq_rewrite.1 hr
  unfold bypassNegations at hr
  obtain ⟨output, houtput, hr⟩ := Option.bind_eq_some_iff.1 hr
  obtain ⟨found, hfound, hr⟩ := Option.bind_eq_some_iff.1 hr
  obtain ⟨x, hx, hr⟩ := Option.bind_eq_some_iff.1 hr
  cases hr
  have hid : v.graph.isReadable output = true := by
    apply Graph.isReadable_of_isValue
    exact hformed.produces id op hop output (by simp [singleOutput?_eq_some.1 houtput])
  obtain ⟨outerId, outer, inner, houter, hout, hname, hinner, hmatch⟩ := Pattern.matchNode_unary hg hid hfound
  have hread : v.graph.isReadable inner = true := hformed.reads outerId outer houter inner (by simp [hinner])
  obtain ⟨innerId, negation, input, hnegation, hout', hname', hinput, hany⟩ :=
    Pattern.matchNode_unary hg hread hmatch
  -- The name of the pattern's variable is bound to what the inner negation reads.
  obtain rfl : input = x := by
    rw [Pattern.any, Pattern.matchNode] at hany
    exact Option.some.inj ((Pattern.bindSymbol_eq_some hany).2.symm.trans hx)
  exact ⟨output, inner, input, houtput, ⟨outerId, outer, houter, hout, hname, hinner⟩,
    ⟨innerId, negation, hnegation, hout', hname', hinput⟩, rfl⟩

/-! ## Folding and merging -/

theorem constantFolding_proposes (hr : constantFolding.propose v id op = .rewrite r) : ∃ output inputs x rest,
    op.op.isDeterministic = true ∧ op.singleOutput? = some output ∧ op.inputs.mapM v.graph.constant? = some inputs ∧
      op.op.run inputs = .ok (x :: rest) ∧ x.size ≤ maxFoldedSize ∧ r = .constant output x := by
  change foldConstants v op = .rewrite r at hr
  unfold foldConstants at hr
  split at hr
  · cases hr
  · next hcond =>
    split at hr
    · next output inputs houtput hinputs =>
      split at hr
      · next x rest hrun =>
        split at hr
        · cases hr
        · next hsize =>
          cases hr
          have hdeterministic : op.op.isDeterministic = true := by
            by_contra hnot
            exact hcond (by simp [hnot])
          exact ⟨output, inputs, x, rest, hdeterministic, houtput, hinputs, hrun, Nat.le_of_not_lt hsize, rfl⟩
      · cases hr
      · cases hr
    · cases hr

/-- An input is replaced by an older constant, or the outputs of the operator by those of an older one. -/
theorem merge_proposes (hr : merge.propose v id op = .rewrite r) :
    (∃ input c older d, v.graph.constant? input = some c ∧ v.graph.constant? older = some d ∧ d.eq c = true ∧
      older < input ∧ r = .alias [(input, older)]) ∨
    ∃ otherId other, op.op.isDeterministic = true ∧ otherId < id ∧ v.graph.operator? otherId = some other ∧
      other.inputs = op.inputs ∧ other.outputs.length = op.outputs.length ∧ op.op.sameAs other.op = true ∧
      r = .alias (op.outputs.zip other.outputs) := by
  have hr := Proposal.ofOption_eq_rewrite.1 hr
  unfold mergeEqual at hr
  split at hr
  · next pair hpair =>
    cases hr
    obtain ⟨input, -, hpair⟩ := List.exists_of_findSome?_eq_some hpair
    obtain ⟨older, holder, rfl⟩ := Option.map_eq_some_iff.1 hpair
    unfold olderEqual? at holder
    obtain ⟨c, hc, hfind⟩ := Option.bind_eq_some_iff.1 holder
    have hany := List.find?_some hfind
    obtain ⟨d, hd, hequal⟩ := (Option.any_eq_true ..).1 hany
    have hless : older < input := by simpa using List.mem_takeWhile_imp (List.mem_of_find?_eq_some hfind)
    exact .inl ⟨input, c, older, d, hc, hd, hequal, hless, rfl⟩
  · obtain ⟨other, hother, rfl⟩ := Option.map_eq_some_iff.1 hr
    unfold olderSame? at hother
    split at hother
    · cases hother
    · next hdeterministic =>
      obtain ⟨input, -, hother⟩ := Option.bind_eq_some_iff.1 hother
      obtain ⟨otherId, hmem, hother⟩ := List.exists_of_findSome?_eq_some hother
      obtain ⟨node, hnode, hother⟩ := Option.bind_eq_some_iff.1 hother
      split at hother
      · next hsame =>
        cases hother
        simp only [Bool.and_eq_true, beq_iff_eq] at hsame
        have hless : otherId < id := by simpa using (List.mem_filter.1 hmem).2
        exact .inr ⟨otherId, other, by simpa using hdeterministic, hless, hnode, hsame.1.1, hsame.1.2, hsame.2, rfl⟩
      · cases hother

/-! ## Shapes -/

theorem shapeToConstant_proposes (hr : shapeToConstant.propose v id op = .rewrite r) : ∃ output facts known,
    op.op.isDeterministic = true ∧ op.singleOutput? = some output ∧ v.facts.type? output = some .int32 ∧
      v.facts.get? output = some facts ∧ facts.toConstant? = some known ∧
      r = .constant output (constantValue known) := by
  have hr := Proposal.ofOption_eq_rewrite.1 hr
  unfold useInferredValue at hr
  split at hr
  · cases hr
  · next hdeterministic =>
    obtain ⟨output, houtput, hr⟩ := Option.bind_eq_some_iff.1 hr
    split at hr
    · cases hr
    · next htype =>
      obtain ⟨facts, hfacts, hr⟩ := Option.bind_eq_some_iff.1 hr
      obtain ⟨known, hknown, hr⟩ := Option.bind_eq_some_iff.1 hr
      cases hr
      exact ⟨output, facts, known, by simpa using hdeterministic, houtput, by simpa using htype, hfacts, hknown, rfl⟩

theorem shapeLift_proposes (hr : shapeLift.propose v id op = .rewrite r) : ∃ input sourceId source lifted,
    readsShapeOnly op.op = true ∧ op.inputs = [input] ∧ v.graph.producer? input = some (sourceId, source) ∧
      source.op.isDeterministic = true ∧ lifted ∈ source.inputs ∧ v.facts.sameShape lifted input = true ∧
      r = .replaceInputs id none [lifted] := by
  have hr := Proposal.ofOption_eq_rewrite.1 hr
  unfold liftShape at hr
  by_cases hreads : (!readsShapeOnly op.op) = true
  · rw [if_pos hreads] at hr
    cases hr
  · rw [if_neg hreads] at hr
    split at hr
    · next input hinputs =>
      obtain ⟨⟨sourceId, source⟩, hsource, hr⟩ := Option.bind_eq_some_iff.1 hr
      dsimp only at hr
      split at hr
      · cases hr
      · next hdeterministic =>
        obtain ⟨lifted, hlifted, hr⟩ := Option.bind_eq_some_iff.1 hr
        cases hr
        have hsame := List.find?_some hlifted
        exact ⟨input, sourceId, source, lifted, by simpa using hreads, hinputs, hsource, by simpa using hdeterministic,
          List.mem_of_find?_eq_some hlifted, hsame, rfl⟩
    · cases hr

theorem uselessSpecifyShape_proposes (hr : uselessSpecifyShape.propose v id op = .rewrite r) :
    ∃ spec output input facts dims, op.op = .specifyShape spec ∧ op.singleOutput? = some output ∧
      op.inputs.head? = some input ∧ v.facts.get? input = some facts ∧ facts.dims? = some dims ∧
      satisfies dims spec = true ∧ r = .alias [(output, input)] := by
  have hr := Proposal.ofOption_eq_rewrite.1 hr
  unfold bypassSpecifyShape at hr
  split at hr
  · next spec heq =>
    obtain ⟨output, houtput, hr⟩ := Option.bind_eq_some_iff.1 hr
    obtain ⟨input, hinput, hr⟩ := Option.bind_eq_some_iff.1 hr
    obtain ⟨facts, hfacts, hr⟩ := Option.bind_eq_some_iff.1 hr
    obtain ⟨dims, hdims, hr⟩ := Option.bind_eq_some_iff.1 hr
    split at hr
    · next hsatisfies =>
      cases hr
      exact ⟨spec, output, input, facts, dims, heq, houtput, hinput, hfacts, hdims, hsatisfies, rfl⟩
    · cases hr
  · cases hr

theorem uselessReshape_proposes (hr : uselessReshape.propose v id op = .rewrite r) : ∃ output input,
    op.op = .reshape ∧ op.singleOutput? = some output ∧ op.inputs.head? = some input ∧
      v.facts.sameShape output input = true ∧ r = .alias [(output, input)] := by
  have hr := Proposal.ofOption_eq_rewrite.1 hr
  unfold bypassReshape at hr
  split at hr
  · next heq =>
    obtain ⟨output, houtput, hr⟩ := Option.bind_eq_some_iff.1 hr
    obtain ⟨input, hinput, hr⟩ := Option.bind_eq_some_iff.1 hr
    split at hr
    · next hsame =>
      cases hr
      exact ⟨output, input, heq, houtput, hinput, hsame, rfl⟩
    · cases hr
  · cases hr

theorem reshapeChain_proposes (hr : reshapeChain.propose v id op = .rewrite r) :
    ∃ input shape innerId inner first, op.op = .reshape ∧ op.inputs = [input, shape] ∧
      v.graph.producer? input = some (innerId, inner) ∧ inner.op = .reshape ∧ inner.inputs.head? = some first ∧
      r = .replaceInputs id none [first, shape] := by
  have hr := Proposal.ofOption_eq_rewrite.1 hr
  unfold joinReshapes at hr
  split at hr
  · next input shape heq hinputs =>
    obtain ⟨⟨innerId, inner⟩, hinner, hr⟩ := Option.bind_eq_some_iff.1 hr
    dsimp only at hr
    split at hr
    · next hreshape =>
      obtain ⟨first, hfirst, hr⟩ := Option.bind_eq_some_iff.1 hr
      cases hr
      exact ⟨input, shape, innerId, inner, first, heq, hinputs, hinner, hreshape, hfirst, rfl⟩
    · cases hr
  · cases hr

/-- A transpose of a transpose, and the permutation that has the effect of both. -/
structure JoinedTransposes (v : RewriteView) (op : OperatorNode) (first : NodeId) (perm : List Nat) where
  outer? : Option (List Nat)
  inner? : Option (List Nat)
  input : NodeId
  sourceId : NodeId
  source : OperatorNode
  outer : List Nat
  inner : List Nat
  op_eq : op.op = .transpose outer?
  head_eq : op.inputs.head? = some input
  producer_eq : v.graph.producer? input = some (sourceId, source)
  source_eq : source.op = .transpose inner?
  first_eq : source.inputs.head? = some first
  resolve_inner : resolvePermutation? inner? (v.rank? first) = some inner
  resolve_outer : resolvePermutation? outer? (some inner.length) = some outer
  compose : composePermutations? inner outer = some perm

theorem transposeChain_proposes (hr : transposeChain.propose v id op = .rewrite r) : ∃ output first perm,
    op.singleOutput? = some output ∧ Nonempty (JoinedTransposes v op first perm) ∧
      r = if isIdentityPermutation perm then .alias [(output, first)]
        else .replaceInputs id (some (.transpose (some perm))) [first] := by
  have hr := Proposal.ofOption_eq_rewrite.1 hr
  unfold joinTransposes at hr
  split at hr
  · next outer? houter? =>
    obtain ⟨output, houtput, hr⟩ := Option.bind_eq_some_iff.1 hr
    obtain ⟨input, hinput, hr⟩ := Option.bind_eq_some_iff.1 hr
    obtain ⟨⟨sourceId, source⟩, hsource, hr⟩ := Option.bind_eq_some_iff.1 hr
    dsimp only at hr
    split at hr
    · next inner? hinner? =>
      obtain ⟨first, hfirst, hr⟩ := Option.bind_eq_some_iff.1 hr
      obtain ⟨inner, hinner, hr⟩ := Option.bind_eq_some_iff.1 hr
      obtain ⟨outer, houter, hr⟩ := Option.bind_eq_some_iff.1 hr
      obtain ⟨perm, hperm, hr⟩ := Option.bind_eq_some_iff.1 hr
      refine ⟨output, first, perm, houtput, ⟨{
        outer?, inner?, input, sourceId, source, outer, inner, op_eq := houter?, head_eq := hinput
        producer_eq := hsource, source_eq := hinner?, first_eq := hfirst, resolve_inner := hinner
        resolve_outer := houter, compose := hperm }⟩, ?_⟩
      by_cases hidentity : isIdentityPermutation perm = true
      · rw [if_pos hidentity] at hr ⊢
        exact (Option.some.inj hr).symm
      · rw [if_neg hidentity] at hr ⊢
        exact (Option.some.inj hr).symm
    · cases hr
  · cases hr

/-! ## Assertions -/

theorem uselessAssert_proposes (hr : uselessAssert.propose v id op = .rewrite r) :
    ∃ message input conditions output, op.op = .assertAll message ∧ op.inputs = input :: conditions ∧
      op.singleOutput? = some output ∧
      (conditions.filter (!conditionHolds v ·) = [] ∧ r = .alias [(output, input)] ∨
        r = .replaceInputs id none (input :: conditions.filter (!conditionHolds v ·))) := by
  have hr := Proposal.ofOption_eq_rewrite.1 hr
  unfold dropConditions at hr
  split at hr
  · next message input conditions heq hinputs =>
    obtain ⟨output, houtput, hr⟩ := Option.bind_eq_some_iff.1 hr
    refine ⟨message, input, conditions, output, heq, hinputs, houtput, ?_⟩
    dsimp only at hr
    split at hr
    · next hempty =>
      cases hr
      exact .inl ⟨List.isEmpty_iff.1 hempty, rfl⟩
    · split at hr
      · cases hr
        exact .inr rfl
      · cases hr
  · cases hr

/-! ## Overwriting inputs -/

theorem inPlaceElementwise_proposes (hr : inPlaceElementwise.propose v id op = .rewrite r) : ∃ output variant value,
    op.singleOutput? = some output ∧ inPlaceVariant? op.op = some variant ∧ value ∈ op.inputs ∧
      canDestroy v value id output = true ∧ r = .replaceOperator id variant := by
  have hr := Proposal.ofOption_eq_rewrite.1 hr
  unfold allowInPlace at hr
  obtain ⟨output, houtput, hr⟩ := Option.bind_eq_some_iff.1 hr
  obtain ⟨variant, hvariant, hr⟩ := Option.bind_eq_some_iff.1 hr
  dsimp only at hr
  have hsub : (if op.op.isCommutative then op.inputs else op.inputs.take 1) ⊆ op.inputs := by
    split
    · exact List.Subset.refl _
    · exact List.take_subset 1 op.inputs
  generalize (if op.op.isCommutative then op.inputs else op.inputs.take 1) = candidates at hr hsub
  by_cases hdestroy : (candidates.any fun value => canDestroy v value id output) = true
  · rw [if_pos hdestroy] at hr
    cases hr
    obtain ⟨value, hvalue, hdestroy⟩ := List.any_eq_true.1 hdestroy
    exact ⟨output, variant, value, houtput, hvariant, hsub hvalue, hdestroy, rfl⟩
  · rw [if_neg hdestroy] at hr
    cases hr

/-! ## What merging identifies -/

/-- What merging redirects, for one operator. -/
inductive Redirects (v : RewriteView) (op : OperatorNode) : Rewrite → Prop
  /-- A constant to an older one of the same type and shape. -/
  | constant {input older : NodeId} {c d : Value} (hinput : v.graph.constant? input = some c)
      (holder : v.graph.constant? older = some d) (hless : older < input) (hinfo : d.info = c.info)
      (hidentical : d = c ↔ d.sameZeros c = true) : Redirects v op (.alias [(input, older)])
  /-- The outputs of the operator to those of an older one with the same inputs. -/
  | operator {otherId : NodeId} {other : OperatorNode} (hother : v.graph.operator? otherId = some other)
      (hinputs : other.inputs = op.inputs) (hcount : other.outputs.length = op.outputs.length)
      (hidentical : op.op = other.op ↔ op.op.sameZeros other.op = true)
      (hrun : op.op.sameZeros other.op = true → ∀ xs, op.op.run xs = other.op.run xs) :
      Redirects v op (.alias (op.outputs.zip other.outputs))

/-- Merging redirects constants that are the same and operators that compute the same, but for the signs of zeros. -/
theorem merge_redirects (hr : merge.propose v id op = .rewrite r) : Redirects v op r := by
  rcases merge_proposes hr with ⟨input, c, older, d, hc, hd, hequal, hless, rfl⟩ |
    ⟨otherId, other, -, -, hother, hinputs, hcount, hsame, rfl⟩
  · exact .constant hc hd hless (Value.info_eq_of_eq hequal) (Value.eq_iff_sameZeros hequal)
  · have hidentical := Operator.eq_iff_sameZeros hsame
    exact .operator hother hinputs hcount hidentical fun hzeros xs => by rw [hidentical.2 hzeros]

/-- Divides a value by the second zero. -/
def quotient : OperatorNode := { name := "z", inputs := [0, 2], outputs := [4], op := .elementwise { fn := .div } }

/-- A graph that divides its input by a constant 0 and by a constant -0. -/
def dividedByZeros : Graph :=
  let g := (Graph.empty.addValue "x" none none).1
  let g := [Single.zero, Single.negZero].foldl (fun g c => (g.addConstant none (.floats (.scalar c))).1) g
  let g := ["y", "z"].foldl (fun g name => (g.addValue name none none).1) g
  let g := (g.addOperator "y" quotient.op [0, 1] [3]).1
  let g := (g.addOperator "z" quotient.op [0, 2] [4]).1
  (g.setInputs [0]).setOutputs [3, 4]

/-- The zeros are merged, although they are different. -/
theorem merge_redirects_zeros : dividedByZeros.validate = .ok () ∧ dividedByZeros.operator? 6 = some quotient ∧
    dividedByZeros.constant? 2 = some (.floats (.scalar .negZero)) ∧
    dividedByZeros.constant? 1 = some (.floats (.scalar .zero)) ∧
    merge.propose { graph := dividedByZeros, facts := {} } 6 quotient = .rewrite (.alias [(2, 1)]) ∧
    Redirects { graph := dividedByZeros, facts := {} } quotient (.alias [(2, 1)]) := by
  have hfound : (quotient.inputs.findSome? fun input =>
      (olderEqual? { graph := dividedByZeros, facts := {} } input).map (input, ·)) = some (2, 1) := by decide +kernel
  have hpropose : merge.propose { graph := dividedByZeros, facts := {} } 6 quotient = .rewrite (.alias [(2, 1)]) := by
    refine Proposal.ofOption_eq_rewrite.2 ?_
    unfold mergeEqual
    rw [hfound]
  exact ⟨by decide +kernel, rfl, rfl, rfl, hpropose, merge_redirects hpropose⟩

end Rules

end TensorGraph
