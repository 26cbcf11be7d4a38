import TensorGraph.Proofs.Rewrite.Proposals

/-!
# The standard rules fit every graph

What a standard rule proposes uses values in place of others that depend on them, so that it keeps a graph linkable.
-/

namespace TensorGraph

open Relation

theorem Graph.Negates.computes {g : Graph} {input output : NodeId} (h : g.Negates input output) :
    g.Computes input output := by
  obtain ⟨id, op, hop, hout, -, hinput⟩ := h
  refine ⟨id, ?_, ?_⟩
  · simp [Graph.inputsOf_of_operator? hop, hinput]
  · rwa [Graph.outputsOf_of_operator? hop]

/-- Whether all rewrites that a rule proposes fit the graph, if this can be linked. -/
def RewriteRule.Fits (rule : RewriteRule) : Prop :=
  ∀ (v : RewriteView) (id : NodeId) (op : OperatorNode) (r : Rewrite), v.graph.Linkable →
    v.graph.operator? id = some op → rule.propose v id op = .rewrite r → r.Fits v.graph

namespace Rules

variable {v : RewriteView} {g : Graph} {id x output input : NodeId} {op : OperatorNode} {r : Rewrite}

/-- A value can be replaced by one that it depends on. -/
theorem alias_fits (h : g.Linkable) (hpath : TransGen g.Computes x output) :
    (Rewrite.alias [(output, x)]).Fits g :=
  ⟨.of_path h hpath, trivial⟩

theorem transGen_input (hop : g.operator? id = some op) (houtput : op.singleOutput? = some output)
    (hinput : input ∈ op.inputs) : TransGen g.Computes input output := by
  refine .single ⟨id, ?_, ?_⟩
  · rwa [Graph.inputsOf_of_operator? hop]
  · rw [Graph.outputsOf_of_operator? hop, singleOutput?_eq_some.1 houtput]
    exact List.mem_singleton_self output

theorem isValue_output (h : g.Linkable) (hop : g.operator? id = some op)
    (houtput : op.singleOutput? = some output) : g.isValue output = true :=
  h.formed.produces id op hop output (by simp [singleOutput?_eq_some.1 houtput])

theorem isReadable_output (h : g.Linkable) (hop : g.operator? id = some op)
    (houtput : op.singleOutput? = some output) : g.isReadable output = true :=
  Graph.isReadable_of_isValue (isValue_output h hop houtput)

/-! ## Operators without effect -/

theorem removeIdentity_fits : removeIdentity.Fits := by
  intro v id op r h hop hr
  obtain ⟨output, input, houtput, hinput, -, rfl⟩ := removeIdentity_proposes hr
  exact alias_fits h (transGen_input hop houtput (List.mem_of_mem_head? hinput))

theorem uselessElementwise_fits : uselessElementwise.Fits := by
  intro v id op r h hop hr
  have hr := Proposal.ofOption_eq_rewrite.1 hr
  unfold bypassNeutral at hr
  obtain ⟨output, houtput, hr⟩ := Option.bind_eq_some_iff.1 hr
  obtain ⟨found, hfound, hr⟩ := Option.bind_eq_some_iff.1 hr
  obtain ⟨x, hx, hr⟩ := Option.bind_eq_some_iff.1 hr
  obtain ⟨p, hp, hmatch⟩ := List.exists_of_findSome?_eq_some hfound
  split at hr
  · cases hr
    refine alias_fits h ?_
    have hid := isReadable_output h hop houtput
    simp only [neutralPatterns, List.mem_cons, List.not_mem_nil, or_false] at hp
    rcases hp with rfl | rfl | rfl | rfl | rfl
    all_goals exact Pattern.transGen_of_match? h.indexed h.formed hid hmatch hx rfl
  · cases hr

theorem doubleNegation_fits : doubleNegation.Fits := by
  intro v id op r h hop hr
  obtain ⟨output, inner, x, -, houter, hinner, rfl⟩ := doubleNegation_proposes h.indexed h.formed hop hr
  exact alias_fits h (.tail (.single hinner.computes) houter.computes)

/-! ## Folding and merging -/

theorem constantFolding_fits : constantFolding.Fits := by
  intro v id op r _ _ hr
  obtain ⟨output, inputs, x, rest, -, -, -, -, -, rfl⟩ := constantFolding_proposes hr
  trivial

/-- Outputs of an operator can be replaced by those of another one with the same inputs. -/
theorem aliasFits_zip {other : NodeId} {outputs outputs' : List NodeId} (hg : g.Indexed) (hacyclic : g.Acyclic)
    (hne : id ≠ other) (hinputs : g.inputsOf id = g.inputsOf other) (hsub : outputs ⊆ g.outputsOf id)
    (hsub' : outputs' ⊆ g.outputsOf other) : g.AliasFits (outputs.zip outputs') := by
  induction outputs generalizing g outputs' with
  | nil => trivial
  | cons old outputs ih =>
    cases outputs' with
    | nil => trivial
    | cons new outputs' =>
      obtain ⟨hold, hsub⟩ := List.cons_subset.1 hsub
      obtain ⟨hnew, hsub'⟩ := List.cons_subset.1 hsub'
      have hsources (u : NodeId) (hu : g.Computes u new) : g.Computes u old := by
        obtain ⟨source, hu, hsource⟩ := hu
        rw [hg.producer_unique hsource hnew, ← hinputs] at hu
        exact ⟨id, hu, hold⟩
      have hapart : old ≠ new := fun heq => hne (hg.producer_unique hold (heq ▸ hnew))
      have hreplace : g.Replaceable old new := by
        refine ⟨fun hpath => ?_, fun u hu => .single (hsources u hu), fun _ => .inr (.inr ⟨other, hnew⟩)⟩
        rcases ReflTransGen.cases_tail hpath with heq | ⟨u, hpath, hstep⟩
        · exact hapart heq.symm
        · exact hacyclic old (.tail' hpath (hsources u hstep))
      have hrest := (Graph.acyclic_replaceValue hg hacyclic hapart).2 hreplace.acyclic
      refine ⟨hreplace, ih (hg.replaceValue old new) hrest ?_ ?_ ?_⟩
      · rw [Graph.inputsOf_replaceValue old new hg, Graph.inputsOf_replaceValue old new hg, hinputs]
      · rwa [Graph.outputsOf_replaceValue old new hg]
      · rwa [Graph.outputsOf_replaceValue old new hg]

theorem merge_fits : merge.Fits := by
  intro v id op r h hop hr
  rcases merge_proposes hr with ⟨input, c, older, d, -, hd, -, hless, rfl⟩ |
    ⟨otherId, other, -, hless, hother, hinputs, -, -, rfl⟩
  · exact ⟨h.replaceable_constant (Option.isSome_of_eq_some hd) (Nat.ne_of_gt hless), trivial⟩
  · refine aliasFits_zip h.indexed h.acyclic (Nat.ne_of_gt hless) ?_ ?_ ?_
    · rw [Graph.inputsOf_of_operator? hop, Graph.inputsOf_of_operator? hother, hinputs]
    · rw [Graph.outputsOf_of_operator? hop]
      exact List.Subset.refl _
    · rw [Graph.outputsOf_of_operator? hother]
      exact List.Subset.refl _

/-! ## Shapes -/

theorem shapeToConstant_fits : shapeToConstant.Fits := by
  intro v id op r _ _ hr
  obtain ⟨output, facts, known, -, -, -, -, -, rfl⟩ := shapeToConstant_proposes hr
  trivial

/-- What the producer of an input reads can become an input. -/
theorem path_to_input (h : g.Linkable) (hop : g.operator? id = some op) (hinput : input ∈ op.inputs)
    {source : OperatorNode} {sourceId : NodeId} (hsource : g.producer? input = some (sourceId, source))
    (hx : x ∈ source.inputs) : ∃ u ∈ g.inputsOf id, ReflTransGen g.Computes x u := by
  obtain ⟨hsource, hout⟩ := (Graph.producer?_eq_some h.indexed).1 hsource
  refine ⟨input, by rwa [Graph.inputsOf_of_operator? hop], .single ⟨sourceId, ?_, hout⟩⟩
  rwa [Graph.inputsOf_of_operator? hsource]

theorem own_input (hop : g.operator? id = some op) (hx : x ∈ op.inputs) :
    ∃ u ∈ g.inputsOf id, ReflTransGen g.Computes x u :=
  ⟨x, by rwa [Graph.inputsOf_of_operator? hop], .refl⟩

theorem shapeLift_fits : shapeLift.Fits := by
  intro v id op r h hop hr
  obtain ⟨input, sourceId, source, lifted, -, hinputs, hsource, -, hlifted, -, rfl⟩ := shapeLift_proposes hr
  intro x hx
  rw [List.mem_singleton] at hx
  exact hx ▸ path_to_input h hop (by simp [hinputs]) hsource hlifted

theorem uselessSpecifyShape_fits : uselessSpecifyShape.Fits := by
  intro v id op r h hop hr
  obtain ⟨spec, output, input, facts, dims, -, houtput, hinput, -, -, -, rfl⟩ := uselessSpecifyShape_proposes hr
  exact alias_fits h (transGen_input hop houtput (List.mem_of_mem_head? hinput))

theorem uselessReshape_fits : uselessReshape.Fits := by
  intro v id op r h hop hr
  obtain ⟨output, input, -, houtput, hinput, -, rfl⟩ := uselessReshape_proposes hr
  exact alias_fits h (transGen_input hop houtput (List.mem_of_mem_head? hinput))

theorem reshapeChain_fits : reshapeChain.Fits := by
  intro v id op r h hop hr
  obtain ⟨input, shape, innerId, inner, first, -, hinputs, hinner, -, hfirst, rfl⟩ := reshapeChain_proposes hr
  intro x hx
  simp only [List.mem_cons, List.not_mem_nil, or_false] at hx
  rcases hx with rfl | rfl
  · exact path_to_input h hop (by simp [hinputs]) hinner (List.mem_of_mem_head? hfirst)
  · exact own_input hop (by simp [hinputs])

theorem transposeChain_fits : transposeChain.Fits := by
  intro v id op r h hop hr
  obtain ⟨output, first, perm, houtput, ⟨joined⟩, rfl⟩ := transposeChain_proposes hr
  have hpath := path_to_input h hop (List.mem_of_mem_head? joined.head_eq) joined.producer_eq
    (List.mem_of_mem_head? joined.first_eq)
  split
  · obtain ⟨u, hu, hpath⟩ := hpath
    refine alias_fits h (.tail' hpath ⟨id, hu, ?_⟩)
    rw [Graph.outputsOf_of_operator? hop, singleOutput?_eq_some.1 houtput]
    exact List.mem_singleton_self output
  · intro y hy
    rw [List.mem_singleton] at hy
    exact hy ▸ hpath

/-! ## Assertions -/

theorem uselessAssert_fits : uselessAssert.Fits := by
  intro v id op r h hop hr
  obtain ⟨message, input, conditions, output, -, hinputs, houtput, hr⟩ := uselessAssert_proposes hr
  rcases hr with ⟨-, rfl⟩ | rfl
  · exact alias_fits h (transGen_input hop houtput (by simp [hinputs]))
  · intro x hx
    refine own_input hop ?_
    rw [hinputs]
    rcases List.mem_cons.1 hx with rfl | hx
    · exact List.mem_cons_self ..
    · exact List.mem_cons_of_mem _ (List.mem_filter.1 hx).1

theorem removeAllAssert_fits : removeAllAssert.Fits := by
  intro v id op r h hop hr
  have hr := Proposal.ofOption_eq_rewrite.1 hr
  unfold bypassAssertion at hr
  split at hr
  · obtain ⟨output, houtput, hr⟩ := Option.bind_eq_some_iff.1 hr
    obtain ⟨input, hinput, hr⟩ := Option.bind_eq_some_iff.1 hr
    cases hr
    exact alias_fits h (transGen_input hop houtput (List.mem_of_mem_head? hinput))
  · cases hr

/-! ## Stable and special functions -/

/-- An operator that computes a value from one node can replace all those that do so. -/
theorem fuseUnary_fits {new : Operator} (h : g.Linkable) (hvalue : g.isValue output = true)
    (hpath : TransGen g.Computes x output) (hover : g.Over x output) : (fuseUnary op new x output).Fits g := by
  refine ⟨fun w hw => ?_, fun u hu w hw => ?_, fun source hsource u hu => ?_⟩
  · exact List.mem_singleton.1 hw ▸ hvalue
  · rw [List.mem_singleton.1 hw, List.mem_singleton.1 hu]
    exact hpath
  · rw [List.mem_singleton.1 hu]
    refine hover.not_mem_outputsOf h.indexed h.acyclic ?_ ?_ hsource
    · exact List.mem_append_left _ (Fusion.mem_sources.2 (List.mem_singleton_self x))
    · exact List.subset_append_right _ _

theorem logSigmoid_fits : logSigmoid.Fits := by
  intro v id op r h hop hr
  have hr := Proposal.ofOption_eq_rewrite.1 hr
  unfold stabilizeLogSigmoid at hr
  obtain ⟨output, houtput, hr⟩ := Option.bind_eq_some_iff.1 hr
  dsimp only at hr
  split at hr
  · cases hr
  · obtain ⟨found, hfound, hr⟩ := Option.bind_eq_some_iff.1 hr
    obtain ⟨x, hx, hr⟩ := Option.bind_eq_some_iff.1 hr
    cases hr
    have hid := isReadable_output h hop houtput
    exact fuseUnary_fits h (isValue_output h hop houtput)
      (Pattern.transGen_of_match? h.indexed h.formed hid hfound hx rfl)
      (Pattern.over_of_match? h.indexed h.formed hid hfound hx rfl)

theorem logOnePlus_fits : logOnePlus.Fits := by
  intro v id op r h hop hr
  have hr := Proposal.ofOption_eq_rewrite.1 hr
  unfold stabilizeLogOnePlus at hr
  obtain ⟨output, houtput, hr⟩ := Option.bind_eq_some_iff.1 hr
  obtain ⟨found, hfound, hr⟩ := Option.bind_eq_some_iff.1 hr
  obtain ⟨x, hx, hr⟩ := Option.bind_eq_some_iff.1 hr
  split at hr
  · cases hr
  · cases hr
    have hid := isReadable_output h hop houtput
    exact fuseUnary_fits h (isValue_output h hop houtput)
      (Pattern.transGen_of_match? h.indexed h.formed hid hfound hx rfl)
      (Pattern.over_of_match? h.indexed h.formed hid hfound hx rfl)

theorem softmax_fits : softmax.Fits := by
  intro v id op r h hop hr
  have hr := Proposal.ofOption_eq_rewrite.1 hr
  unfold useSoftmax at hr
  obtain ⟨output, houtput, hr⟩ := Option.bind_eq_some_iff.1 hr
  by_cases hfloat : (!v.isFloat output) = true
  · simp [hfloat] at hr
  rw [if_neg hfloat] at hr
  obtain ⟨found, hfound, hr⟩ := Option.bind_eq_some_iff.1 hr
  obtain ⟨x, hx, hr⟩ := Option.bind_eq_some_iff.1 hr
  obtain ⟨numerator, -, hr⟩ := Option.bind_eq_some_iff.1 hr
  obtain ⟨denominator, -, hr⟩ := Option.bind_eq_some_iff.1 hr
  by_cases hdifferent : (numerator != denominator) = true
  · simp [hdifferent] at hr
  rw [if_neg hdifferent] at hr
  obtain ⟨sum, -, hr⟩ := Option.bind_eq_some_iff.1 hr
  obtain ⟨axis, -, hr⟩ := Option.bind_eq_some_iff.1 hr
  have hrewrite : r = fuseUnary op (.softmax { axis }) x output := by
    split at hr
    · obtain ⟨maxAxis, -, hr⟩ := Option.bind_eq_some_iff.1 hr
      obtain ⟨rank, -, hr⟩ := Option.bind_eq_some_iff.1 hr
      split at hr
      · cases hr
      · exact (Option.some.inj hr).symm
    · exact (Option.some.inj hr).symm
  obtain ⟨p, hp, hmatch⟩ := List.exists_of_findSome?_eq_some hfound
  have hid := isReadable_output h hop houtput
  have hover : p.isOver "x" = true ∧ TransGen v.graph.Computes x output := by
    simp only [softmaxPatterns, List.mem_cons, List.not_mem_nil, or_false] at hp
    rcases hp with rfl | rfl
    all_goals exact ⟨rfl, Pattern.transGen_of_match? h.indexed h.formed hid hmatch hx rfl⟩
  rw [hrewrite]
  exact fuseUnary_fits h (isValue_output h hop houtput) hover.2
    (Pattern.over_of_match? h.indexed h.formed hid hmatch hx hover.1)

end Rules

end TensorGraph
