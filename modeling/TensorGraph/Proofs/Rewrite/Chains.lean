import Mathlib.Data.List.NodupEquivFin
import TensorGraph.Proofs.Rewrite.Fusions
import TensorGraph.Proofs.Rewrite.StandardRules
import TensorGraph.Proofs.Rewrite.Unfolding

/-!
# Chains in a graph

An operator can be absorbed if its output is read once. From a value that is read once there is only one way on through
such operators, so that no operator becomes part of a chain twice, and no chain reads what it computes
(`Rules.Chain.apart`). The operators that a fusion replaces are those of the chain (`Rules.Chain.mem_removed`), and
the fusion fits every graph (`Rules.elementwiseFusion_fits`).
-/

namespace TensorGraph

open Relation

/-! ## Values that are read once -/

namespace Graph

variable {g : Graph} {w a b x id : NodeId}

/-- Whether a value is read exactly once. -/
def ReadOnce (g : Graph) (w : NodeId) : Prop := ∃ reader, g.consumersOf w = [reader]

/-- Whether an operator reads the first value and computes the second one only, which is read once. -/
def Feeds (g : Graph) (w a : NodeId) : Prop := ∃ id, w ∈ g.inputsOf id ∧ g.outputsOf id = [a] ∧ g.ReadOnce a

theorem Feeds.computes (h : g.Feeds w a) : g.Computes w a := by
  obtain ⟨id, hw, ha, -⟩ := h
  exact ⟨id, hw, ha ▸ List.mem_singleton_self a⟩

theorem ReadOnce.reader_unique (hg : g.Indexed) (h : g.ReadOnce w) {id' : NodeId} (hid : w ∈ g.inputsOf id)
    (hid' : w ∈ g.inputsOf id') : id = id' := by
  obtain ⟨reader, hreader⟩ := h
  have hsame (id : NodeId) (hid : w ∈ g.inputsOf id) : id = reader :=
    List.mem_singleton.1 (hreader ▸ hg.mem_consumersOf.2 hid)
  rw [hsame id hid, hsame id' hid']

theorem ReadOnce.not_duplicate (hg : g.Indexed) (h : g.ReadOnce w) : ¬(g.inputsOf id).Duplicate w := by
  obtain ⟨reader, hreader⟩ := h
  rw [List.duplicate_iff_two_le_count, ← hg.consumers, hreader]
  have := List.count_le_length (a := id) (l := [reader])
  simp only [List.length_singleton] at this
  omega

theorem Feeds.unique (hg : g.Indexed) (hw : g.ReadOnce w) (ha : g.Feeds w a) (hb : g.Feeds w b) : a = b := by
  obtain ⟨id, hid, ha, -⟩ := ha
  obtain ⟨id', hid', hb, -⟩ := hb
  obtain rfl := hw.reader_unique hg hid hid'
  exact List.singleton_inj.1 (ha.symm.trans hb)

theorem ReadOnce.of_path (hx : g.ReadOnce x) (h : ReflTransGen g.Feeds x a) : g.ReadOnce a := by
  rcases ReflTransGen.cases_tail h with rfl | ⟨w, -, id, -, -, ha⟩
  · exact hx
  · exact ha

/-- From a value that is read once there is one way on. -/
theorem ReadOnce.path_total (hg : g.Indexed) (hx : g.ReadOnce x) (ha : ReflTransGen g.Feeds x a)
    (hb : ReflTransGen g.Feeds x b) : ReflTransGen g.Feeds a b ∨ ReflTransGen g.Feeds b a := by
  induction ha with
  | refl => exact .inl hb
  | @tail c d hc hstep ih =>
    rcases ih with hpath | hpath
    · -- The way to `b` goes on from `c` by the only step that there is, unless it ends there.
      rcases ReflTransGen.cases_head hpath with rfl | ⟨e, hnext, hpath⟩
      · exact .inr (.single hstep)
      · exact .inl (Feeds.unique hg (hx.of_path hc) hnext hstep ▸ hpath)
    · exact .inr (hpath.tail hstep)

theorem Feeds.path_computes (h : ReflTransGen g.Feeds a b) : ReflTransGen g.Computes a b :=
  ReflTransGen.mono (fun _ _ => Feeds.computes) _ _ h

/-- A value that is read once leads to no other input of its reader. -/
theorem ReadOnce.eq_of_path (hg : g.Indexed) (hacyclic : g.Acyclic) (ha : g.ReadOnce a) (hmem : a ∈ g.inputsOf id)
    (hmem' : b ∈ g.inputsOf id) (h : ReflTransGen g.Feeds a b) : a = b := by
  rcases ReflTransGen.cases_head h with heq | ⟨w, ⟨id', ha', hw, -⟩, hpath⟩
  · exact heq
  · obtain rfl := ha.reader_unique hg ha' hmem
    exact absurd (.tail' (Feeds.path_computes hpath) ⟨id', hmem', hw ▸ List.mem_singleton_self w⟩) (hacyclic w)

end Graph

namespace Rules

open TensorGraph.Graph (ReadOnce Feeds)

variable {v : RewriteView} {g : Graph} {reader id value w x : NodeId} {op : OperatorNode} {f : Fusable} {e : ScalarExpr}
  {u : Unfolding} {us : List Unfolding}

/-! ## Absorbed operators -/

/-- What is known of an operator that can be absorbed. -/
structure Absorbable (v : RewriteView) (value reader id : NodeId) (op : OperatorNode) (f : Fusable) : Prop where
  operator : v.graph.operator? id = some op
  outputs : op.outputs = [value]
  fusable : Fusable.ofOperator? op.op = some f
  isFloat_input : ∀ w ∈ op.inputs, v.isFloat w = true
  readOnce : v.graph.ReadOnce value

theorem absorbable_of_eq_some (hg : v.graph.Indexed)
    (h : FusionBuilder.absorbable? v value reader = some (id, op, f)) : Absorbable v value reader id op f := by
  unfold FusionBuilder.absorbable? at h
  obtain ⟨⟨id', op'⟩, hproducer, h⟩ := Option.bind_eq_some_iff.1 h
  obtain ⟨hop, hout⟩ := (Graph.producer?_eq_some hg).1 hproducer
  obtain ⟨f', hf, h⟩ := Option.bind_eq_some_iff.1 h
  split at h
  · next hconditions =>
    cases h
    simp only [Bool.and_eq_true, beq_iff_eq, List.all_eq_true, RewriteView.hasSingleUse] at hconditions
    obtain ⟨⟨⟨hlength, -⟩, -, hconsumers⟩, hinputs⟩ := hconditions
    obtain ⟨w, hw⟩ := List.length_eq_one_iff.1 hlength
    rw [Graph.outputsOf_of_operator? hop, hw, List.mem_singleton] at hout
    exact ⟨hop, hout ▸ hw, hf, hinputs, reader, hconsumers⟩
  · cases h

theorem Absorbable.outputsOf (h : Absorbable v value reader id op f) : v.graph.outputsOf id = [value] :=
  (Graph.outputsOf_of_operator? h.operator).trans h.outputs

theorem exists_of_scalarConstant? {c : Single} (h : FusionBuilder.scalarConstant? v value = some c) :
    ∃ t, v.graph.constant? value = some (.floats t) ∧ t.rank = 0 ∧ t.item? = some c := by
  unfold FusionBuilder.scalarConstant? at h
  split at h
  · next t ht =>
    split at h
    · next hrank => exact ⟨t, ht, hrank, h⟩
    · cases h
  · cases h

theorem Fusable.Unfolds.mem_inputsOf (h : f.Unfolds op.inputs us) (hop : g.operator? id = some op) (hu : u ∈ us) :
    u.value ∈ g.inputsOf id := by
  rw [Graph.inputsOf_of_operator? hop, ← h.values]
  exact List.mem_map_of_mem hu

/-! ## Values that are met -/

namespace Unfolding

/-- Whether unfolding stopped at a value or absorbed an operator that computes it. -/
def Meets (g : Graph) (u : Unfolding) (x : NodeId) : Prop := x ∈ u.reads ∨ ∃ a ∈ u.absorbed, x ∈ g.outputsOf a

theorem meets_output (houtputs : g.outputsOf id = [value]) :
    (output value id e us).Meets g x ↔ x = value ∨ ∃ u ∈ us, u.Meets g x := by
  simp only [Meets, output, List.mem_flatMap, List.mem_cons, exists_eq_or_imp, houtputs, List.not_mem_nil, or_false]
  constructor
  · rintro (⟨u, hu, hx⟩ | hx | ⟨a, ⟨u, hu, ha⟩, hx⟩)
    · exact .inr ⟨u, hu, .inl hx⟩
    · exact .inl hx
    · exact .inr ⟨u, hu, .inr ⟨a, ha, hx⟩⟩
  · rintro (hx | ⟨u, hu, hx | ⟨a, ha, hx⟩⟩)
    · exact .inr (.inl hx)
    · exact .inl ⟨u, hu, hx⟩
    · exact .inr (.inr ⟨a, ⟨u, hu, ha⟩, hx⟩)

/-- Whether no value that is read once is met in two unfoldings. -/
def Separate (g : Graph) (u u' : Unfolding) : Prop := ∀ x, g.ReadOnce x → u.Meets g x → ¬u'.Meets g x

instance : Std.Symm (Separate g) := ⟨fun _ _ h x honce hx' hx => h x honce hx hx'⟩

end Unfolding

/-- The values that are met lead to the one that is unfolded. -/
theorem Unfolds.path_of_meets (hg : v.graph.Indexed) (h : Unfolds v reader u) (hx : u.Meets v.graph x) :
    ReflTransGen v.graph.Feeds x u.value := by
  induction h with
  | read reader value =>
    obtain hx | ⟨a, ha, -⟩ := hx
    · exact List.mem_singleton.1 hx ▸ .refl
    · cases ha
  | constant h =>
    obtain hx | ⟨a, ha, -⟩ := hx
    · cases hx
    · cases ha
  | absorbed h hinputs hus hexpr ih =>
    have habsorb := absorbable_of_eq_some hg h
    obtain rfl | ⟨u, hu, hx⟩ := (Unfolding.meets_output habsorb.outputsOf).1 hx
    · exact .refl
    · exact (ih u hu hx).tail ⟨_, hinputs.mem_inputsOf habsorb.operator hu, habsorb.outputsOf, habsorb.readOnce⟩
  | refused h hinputs hus hexpr ih =>
    have habsorb := absorbable_of_eq_some hg h
    obtain hx | ⟨a, ha, -⟩ := hx
    · rcases List.mem_append.1 hx with hx | hx
      · obtain ⟨u, hu, hx⟩ := List.mem_flatMap.1 hx
        exact (ih u hu (.inl hx)).tail
          ⟨_, hinputs.mem_inputsOf habsorb.operator hu, habsorb.outputsOf, habsorb.readOnce⟩
      · exact List.mem_singleton.1 hx ▸ .refl
    · cases ha

theorem Unfolds.exists_absorbable (hg : v.graph.Indexed) (h : Unfolds v reader u) {a : NodeId} (ha : a ∈ u.absorbed) :
    ∃ value reader op f, Absorbable v value reader a op f := by
  induction h with
  | read | constant | refused => cases ha
  | absorbed h hinputs hus hexpr ih =>
    rcases List.mem_cons.1 ha with rfl | ha
    · exact ⟨_, _, _, _, absorbable_of_eq_some hg h⟩
    · obtain ⟨u, hu, ha⟩ := List.mem_flatMap.1 ha
      exact ih u hu ha

theorem Unfolds.outputsOf_absorbed (hg : v.graph.Indexed) (h : Unfolds v reader u) {a : NodeId} (ha : a ∈ u.absorbed) :
    ∃ x, v.graph.outputsOf a = [x] ∧ v.graph.ReadOnce x := by
  obtain ⟨value, _, _, _, habsorb⟩ := h.exists_absorbable hg ha
  exact ⟨value, habsorb.outputsOf, habsorb.readOnce⟩

/-- Unfolding a float tensor stops at float tensors. -/
theorem Unfolds.isFloat (hg : v.graph.Indexed) (h : Unfolds v reader u) (hvalue : v.isFloat u.value = true)
    (hw : w ∈ u.reads) : v.isFloat w = true := by
  have hargs {id : NodeId} {op : OperatorNode} {f : Fusable} {us : List Unfolding} {value reader : NodeId}
      (h : FusionBuilder.absorbable? v value reader = some (id, op, f)) (hinputs : f.Unfolds op.inputs us)
      (ih : ∀ u ∈ us, v.isFloat u.value = true → w ∈ u.reads → v.isFloat w = true)
      (hw : w ∈ us.flatMap (·.reads)) : v.isFloat w = true := by
    obtain ⟨u, hu, hw⟩ := List.mem_flatMap.1 hw
    refine ih u hu ((absorbable_of_eq_some hg h).isFloat_input _ ?_) hw
    exact hinputs.values ▸ List.mem_map_of_mem hu
  induction h with
  | read => exact List.mem_singleton.1 hw ▸ hvalue
  | constant => cases hw
  | absorbed h hinputs hus hexpr ih => exact hargs h hinputs ih hw
  | refused h hinputs hus hexpr ih =>
    rcases List.mem_append.1 hw with hw | hw
    · exact hargs h hinputs ih hw
    · exact List.mem_singleton.1 hw ▸ hvalue

/-! ## The inputs of an operator -/

section Inputs

variable (hg : v.graph.Indexed) (hacyclic : v.graph.Acyclic) (hop : v.graph.operator? id = some op)
  (houtputs : op.outputs = [value]) (hinputs : f.Unfolds op.inputs us) (hus : ∀ u ∈ us, Unfolds v id u)

include hg hop houtputs hinputs hus in
/-- The output depends on the values that are met where inputs are unfolded. -/
theorem computes_of_meets (hu : u ∈ us) (hx : u.Meets v.graph x) : TransGen v.graph.Computes x value := by
  refine .tail' (Feeds.path_computes ((hus u hu).path_of_meets hg hx)) ⟨id, hinputs.mem_inputsOf hop hu, ?_⟩
  rw [Graph.outputsOf_of_operator? hop, houtputs]
  exact List.mem_singleton_self value

include hg hacyclic hop hinputs hus in
theorem pairwise_separate : us.Pairwise (Unfolding.Separate v.graph) := by
  rw [List.pairwise_iff_getElem]
  intro i j hi hj hij x honce hx hx'
  have hmem := List.getElem_mem hi
  have hmem' := List.getElem_mem hj
  have hin := hinputs.mem_inputsOf hop hmem
  have hin' := hinputs.mem_inputsOf hop hmem'
  have hpath := (hus _ hmem).path_of_meets hg hx
  have hpath' := (hus _ hmem').path_of_meets hg hx'
  -- Both inputs lie on the one way on from `x`, so that they are the same value, which is read twice.
  have heq : us[i].value = us[j].value := by
    rcases honce.path_total hg hpath hpath' with hpath'' | hpath''
    · exact (honce.of_path hpath).eq_of_path hg hacyclic hin hin' hpath''
    · exact ((honce.of_path hpath').eq_of_path hg hacyclic hin' hin hpath'').symm
  have htwice : (v.graph.inputsOf id).Duplicate us[i].value := by
    rw [Graph.inputsOf_of_operator? hop, ← hinputs.values, List.duplicate_iff_exists_distinct_get]
    exact ⟨⟨i, by simpa using hi⟩, ⟨j, by simpa using hj⟩, hij, by simp, by simp [heq]⟩
  exact (honce.of_path hpath).not_duplicate hg htwice

end Inputs

/-! ## Operators that become part of a chain once -/

/-- Whether no operator was absorbed twice, and no output of an absorbed one is read. -/
structure Unfolding.Apart (g : Graph) (u : Unfolding) : Prop where
  nodup : u.absorbed.Nodup
  not_read : ∀ a ∈ u.absorbed, ∀ x ∈ g.outputsOf a, x ∉ u.reads

theorem apart_output (hg : v.graph.Indexed) (hacyclic : v.graph.Acyclic) (hop : v.graph.operator? id = some op)
    (houtputs : op.outputs = [value]) (hinputs : f.Unfolds op.inputs us) (hus : ∀ u ∈ us, Unfolds v id u)
    (hapart : ∀ u ∈ us, u.Apart v.graph) : (Unfolding.output value id e us).Apart v.graph := by
  have hvalue (u : Unfolding) (hu : u ∈ us) : ¬u.Meets v.graph value := fun hmeets =>
    hacyclic value (computes_of_meets hg hop houtputs hinputs hus hu hmeets)
  have hout : v.graph.outputsOf id = [value] := (Graph.outputsOf_of_operator? hop).trans houtputs
  have hseparate := pairwise_separate hg hacyclic hop hinputs hus
  have hmeets (u : Unfolding) (a x : NodeId) (ha : a ∈ u.absorbed) (hx : x ∈ v.graph.outputsOf a) : u.Meets v.graph x :=
    .inr ⟨a, ha, hx⟩
  constructor
  · refine List.nodup_cons.2 ⟨fun hmem => ?_, List.nodup_flatMap.2 ⟨fun u hu => (hapart u hu).nodup, ?_⟩⟩
    · -- The output would depend on itself.
      obtain ⟨u, hu, hid⟩ := List.mem_flatMap.1 hmem
      exact hvalue u hu (hmeets u id value hid (hout ▸ List.mem_singleton_self value))
    · -- Two inputs would both meet the output of an operator that is absorbed for both.
      refine hseparate.imp_of_mem fun {u u'} hu hu' h a ha ha' => ?_
      obtain ⟨x, hx, honce⟩ := (hus u hu).outputsOf_absorbed hg ha
      have hx : x ∈ v.graph.outputsOf a := hx ▸ List.mem_singleton_self x
      exact h x honce (hmeets u a x ha hx) (hmeets u' a x ha' hx)
  · intro a ha x hx hmem
    obtain ⟨u, hu, hread⟩ := List.mem_flatMap.1 hmem
    -- What is read for `u` is computed by the operator itself, for `u`, or for another input.
    rcases List.mem_cons.1 ha with rfl | ha
    · rw [hout, List.mem_singleton] at hx
      exact hvalue u hu (.inl (hx ▸ hread))
    · obtain ⟨u', hu', ha⟩ := List.mem_flatMap.1 ha
      by_cases hsame : u = u'
      · exact (hapart u hu).not_read a (hsame ▸ ha) x hx hread
      · obtain ⟨y, hy, honce⟩ := (hus u' hu').outputsOf_absorbed hg ha
        obtain rfl : x = y := by simpa [hy] using hx
        have hdifferent : Unfolding.Separate v.graph u u' :=
          hseparate.forall hu hu' hsame
        exact hdifferent x honce (.inl hread) (hmeets u' a x ha hx)

theorem Unfolds.apart (hg : v.graph.Indexed) (hacyclic : v.graph.Acyclic) (h : Unfolds v reader u) :
    u.Apart v.graph := by
  induction h with
  | read | constant | refused => exact ⟨List.nodup_nil, fun a ha => (by cases ha)⟩
  | absorbed h hinputs hus hexpr ih =>
    have habsorb := absorbable_of_eq_some hg h
    exact apart_output hg hacyclic habsorb.operator habsorb.outputs hinputs hus ih

/-! ## All operators of a chain -/

/-- Whether unfolding stopped at a value, which became a constant otherwise or is computed by an operator that was
absorbed. -/
def Unfolding.Covers (v : RewriteView) (u : Unfolding) (w : NodeId) : Prop :=
  w ∈ u.reads ∨ (FusionBuilder.scalarConstant? v w).isSome ∨ ∃ a ∈ u.absorbed, w ∈ v.graph.outputsOf a

/-- Whether the value is covered, and with an operator also what it reads. -/
structure Unfolding.Complete (v : RewriteView) (u : Unfolding) : Prop where
  value : u.Covers v u.value
  inputs : ∀ a ∈ u.absorbed, ∀ w ∈ v.graph.inputsOf a, u.Covers v w

theorem Unfolding.Covers.output (hu : u ∈ us) (hw : u.Covers v w) : (Unfolding.output value id e us).Covers v w := by
  rcases hw with hw | hw | ⟨a, ha, hw⟩
  · exact .inl (List.mem_flatMap.2 ⟨u, hu, hw⟩)
  · exact .inr (.inl hw)
  · exact .inr (.inr ⟨a, List.mem_cons_of_mem _ (List.mem_flatMap.2 ⟨u, hu, ha⟩), hw⟩)

theorem complete_output (hop : v.graph.operator? id = some op) (houtputs : op.outputs = [value])
    (hinputs : f.Unfolds op.inputs us) (hcomplete : ∀ u ∈ us, u.Complete v) :
    (Unfolding.output value id e us).Complete v := by
  refine ⟨.inr (.inr ⟨id, List.mem_cons_self .., ?_⟩), fun a ha w hw => ?_⟩
  · rw [Graph.outputsOf_of_operator? hop, houtputs]
    exact List.mem_singleton_self value
  · rcases List.mem_cons.1 ha with rfl | ha
    · rw [Graph.inputsOf_of_operator? hop, ← hinputs.values] at hw
      obtain ⟨u, hu, rfl⟩ := List.mem_map.1 hw
      exact (hcomplete u hu).value.output hu
    · obtain ⟨u, hu, ha⟩ := List.mem_flatMap.1 ha
      exact ((hcomplete u hu).inputs a ha w hw).output hu

theorem Unfolds.complete (hg : v.graph.Indexed) (h : Unfolds v reader u) : u.Complete v := by
  induction h with
  | read reader value => exact ⟨.inl (List.mem_singleton_self value), fun a ha => (by cases ha)⟩
  | constant h => exact ⟨.inr (.inl (Option.isSome_of_eq_some h)), fun a ha => (by cases ha)⟩
  | absorbed h hinputs hus hexpr ih =>
    have habsorb := absorbable_of_eq_some hg h
    exact complete_output habsorb.operator habsorb.outputs hinputs ih
  | refused => exact ⟨.inl (by simp [Unfolding.read]), fun a ha => (by cases ha)⟩

/-- Walking back from the value to where unfolding stopped meets absorbed operators only. -/
theorem Unfolding.Complete.mem_absorbed (hg : v.graph.Indexed) (h : u.Complete v) {start : List NodeId}
    (hreads : u.reads ⊆ start) (hconstants : v.graph.constantIds ⊆ start) {a : NodeId}
    (ha : v.graph.MetOperator start [u.value] a) : a ∈ u.absorbed := by
  have hcomputed {w a : NodeId} (hcovers : u.Covers v w) (hw : w ∉ start) (ha : w ∈ v.graph.outputsOf a) :
      a ∈ u.absorbed := by
    rcases hcovers with hread | hconstant | ⟨a', ha', hw'⟩
    · exact absurd (hreads hread) hw
    · obtain ⟨c, hc⟩ := Option.isSome_iff_exists.1 hconstant
      obtain ⟨t, ht, -⟩ := exists_of_scalarConstant? hc
      exact absurd (hconstants (Graph.mem_constantIds.2 (Option.isSome_of_eq_some ht))) hw
    · exact hg.producer_unique hw' ha ▸ ha'
  have hcovers {w : NodeId} (hw : v.graph.Met start [u.value] w) : u.Covers v w := by
    induction hw with
    | output hw => exact List.mem_singleton.1 hw ▸ h.value
    | input _ hnot hout hin ih => exact h.inputs _ (hcomputed ih hnot hout) _ hin
  obtain ⟨w, hw, hnot, hout⟩ := ha
  exact hcomputed (hcovers hw) hnot hout

section Met

variable {start outputs : List NodeId}

theorem metOperator_output (hop : g.operator? id = some op) (houtputs : op.outputs = [value])
    (hinputs : f.Unfolds op.inputs us)
    (hus : ∀ u ∈ us, (∀ a ∈ u.absorbed, ∀ x ∈ g.outputsOf a, x ∉ start) → g.Met start outputs u.value →
      ∀ a ∈ u.absorbed, g.MetOperator start outputs a)
    (hstart : ∀ a ∈ (Unfolding.output value id e us).absorbed, ∀ x ∈ g.outputsOf a, x ∉ start)
    (hmet : g.Met start outputs value) {a : NodeId} (ha : a ∈ (Unfolding.output value id e us).absorbed) :
    g.MetOperator start outputs a := by
  obtain ⟨hfirst, hrest⟩ := List.forall_mem_cons.1 hstart
  have hvalue : value ∈ g.outputsOf id := by
    rw [Graph.outputsOf_of_operator? hop, houtputs]
    exact List.mem_singleton_self value
  rcases List.mem_cons.1 ha with rfl | ha
  · exact ⟨value, hmet, hfirst value hvalue, hvalue⟩
  · obtain ⟨u, hu, ha⟩ := List.mem_flatMap.1 ha
    refine hus u hu (fun a ha => hrest a (List.mem_flatMap.2 ⟨u, hu, ha⟩)) ?_ a ha
    exact hmet.input (hfirst value hvalue) hvalue (hinputs.mem_inputsOf hop hu)

/-- Walking back from the value meets the absorbed operators, unless it stops at what they compute. -/
theorem Unfolds.metOperator (hg : v.graph.Indexed) (h : Unfolds v reader u)
    (hstart : ∀ a ∈ u.absorbed, ∀ x ∈ v.graph.outputsOf a, x ∉ start) (hmet : v.graph.Met start outputs u.value)
    {a : NodeId} (ha : a ∈ u.absorbed) : v.graph.MetOperator start outputs a := by
  induction h generalizing a with
  | read | constant | refused => cases ha
  | absorbed h hinputs hus hexpr ih =>
    have habsorb := absorbable_of_eq_some hg h
    exact metOperator_output habsorb.operator habsorb.outputs hinputs (fun u hu hstart hmet a => ih u hu hstart hmet)
      hstart hmet ha

end Met

/-! ## Chains -/

namespace Chain

variable (c : Chain v id op)

theorem mem_sources (hx : x ∈ c.unfolding.reads) : x ∈ c.fusion.sources :=
  Fusion.mem_sources.2 ((c.mem_inputs x).2 hx)

theorem reads_of_mem_inputs (hx : x ∈ c.fusion.inputs) : x ∈ c.unfolding.reads := (c.mem_inputs x).1 hx

theorem isFloat (hg : v.graph.Indexed) (hx : x ∈ c.inputs) : v.isFloat x = true := by
  obtain ⟨u, hu, hx⟩ := List.mem_flatMap.1 ((c.mem_inputs x).1 hx)
  refine (c.args_unfolds u hu).isFloat hg (c.isFloat_input _ ?_) hx
  exact c.args_inputs.values ▸ List.mem_map_of_mem hu

theorem exists_operator (hg : v.graph.Indexed) (hop : v.graph.operator? id = some op) {a : NodeId}
    (ha : a ∈ c.unfolding.absorbed) : ∃ node f value, v.graph.operator? a = some node ∧ node.outputs = [value] ∧
      Fusable.ofOperator? node.op = some f := by
  rcases List.mem_cons.1 ha with rfl | ha
  · exact ⟨op, c.root, c.output, hop, c.outputs, c.fusable⟩
  · obtain ⟨u, hu, ha⟩ := List.mem_flatMap.1 ha
    obtain ⟨value, _, node, f, habsorb⟩ := (c.args_unfolds u hu).exists_absorbable hg ha
    exact ⟨node, f, value, habsorb.operator, habsorb.outputs, habsorb.fusable⟩

/-- No operator is absorbed twice, and no output of an absorbed one is read. -/
theorem apart (hg : v.graph.Indexed) (hacyclic : v.graph.Acyclic) (hop : v.graph.operator? id = some op) :
    c.unfolding.Apart v.graph :=
  apart_output hg hacyclic hop c.outputs c.args_inputs c.args_unfolds fun u hu =>
    (c.args_unfolds u hu).apart hg hacyclic

theorem complete (hg : v.graph.Indexed) (hop : v.graph.operator? id = some op) : c.unfolding.Complete v :=
  complete_output hop c.outputs c.args_inputs fun u hu => (c.args_unfolds u hu).complete hg

variable {removed : List NodeId}

theorem mem_absorbed_of_metOperator (hg : v.graph.Indexed) (hop : v.graph.operator? id = some op) {a : NodeId}
    (ha : v.graph.MetOperator (c.fusion.sources ++ v.graph.constantIds) c.fusion.outputs a) :
    a ∈ c.unfolding.absorbed :=
  (c.complete hg hop).mem_absorbed hg (fun _ hx => List.mem_append_left _ (c.mem_sources hx))
    (List.subset_append_right _ _) ha

/-- The fusion replaces the operators of the chain. -/
theorem mem_removed (hg : v.graph.Indexed) (hformed : v.graph.WellFormed) (hacyclic : v.graph.Acyclic)
    (hop : v.graph.operator? id = some op) (hcheck : c.fusion.Checked v.graph removed) {a : NodeId} :
    a ∈ removed ↔ a ∈ c.unfolding.absorbed := by
  rw [(hcheck.plans hg).mem_iff]
  refine ⟨c.mem_absorbed_of_metOperator hg hop, fun ha => ?_⟩
  refine metOperator_output hop c.outputs c.args_inputs
    (fun u hu hstart hmet a => (c.args_unfolds u hu).metOperator hg hstart hmet) (fun a ha x hx hmem => ?_)
    (.output (List.mem_singleton_self c.output)) ha
  rcases List.mem_append.1 hmem with hmem | hmem
  · exact (c.apart hg hacyclic hop).not_read a ha x hx (c.reads_of_mem_inputs (Fusion.mem_sources.1 hmem))
  · obtain ⟨y, hy⟩ := Option.isSome_iff_exists.1 (Graph.mem_constantIds.1 hmem)
    simpa [Graph.isValue_of_constant? hy] using ((Graph.wellFormed_iff hg).1 hformed).2.1 a x hx

/-- The output depends on what the fusion reads. -/
theorem path (hg : v.graph.Indexed) (hop : v.graph.operator? id = some op) (hx : x ∈ c.fusion.inputs) :
    TransGen v.graph.Computes x c.output := by
  obtain ⟨u, hu, hx⟩ := List.mem_flatMap.1 (c.reads_of_mem_inputs hx)
  exact computes_of_meets hg hop c.outputs c.args_inputs c.args_unfolds hu (.inl hx)

end Chain

/-! ## Rules that fuse chains -/

theorem Chain.fits {v : RewriteView} {id : NodeId} {op : OperatorNode} (c : Chain v id op) (hg : v.graph.Indexed)
    (hformed : v.graph.WellFormed) (hacyclic : v.graph.Acyclic) (hop : v.graph.operator? id = some op) :
    c.fusion.Fits v.graph := by
  refine ⟨fun w hw => ?_, fun x hx w hw => ?_, fun a ha x hx hmem => ?_⟩
  · exact hformed.produces id op hop w (c.outputs ▸ hw)
  · exact List.mem_singleton.1 hw ▸ c.path hg hop hx
  · exact (c.apart hg hacyclic hop).not_read a (c.mem_absorbed_of_metOperator hg hop ha) x hmem
      (c.reads_of_mem_inputs hx)

theorem elementwiseFusion_fits : elementwiseFusion.Fits := by
  intro v id op r h hop hr
  obtain ⟨c, rfl⟩ := elementwiseFusion_proposes hr
  exact c.fits h.indexed h.formed h.acyclic hop

/-- The same operator with another way to run. -/
theorem inPlaceElementwise_fits : inPlaceElementwise.Fits := by
  intro v id op r _ _ hr
  obtain ⟨output, variant, value, -, -, -, -, rfl⟩ := inPlaceElementwise_proposes hr
  trivial

/-! ## A chain with a constant -/

/-- The product of an input and the successor of another one. -/
def shiftedProduct : Graph :=
  let values := ["x", "b", "s", "y"].foldl (fun g name => (g.addValue name none none).1) Graph.empty
  let constants := (values.addConstant (some "one") (.floats (.scalar .one))).1
  let shifted := (constants.addOperator "shift" (.elementwise { fn := .add }) [0, 4] [2]).1
  ((shifted.addOperator "multiply" (.elementwise { fn := .mul }) [2, 1] [3]).1.setInputs [0, 1]).setOutputs [3]

def shiftedProductFacts : InferredFacts where
  types := ⟨[0, 1, 2, 3, 4].map (·, .float32)⟩

/-- The last operator. -/
def shiftedProductRoot : OperatorNode where
  name := some "multiply"
  inputs := [2, 1]
  outputs := [3]
  op := .elementwise { fn := .mul }

def shiftedProductFusion : Fusion where
  name := some "multiply"
  op := .fused (.ofExpr (.binary .mul (.binary .add (.input 0) (.constant .one)) (.input 1)))
  inputs := [0, 1]
  outputs := [3]

theorem indexed_shiftedProduct : shiftedProduct.Indexed := by
  refine .setOutputs (.setInputs (.addOperator _ _ _ _ (.addOperator _ _ _ _ (.addConstant ?_ _ _) ?_) ?_) _) _
  · exact Graph.indexed_empty.addValue .. |>.addValue .. |>.addValue .. |>.addValue ..
  all_goals decide

theorem validate_shiftedProduct : shiftedProduct.validate = .ok () := by decide +kernel

theorem operator?_shiftedProduct : shiftedProduct.operator? 6 = some shiftedProductRoot := rfl

theorem propose_shiftedProduct : elementwiseFusion.propose
    { graph := shiftedProduct, facts := shiftedProductFacts } 6 shiftedProductRoot =
      .rewrite (.fuse shiftedProductFusion) := rfl

theorem mergeSort_shiftedProduct : shiftedProductFusion.inputs.mergeSort = [0, 1] :=
  List.mergeSort_of_pairwise (by decide)

theorem check_shiftedProduct : (Rewrite.fuse shiftedProductFusion).check shiftedProduct = .ok [5, 6] := by
  rw [Rewrite.check, Fusion.check, mergeSort_shiftedProduct]
  rfl

end Rules

end TensorGraph
