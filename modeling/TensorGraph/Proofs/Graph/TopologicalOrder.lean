import Mathlib
import TensorGraph.Proofs.Graph.Scheduling
import TensorGraph.Proofs.Graph.Sorting

/-!
# What sorting returns

Sorting takes exactly the operators that depend on no operator which depends on itself (`Sorts.mem_taken_iff`), each
after those that it depends on. If it takes all operators, the order is a list of them in which each stands after the
producers of its inputs, and otherwise the fault names the first of the others (`topologicalOrder_exact`).
-/

namespace TensorGraph.Graph

open Relation

variable {g : Graph} {taken ready : List NodeId} {pending : IdMap Nat} {id : NodeId}

/-- Whether an operator depends on itself, or on one that does. -/
def Stuck (g : Graph) (id : NodeId) : Prop :=
  ∃ other, ReflTransGen g.DependsOn id other ∧ TransGen g.DependsOn other other

/-! ## Dependence -/

theorem isSome_operator?_of_dependsOn {other : NodeId} (h : g.DependsOn id other) :
    (g.operator? id).isSome ∧ (g.operator? other).isSome := by
  obtain ⟨v, hv, hout⟩ := h
  exact ⟨isSome_operator?_of_mem_inputsOf hv, isSome_operator?_of_mem_outputsOf hout⟩

theorem missing_eq_zero_iff_dependsOn (hg : g.Indexed) :
    g.missing taken id = 0 ↔ ∀ other, g.DependsOn id other → other ∈ taken := by
  rw [missing_eq_zero hg]
  constructor
  · rintro h other ⟨v, hv, hout⟩
    exact h v hv other hout
  · exact fun h v hv source hout => h source ⟨v, hv, hout⟩

theorem Stuck.isSome_operator? (h : g.Stuck id) : (g.operator? id).isSome := by
  obtain ⟨other, hpath, hcycle⟩ := h
  obtain ⟨next, hnext, -⟩ := TransGen.head'_iff.1 (TransGen.trans_right hpath hcycle)
  exact (isSome_operator?_of_dependsOn hnext).1

/-- An operator that depends on none that depends on itself stands above finitely many others. -/
theorem wellFounded_notStuck (g : Graph) : WellFounded fun other id => g.DependsOn id other ∧ ¬g.Stuck id := by
  refine wellFounded_of_not_transGen g.operatorIds (fun other id h => ?_) fun id hcycle => ?_
  · exact mem_operatorIds.2 (isSome_operator?_of_dependsOn h.1).1
  · obtain ⟨_, -, -, hfree⟩ := TransGen.tail'_iff.1 hcycle
    exact hfree ⟨id, .refl, transGen_swap.1 (TransGen.mono (fun _ _ h => h.1) _ _ hcycle)⟩

/-! ## Operators that are taken -/

/-- An operator that was taken depends on operators that were taken. -/
theorem Sorts.mem_taken_of_path (hg : g.Indexed) (h : g.Sorts taken [] pending) {other : NodeId}
    (hpath : ReflTransGen g.DependsOn id other) (hid : id ∈ taken) : other ∈ taken := by
  induction hpath with
  | refl => exact hid
  | tail _ hdepends ih =>
    have hzero := ((h.mem_iff _).1 (List.mem_append_left _ ih)).2
    exact (missing_eq_zero_iff_dependsOn hg).1 hzero _ hdepends

/-- Once nothing more can be taken, the operators were taken that are not stuck. -/
theorem Sorts.mem_taken_iff (hg : g.Indexed) (h : g.Sorts taken [] pending) :
    id ∈ taken ↔ (g.operator? id).isSome ∧ ¬g.Stuck id := by
  have hmem (id : NodeId) : id ∈ taken ↔ (g.operator? id).isSome ∧ g.missing taken id = 0 := by
    simpa using h.mem_iff id
  constructor
  · rintro hid
    refine ⟨((hmem id).1 hid).1, fun ⟨other, hpath, hcycle⟩ => ?_⟩
    obtain ⟨v, hv, hloop⟩ := exists_cycle_of_dependsOn hcycle
    exact not_transGen_of_acc (h.founded other (h.mem_taken_of_path hg hpath hid) v hv) hloop
  · rintro ⟨hsome, hfree⟩
    -- By induction, all that the operator depends on was taken, as it is not stuck either.
    induction id using (wellFounded_notStuck g).induction with
    | _ id ih =>
      refine (hmem id).2 ⟨hsome, (missing_eq_zero_iff_dependsOn hg).2 fun other hdepends => ?_⟩
      refine ih other ⟨hdepends, hfree⟩ (isSome_operator?_of_dependsOn hdepends).2 ?_
      rintro ⟨last, hpath, hcycle⟩
      exact hfree ⟨last, .head hdepends hpath, hcycle⟩

/-- Counts are left for the operators that are stuck. -/
theorem Sorts.mem_pending_iff (hg : g.Indexed) (h : g.Sorts taken [] pending) :
    id ∈ pending.entries.map (·.1) ↔ g.Stuck id := by
  have hcount : id ∈ pending.entries.map (·.1) ↔ g.missing taken id ≠ 0 := by
    rw [IdMap.mem_keys, h.pending]
    split <;> simp [*]
  have hmem : id ∈ taken ↔ (g.operator? id).isSome ∧ ¬g.Stuck id := h.mem_taken_iff hg
  rw [← List.append_nil taken, h.mem_iff] at hmem
  rw [hcount]
  constructor
  · intro hne
    have hsome := isSome_operator?_of_missing hne
    simpa [hne, hsome] using hmem
  · intro hstuck hzero
    exact (hmem.1 ⟨hstuck.isSome_operator?, hzero⟩).2 hstuck

/-- Each operator stands after those that it depends on. -/
theorem Sorts.missing_before (hg : g.Indexed) (hnodup : ∀ id, (g.outputsOf id).Nodup)
    (h : g.Sorts taken ready pending) {fuel : Nat} {before after : List NodeId}
    (hsplit : (g.sortReady fuel ready pending).1 = before ++ id :: after) :
    g.missing (before.reverse ++ taken) id = 0 := by
  induction fuel generalizing taken ready pending before with
  | zero => simp [Graph.sortReady] at hsplit
  | succ fuel ih =>
    cases ready with
    | nil => simp [Graph.sortReady] at hsplit
    | cons first ready =>
      cases before with
      | nil =>
        obtain ⟨heq, -⟩ := List.cons.inj hsplit
        exact ((h.mem_iff id).1 (by simp [heq])).2
      | cons a before =>
        obtain ⟨rfl, htail⟩ := List.cons.inj hsplit
        have hnext := ih (h.take hg hnodup) htail
        simpa using hnext

/-! ## Orders -/

/-- Sorting succeeds exactly if no operator depends on itself. It then lists every operator once, after the producers
of all its inputs. Otherwise the fault names the first operator that depends on itself or on one that does. -/
theorem topologicalOrder_exact (g : Graph) (hg : g.Indexed) (honce : (g.operatorIds.flatMap g.outputsOf).Nodup) :
    ((∃ order, g.topologicalOrder = .ok order) ↔ ∀ id, ¬TransGen g.DependsOn id id) ∧
    (∀ order, g.topologicalOrder = .ok order → order.Perm g.operatorIds ∧
      ∀ before id after, order = before ++ id :: after → ∀ other, g.DependsOn id other → other ∈ before) ∧
    ∀ fault, g.topologicalOrder = .error fault →
      ∃ id, fault = .cycle (g.nodeName id) ∧ g.Stuck id ∧ ∀ id', g.Stuck id' → id ≤ id' := by
  have hnodup (id : NodeId) : (g.outputsOf id).Nodup := by
    cases hop : g.operator? id with
    | none => simp [outputsOf, hop]
    | some op => exact (List.nodup_flatMap.1 honce).1 id (mem_operatorIds.2 (by simp [hop]))
  have hsorts := (sorts_start g).sortReady hg hnodup (Nat.zero_add g.operatorCount)
  have hbefore {before after : List NodeId} {id : NodeId}
      (hsplit : (g.sortReady g.operatorCount _ _).1 = before ++ id :: after) :=
    (sorts_start g).missing_before hg hnodup hsplit
  have hexists := exists_topologicalOrder hg hnodup
  rw [acyclic_iff_not_dependsOn] at hexists
  refine ⟨hexists, ?_⟩
  unfold topologicalOrder at hexists ⊢
  dsimp only at hexists ⊢
  generalize g.sortReady _ _ _ = sorted at *
  obtain ⟨order, pending⟩ := sorted
  dsimp only at hsorts hbefore hexists ⊢
  cases hmin : (pending.entries.map (·.1)).min? with
  | none =>
    rw [hmin] at hexists
    have hacyclic := hexists.1 ⟨order, rfl⟩
    have hfree (id : NodeId) : ¬g.Stuck id := by
      rintro ⟨other, -, hcycle⟩
      exact hacyclic other hcycle
    refine ⟨fun order' horder => ?_, fun fault hfault => ?_⟩
    case refine_2 => cases hfault
    obtain rfl := Except.ok.inj horder
    have hmem (id : NodeId) : id ∈ order ↔ id ∈ g.operatorIds := by
      rw [← List.mem_reverse, ← List.append_nil order.reverse, hsorts.mem_taken_iff hg, mem_operatorIds]
      exact and_iff_left (hfree id)
    have hnodupOrder : order.Nodup := by simpa using hsorts.nodup
    refine ⟨(List.perm_ext_iff_of_nodup hnodupOrder (nodup_operatorIds g)).2 hmem, ?_⟩
    intro before id after hsplit other hdepends
    have hzero := hbefore hsplit
    simpa using (missing_eq_zero_iff_dependsOn hg).1 hzero other hdepends
  | some first =>
    refine ⟨fun order' horder => ?_, fun fault hfault => ⟨first, (Except.error.inj hfault).symm, ?_⟩⟩
    case refine_1 => cases horder
    obtain ⟨hfirst, hleast⟩ := List.min?_eq_some_iff.1 hmin
    exact ⟨(hsorts.mem_pending_iff hg).1 hfirst, fun id' hid' => hleast id' ((hsorts.mem_pending_iff hg).2 hid')⟩

/-- The twin comes first, and both operators that read its outputs come before the addition. -/
theorem topologicalOrder_forked : forked.Indexed ∧ (forked.operatorIds.flatMap forked.outputsOf).Nodup ∧
    forked.topologicalOrder = .ok [6, 7, 8, 9] ∧ ∀ id, ¬TransGen forked.DependsOn id id := by
  have honce : (forked.operatorIds.flatMap forked.outputsOf).Nodup := by decide
  have horder : forked.topologicalOrder = .ok [6, 7, 8, 9] := by cbv
  exact ⟨indexed_forked, honce, horder, (topologicalOrder_exact forked indexed_forked honce).1.1 ⟨_, horder⟩⟩

/-- Two negations that read each other's output, and a third one that reads an output of theirs. -/
def entangled : Graph :=
  let values := ["x", "y", "z"].foldl (fun g name => (g.addValue name none none).1) Graph.empty
  let outside := (values.addOperator "outside" (.elementwise { fn := .neg }) [1] [0]).1
  let first := (outside.addOperator "first" (.elementwise { fn := .neg }) [1] [2]).1
  (first.addOperator "second" (.elementwise { fn := .neg }) [2] [1]).1

/-- The operator that the fault names need not depend on itself. -/
example : entangled.topologicalOrder = .error (.cycle "outside") := by cbv

end TensorGraph.Graph
