import TensorGraph.Proofs.Graph.Changes
import TensorGraph.Proofs.Graph.Validity
import TensorGraph.Rewrite.Admission

/-!
# Aliases

An alias replaces values by others, one after the other. Operators then read what the values are redirected to, and
produce what they produced before.
-/

namespace TensorGraph

/-- The value that is read after all pairs of an alias took effect. -/
def redirectAll (pairs : List (NodeId × NodeId)) (v : NodeId) : NodeId :=
  pairs.foldl (fun v pair => Graph.redirect pair.1 pair.2 v) v

theorem redirectAll_cons (pair : NodeId × NodeId) (pairs : List (NodeId × NodeId)) (v : NodeId) :
    redirectAll (pair :: pairs) v = redirectAll pairs (Graph.redirect pair.1 pair.2 v) := rfl

/-- What carries over from the first value of each pair to the second one carries over to what is read in the end. -/
theorem redirectAll_induction {P : NodeId → Prop} {pairs : List (NodeId × NodeId)}
    (h : ∀ pair ∈ pairs, P pair.1 → P pair.2) {v : NodeId} (hv : P v) : P (redirectAll pairs v) := by
  induction pairs generalizing v with
  | nil => exact hv
  | cons pair pairs ih =>
    obtain ⟨hpair, hpairs⟩ := List.forall_mem_cons.1 h
    rw [redirectAll_cons]
    apply ih hpairs
    by_cases heq : v = pair.1
    · subst heq
      rw [Graph.redirect, if_pos rfl]
      exact hpair hv
    · rwa [Graph.redirect, if_neg heq]

namespace Graph

variable {g : Graph} {pairs : List (NodeId × NodeId)}

/-- Replaces the first value of each pair by the second one. -/
def replaceValues (g : Graph) (pairs : List (NodeId × NodeId)) : Graph :=
  pairs.foldl (fun g (old, new) => g.replaceValue old new) g

theorem Indexed.replaceValues (hg : g.Indexed) (pairs : List (NodeId × NodeId)) : (g.replaceValues pairs).Indexed := by
  induction pairs generalizing g with
  | nil => exact hg
  | cons pair pairs ih => exact ih (hg.replaceValue pair.1 pair.2)

theorem inputsOf_replaceValues (hg : g.Indexed) (pairs : List (NodeId × NodeId)) (id : NodeId) :
    (g.replaceValues pairs).inputsOf id = (g.inputsOf id).map (redirectAll pairs) := by
  induction pairs generalizing g with
  | nil => exact (List.map_id _).symm
  | cons pair pairs ih =>
    refine (ih (hg.replaceValue pair.1 pair.2)).trans ?_
    rw [inputsOf_replaceValue _ _ hg, List.map_map]
    rfl

theorem outputsOf_replaceValues (hg : g.Indexed) (pairs : List (NodeId × NodeId)) (id : NodeId) :
    (g.replaceValues pairs).outputsOf id = g.outputsOf id := by
  induction pairs generalizing g with
  | nil => rfl
  | cons pair pairs ih => exact (ih (hg.replaceValue pair.1 pair.2)).trans (outputsOf_replaceValue _ _ hg id)

theorem readable?_replaceValues (g : Graph) (pairs : List (NodeId × NodeId)) (id : NodeId) :
    (g.replaceValues pairs).readable? id = g.readable? id := by
  induction pairs generalizing g with
  | nil => rfl
  | cons pair pairs ih => exact (ih _).trans (readable?_replaceValue g pair.1 pair.2 id)

theorem inputIds_replaceValues (g : Graph) (pairs : List (NodeId × NodeId)) :
    (g.replaceValues pairs).inputIds = g.inputIds := by
  induction pairs generalizing g with
  | nil => rfl
  | cons pair pairs ih => exact (ih _).trans (inputIds_replaceValue g pair.1 pair.2)

theorem outputIds_replaceValues (g : Graph) (pairs : List (NodeId × NodeId)) :
    (g.replaceValues pairs).outputIds = g.outputIds.map (redirectAll pairs) := by
  induction pairs generalizing g with
  | nil => exact (List.map_id _).symm
  | cons pair pairs ih =>
    refine (ih _).trans ?_
    rw [outputIds_replaceValue, List.map_map]
    rfl

theorem computes_replaceValues (hg : g.Indexed) (pairs : List (NodeId × NodeId)) (v w : NodeId) :
    (g.replaceValues pairs).Computes v w ↔ ∃ u, redirectAll pairs u = v ∧ g.Computes u w := by
  simp only [Computes, inputsOf_replaceValues hg, outputsOf_replaceValues hg, List.mem_map]
  constructor
  · rintro ⟨id, ⟨u, hu, heq⟩, hw⟩
    exact ⟨u, heq, id, hu, hw⟩
  · rintro ⟨u, heq, id, hu, hw⟩
    exact ⟨id, ⟨u, hu, heq⟩, hw⟩

end Graph

namespace Rewrite

variable {g : Graph} {pairs : List (NodeId × NodeId)}

/-! ## Checked pairs -/

theorem checkAlias_eq_ok {outputs outputs' : List NodeId} {old new : NodeId} :
    checkAlias g outputs (old, new) = .ok outputs' ↔ old ≠ new ∧ g.isReadable old = true ∧ g.isReadable new = true ∧
      old ∉ g.inputIds ∧ (old ∈ outputs → new ∉ outputs) ∧ outputs' = outputs.map (Graph.redirect old new) := by
  unfold checkAlias
  by_cases hsame : old = new
  · simp [hsame, throw, throwThe, MonadExceptOf.throw, bind, Except.bind]
  cases hold : g.isReadable old with
  | false => simp [hsame, hold, throw, throwThe, MonadExceptOf.throw, bind, Except.bind]
  | true =>
    cases hnew : g.isReadable new with
    | false => simp [hsame, hold, hnew, throw, throwThe, MonadExceptOf.throw, bind, Except.bind]
    | true =>
      by_cases hinput : old ∈ g.inputIds
      · simp [hsame, hold, hnew, hinput, throw, throwThe, MonadExceptOf.throw, bind, Except.bind]
      · by_cases hboth : old ∈ outputs ∧ new ∈ outputs
        · simp [hsame, hold, hnew, hinput, hboth, throw, throwThe, MonadExceptOf.throw, bind, Except.bind]
        · have hone : old ∈ outputs → new ∉ outputs := not_and.1 hboth
          simp only [hsame, hold, hnew, hinput, hboth, List.contains_eq_mem, Bool.and_eq_true, decide_eq_true_eq]
          simp only [not_false_eq_true, true_and, ne_eq]
          exact ⟨fun h => ⟨hsame, hone, (Except.ok.inj h).symm⟩, fun h => congrArg Except.ok h.2.2.symm⟩

theorem isReadable_redirectAll {outputs outputs' : List NodeId} (h : pairs.foldlM (checkAlias g) outputs = .ok outputs')
    {v : NodeId} (hv : g.isReadable v = true) : g.isReadable (redirectAll pairs v) = true := by
  induction pairs generalizing outputs v with
  | nil => exact hv
  | cons pair pairs ih =>
    obtain ⟨next, hnext, h⟩ := bind_eq_ok.1 h
    obtain ⟨-, -, hnew, -⟩ := checkAlias_eq_ok.1 hnext
    rw [redirectAll_cons]
    refine ih h ?_
    unfold Graph.redirect
    split
    · exact hnew
    · exact hv

/-- An alias that passes its check keeps a graph well-formed. -/
theorem wellFormed_replaceValues (hg : g.Indexed) (hformed : g.WellFormed) {outputs : List NodeId}
    (h : pairs.foldlM (checkAlias g) g.outputIds = .ok outputs) : (g.replaceValues pairs).WellFormed := by
  obtain ⟨hreads, hproduces, hnodup, hinputs, houtputs⟩ := (Graph.wellFormed_iff hg).1 hformed
  rw [Graph.wellFormed_iff (hg.replaceValues pairs)]
  simp only [Graph.isReadable_eq, Graph.isValue_eq, Graph.inputsOf_replaceValues hg, Graph.outputsOf_replaceValues hg,
    Graph.readable?_replaceValues, Graph.inputIds_replaceValues, Graph.outputIds_replaceValues]
  simp only [← Graph.isReadable_eq, ← Graph.isValue_eq, List.forall_mem_map]
  exact ⟨fun id v hv => isReadable_redirectAll h (hreads id v hv), hproduces, hnodup, hinputs,
    fun v hv => isReadable_redirectAll h (houtputs v hv)⟩

end Rewrite

end TensorGraph
