import TensorGraph.Graph.Plan
import TensorGraph.Proofs.Sequence

/-!
# The order of execution plans

The operators of an execution plan are `Ordered`: each reads values that are available from the start
or that operators before it produce.
-/

namespace TensorGraph.Graph

/-- Each operator reads values that are available or that operators before it produce. -/
def Ordered (g : Graph) (available : List NodeId) : List NodeId → Prop
  | [] => True
  | id :: ids => g.inputsOf id ⊆ available ∧ g.Ordered (available ++ g.outputsOf id) ids

variable {g : Graph} {start : List NodeId}

theorem ordered_concat {available ids : List NodeId} {id : NodeId} (h : g.Ordered available ids)
    (hid : g.inputsOf id ⊆ available ++ ids.flatMap g.outputsOf) : g.Ordered available (ids ++ [id]) := by
  induction ids generalizing available with
  | nil => exact ⟨by simpa using hid, trivial⟩
  | cons a ids ih => exact ⟨h.1, ih h.2 (by simpa [List.append_assoc] using hid)⟩

/-! ## Schedules -/

/-- What was chosen is ordered, and what could be chosen next finds its inputs. -/
structure Schedule.Sound (g : Graph) (start : List NodeId) (s : Schedule) : Prop where
  ordered : g.Ordered start s.chosen
  available : s.available = start ++ s.chosen.flatMap g.outputsOf
  ready : ∀ id ∈ s.frontier, g.inputsOf id ⊆ s.available

theorem Schedule.Sound.offer {s : Schedule} (h : s.Sound g start) (id : NodeId) :
    (s.offer g id).Sound g start := by
  unfold Schedule.offer
  split
  · exact h
  · split
    · next hall =>
      refine ⟨h.ordered, h.available, fun id' hid' => ?_⟩
      rcases List.mem_append.1 hid' with hid' | hid'
      · exact h.ready id' hid'
      · rw [List.mem_singleton.1 hid']
        intro value hvalue
        simpa using List.all_eq_true.1 hall value hvalue
    · exact h

theorem Schedule.Sound.choose {s : Schedule} (h : s.Sound g start) (plan : List NodeId) {id : NodeId}
    (hid : id ∈ s.frontier) : (s.choose g plan id).Sound g start := by
  have hnext : Schedule.Sound g start
      { frontier := s.frontier.erase id, available := s.available ++ g.outputsOf id,
        chosen := s.chosen ++ [id] } := by
    refine ⟨ordered_concat h.ordered (h.available ▸ h.ready id hid), ?_, fun id' hid' => ?_⟩
    · simp [h.available]
    · exact fun value hvalue => List.mem_append_left _ (h.ready id' (List.mem_of_mem_erase hid') hvalue)
  unfold Schedule.choose
  dsimp only
  generalize (g.outputsOf id).flatMap _ = dependents
  generalize ({ frontier := _, available := _, chosen := _ } : Schedule) = next at hnext
  induction dependents generalizing next with
  | nil => exact hnext
  | cons a dependents ih => exact ih _ (hnext.offer a)

/-- The operator that is chosen next is one of those that could be. -/
theorem next_mem_frontier {s : Schedule} {first : NodeId} {others : List NodeId}
    (hfrontier : s.frontier = first :: others) :
    (s.frontier.find? fun id => !g.mayOverwrite id).getD first ∈ s.frontier := by
  cases hfind : s.frontier.find? fun id => !g.mayOverwrite id with
  | none => simp [hfrontier]
  | some id => exact List.mem_of_find?_eq_some hfind

theorem Schedule.Sound.run {s : Schedule} (h : s.Sound g start) (plan : List NodeId) (fuel : Nat) :
    g.Ordered start (Schedule.run g plan fuel s) := by
  induction fuel generalizing s with
  | zero => exact h.ordered
  | succ fuel ih =>
    rw [Schedule.run]
    split
    · exact h.ordered
    · next first others hfrontier => exact ih (h.choose plan (next_mem_frontier hfrontier))

theorem ordered_schedule (g : Graph) (available plan : List NodeId) :
    g.Ordered available (g.schedule available plan) := by
  have hstart : Schedule.Sound g available
      { frontier := plan.filter fun id => (g.inputsOf id).all available.contains, available } := by
    refine ⟨trivial, by simp, fun id hid value hvalue => ?_⟩
    simpa using List.all_eq_true.1 (List.mem_filter.1 hid).2 value hvalue
  exact hstart.run plan plan.length

/-! ## Execution plans -/

theorem firstDuplicate?_eq_none {ids : List NodeId} : firstDuplicate? ids = none ↔ ids.Nodup := by
  induction ids with
  | nil => simp [firstDuplicate?]
  | cons a ids ih => by_cases h : a ∈ ids <;> simp [firstDuplicate?, h, ih]

theorem mem_of_firstDuplicate? {ids : List NodeId} {id : NodeId} (hdup : firstDuplicate? ids = some id) : id ∈ ids := by
  induction ids with
  | nil => cases hdup
  | cons a ids ih =>
    rw [firstDuplicate?] at hdup
    split at hdup
    · cases hdup
      exact List.mem_cons_self ..
    · exact List.mem_cons_of_mem _ (ih hdup)

theorem checkListed_eq_ok (ids : List NodeId) (twice : String → PlanningFault)
    (notReadable : Nat → String → PlanningFault) :
    g.checkListed ids twice notReadable = .ok () ↔ ids.Nodup ∧ ∀ id ∈ ids, g.isReadable id = true := by
  rw [← firstDuplicate?_eq_none, checkListed]
  cases hdup : firstDuplicate? ids with
  | some id => simp
  | none =>
    have hfst : (∀ id ∈ ids, g.isReadable id = true) ↔ ∀ a ∈ ids.zipIdx, g.isReadable a.1 = true := by
      have h := List.forall_mem_map (l := ids.zipIdx) (f := Prod.fst) (P := fun id => g.isReadable id = true)
      rwa [List.zipIdx_map_fst] at h
    simp only [forM_eq_ok, hfst, true_and]
    refine forall₂_congr fun a _ => ?_
    cases g.isReadable a.1 <;> simp

theorem executionPlan_eq_ok {inputs outputs plan : List NodeId} :
    g.executionPlan inputs outputs = .ok plan ↔
      (outputs.Nodup ∧ ∀ id ∈ outputs, g.isReadable id = true) ∧
      (inputs.Nodup ∧ ∀ id ∈ inputs, g.isReadable id = true) ∧
      ∃ operators, g.dependencyPlan (inputs ++ g.constantIds) outputs = .ok operators ∧
        plan = g.schedule (inputs ++ g.constantIds) operators := by
  rw [← checkListed_eq_ok outputs .duplicateOutput .outputNotReadable,
    ← checkListed_eq_ok inputs .duplicateInput .inputNotReadable]
  constructor
  · intro h
    obtain ⟨⟨⟩, hout, h⟩ := bind_eq_ok.1 h
    obtain ⟨⟨⟩, hin, h⟩ := bind_eq_ok.1 h
    obtain ⟨operators, hops, h⟩ := bind_eq_ok.1 h
    cases h
    exact ⟨hout, hin, operators, hops, rfl⟩
  · rintro ⟨hout, hin, operators, hops, rfl⟩
    unfold executionPlan
    simp only [hout, hin, hops, bind, Except.bind]
    rfl

theorem ordered_executionPlan {inputs outputs plan : List NodeId}
    (h : g.executionPlan inputs outputs = .ok plan) : g.Ordered (inputs ++ g.constantIds) plan := by
  obtain ⟨-, -, operators, -, rfl⟩ := executionPlan_eq_ok.1 h
  exact ordered_schedule ..

end TensorGraph.Graph
