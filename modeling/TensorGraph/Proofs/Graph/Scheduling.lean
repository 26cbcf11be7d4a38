import Mathlib.Data.List.Induction
import TensorGraph.Proofs.Graph.Trace

/-!
# Plans after they are reordered

Scheduling prefers operators that cannot overwrite an input. It loses no operator and takes none twice
(`schedule_perm`), so that an execution plan is what the trace of the outputs asks for
(`executionPlan_spec`, `exists_executionPlan`).
-/

namespace TensorGraph.Graph

variable {g : Graph} {start plan : List NodeId} {s : Schedule} {id : NodeId}

/-- What was chosen or could be chosen next: operators of the plan, each once, and all of those that find their
inputs. -/
structure Schedule.Fair (g : Graph) (plan : List NodeId) (s : Schedule) : Prop where
  nodup : (s.frontier ++ s.chosen).Nodup
  planned : s.frontier ++ s.chosen ⊆ plan
  complete : ∀ id ∈ plan, g.inputsOf id ⊆ s.available → id ∈ s.frontier ++ s.chosen

/-! ## Offered operators -/

theorem all_contains {ids available : List NodeId} : ids.all available.contains = true ↔ ids ⊆ available := by
  simp [List.all_eq_true, List.subset_def]

theorem available_offer (s : Schedule) (id : NodeId) : (s.offer g id).available = s.available := by
  unfold Schedule.offer
  split
  · rfl
  · split <;> rfl

theorem available_offerAll (s : Schedule) (ids : List NodeId) :
    (ids.foldl (Schedule.offer g) s).available = s.available := by
  induction ids generalizing s with
  | nil => rfl
  | cons a ids ih => rw [List.foldl_cons, ih, available_offer]

theorem subset_offer (s : Schedule) (id : NodeId) :
    s.frontier ++ s.chosen ⊆ (s.offer g id).frontier ++ (s.offer g id).chosen := by
  unfold Schedule.offer
  split
  · exact List.Subset.refl _
  · split
    · intro a ha
      simp only [List.mem_append] at ha ⊢
      tauto
    · exact List.Subset.refl _

theorem subset_offerAll (s : Schedule) (ids : List NodeId) :
    s.frontier ++ s.chosen ⊆ (ids.foldl (Schedule.offer g) s).frontier ++ (ids.foldl (Schedule.offer g) s).chosen := by
  induction ids generalizing s with
  | nil => exact List.Subset.refl _
  | cons a ids ih => exact List.Subset.trans (subset_offer s a) (ih _)

/-- An operator that is offered when it finds its inputs can be chosen. -/
theorem mem_offerAll {ids : List NodeId} (hid : id ∈ ids) (hinputs : g.inputsOf id ⊆ s.available) :
    id ∈ (ids.foldl (Schedule.offer g) s).frontier ++ (ids.foldl (Schedule.offer g) s).chosen := by
  induction ids generalizing s with
  | nil => cases hid
  | cons a ids ih =>
    rcases List.mem_cons.1 hid with rfl | hid
    · refine subset_offerAll _ ids ?_
      unfold Schedule.offer
      rw [if_pos (all_contains.2 hinputs)]
      split
      · next hthere => simpa using hthere
      · simp
    · exact ih hid (by rwa [available_offer])

/-- Offering keeps operators of the plan apart. -/
theorem offer_nodup (hnodup : (s.frontier ++ s.chosen).Nodup) (hplanned : s.frontier ++ s.chosen ⊆ plan)
    (hid : id ∈ plan) : ((s.offer g id).frontier ++ (s.offer g id).chosen).Nodup ∧
      (s.offer g id).frontier ++ (s.offer g id).chosen ⊆ plan := by
  unfold Schedule.offer
  split
  · exact ⟨hnodup, hplanned⟩
  · next hthere =>
    split
    · have hperm : ((s.frontier ++ [id]) ++ s.chosen).Perm (id :: (s.frontier ++ s.chosen)) := by
        simp
      have hnew : id ∉ s.frontier ++ s.chosen := by simpa using hthere
      exact ⟨hperm.nodup_iff.2 (List.nodup_cons.2 ⟨hnew, hnodup⟩),
        fun a ha => (List.mem_cons.1 (hperm.subset ha)).elim (fun h => h ▸ hid) fun h => hplanned h⟩
    · exact ⟨hnodup, hplanned⟩

theorem offerAll_nodup {ids : List NodeId} (hnodup : (s.frontier ++ s.chosen).Nodup)
    (hplanned : s.frontier ++ s.chosen ⊆ plan) (hids : ids ⊆ plan) :
    ((ids.foldl (Schedule.offer g) s).frontier ++ (ids.foldl (Schedule.offer g) s).chosen).Nodup ∧
      (ids.foldl (Schedule.offer g) s).frontier ++ (ids.foldl (Schedule.offer g) s).chosen ⊆ plan := by
  induction ids generalizing s with
  | nil => exact ⟨hnodup, hplanned⟩
  | cons a ids ih =>
    obtain ⟨ha, hids⟩ := List.cons_subset.1 hids
    obtain ⟨hnodup, hplanned⟩ := offer_nodup hnodup hplanned ha
    exact ih hnodup hplanned hids

/-! ## Chosen operators -/

theorem chosen_offer (s : Schedule) (id : NodeId) : (s.offer g id).chosen = s.chosen := by
  unfold Schedule.offer
  split
  · rfl
  · split <;> rfl

theorem chosen_offerAll (s : Schedule) (ids : List NodeId) :
    (ids.foldl (Schedule.offer g) s).chosen = s.chosen := by
  induction ids generalizing s with
  | nil => rfl
  | cons a ids ih => rw [List.foldl_cons, ih, chosen_offer]

theorem chosen_choose (s : Schedule) (plan : List NodeId) (id : NodeId) :
    (s.choose g plan id).chosen = s.chosen ++ [id] := by
  unfold Schedule.choose
  exact chosen_offerAll _ _

theorem Schedule.Fair.choose (h : s.Fair g plan) (hid : id ∈ s.frontier) : (s.choose g plan id).Fair g plan := by
  -- The chosen operator moves from the frontier to the end of those that were chosen.
  have hperm : (s.frontier.erase id ++ (s.chosen ++ [id])).Perm (s.frontier ++ s.chosen) := by
    have hswap : (s.chosen ++ [id]).Perm ([id] ++ s.chosen) := List.perm_append_comm
    refine (hswap.append_left _).trans ?_
    refine List.perm_middle.trans ?_
    exact (List.perm_cons_erase hid).symm.append_right s.chosen
  have hnodup := hperm.nodup_iff.2 h.nodup
  have hplanned : s.frontier.erase id ++ (s.chosen ++ [id]) ⊆ plan := fun a ha => h.planned (hperm.subset ha)
  have hdependents : ((g.outputsOf id).flatMap fun value => plan.filter fun op => (g.inputsOf op).contains value) ⊆
      plan := by
    intro a ha
    obtain ⟨value, -, ha⟩ := List.mem_flatMap.1 ha
    exact (List.mem_filter.1 ha).1
  unfold Schedule.choose
  dsimp only
  obtain ⟨hnodup', hplanned'⟩ := offerAll_nodup (g := g)
    (s := { frontier := s.frontier.erase id, available := s.available ++ g.outputsOf id, chosen := s.chosen ++ [id] })
    hnodup hplanned hdependents
  refine ⟨hnodup', hplanned', fun a ha hinputs => ?_⟩
  rw [available_offerAll] at hinputs
  by_cases hnew : ∃ v ∈ g.outputsOf id, v ∈ g.inputsOf a
  · obtain ⟨v, hv, hva⟩ := hnew
    refine mem_offerAll ?_ hinputs
    exact List.mem_flatMap.2 ⟨v, hv, List.mem_filter.2 ⟨ha, by simpa using hva⟩⟩
  · refine subset_offerAll _ _ ?_
    refine hperm.symm.subset (h.complete a ha fun v hv => ?_)
    rcases List.mem_append.1 (hinputs hv) with hmem | hmem
    · exact hmem
    · exact absurd ⟨v, hmem, hv⟩ hnew

/-- Once nothing is left to choose from, all operators of a plan were chosen. -/
theorem Schedule.Fair.chosen_of_empty (hplan : g.Ordered start plan) (hsound : s.Sound g start) (h : s.Fair g plan)
    (hempty : s.frontier = []) {before after : List NodeId} (hsplit : plan = before ++ after) :
    before ⊆ s.chosen := by
  induction before using List.reverseRecOn generalizing after with
  | nil => exact List.nil_subset _
  | append_singleton before a ih =>
    rw [List.append_assoc, List.singleton_append] at hsplit
    have hbefore := ih hsplit
    have ha : a ∈ s.frontier ++ s.chosen := by
      refine h.complete a (by simp [hsplit]) fun v hv => ?_
      rw [hsound.available]
      rcases List.mem_append.1 ((hsplit ▸ hplan).inputs hv) with hmem | hmem
      · exact List.mem_append_left _ hmem
      · obtain ⟨b, hb, hvb⟩ := List.mem_flatMap.1 hmem
        exact List.mem_append_right _ (List.mem_flatMap.2 ⟨b, hbefore hb, hvb⟩)
    rw [hempty, List.nil_append] at ha
    intro b hb
    rcases List.mem_append.1 hb with hb | hb
    · exact hbefore hb
    · rwa [List.mem_singleton.1 hb]

theorem Schedule.Fair.run (hplan : g.Ordered start plan) (hnodup : plan.Nodup) (hsound : s.Sound g start)
    (h : s.Fair g plan) {fuel : Nat} (hfuel : s.chosen.length + fuel = plan.length) :
    (Schedule.run g plan fuel s).Perm plan := by
  have hchosen : s.chosen.Subperm plan := by
    refine List.subperm_of_subset (List.nodup_append.1 h.nodup).2.1 fun a ha => ?_
    exact h.planned (List.mem_append_right _ ha)
  induction fuel generalizing s with
  | zero => exact hchosen.perm_of_length_le (Nat.le_of_eq hfuel.symm)
  | succ fuel ih =>
    rw [Schedule.run]
    split
    · next hempty =>
      have hall := h.chosen_of_empty hplan hsound hempty (List.append_nil plan).symm
      exact hchosen.antisymm (List.subperm_of_subset hnodup hall)
    · next first others hfrontier =>
      have hnext := next_mem_frontier (g := g) hfrontier
      have hfair := h.choose hnext
      refine ih (hsound.choose plan hnext) hfair ?_ ?_
      · rw [chosen_choose, List.length_append, List.length_singleton]
        omega
      · refine List.subperm_of_subset (List.nodup_append.1 hfair.nodup).2.1 fun a ha => ?_
        exact hfair.planned (List.mem_append_right _ ha)

/-- Scheduling a plan loses no operator and takes none twice. -/
theorem schedule_perm (hplan : g.Ordered start plan) (hnodup : plan.Nodup) : (g.schedule start plan).Perm plan := by
  have hsound : Schedule.Sound g start
      { frontier := plan.filter fun id => (g.inputsOf id).all start.contains, available := start } :=
    ⟨trivial, by simp, fun id hid => all_contains.1 (List.mem_filter.1 hid).2⟩
  have hfair : Schedule.Fair g plan
      { frontier := plan.filter fun id => (g.inputsOf id).all start.contains, available := start } := by
    refine ⟨?_, ?_, fun id hid hinputs => ?_⟩
    · simpa using hnodup.filter _
    · simp
    · exact List.mem_append_left _ (List.mem_filter.2 ⟨hid, all_contains.2 hinputs⟩)
  exact hfair.run hplan hnodup hsound (by simp)

/-! ## Execution plans -/

variable {inputs outputs : List NodeId}

theorem Plans.perm {plan' : List NodeId} (h : g.Plans start outputs plan) (hperm : plan'.Perm plan)
    (hordered : g.Ordered start plan') : g.Plans start outputs plan' := by
  refine ⟨hperm.nodup_iff.2 h.nodup, fun id => hperm.mem_iff.trans (h.mem_iff id), hordered, fun v hv => ?_⟩
  rcases List.mem_append.1 (h.provided hv) with hmem | hmem
  · exact List.mem_append_left _ hmem
  · obtain ⟨a, ha, hva⟩ := List.mem_flatMap.1 hmem
    exact List.mem_append_right _ (List.mem_flatMap.2 ⟨a, hperm.mem_iff.2 ha, hva⟩)

/-- Whether values are listed once each and can be read. -/
def Listed (g : Graph) (ids : List NodeId) : Prop := ids.Nodup ∧ ∀ id ∈ ids, g.isReadable id = true

theorem executionPlan_spec (hg : g.Indexed) (h : g.executionPlan inputs outputs = .ok plan) :
    g.Listed outputs ∧ g.Listed inputs ∧ g.Plans (inputs ++ g.constantIds) outputs plan ∧
      ∃ operators, g.dependencyPlan (inputs ++ g.constantIds) outputs = .ok operators ∧ plan.Perm operators := by
  obtain ⟨houtputs, hinputs, operators, hoperators, rfl⟩ := executionPlan_eq_ok.1 h
  have hplans := dependencyPlan_spec hg (inputs ++ g.constantIds) outputs
  rw [hoperators] at hplans
  have hperm := schedule_perm hplans.ordered hplans.nodup
  exact ⟨houtputs, hinputs, hplans.perm hperm (ordered_schedule ..), operators, hoperators, hperm⟩

/-- There is an execution plan exactly if inputs and outputs are listed once each and the outputs can be traced
back. -/
theorem exists_executionPlan (hg : g.Indexed) : (∃ plan, g.executionPlan inputs outputs = .ok plan) ↔
    g.Listed outputs ∧ g.Listed inputs ∧ g.Traceable (inputs ++ g.constantIds) outputs := by
  constructor
  · rintro ⟨plan, hplan⟩
    obtain ⟨houtputs, hinputs, hplans, -⟩ := executionPlan_spec hg hplan
    exact ⟨houtputs, hinputs, hplans.traceable hg⟩
  · rintro ⟨houtputs, hinputs, htrace⟩
    have hplans := dependencyPlan_spec hg (inputs ++ g.constantIds) outputs
    cases hoperators : g.dependencyPlan (inputs ++ g.constantIds) outputs with
    | error e => exact absurd htrace (by rwa [hoperators] at hplans)
    | ok operators => exact ⟨_, executionPlan_eq_ok.2 ⟨houtputs, hinputs, operators, hoperators, rfl⟩⟩

/-- There is an execution plan exactly if inputs and outputs are listed once each and the outputs can be traced
back to inputs and constants without a cycle. It lists the operators of the trace, each once and after those that
produce its inputs, and reordering has only changed their order. -/
theorem executionPlan_iff_traceable (g : Graph) (inputs outputs : List NodeId) (hg : g.Indexed) :
    ((∃ plan, g.executionPlan inputs outputs = .ok plan) ↔
      g.Listed outputs ∧ g.Listed inputs ∧ g.Traceable (inputs ++ g.constantIds) outputs) ∧
    ∀ plan, g.executionPlan inputs outputs = .ok plan → g.Plans (inputs ++ g.constantIds) outputs plan ∧
      ∃ operators, g.dependencyPlan (inputs ++ g.constantIds) outputs = .ok operators ∧ plan.Perm operators := by
  refine ⟨exists_executionPlan hg, fun plan hplan => ?_⟩
  obtain ⟨-, -, hplans, hperm⟩ := executionPlan_spec hg hplan
  exact ⟨hplans, hperm⟩

/-! ## A plan with a choice -/

/-- Returns its input twice. -/
def twin : CustomOperator where
  name := "Twin"
  maxInputs := some 1
  numOutputs := 2
  run vs := .ok (vs ++ vs)

/-- A twin of an input. One of its outputs is negated, which may happen in place, and the other one is doubled. -/
def forked : Graph :=
  let values := ["x", "a", "b", "n", "d", "y"].foldl (fun g name => (g.addValue name none none).1) Graph.empty
  let twins := (values.addOperator "twin" (.custom twin) [0] [1, 2]).1
  let negated := (twins.addOperator "negate" (.elementwise { fn := .neg, inPlace := true }) [1] [3]).1
  let doubled := (negated.addOperator "double" (.elementwise { fn := .add }) [2, 2] [4]).1
  (((doubled.addOperator "add" (.elementwise { fn := .add }) [3, 4] [5]).1.setInputs [0]).setOutputs [5])

theorem indexed_forked : forked.Indexed := by
  refine .setOutputs (.setInputs (.addOperator _ _ _ _ (.addOperator _ _ _ _ (.addOperator _ _ _ _
    (.addOperator _ _ _ _ ?_ ?_) ?_) ?_) ?_) _) _
  · exact indexed_empty.addValue .. |>.addValue .. |>.addValue .. |>.addValue .. |>.addValue .. |>.addValue ..
  all_goals decide

/-- The doubling comes before the negation, as negation can overwrite its input. -/
theorem executionPlan_forked : forked.Indexed ∧ forked.executionPlan [0] [5] = .ok [6, 8, 7, 9] ∧
    forked.Plans [0] [5] [6, 8, 7, 9] ∧ forked.dependencyPlan [0] [5] = .ok [6, 7, 8, 9] := by
  have hplan : forked.executionPlan [0] [5] = .ok [6, 8, 7, 9] := rfl
  exact ⟨indexed_forked, hplan, ((executionPlan_iff_traceable forked [0] [5] indexed_forked).2 _ hplan).1, rfl⟩

end TensorGraph.Graph
