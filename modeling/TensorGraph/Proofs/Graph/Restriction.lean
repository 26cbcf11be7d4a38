import Mathlib.Data.List.Find
import TensorGraph.Proofs.Graph.Trace

/-!
# Restricted graphs

A graph can be restricted to some of its nodes if these come with all that their edges lead to. Planning then gives the
same result as before, faults included, as it only looks at what it meets on the way from the outputs to available
values (`Restricts.executionPlan_eq`).
-/

namespace TensorGraph.Graph

/-- Whether a graph has the nodes of another one that are kept, where operators that are kept come with what they read
and produce, and values with their producers. -/
structure Restricts (g' g : Graph) (kept : NodeId → Bool) : Prop where
  node? : ∀ id, g'.node? id = if kept id then g.node? id else none
  size : g'.nodes.size = g.nodes.size
  reads : ∀ id, kept id = true → ∀ v ∈ g.inputsOf id, kept v = true
  produces : ∀ id, kept id = true → ∀ v ∈ g.outputsOf id, kept v = true
  sources : ∀ v, kept v = true → ∀ id, v ∈ g.outputsOf id → kept id = true

variable {g g' : Graph} {kept : NodeId → Bool} {id v : NodeId} {ids inputs outputs path plan : List NodeId}

theorem contains_filter (h : kept v = true) (ids : List NodeId) : (ids.filter kept).contains v = ids.contains v := by
  rw [Bool.eq_iff_iff, List.contains_iff_mem, List.contains_iff_mem, List.mem_filter, and_iff_left h]

theorem filter_append_kept {more : List NodeId} (h : ∀ v ∈ more, kept v = true) (ids : List NodeId) :
    (ids ++ more).filter kept = ids.filter kept ++ more := by
  rw [List.filter_append, List.filter_eq_self.2 h]

namespace Restricts

variable (h : g'.Restricts g kept)

include h

/-! ## Nodes that are kept -/

theorem operator?_eq (hid : kept id = true) : g'.operator? id = g.operator? id := by
  rw [operator?, h.node?, if_pos hid, operator?]

theorem inputsOf_eq (hid : kept id = true) : g'.inputsOf id = g.inputsOf id := by
  rw [inputsOf, h.operator?_eq hid, inputsOf]

theorem outputsOf_eq (hid : kept id = true) : g'.outputsOf id = g.outputsOf id := by
  rw [outputsOf, h.operator?_eq hid, outputsOf]

theorem nodeName_eq (hid : kept id = true) : g'.nodeName id = g.nodeName id := by
  rw [nodeName, h.node?, if_pos hid, nodeName]

theorem isReadable_eq (hid : kept id = true) : g'.isReadable id = g.isReadable id := by
  rw [isReadable, h.node?, if_pos hid, isReadable]

theorem mayOverwrite_eq (hid : kept id = true) : g'.mayOverwrite id = g.mayOverwrite id := by
  rw [mayOverwrite, h.operator?_eq hid, mayOverwrite]

theorem mem_outputsOf_iff : v ∈ g'.outputsOf id ↔ kept id = true ∧ v ∈ g.outputsOf id := by
  by_cases hid : kept id = true
  · rw [h.outputsOf_eq hid, and_iff_right hid]
  · have hnone : g'.operator? id = none := by rw [operator?, h.node?, if_neg hid, Option.bind_none]
    simp [outputsOf, hnone, hid]

theorem ids_eq : g'.ids = g.ids.filter kept := by
  rw [Graph.ids, Graph.ids, h.size, List.filter_filter]
  refine List.filter_congr fun id _ => ?_
  rw [h.node?]
  split <;> simp [*]

theorem constantIds_eq : g'.constantIds = g.constantIds.filter kept := by
  rw [constantIds, h.ids_eq, constantIds, List.filter_filter, List.filter_filter]
  refine List.filter_congr fun id _ => ?_
  rw [constant?, h.node?, constant?]
  split <;> simp [*]

variable (hg : g.Indexed) (hg' : g'.Indexed)

include hg hg'

theorem source?_eq (hv : kept v = true) : g'.source? v = g.source? v := by
  refine Option.ext fun id => ?_
  rw [hg'.source?_eq_some, hg.source?_eq_some, h.mem_outputsOf_iff]
  exact and_iff_right_of_imp (h.sources v hv id)

end Restricts

/-! ## Searches -/

/-- The state in which the restricted graph is searched. -/
def PlanState.restrict (kept : NodeId → Bool) (s : PlanState) : PlanState :=
  { s with available := s.available.filter kept }

/-- Steps that commute with a map of states can be taken before or after it. -/
theorem foldlM_map {σ α ε : Type} {f : σ → σ} {step step' : σ → α → Except ε σ} {l : List α}
    (h : ∀ a ∈ l, ∀ s, step' (f s) a = (step s a).map f) (s : σ) :
    l.foldlM step' (f s) = (l.foldlM step s).map f := by
  induction l generalizing s with
  | nil => rfl
  | cons a l ih =>
    obtain ⟨ha, hl⟩ := List.forall_mem_cons.1 h
    rw [List.foldlM_cons, List.foldlM_cons, ha]
    cases step s a with
    | error e => rfl
    | ok s => exact ih hl s

namespace Restricts

variable (h : g'.Restricts g kept) (hg : g.Indexed) (hg' : g'.Indexed)

include h hg hg'

theorem planInput_eq {fuel fuel' : Nat}
    (hsearch : ∀ source s, kept source = true →
      g'.planOperator fuel' (id :: path) source (s.restrict kept) =
        (g.planOperator fuel (id :: path) source s).map (·.restrict kept))
    (hid : kept id = true) (hv : kept v = true) (s : PlanState) :
    g'.planInput fuel' path id (s.restrict kept) v = (g.planInput fuel path id s v).map (·.restrict kept) := by
  unfold planInput
  rw [PlanState.restrict, contains_filter hv, h.source?_eq hg hg' hv]
  split
  · rfl
  · cases hsource : g.source? v with
    | none => simp [h.nodeName_eq hv, h.nodeName_eq hid, Except.map]
    | some source => exact hsearch source s (h.sources v hv source (hg.source?_eq_some.1 hsource))

/-- The search for what an operator depends on does the same in both graphs. Its bounds differ, as one of the graphs has
fewer operators, but both allow for all operators that can wait. -/
theorem planOperator_eq {fuel fuel' : Nat} (hnodup : path.Nodup)
    (hpath : ∀ a ∈ path, kept a = true ∧ (g.operator? a).isSome) (hfuel : path.length + fuel = g.operatorCount + 1)
    (hfuel' : path.length + fuel' = g'.operatorCount + 1) (hid : kept id = true) (s : PlanState) :
    g'.planOperator fuel' path id (s.restrict kept) = (g.planOperator fuel path id s).map (·.restrict kept) := by
  induction fuel generalizing fuel' path id s with
  | zero => exact absurd (fuel_pos_of_nodup hnodup (fun a ha => (hpath a ha).2) hfuel) (Nat.lt_irrefl 0)
  | succ fuel ih =>
    have hpos : 0 < fuel' := fuel_pos_of_nodup hnodup (fun a ha => h.operator?_eq (hpath a ha).1 ▸ (hpath a ha).2) hfuel'
    obtain ⟨fuel', rfl⟩ := Nat.exists_eq_add_one.2 hpos
    by_cases hnew : id ∈ path
    · have hcontains : path.contains id = true := by simpa using hnew
      rw [planOperator, planOperator, if_pos hcontains, if_pos hcontains, h.nodeName_eq hid]
      rfl
    · cases hop : g.operator? id with
      | none =>
        have hcontains : ¬path.contains id = true := by simpa using hnew
        rw [planOperator, planOperator, if_neg hcontains, if_neg hcontains, h.operator?_eq hid, hop]
        rfl
      | some op =>
        have hbelow : ∀ a ∈ id :: path, kept a = true ∧ (g.operator? a).isSome :=
          List.forall_mem_cons.2 ⟨⟨hid, by rw [hop]; rfl⟩, hpath⟩
        have hinputs : op.inputs.foldlM (g'.planInput fuel' path id) (s.restrict kept) =
            (op.inputs.foldlM (g.planInput fuel path id) s).map (·.restrict kept) := by
          refine foldlM_map (f := (·.restrict kept)) (fun v hv s => ?_) s
          have hv : kept v = true := h.reads id hid v (inputsOf_of_operator? hop ▸ hv)
          refine h.planInput_eq hg hg' (fun source s hsource => ?_) hid hv s
          refine ih (List.nodup_cons.2 ⟨hnew, hnodup⟩) hbelow ?_ ?_ hsource s
          · rw [List.length_cons]
            omega
          · rw [List.length_cons]
            omega
        rw [planOperator_succ hnew (h.operator?_eq hid ▸ hop), planOperator_succ hnew hop, hinputs]
        cases op.inputs.foldlM (g.planInput fuel path id) s with
        | error e => rfl
        | ok s =>
          have houtputs := filter_append_kept (fun v hv => h.produces id hid v (outputsOf_of_operator? hop ▸ hv))
            s.available
          simp [Except.map, Except.bind, PlanState.restrict, houtputs]

theorem planOutput_eq (hv : kept v = true) (s : PlanState) :
    g'.planOutput (s.restrict kept) v = (g.planOutput s v).map (·.restrict kept) := by
  unfold planOutput
  rw [PlanState.restrict, contains_filter hv, h.source?_eq hg hg' hv]
  split
  · rfl
  · cases hsource : g.source? v with
    | none => simp [h.nodeName_eq hv, Except.map]
    | some source =>
      have hsource : kept source = true := h.sources v hv source (hg.source?_eq_some.1 hsource)
      exact h.planOperator_eq hg hg' List.nodup_nil nofun (Nat.zero_add _) (Nat.zero_add _) hsource s

theorem dependencyPlan_eq (houtputs : ∀ v ∈ outputs, kept v = true) (available : List NodeId) :
    g'.dependencyPlan (available.filter kept) outputs = g.dependencyPlan available outputs := by
  have hsearch := foldlM_map (fun v hv s => h.planOutput_eq hg hg' (houtputs v hv) s) { available := available }
  unfold dependencyPlan
  change (outputs.foldlM g'.planOutput (PlanState.restrict kept { available := available })).bind _ = _
  rw [hsearch]
  cases outputs.foldlM g.planOutput { available := available } with
  | error e => rfl
  | ok s => rfl

omit hg hg' in
/-- What is met on the way from kept values is kept. -/
theorem kept_of_met {start : List NodeId} (houtputs : ∀ v ∈ outputs, kept v = true) (hv : g.Met start outputs v) :
    kept v = true := by
  induction hv with
  | output hv => exact houtputs _ hv
  | input _ _ hid hw ih => exact h.reads _ (h.sources _ ih _ hid) _ hw

end Restricts

/-! ## Schedules -/

/-- The state in which operators of the restricted graph are scheduled. -/
def Schedule.restrict (kept : NodeId → Bool) (s : Schedule) : Schedule :=
  { s with available := s.available.filter kept }

theorem frontier_offerAll (s : Schedule) (ids : List NodeId) :
    (ids.foldl (Schedule.offer g) s).frontier ⊆ s.frontier ++ ids := by
  induction ids generalizing s with
  | nil => simp
  | cons a ids ih =>
    have hfirst : (s.offer g a).frontier ⊆ s.frontier ++ [a] := by
      unfold Schedule.offer
      split
      · exact List.subset_append_left ..
      · split
        · exact List.Subset.refl _
        · exact List.subset_append_left ..
    intro b hb
    rcases List.mem_append.1 (ih (s.offer g a) hb) with hmem | hmem
    · have := hfirst hmem
      simp only [List.mem_append, List.mem_cons, List.not_mem_nil, or_false] at this ⊢
      tauto
    · exact List.mem_append_right _ (List.mem_cons_of_mem _ hmem)

theorem frontier_choose {s : Schedule} (hs : s.frontier ⊆ plan) (id : NodeId) : (s.choose g plan id).frontier ⊆ plan := by
  intro a ha
  rcases List.mem_append.1 (frontier_offerAll _ _ ha) with hmem | hmem
  · exact hs (List.mem_of_mem_erase hmem)
  · obtain ⟨value, -, hmem⟩ := List.mem_flatMap.1 hmem
    exact (List.mem_filter.1 hmem).1

namespace Restricts

variable (h : g'.Restricts g kept)

include h

theorem all_contains_eq (hid : kept id = true) (available : List NodeId) :
    (g'.inputsOf id).all (available.filter kept).contains = (g.inputsOf id).all available.contains := by
  rw [h.inputsOf_eq hid, Bool.eq_iff_iff, List.all_eq_true, List.all_eq_true]
  refine forall₂_congr fun v hv => ?_
  rw [contains_filter (h.reads id hid v hv)]

theorem offer_eq (hid : kept id = true) (s : Schedule) :
    (s.restrict kept).offer g' id = (s.offer g id).restrict kept := by
  unfold Schedule.offer
  simp only [Schedule.restrict, h.all_contains_eq hid]
  split
  · rfl
  · split <;> rfl

theorem offerAll_eq (hids : ∀ id ∈ ids, kept id = true) (s : Schedule) :
    ids.foldl (Schedule.offer g') (s.restrict kept) = (ids.foldl (Schedule.offer g) s).restrict kept := by
  induction ids generalizing s with
  | nil => rfl
  | cons id ids ih =>
    obtain ⟨hid, hids⟩ := List.forall_mem_cons.1 hids
    rw [List.foldl_cons, List.foldl_cons, h.offer_eq hid, ih hids]

theorem choose_eq (hplan : ∀ id ∈ plan, kept id = true) (hid : kept id = true) (s : Schedule) :
    (s.restrict kept).choose g' plan id = (s.choose g plan id).restrict kept := by
  have hdependents (value : NodeId) : plan.filter (fun op => (g'.inputsOf op).contains value) =
      plan.filter fun op => (g.inputsOf op).contains value :=
    List.filter_congr fun op hop => by rw [h.inputsOf_eq (hplan op hop)]
  unfold Schedule.choose
  simp only [h.outputsOf_eq hid, hdependents]
  rw [← h.offerAll_eq]
  · simp [Schedule.restrict, filter_append_kept (h.produces id hid)]
  · intro a ha
    obtain ⟨value, -, hmem⟩ := List.mem_flatMap.1 ha
    exact hplan a (List.mem_filter.1 hmem).1

theorem run_eq (hplan : ∀ id ∈ plan, kept id = true) {s : Schedule} (hs : s.frontier ⊆ plan) (fuel : Nat) :
    Schedule.run g' plan fuel (s.restrict kept) = Schedule.run g plan fuel s := by
  induction fuel generalizing s with
  | zero => rfl
  | succ fuel ih =>
    have hfrontier : (s.restrict kept).frontier = s.frontier := rfl
    rw [Schedule.run, Schedule.run, hfrontier]
    split
    · rfl
    · next first others hcase =>
      have hnext := hs (next_mem_frontier (g := g) hcase)
      have hoverwrite : s.frontier.find? (fun id => !g'.mayOverwrite id) =
          s.frontier.find? fun id => !g.mayOverwrite id :=
        List.find?_congr fun id hid => by rw [h.mayOverwrite_eq (hplan id (hs hid))]
      dsimp only
      rw [hoverwrite, h.choose_eq hplan (hplan _ hnext)]
      exact ih (frontier_choose hs _)

theorem schedule_eq (hplan : ∀ id ∈ plan, kept id = true) (available : List NodeId) :
    g'.schedule (available.filter kept) plan = g.schedule available plan := by
  have hready : plan.filter (fun id => (g'.inputsOf id).all (available.filter kept).contains) =
      plan.filter fun id => (g.inputsOf id).all available.contains :=
    List.filter_congr fun id hid => h.all_contains_eq (hplan id hid) available
  unfold schedule
  simp only [hready]
  exact h.run_eq hplan (s := { frontier := plan.filter fun id => (g.inputsOf id).all available.contains, available })
    (List.filter_subset_self plan) _

/-! ## Execution plans -/

theorem checkListed_eq (hids : ∀ v ∈ ids, kept v = true) (twice : String → PlanningFault)
    (notReadable : Nat → String → PlanningFault) :
    g'.checkListed ids twice notReadable = g.checkListed ids twice notReadable := by
  unfold checkListed
  cases hdup : firstDuplicate? ids with
  | some id => simp only [h.nodeName_eq (hids id (mem_of_firstDuplicate? hdup))]
  | none =>
    refine forM_congr fun (id, i) hid => ?_
    have hkept := hids id (List.fst_mem_of_mem_zipIdx hid)
    simp only [h.isReadable_eq hkept, h.nodeName_eq hkept]

/-- Planning gives the same result for a restricted graph, whether this is a plan or a fault. -/
theorem executionPlan_eq (hg : g.Indexed) (hg' : g'.Indexed) (hinputs : ∀ v ∈ inputs, kept v = true)
    (houtputs : ∀ v ∈ outputs, kept v = true) : g'.executionPlan inputs outputs = g.executionPlan inputs outputs := by
  have havailable : inputs ++ g'.constantIds = (inputs ++ g.constantIds).filter kept := by
    rw [h.constantIds_eq, List.filter_append, List.filter_eq_self.2 hinputs]
  have hplans := dependencyPlan_spec hg (inputs ++ g.constantIds) outputs
  unfold executionPlan
  simp only [h.checkListed_eq houtputs, h.checkListed_eq hinputs, havailable, h.dependencyPlan_eq hg hg' houtputs]
  cases hoperators : g.dependencyPlan (inputs ++ g.constantIds) outputs with
  | error e => rfl
  | ok operators =>
    rw [hoperators] at hplans
    have hkept : ∀ id ∈ operators, kept id = true := by
      intro id hid
      obtain ⟨v, hv, -, hout⟩ := (hplans.mem_iff id).1 hid
      exact h.sources v (h.kept_of_met houtputs hv) id hout
    simp only [bind, Except.bind, h.schedule_eq hkept]

end Restricts

end TensorGraph.Graph
