import Mathlib.Data.List.Nodup
import Mathlib.Data.List.Perm.Subperm
import Mathlib.Logic.Relation
import TensorGraph.Proofs.Graph.Edges
import TensorGraph.Proofs.Graph.Plan

/-!
# Tracing outputs back

An execution plan depends on what is met when outputs are traced back through the operators that produce them,
as far as values that are available. The search for dependencies succeeds exactly when every value of the trace
is available or produced and no operator of the trace waits for itself, and then it lists the operators of the
trace (`dependencyPlan_spec`).
-/

namespace TensorGraph.Graph

open Relation

/-- The values that are met when outputs are traced back. The trace stops at available values. -/
inductive Met (g : Graph) (available outputs : List NodeId) : NodeId → Prop
  | output {v : NodeId} (h : v ∈ outputs) : Met g available outputs v
  | input {v w id : NodeId} (h : Met g available outputs v) (hv : v ∉ available) (hid : v ∈ g.outputsOf id)
      (hw : w ∈ g.inputsOf id) : Met g available outputs w

/-- Whether an operator produces a value at which the trace of the outputs does not stop. -/
def MetOperator (g : Graph) (available outputs : List NodeId) (id : NodeId) : Prop :=
  ∃ v, g.Met available outputs v ∧ v ∉ available ∧ v ∈ g.outputsOf id

/-- Whether an operator reads a value that is not available and that another one produces. -/
def WaitsFor (g : Graph) (available : List NodeId) (id other : NodeId) : Prop :=
  ∃ v ∈ g.inputsOf id, v ∉ available ∧ v ∈ g.outputsOf other

/-- Whether outputs can be traced back to available values, without a cycle. -/
structure Traceable (g : Graph) (available outputs : List NodeId) : Prop where
  resolved : ∀ v, g.Met available outputs v → v ∈ available ∨ ∃ id, v ∈ g.outputsOf id
  acyclic : ∀ id, g.MetOperator available outputs id → ¬TransGen (g.WaitsFor available) id id

variable {g : Graph} {start outputs : List NodeId} {s s' : PlanState} {id : NodeId}

theorem MetOperator.isSome_operator? (h : g.MetOperator start outputs id) : (g.operator? id).isSome := by
  obtain ⟨v, -, -, hid⟩ := h
  exact isSome_operator?_of_mem_outputsOf hid

theorem MetOperator.input {other v : NodeId} (h : g.MetOperator start outputs id) (hv : v ∈ g.inputsOf id)
    (hstart : v ∉ start) (hother : v ∈ g.outputsOf other) : g.MetOperator start outputs other := by
  obtain ⟨w, hmet, hw, hid⟩ := h
  exact ⟨v, hmet.input hw hid hv, hstart, hother⟩

/-! ## Ordered operators -/

/-- An operator of an ordered list reads what is there before it. -/
theorem Ordered.inputs {before after : List NodeId} (h : g.Ordered start (before ++ id :: after)) :
    g.inputsOf id ⊆ start ++ before.flatMap g.outputsOf := by
  induction before generalizing start with
  | nil => simpa using h.1
  | cons a before ih => simpa [List.append_assoc] using ih h.2

theorem Ordered.inputs_subset {ids : List NodeId} (h : g.Ordered start ids) (hid : id ∈ ids) :
    g.inputsOf id ⊆ start ++ ids.flatMap g.outputsOf := by
  obtain ⟨before, after, rfl⟩ := List.append_of_mem hid
  intro v hv
  rcases List.mem_append.1 (h.inputs hv) with hstart | hbefore
  · exact List.mem_append_left _ hstart
  · rw [List.flatMap_append]
    exact List.mem_append_right _ (List.mem_append_left _ hbefore)

/-- In an ordered list an operator waits only for operators that stand before it. -/
theorem Ordered.waitsFor (hg : g.Indexed) {ids : List NodeId} (h : g.Ordered start ids) (hnodup : ids.Nodup)
    (hid : id ∈ ids) {other : NodeId} (hwait : g.WaitsFor start id other) :
    other ∈ ids ∧ ids.idxOf other < ids.idxOf id := by
  obtain ⟨v, hv, hstart, hother⟩ := hwait
  obtain ⟨before, after, rfl⟩ := List.append_of_mem hid
  have hbefore : other ∈ before := by
    rcases List.mem_append.1 (h.inputs hv) with hmem | hmem
    · exact absurd hmem hstart
    · obtain ⟨a, ha, hva⟩ := List.mem_flatMap.1 hmem
      rwa [hg.producer_unique hother hva]
  have hnot : id ∉ before := fun hmem => (List.nodup_append.1 hnodup).2.2 id hmem id (by simp) rfl
  refine ⟨List.mem_append_left _ hbefore, ?_⟩
  rw [List.idxOf_append_of_mem hbefore, List.idxOf_append_of_notMem hnot]
  simpa using List.idxOf_lt_length_of_mem hbefore

theorem Ordered.not_waitsFor_self (hg : g.Indexed) {ids : List NodeId} (h : g.Ordered start ids)
    (hnodup : ids.Nodup) (hid : id ∈ ids) : ¬TransGen (g.WaitsFor start) id id := by
  intro hcycle
  have hbefore : ∀ other, TransGen (g.WaitsFor start) id other → other ∈ ids ∧ ids.idxOf other < ids.idxOf id := by
    intro other hother
    induction hother with
    | single hwait => exact h.waitsFor hg hnodup hid hwait
    | tail _ hwait ih =>
      obtain ⟨hmem, hlt⟩ := h.waitsFor hg hnodup ih.1 hwait
      exact ⟨hmem, Nat.lt_trans hlt ih.2⟩
  exact Nat.lt_irrefl _ (hbefore id hcycle).2

/-! ## The search for dependencies -/

/-- What holds of the operators that were planned so far. -/
structure PlanState.Sound (g : Graph) (start outputs : List NodeId) (s : PlanState) : Prop where
  ordered : g.Ordered start s.plan
  available : s.available = start ++ s.plan.flatMap g.outputsOf
  nodup : s.plan.Nodup
  met : ∀ id ∈ s.plan, g.MetOperator start outputs id

/-- What holds of the operators that wait for the one that is looked at: they are different, none is planned
yet, and the first argument of the search still allows for the others. -/
structure Path (g : Graph) (start : List NodeId) (fuel : Nat) (path : List NodeId) (id : NodeId) (s : PlanState) :
    Prop where
  waits : ∀ a ∈ path, TransGen (g.WaitsFor start) a id
  nodup : path.Nodup
  operators : ∀ a ∈ path, (g.operator? a).isSome
  unplanned : ∀ a ∈ path, a ∉ s.plan
  bound : path.length + fuel = g.operatorCount + 1

/-- What a search that succeeds adds to the plan: among others the given operator, but none that waits for it. -/
structure PlanState.Extends (s' s : PlanState) (path : List NodeId) : Prop where
  keeps : s.plan ⊆ s'.plan
  unplanned : ∀ a ∈ path, a ∉ s'.plan

theorem PlanState.Extends.trans {s'' : PlanState} {path : List NodeId} (h' : s''.Extends s' path)
    (h : s'.Extends s path) : s''.Extends s path :=
  ⟨fun _ hid => h'.keeps (h.keeps hid), h'.unplanned⟩

/-- Makes one input of an operator available. -/
def planInput (g : Graph) (fuel : Nat) (path : List NodeId) (id : NodeId) (s : PlanState) (input : NodeId) :
    Except PlanningFault PlanState :=
  if s.available.contains input then pure s
  else match g.source? input with
    | some source => g.planOperator fuel (id :: path) source s
    | none => .error (.missingInput (g.nodeName input) (g.nodeName id))

theorem planOperator_succ {op : OperatorNode} {fuel : Nat} {path : List NodeId} (hpath : id ∉ path)
    (hop : g.operator? id = some op) : g.planOperator (fuel + 1) path id s =
      (op.inputs.foldlM (g.planInput fuel path id) s).bind fun s =>
        .ok { available := s.available ++ op.outputs, plan := s.plan ++ [id] } := by
  rw [planOperator, if_neg (by simpa using hpath)]
  simp only [hop]
  rfl

theorem PlanState.Sound.available_of_mem (h : s.Sound g start outputs) (hid : id ∈ s.plan) {v : NodeId}
    (hv : v ∈ g.outputsOf id) : v ∈ s.available := by
  rw [h.available]
  exact List.mem_append_right _ (List.mem_flatMap.2 ⟨id, hid, hv⟩)

theorem PlanState.Sound.not_mem_start (h : s.Sound g start outputs) {v : NodeId} (hv : v ∉ s.available) :
    v ∉ start := by
  intro hstart
  rw [h.available] at hv
  exact hv (List.mem_append_left _ hstart)

theorem PlanState.Sound.available_mono {path : List NodeId} (h' : s'.Sound g start outputs)
    (h : s.Sound g start outputs) (hext : s'.Extends s path) : s.available ⊆ s'.available := by
  intro v hv
  rw [h.available] at hv
  rcases List.mem_append.1 hv with hmem | hmem
  · rw [h'.available]
    exact List.mem_append_left _ hmem
  · obtain ⟨a, ha, hva⟩ := List.mem_flatMap.1 hmem
    exact h'.available_of_mem (hext.keeps ha) hva

theorem PlanState.Sound.append (h : s.Sound g start outputs) (hid : id ∉ s.plan)
    (hmet : g.MetOperator start outputs id) (hinputs : g.inputsOf id ⊆ s.available) :
    PlanState.Sound g start outputs { available := s.available ++ g.outputsOf id, plan := s.plan ++ [id] } := by
  refine ⟨ordered_concat h.ordered (h.available ▸ hinputs), ?_, ?_, ?_⟩
  · simp [h.available]
  · simpa using h.nodup.concat hid
  · intro a ha
    rcases List.mem_append.1 ha with ha | ha
    · exact h.met a ha
    · rwa [List.mem_singleton.1 ha]

/-- What one search does: it adds the operator and what that depends on, or there is no plan. -/
def Searches (g : Graph) (start outputs : List NodeId) (s : PlanState) (path : List NodeId)
    (done : PlanState → Prop) : Except PlanningFault PlanState → Prop
  | .ok s' => s'.Sound g start outputs ∧ s'.Extends s path ∧ done s'
  | .error _ => ¬g.Traceable start outputs

/-- Values become available one after the other, if every single search makes its value available. -/
theorem searches_foldlM {path ids : List NodeId} {search : PlanState → NodeId → Except PlanningFault PlanState}
    (hsearch : ∀ s : PlanState, s.Sound g start outputs → (∀ a ∈ path, a ∉ s.plan) → ∀ v ∈ ids,
      g.Searches start outputs s path (v ∈ ·.available) (search s v))
    (hs : s.Sound g start outputs) (hpath : ∀ a ∈ path, a ∉ s.plan) :
    g.Searches start outputs s path (ids ⊆ ·.available) (ids.foldlM search s) := by
  induction ids generalizing s with
  | nil => exact ⟨hs, ⟨fun _ h => h, hpath⟩, List.nil_subset _⟩
  | cons v ids ih =>
    have hfirst := hsearch s hs hpath v (by simp)
    rw [List.foldlM_cons]
    cases hok : search s v with
    | error e => rwa [hok] at hfirst
    | ok s₁ =>
      rw [hok] at hfirst
      obtain ⟨hs₁, hext₁, hv₁⟩ := hfirst
      have hrest := ih (fun s hs hpath v hv => hsearch s hs hpath v (List.mem_cons_of_mem _ hv)) hs₁ hext₁.unplanned
      change g.Searches start outputs s path _ (ids.foldlM search s₁)
      cases hok₂ : ids.foldlM search s₁ with
      | error e => rwa [hok₂] at hrest
      | ok s₂ =>
        rw [hok₂] at hrest
        obtain ⟨hs₂, hext₂, hsub⟩ := hrest
        exact ⟨hs₂, hext₂.trans hext₁, List.cons_subset.2 ⟨hs₂.available_mono hs₁ hext₂ hv₁, hsub⟩⟩

/-- A value that is not available yet becomes so through the operator that produces it. -/
theorem searches_produced {path : List NodeId} {source v : NodeId} {fuel : Nat}
    (hsource : v ∈ g.outputsOf source)
    (h : g.Searches start outputs s path (source ∈ ·.plan) (g.planOperator fuel path source s)) :
    g.Searches start outputs s path (v ∈ ·.available) (g.planOperator fuel path source s) := by
  cases hok : g.planOperator fuel path source s with
  | error e => rwa [hok] at h
  | ok s' =>
    rw [hok] at h
    obtain ⟨hs', hext, hmem⟩ := h
    exact ⟨hs', hext, hs'.available_of_mem hmem hsource⟩

/-- One input of an operator becomes available, if the search below it does what it should. -/
theorem searches_planInput (hg : g.Indexed) {fuel : Nat} {path : List NodeId} {v : NodeId}
    (hsearch : ∀ source, g.MetOperator start outputs source → source ∉ s.plan →
      g.Path start fuel (id :: path) source s →
      g.Searches start outputs s (id :: path) (source ∈ ·.plan) (g.planOperator fuel (id :: path) source s))
    (hmet : g.MetOperator start outputs id) (hpath : g.Path start (fuel + 1) path id s) (hnew : id ∉ path)
    (hid : id ∉ s.plan) (hs : s.Sound g start outputs) (hv : v ∈ g.inputsOf id) :
    g.Searches start outputs s (id :: path) (v ∈ ·.available) (g.planInput fuel path id s v) := by
  unfold planInput
  split
  · next havail =>
    exact ⟨hs, ⟨fun _ h => h, List.forall_mem_cons.2 ⟨hid, hpath.unplanned⟩⟩, by simpa using havail⟩
  · next havail =>
    have havail : v ∉ s.available := by simpa using havail
    have hstart := hs.not_mem_start havail
    split
    · next source hsource =>
      rw [hg.source?_eq_some] at hsource
      have hwait : g.WaitsFor start id source := ⟨v, hv, hstart, hsource⟩
      have hbelow : g.Path start fuel (id :: path) source s := by
        refine ⟨?_, List.nodup_cons.2 ⟨hnew, hpath.nodup⟩, ?_, ?_, ?_⟩
        · exact List.forall_mem_cons.2 ⟨.single hwait, fun a ha => (hpath.waits a ha).tail hwait⟩
        · exact List.forall_mem_cons.2 ⟨isSome_operator?_of_mem_inputsOf hv, hpath.operators⟩
        · exact List.forall_mem_cons.2 ⟨hid, hpath.unplanned⟩
        · have := hpath.bound
          simp only [List.length_cons]
          omega
      exact searches_produced hsource (hsearch source (hmet.input hv hstart hsource)
        (fun hmem => havail (hs.available_of_mem hmem hsource)) hbelow)
    · next hnone =>
      intro htrace
      obtain ⟨w, hw, hwstart, hwid⟩ := hmet
      rcases htrace.resolved v (hw.input hwstart hwid hv) with hmem | ⟨source, hsource⟩
      · exact hstart hmem
      · exact hg.source?_eq_none.1 hnone source hsource

/-- A path cannot be as long as to leave no room for its last operator. -/
theorem fuel_pos_of_nodup {path : List NodeId} {fuel : Nat} (hnodup : path.Nodup)
    (hpath : ∀ a ∈ path, (g.operator? a).isSome) (hfuel : path.length + fuel = g.operatorCount + 1) : 0 < fuel := by
  have hle : path.length ≤ g.operatorCount :=
    (List.subperm_of_subset hnodup fun a ha => mem_operatorIds.2 (hpath a ha)).length_le
  omega

theorem Path.fuel_pos {path : List NodeId} {fuel : Nat} (h : g.Path start fuel path id s) : 0 < fuel :=
  fuel_pos_of_nodup h.nodup h.operators h.bound

theorem searches_planOperator (hg : g.Indexed) {fuel : Nat} {path : List NodeId} (hs : s.Sound g start outputs)
    (hmet : g.MetOperator start outputs id) (hid : id ∉ s.plan) (hpath : g.Path start fuel path id s) :
    g.Searches start outputs s path (id ∈ ·.plan) (g.planOperator fuel path id s) := by
  induction fuel generalizing path id s with
  | zero => exact absurd hpath.fuel_pos (Nat.lt_irrefl 0)
  | succ fuel ih =>
    by_cases hnew : id ∈ path
    · -- The operator waits for itself.
      rw [planOperator, if_pos (by simpa using hnew)]
      exact fun htrace => htrace.acyclic id hmet (hpath.waits id hnew)
    · obtain ⟨op, hop⟩ := Option.isSome_iff_exists.1 hmet.isSome_operator?
      have hinputs : g.Searches start outputs s (id :: path) (g.inputsOf id ⊆ ·.available)
          ((g.inputsOf id).foldlM (g.planInput fuel path id) s) := by
        refine searches_foldlM (fun s hs hunplanned v hv => ?_) hs (List.forall_mem_cons.2 ⟨hid, hpath.unplanned⟩)
        obtain ⟨hid, hpath'⟩ := List.forall_mem_cons.1 hunplanned
        exact searches_planInput hg (fun source hmet hid hpath => ih hs hmet hid hpath) hmet
          ⟨hpath.waits, hpath.nodup, hpath.operators, hpath', hpath.bound⟩ hnew hid hs hv
      rw [inputsOf_of_operator? hop] at hinputs
      rw [planOperator_succ hnew hop]
      cases hok : op.inputs.foldlM (g.planInput fuel path id) s with
      | error e => rwa [hok] at hinputs
      | ok s' =>
        rw [hok] at hinputs
        obtain ⟨hs', hext, hsub⟩ := hinputs
        obtain ⟨hid', hpath'⟩ := List.forall_mem_cons.1 hext.unplanned
        rw [← inputsOf_of_operator? hop] at hsub
        have hsound := hs'.append hid' hmet hsub
        rw [outputsOf_of_operator? hop] at hsound
        refine ⟨hsound, ⟨fun a ha => List.mem_append_left _ (hext.keeps ha), fun a ha hmem => ?_⟩, by simp⟩
        rcases List.mem_append.1 hmem with hmem | hmem
        · exact hpath' a ha hmem
        · exact hnew (List.mem_singleton.1 hmem ▸ ha)

/-! ## Dependencies of outputs -/

/-- Whether a list of operators is a plan for outputs: it consists of the operators of their trace, each once and
after those that produce its inputs. -/
structure Plans (g : Graph) (start outputs plan : List NodeId) : Prop where
  nodup : plan.Nodup
  mem_iff : ∀ id, id ∈ plan ↔ g.MetOperator start outputs id
  ordered : g.Ordered start plan
  provided : outputs ⊆ start ++ plan.flatMap g.outputsOf

theorem searches_planOutput (hg : g.Indexed) (hs : s.Sound g start outputs) {v : NodeId} (hv : v ∈ outputs) :
    g.Searches start outputs s [] (v ∈ ·.available) (g.planOutput s v) := by
  unfold planOutput
  split
  · next havail => exact ⟨hs, ⟨fun _ h => h, by simp⟩, by simpa using havail⟩
  · next havail =>
    have havail : v ∉ s.available := by simpa using havail
    have hstart := hs.not_mem_start havail
    split
    · next source hsource =>
      rw [hg.source?_eq_some] at hsource
      exact searches_produced hsource (searches_planOperator hg hs ⟨v, .output hv, hstart, hsource⟩
        (fun hmem => havail (hs.available_of_mem hmem hsource)) ⟨by simp, by simp, by simp, by simp, by simp⟩)
    · next hnone =>
      intro htrace
      rcases htrace.resolved v (.output hv) with hmem | ⟨source, hsource⟩
      · exact hstart hmem
      · exact hg.source?_eq_none.1 hnone source hsource

/-- Everything that the trace meets is available once the outputs are. -/
theorem PlanState.Sound.met_available (hg : g.Indexed) (hs : s.Sound g start outputs)
    (houts : outputs ⊆ s.available) {v : NodeId} (hv : g.Met start outputs v) : v ∈ s.available := by
  induction hv with
  | output h => exact houts h
  | @input v w id _ hstart hid hw ih =>
    rw [hs.available] at ih ⊢
    rcases List.mem_append.1 ih with hmem | hmem
    · exact absurd hmem hstart
    · obtain ⟨a, ha, hva⟩ := List.mem_flatMap.1 hmem
      rw [← hg.producer_unique hid hva] at ha
      exact hs.ordered.inputs_subset ha hw

theorem PlanState.Sound.plans (hg : g.Indexed) (hs : s.Sound g start outputs) (houts : outputs ⊆ s.available) :
    g.Plans start outputs s.plan := by
  refine ⟨hs.nodup, fun id => ⟨hs.met id, fun hmet => ?_⟩, hs.ordered, hs.available ▸ houts⟩
  obtain ⟨v, hv, hstart, hid⟩ := hmet
  have hmem := hs.met_available hg houts hv
  rw [hs.available] at hmem
  rcases List.mem_append.1 hmem with hmem | hmem
  · exact absurd hmem hstart
  · obtain ⟨a, ha, hva⟩ := List.mem_flatMap.1 hmem
    rwa [hg.producer_unique hid hva]

/-- What has a plan can be traced. -/
theorem Plans.traceable (hg : g.Indexed) {plan : List NodeId} (h : g.Plans start outputs plan) :
    g.Traceable start outputs := by
  have hs : PlanState.Sound g start outputs { available := start ++ plan.flatMap g.outputsOf, plan } :=
    ⟨h.ordered, rfl, h.nodup, fun id hid => (h.mem_iff id).1 hid⟩
  refine ⟨fun v hv => ?_, fun id hid => h.ordered.not_waitsFor_self hg h.nodup ((h.mem_iff id).2 hid)⟩
  rcases List.mem_append.1 (hs.met_available hg h.provided hv) with hmem | hmem
  · exact .inl hmem
  · obtain ⟨a, -, ha⟩ := List.mem_flatMap.1 hmem
    exact .inr ⟨a, ha⟩

/-- The search for dependencies finds a plan, or there is none. -/
theorem dependencyPlan_spec (hg : g.Indexed) (start outputs : List NodeId) :
    match g.dependencyPlan start outputs with
    | .ok plan => g.Plans start outputs plan
    | .error _ => ¬g.Traceable start outputs := by
  have hstart : PlanState.Sound g start outputs { available := start } := ⟨trivial, by simp, by simp, by simp⟩
  have hresult : g.Searches start outputs { available := start } [] (outputs ⊆ ·.available)
      (outputs.foldlM g.planOutput { available := start }) :=
    searches_foldlM (fun s hs _ v hv => searches_planOutput hg hs hv) hstart (by simp)
  unfold dependencyPlan
  cases hok : outputs.foldlM g.planOutput { available := start } with
  | error e => rwa [hok] at hresult
  | ok s =>
    rw [hok] at hresult
    obtain ⟨hs, -, houts⟩ := hresult
    exact hs.plans hg houts

end TensorGraph.Graph
