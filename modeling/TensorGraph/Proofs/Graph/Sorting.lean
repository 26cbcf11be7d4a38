import Mathlib.Algebra.BigOperators.Group.List.Basic
import Mathlib.Data.List.Perm.Subperm
import TensorGraph.Graph.Order
import TensorGraph.Proofs.Graph.Dependence
import TensorGraph.Proofs.Sequence

/-!
# Topological order

Sorting takes operators whose inputs are all there, and counts for the others how many are missing. It takes all
operators exactly if no value depends on itself (`exists_topologicalOrder`).
-/

namespace TensorGraph

namespace IdMap

variable {α : Type} {m : IdMap α}

theorem entries_eq_nil : m.entries = [] ↔ ∀ id, m.get? id = none := by
  obtain ⟨entries⟩ := m
  cases entries with
  | nil => simp [IdMap.get?]
  | cons e es =>
    refine iff_of_false (List.cons_ne_nil _ _) fun h => ?_
    have hfirst := h e.1
    rw [get?_mk_cons e.1 e.2] at hfirst
    simp at hfirst

theorem mem_keys {id : NodeId} : id ∈ m.entries.map (·.1) ↔ (m.get? id).isSome := by
  rw [get?, List.lookup_isSome_iff, List.mem_map]
  refine exists_congr fun e => and_congr_right fun _ => ?_
  rw [beq_iff_eq]
  exact eq_comm

theorem Distinct.get?_eq_some (h : m.Distinct) {id : NodeId} {a : α} :
    m.get? id = some a ↔ (id, a) ∈ m.entries :=
  ⟨mem_of_lookup, lookup_of_nodup h⟩

end IdMap

namespace Graph

variable {g : Graph} {taken ready : List NodeId} {pending : IdMap Nat} {id : NodeId}

/-- The number of an operator's inputs that are produced by operators which were not taken. -/
def missing (g : Graph) (taken : List NodeId) (id : NodeId) : Nat :=
  (g.inputsOf id).countP fun v => (g.source? v).any fun source => !taken.contains source

/-- What holds of the operators that were taken, those that can be taken next, and the counts for the others. -/
structure Sorts (g : Graph) (taken ready : List NodeId) (pending : IdMap Nat) : Prop where
  nodup : (taken ++ ready).Nodup
  mem_iff : ∀ id, id ∈ taken ++ ready ↔ (g.operator? id).isSome ∧ g.missing taken id = 0
  pending : ∀ id, pending.get? id = if g.missing taken id = 0 then none else some (g.missing taken id)
  founded : ∀ id ∈ taken, ∀ v ∈ g.outputsOf id, Acc g.Computes v

/-! ## Missing inputs -/

theorem missing_eq_zero (hg : g.Indexed) :
    g.missing taken id = 0 ↔ ∀ v ∈ g.inputsOf id, ∀ source, v ∈ g.outputsOf source → source ∈ taken := by
  simp only [missing, List.countP_eq_zero]
  refine forall₂_congr fun v _ => ?_
  cases hsource : g.source? v with
  | none => simpa using fun source hv => absurd hv (hg.source?_eq_none.1 hsource source)
  | some source =>
    have hv := hg.source?_eq_some.1 hsource
    constructor
    · intro h other hother
      simpa [hg.producer_unique hother hv] using h
    · intro h
      simpa using h source hv

theorem isSome_operator?_of_missing (h : g.missing taken id ≠ 0) : (g.operator? id).isSome := by
  obtain ⟨v, hv, -⟩ := List.countP_pos_iff.1 (Nat.pos_of_ne_zero h)
  exact isSome_operator?_of_mem_inputsOf hv

/-- An operator that is taken is no longer missing where its outputs are read. -/
theorem missing_cons (hg : g.Indexed) (hid : id ∉ taken) (c : NodeId) :
    g.missing (id :: taken) c + (g.inputsOf c).countP (· ∈ g.outputsOf id) = g.missing taken c := by
  unfold missing
  induction g.inputsOf c with
  | nil => rfl
  | cons v inputs ih =>
    simp only [List.countP_cons]
    have hv : (if (g.source? v).any (fun source => !(id :: taken).contains source) then 1 else 0) +
        (if decide (v ∈ g.outputsOf id) then 1 else 0) =
        if (g.source? v).any (fun source => !taken.contains source) then 1 else 0 := by
      cases hsource : g.source? v with
      | none => simpa using hg.source?_eq_none.1 hsource id
      | some source =>
        have hmem : v ∈ g.outputsOf id ↔ source = id := by
          rw [← hg.source?_eq_some, hsource, Option.some.injEq]
        by_cases hsame : source = id
        · simp [hmem, hsame, hid]
        · simp [hmem, hsame]
    omega

/-- How often an operator is told that outputs of another one are available. -/
theorem count_consumers (hg : g.Indexed) {outputs : List NodeId} (hnodup : outputs.Nodup) (c : NodeId) :
    (outputs.flatMap g.consumersOf).count c = (g.inputsOf c).countP (· ∈ outputs) := by
  induction outputs with
  | nil => simp
  | cons output outputs ih =>
    obtain ⟨hnot, hnodup⟩ := List.nodup_cons.1 hnodup
    rw [List.flatMap_cons, List.count_append, hg.consumers, ih hnodup]
    induction g.inputsOf c with
    | nil => rfl
    | cons v inputs ih =>
      simp only [List.countP_cons, List.count_cons]
      by_cases hv : v = output
      · simp [hv, hnot]
        simp at ih
        omega
      · simp [hv]
        simp at ih
        omega

/-! ## Arrivals -/

/-- What is left of a count after some inputs have arrived. -/
def countDown (count : Option Nat) (arrived : Nat) : Option Nat :=
  count.bind fun n => if n ≤ arrived then none else some (n - arrived)

/-- The operators that no longer wait have no count, and each is listed once. -/
structure Waiting.Apart (w : Waiting) : Prop where
  positive : ∀ c n, w.pending.get? c = some n → 0 < n
  released : ∀ c ∈ w.released, w.pending.get? c = none
  nodup : w.released.Nodup

theorem Waiting.get?_arrive (w : Waiting) (a c : NodeId) :
    (w.arrive a).pending.get? c = if c = a then countDown (w.pending.get? c) 1 else w.pending.get? c := by
  unfold Waiting.arrive countDown
  by_cases hc : c = a
  · subst hc
    cases h : w.pending.get? c with
    | none => simp [h]
    | some n =>
      by_cases hn : n ≤ 1
      · simp [hn, IdMap.get?_erase]
      · simp [hn, IdMap.get?_insert]
  · cases h : w.pending.get? a with
    | none => simp [hc]
    | some n =>
      by_cases hn : n ≤ 1
      · simp [hn, hc, IdMap.get?_erase]
      · simp [hn, hc, IdMap.get?_insert]

theorem Waiting.released_arrive (w : Waiting) (a : NodeId) :
    (w.arrive a).released = w.released ++ if (w.pending.get? a).any (· ≤ 1) then [a] else [] := by
  unfold Waiting.arrive
  cases h : w.pending.get? a with
  | none => simp
  | some n =>
    by_cases hn : n ≤ 1
    · simp [hn]
    · simp [hn]

theorem Waiting.Apart.arrive {w : Waiting} (h : w.Apart) (a : NodeId) : (w.arrive a).Apart := by
  refine ⟨fun c n hn => ?_, fun c hc => ?_, ?_⟩
  · rw [w.get?_arrive] at hn
    split at hn
    · cases hcount : w.pending.get? c with
      | none => simp [hcount, countDown] at hn
      | some m =>
        have := h.positive c m hcount
        simp [hcount, countDown] at hn
        omega
    · exact h.positive c n hn
  · rw [w.released_arrive] at hc
    rw [w.get?_arrive]
    rcases List.mem_append.1 hc with hc | hc
    · rw [h.released c hc]
      simp [countDown]
    · split at hc
      · next hany =>
        rw [List.mem_singleton.1 hc, if_pos rfl]
        cases hcount : w.pending.get? a with
        | none => rfl
        | some n => simpa [hcount, countDown] using hany
      · cases hc
  · rw [w.released_arrive]
    split
    · next hany =>
      refine List.nodup_append.2 ⟨h.nodup, List.nodup_singleton a, fun b hb c hc hbc => ?_⟩
      rw [List.mem_singleton] at hc
      rw [← hc, ← hbc, h.released b hb] at hany
      cases hany
    · simpa using h.nodup

theorem Waiting.Apart.arriveAll {w : Waiting} (h : w.Apart) (arrivals : List NodeId) :
    (arrivals.foldl Waiting.arrive w).Apart := by
  induction arrivals generalizing w with
  | nil => exact h
  | cons a arrivals ih => exact ih (h.arrive a)

theorem countDown_countDown (count : Option Nat) (a b : Nat) :
    countDown (countDown count a) b = countDown count (a + b) := by
  cases count with
  | none => rfl
  | some n =>
    unfold countDown
    by_cases ha : n ≤ a
    · simp [ha, Nat.le_trans ha (Nat.le_add_right a b)]
    · by_cases hb : n - a ≤ b
      · simp [ha, hb, Nat.sub_le_iff_le_add'.1 hb]
      · have : ¬n ≤ a + b := by omega
        simp [ha, hb, this, Nat.sub_sub]

/-- The count for an operator after inputs have arrived. -/
theorem Waiting.Apart.get?_arriveAll {w : Waiting} (h : w.Apart) (arrivals : List NodeId) (c : NodeId) :
    (arrivals.foldl Waiting.arrive w).pending.get? c = countDown (w.pending.get? c) (arrivals.count c) := by
  induction arrivals generalizing w with
  | nil =>
    cases hc : w.pending.get? c with
    | none => simp [countDown, hc]
    | some n => simp [countDown, hc, Nat.pos_iff_ne_zero.1 (h.positive c n hc)]
  | cons a arrivals ih =>
    rw [List.foldl_cons, ih (h.arrive a), w.get?_arrive, List.count_cons]
    by_cases hc : c = a
    · simp [hc, countDown_countDown, Nat.add_comm]
    · simp [hc, Ne.symm hc]

/-- Operators no longer wait once they have no count left. -/
theorem Waiting.Apart.mem_released_arriveAll {w : Waiting} (h : w.Apart) (arrivals : List NodeId) (c : NodeId) :
    c ∈ (arrivals.foldl Waiting.arrive w).released ↔ c ∈ w.released ∨
      (w.pending.get? c).isSome ∧ countDown (w.pending.get? c) (arrivals.count c) = none := by
  induction arrivals generalizing w with
  | nil =>
    cases hc : w.pending.get? c with
    | none => simp
    | some n => simp [countDown, Nat.pos_iff_ne_zero.1 (h.positive c n hc)]
  | cons a arrivals ih =>
    rw [List.foldl_cons, ih (h.arrive a), w.get?_arrive, w.released_arrive, List.count_cons]
    by_cases hc : c = a
    · subst hc
      rw [if_pos rfl, countDown_countDown]
      cases hcount : w.pending.get? c with
      | none => simp [countDown]
      | some n =>
        by_cases hn : n ≤ 1
        · simp [hn, countDown, Nat.le_trans hn (Nat.le_add_left 1 _)]
        · simp [hn, countDown, Nat.add_comm]
    · simp only [hc, Ne.symm hc, beq_iff_eq, if_false, Nat.add_zero, List.mem_append]
      refine or_congr_left (or_iff_left fun hmem => ?_)
      split at hmem
      · exact hc (List.mem_singleton.1 hmem)
      · cases hmem

/-! ## Sorting -/

theorem acc_of_no_source {v : NodeId} (h : ∀ source, v ∉ g.outputsOf source) : Acc g.Computes v :=
  ⟨v, fun _ ⟨source, _, hv⟩ => absurd hv (h source)⟩

theorem acc_of_inputs (hg : g.Indexed) {v : NodeId} (hv : v ∈ g.outputsOf id)
    (h : ∀ u ∈ g.inputsOf id, Acc g.Computes u) : Acc g.Computes v :=
  ⟨v, fun u ⟨_, hu, hv'⟩ => h u (hg.producer_unique hv' hv ▸ hu)⟩

theorem Sorts.subset (h : g.Sorts taken ready pending) : taken ++ ready ⊆ g.operatorIds :=
  fun id hid => mem_operatorIds.2 ((h.mem_iff id).1 hid).1

theorem countDown_missing {a b : Nat} (k : Nat) (h : a + k = b) :
    countDown (if b = 0 then none else some b) k = if a = 0 then none else some a := by
  unfold countDown
  by_cases hb : b = 0
  · have : a = 0 := by omega
    simp [hb, this]
  · by_cases ha : a = 0
    · have : b ≤ k := by omega
      simp [hb, ha, this]
    · have hle : ¬b ≤ k := by omega
      have hsub : b - k = a := by omega
      simp [hb, ha, hle, hsub]

/-- No operator is ready at the time at which the operators that wait are counted. -/
theorem Sorts.apart (h : g.Sorts taken ready pending) : Waiting.Apart { pending } := by
  refine ⟨fun c n hn => ?_, fun c hc => (by cases hc), List.nodup_nil⟩
  have := h.pending c
  rw [hn] at this
  split at this
  · cases this
  · next hne =>
    cases this
    exact Nat.pos_of_ne_zero hne

/-- Taking an operator releases those for which nothing else is missing. -/
theorem Sorts.mem_released (h : g.Sorts taken ready pending) {arrivals : List NodeId} {c : NodeId}
    (hcount : g.missing (id :: taken) c + arrivals.count c = g.missing taken c) :
    c ∈ (arrivals.foldl Waiting.arrive { pending }).released ↔
      g.missing taken c ≠ 0 ∧ g.missing (id :: taken) c = 0 := by
  rw [h.apart.mem_released_arriveAll arrivals c, h.pending c, countDown_missing _ hcount]
  by_cases hzero : g.missing taken c = 0
  · simp [hzero]
  · by_cases hzero' : g.missing (id :: taken) c = 0
    · simp [hzero, hzero']
    · simp [hzero, hzero']

/-- The outputs of an operator that is ready are founded on those of the operators that were taken. -/
theorem Sorts.acc_of_ready (hg : g.Indexed) (h : g.Sorts taken ready pending) (hzero : g.missing taken id = 0)
    {v : NodeId} (hv : v ∈ g.outputsOf id) : Acc g.Computes v := by
  refine acc_of_inputs hg hv fun u hu => ?_
  by_cases hsource : ∃ source, u ∈ g.outputsOf source
  · obtain ⟨source, hsource⟩ := hsource
    exact h.founded source ((missing_eq_zero hg).1 hzero u hu source hsource) u hsource
  · exact acc_of_no_source fun source hu => hsource ⟨source, hu⟩

/-- Taking an operator makes its outputs available to others. -/
theorem Sorts.take (hg : g.Indexed) (hnodup : ∀ id, (g.outputsOf id).Nodup)
    (h : g.Sorts taken (id :: ready) pending) :
    g.Sorts (id :: taken)
      ((((g.outputsOf id).flatMap g.consumersOf).foldl Waiting.arrive { pending }).released.mergeSort ++ ready)
      (((g.outputsOf id).flatMap g.consumersOf).foldl Waiting.arrive { pending }).pending := by
  have hmiddle : (taken ++ id :: ready).Perm (id :: (taken ++ ready)) := List.perm_middle
  obtain ⟨hnot, hrest⟩ := List.nodup_cons.1 (hmiddle.nodup_iff.1 h.nodup)
  have hid : id ∉ taken := fun hmem => hnot (List.mem_append_left _ hmem)
  generalize harrivals : (g.outputsOf id).flatMap g.consumersOf = arrivals
  have hcount (c : NodeId) : g.missing (id :: taken) c + arrivals.count c = g.missing taken c := by
    rw [← harrivals, count_consumers hg (hnodup id), missing_cons hg hid]
  have hreleased (c : NodeId) := h.mem_released (hcount c)
  have hmem (c : NodeId) : c ∈ id :: (taken ++ ready) ↔ (g.operator? c).isSome ∧ g.missing taken c = 0 := by
    rw [← h.mem_iff, hmiddle.mem_iff]
  -- Up to their order, the operators afterwards are those before and the released ones.
  have hperm : (id :: taken ++ ((arrivals.foldl Waiting.arrive { pending }).released.mergeSort ++ ready)).Perm
      ((arrivals.foldl Waiting.arrive { pending }).released ++ id :: (taken ++ ready)) :=
    (List.perm_append_comm_assoc (id :: taken) _ ready).trans ((List.mergeSort_perm _ _).append_right _)
  constructor
  case nodup =>
    refine hperm.nodup_iff.2 (List.nodup_append.2 ⟨(h.apart.arriveAll arrivals).nodup,
      List.nodup_cons.2 ⟨hnot, hrest⟩, fun a ha b hb hab => ?_⟩)
    exact ((hreleased a).1 ha).1 ((hmem a).1 (hab ▸ hb)).2
  case mem_iff =>
    intro c
    rw [hperm.mem_iff, List.mem_append, hreleased, hmem]
    have := hcount c
    by_cases hzero : g.missing taken c = 0
    · have : g.missing (id :: taken) c = 0 := by omega
      simp [hzero, this]
    · simpa [hzero] using fun _ => isSome_operator?_of_missing hzero
  case pending =>
    intro c
    rw [h.apart.get?_arriveAll, h.pending c, countDown_missing _ (hcount c)]
  case founded =>
    intro a ha v hv
    rcases List.mem_cons.1 ha with rfl | ha
    · exact h.acc_of_ready hg ((hmem a).1 (List.mem_cons_self ..)).2 hv
    · exact h.founded a ha v hv

/-- Once nothing more can be taken, no counts are left exactly if no value depends on itself. -/
theorem Sorts.finished (hg : g.Indexed) (h : g.Sorts taken [] pending) : pending.entries = [] ↔ g.Acyclic := by
  have hempty : pending.entries = [] ↔ ∀ id, g.missing taken id = 0 := by
    rw [IdMap.entries_eq_nil]
    refine forall_congr' fun id => ?_
    rw [h.pending]
    split <;> simp [*]
  have hall : ∀ {source : NodeId} {v}, v ∈ g.outputsOf source → g.missing taken source = 0 → source ∈ taken := by
    intro source v hv hzero
    have := (h.mem_iff source).2 ⟨isSome_operator?_of_mem_outputsOf hv, hzero⟩
    simpa using this
  rw [hempty, acyclic_iff_wellFounded]
  constructor
  · intro hzero
    refine ⟨fun v => ?_⟩
    by_cases hsource : ∃ source, v ∈ g.outputsOf source
    · obtain ⟨source, hv⟩ := hsource
      exact h.founded source (hall hv (hzero source)) v hv
    · exact acc_of_no_source fun source hv => hsource ⟨source, hv⟩
  · intro hwf
    -- An operator that waits reads an output of another one that waits, and so on.
    have hnone : ∀ v source, v ∈ g.outputsOf source → g.missing taken source = 0 := by
      intro v
      induction v using hwf.induction with
      | _ v ih =>
        intro source hv
        refine (missing_eq_zero hg).2 fun u hu other hother => ?_
        exact hall hother (ih u ⟨source, hu, hv⟩ other hother)
    exact fun id => (missing_eq_zero hg).2 fun u _ other hother => hall hother (hnone u other hother)

/-- Sorting ends when nothing more can be taken. -/
theorem Sorts.sortReady (hg : g.Indexed) (hnodup : ∀ id, (g.outputsOf id).Nodup) (h : g.Sorts taken ready pending)
    {fuel : Nat} (hfuel : taken.length + fuel = g.operatorCount) :
    g.Sorts ((g.sortReady fuel ready pending).1.reverse ++ taken) [] (g.sortReady fuel ready pending).2 := by
  induction fuel generalizing taken ready pending with
  | zero =>
    have hlength := (List.subperm_of_subset h.nodup h.subset).length_le
    have hready : ready = [] := by
      rw [List.length_append] at hlength
      unfold operatorCount at hfuel
      exact List.eq_nil_of_length_eq_zero (by omega)
    subst hready
    exact h
  | succ fuel ih =>
    cases ready with
    | nil => exact h
    | cons id ready =>
      have hnext := ih (h.take hg hnodup) (by rw [List.length_cons]; omega)
      simpa [Graph.sortReady, outputsOf] using hnext

/-! ## Counts at the start -/

theorem nodup_operators (g : Graph) : (g.operators.map (·.1)).Nodup := by
  have hsub : (g.operators.map (·.1)).Sublist g.ids := by
    unfold operators
    induction g.ids with
    | nil => exact List.Sublist.slnil
    | cons id ids ih =>
      cases h : g.operator? id with
      | none => simpa [h] using ih.cons id
      | some op => simpa [h] using ih.cons_cons id
  exact hsub.nodup (List.nodup_range.filter _)

theorem missing_nil {op : OperatorNode} (h : g.operator? id = some op) : g.missing [] id = g.pendingCount op := by
  unfold missing pendingCount
  rw [inputsOf_of_operator? h]
  refine List.countP_congr fun v _ => ?_
  cases g.source? v <;> simp

theorem mem_pendingCounts {n : Nat} : (id, n) ∈ g.operators.map (fun p => (p.1, g.pendingCount p.2)) ↔
    (g.operator? id).isSome ∧ g.missing [] id = n := by
  rw [List.mem_map]
  constructor
  · rintro ⟨⟨id', op⟩, hop, heq⟩
    obtain ⟨rfl, rfl⟩ := Prod.mk.inj heq
    have hop := mem_operators.1 hop
    exact ⟨by simp [hop], missing_nil hop⟩
  · rintro ⟨hsome, rfl⟩
    obtain ⟨op, hop⟩ := Option.isSome_iff_exists.1 hsome
    exact ⟨(id, op), mem_operators.2 hop, by rw [missing_nil hop]⟩

theorem sorts_start (g : Graph) : g.Sorts []
    (((g.operators.map fun p => (p.1, g.pendingCount p.2)).filter (·.2 == 0)).map (·.1))
    ⟨(g.operators.map fun p => (p.1, g.pendingCount p.2)).filter (·.2 != 0)⟩ := by
  have hkeys : ((g.operators.map fun p => (p.1, g.pendingCount p.2)).map (·.1)).Nodup := by
    simpa [Function.comp_def] using nodup_operators g
  refine ⟨(List.filter_sublist.map _).nodup hkeys, fun id => ?_, fun id => ?_, by simp⟩
  · simp only [List.nil_append, List.mem_map, List.mem_filter]
    constructor
    · rintro ⟨⟨id', n⟩, ⟨hmem, hzero⟩, rfl⟩
      obtain ⟨hsome, rfl⟩ := mem_pendingCounts.1 (List.mem_map.2 hmem)
      exact ⟨hsome, by simpa using hzero⟩
    · rintro ⟨hsome, hzero⟩
      exact ⟨(id, 0), ⟨List.mem_map.1 (mem_pendingCounts.2 ⟨hsome, hzero⟩), rfl⟩, rfl⟩
  · refine Option.ext fun n => ?_
    rw [IdMap.Distinct.get?_eq_some ((List.filter_sublist.map _).nodup hkeys), List.mem_filter, mem_pendingCounts]
    by_cases hzero : g.missing [] id = 0
    · simp only [hzero, if_true, bne_iff_ne, reduceCtorEq, iff_false]
      rintro ⟨⟨-, rfl⟩, hne⟩
      exact hne rfl
    · rw [if_neg hzero, Option.some.injEq]
      constructor
      · rintro ⟨⟨-, hn⟩, -⟩
        exact hn
      · rintro rfl
        exact ⟨⟨isSome_operator?_of_missing hzero, rfl⟩, by simpa using hzero⟩

/-- Sorting succeeds exactly if no value depends on itself. -/
theorem exists_topologicalOrder (hg : g.Indexed) (hnodup : ∀ id, (g.outputsOf id).Nodup) :
    (∃ order, g.topologicalOrder = .ok order) ↔ g.Acyclic := by
  rw [← ((sorts_start g).sortReady hg hnodup (Nat.zero_add _)).finished hg]
  unfold topologicalOrder
  dsimp only
  generalize g.sortReady _ _ _ = sorted
  obtain ⟨order, pending⟩ := sorted
  cases hmin : (pending.entries.map (·.1)).min? with
  | none => simpa using hmin
  | some id =>
    have : pending.entries ≠ [] := by
      intro hnil
      simp [hnil] at hmin
    simpa [hmin] using this

/-! ## Orders without repetitions -/

/-- Operators that can be taken do not wait, and each is listed once. -/
structure Separates (ready : List NodeId) (pending : IdMap Nat) : Prop where
  nodup : ready.Nodup
  apart : ∀ id ∈ ready, pending.get? id = none
  positive : ∀ id n, pending.get? id = some n → 0 < n

/-- Operators that no longer wait can be taken, and nothing else becomes ready or waits. -/
theorem Separates.take (h : Separates (id :: ready) pending) (arrivals : List NodeId) {w : Waiting}
    (hw : arrivals.foldl Waiting.arrive { pending } = w) : Separates (w.released.mergeSort ++ ready) w.pending ∧
      ∀ c, c ∈ w.released.mergeSort ++ ready ∨ (w.pending.get? c).isSome → c ∈ ready ∨ (pending.get? c).isSome := by
  have hstart : Waiting.Apart { pending } := ⟨h.positive, fun c hc => (by cases hc), List.nodup_nil⟩
  have hapart : w.Apart := hw ▸ hstart.arriveAll arrivals
  have hcount (c : NodeId) : w.pending.get? c = countDown (pending.get? c) (arrivals.count c) :=
    hw ▸ hstart.get?_arriveAll arrivals c
  have hreleased (c : NodeId) (hc : c ∈ w.released) : (pending.get? c).isSome := by
    rw [← hw] at hc
    rcases (hstart.mem_released_arriveAll arrivals c).1 hc with hc | hc
    · cases hc
    · exact hc.1
  have hnone (c : NodeId) (hc : c ∈ ready) : pending.get? c = none := h.apart c (List.mem_cons_of_mem _ hc)
  refine ⟨⟨?_, fun c hc => ?_, hapart.positive⟩, fun c hc => ?_⟩
  · refine List.nodup_append.2 ⟨(List.mergeSort_perm _ _).nodup_iff.2 hapart.nodup, (List.nodup_cons.1 h.nodup).2,
      fun a ha b hb hab => ?_⟩
    have hsome := hreleased a (List.mem_mergeSort.1 ha)
    rw [hab, hnone b hb] at hsome
    cases hsome
  · rcases List.mem_append.1 hc with hc | hc
    · exact hapart.released c (List.mem_mergeSort.1 hc)
    · rw [hcount, hnone c hc]
      rfl
  · rcases hc with hc | hc
    · rcases List.mem_append.1 hc with hc | hc
      · exact .inr (hreleased c (List.mem_mergeSort.1 hc))
      · exact .inl hc
    · rw [hcount] at hc
      exact .inr (Option.isSome_of_isSome_bind hc)

theorem Separates.sortReady (h : Separates ready pending) (fuel : Nat) :
    (g.sortReady fuel ready pending).1.Nodup ∧
      ∀ c ∈ (g.sortReady fuel ready pending).1, c ∈ ready ∨ (pending.get? c).isSome := by
  induction fuel generalizing ready pending with
  | zero => exact ⟨List.nodup_nil, fun c hc => (by cases hc)⟩
  | succ fuel ih =>
    cases ready with
    | nil => exact ⟨List.nodup_nil, fun c hc => (by cases hc)⟩
    | cons id ready =>
      obtain ⟨hnext, hfrom⟩ := h.take ((((g.operator? id).map (·.outputs)).getD []).flatMap g.consumersOf) rfl
      obtain ⟨hnodup, hmem⟩ := ih hnext
      have hlater (c : NodeId) (hc : c ∈ _) := hfrom c (hmem c hc)
      refine ⟨List.nodup_cons.2 ⟨fun hid => ?_, hnodup⟩, fun c hc => ?_⟩
      · rcases hlater id hid with hid | hid
        · exact (List.nodup_cons.1 h.nodup).1 hid
        · rw [h.apart id List.mem_cons_self] at hid
          cases hid
      · rcases List.mem_cons.1 hc with rfl | hc
        · exact .inl List.mem_cons_self
        · exact (hlater c hc).imp_left (List.mem_cons_of_mem _)

/-- Sorting lists no operator twice, whatever the edge indexes are. -/
theorem nodup_topologicalOrder {order : List NodeId} (h : g.topologicalOrder = .ok order) : order.Nodup := by
  have hstart := sorts_start g
  have hseparates : Separates (((g.operators.map fun p => (p.1, g.pendingCount p.2)).filter (·.2 == 0)).map (·.1))
      ⟨(g.operators.map fun p => (p.1, g.pendingCount p.2)).filter (·.2 != 0)⟩ := by
    refine ⟨by simpa using hstart.nodup, fun id hid => ?_, fun id n hn => ?_⟩
    · rw [hstart.pending, if_pos ((hstart.mem_iff id).1 hid).2]
    · rw [hstart.pending] at hn
      split at hn
      · cases hn
      · next hne =>
        cases hn
        exact Nat.pos_of_ne_zero hne
  have hnodup := (hseparates.sortReady (g := g) g.operatorCount).1
  unfold topologicalOrder at h
  dsimp only at h
  split at h
  · cases h
  · cases h
    exact hnodup

end Graph

end TensorGraph
