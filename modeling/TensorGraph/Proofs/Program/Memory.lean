import TensorGraph.Program.Run

/-!
# Counted uses

What taking, adding and releasing uses does to a memory. Releasing inputs takes back one use for each
of them (`usesOf_releaseAll`) and keeps every value of which a use remains (`get?_releaseAll`).
-/

namespace TensorGraph.Memory

/-! ## Counting uses -/

theorem usesOf_addUse (m : Memory) (id id' : NodeId) :
    (m.addUse id).usesOf id' = m.usesOf id' + if id' = id then 1 else 0 := by
  by_cases h : id' = id
  · subst h; simp [addUse, usesOf, IdMap.get?_insert]
  · simp [addUse, usesOf, IdMap.get?_insert, h]

theorem usesOf_addUses (ids : List NodeId) (m : Memory) (id : NodeId) :
    (ids.foldl addUse m).usesOf id = m.usesOf id + ids.count id := by
  induction ids generalizing m with
  | nil => simp
  | cons a ids ih =>
    rw [List.foldl_cons, ih, usesOf_addUse, List.count_cons]
    by_cases h : id = a
    · simp [h]; omega
    · simp [h, Ne.symm h]

theorem computed_addUses (ids : List NodeId) (m : Memory) : (ids.foldl addUse m).computed = m.computed := by
  induction ids generalizing m with
  | nil => rfl
  | cons a ids ih => rw [List.foldl_cons, ih]; rfl

@[simp] theorem computed_dropUse (m : Memory) (id : NodeId) : (m.dropUse id).computed = m.computed := by
  unfold dropUse; split <;> rfl

theorem usesOf_dropUse (m : Memory) (id id' : NodeId) :
    (m.dropUse id).usesOf id' = m.usesOf id' - if id' = id then 1 else 0 := by
  unfold dropUse
  split
  · next n hn =>
    by_cases h : id' = id
    · subst h; simp [usesOf, IdMap.get?_insert, hn]
    · simp [usesOf, IdMap.get?_insert, h]
  · next hn =>
    by_cases h : id' = id
    · subst h; simp [usesOf, hn]
    · simp [h]

@[simp] theorem usesOf_free (m : Memory) (id id' : NodeId) : (m.free id).usesOf id' = m.usesOf id' := rfl

theorem get?_free (m : Memory) (id id' : NodeId) :
    (m.free id).computed.get? id' = if id' = id then none else m.computed.get? id' :=
  IdMap.get?_erase ..

theorem usesOf_take (m : Memory) (overwritten : Option (NodeId × Value)) (id : NodeId) :
    (m.take overwritten).usesOf id = m.usesOf id - if overwritten.map (·.1) = some id then 1 else 0 := by
  cases overwritten with
  | none => simp [take]
  | some o =>
    rw [take, usesOf_dropUse, usesOf_free]
    simp [eq_comm]

theorem get?_take (m : Memory) (overwritten : Option (NodeId × Value)) (id : NodeId) :
    (m.take overwritten).computed.get? id =
      if overwritten.map (·.1) = some id then none else m.computed.get? id := by
  cases overwritten with
  | none => simp [take]
  | some o =>
    rw [take, computed_dropUse, get?_free]
    simp [eq_comm]

/-! ## Releasing inputs -/

theorem usesOf_release (frees : Bool) (m : Memory) (id id' : NodeId) :
    (m.release frees id).usesOf id' = m.usesOf id' - if id' = id then 1 else 0 := by
  unfold release
  dsimp only
  split
  · rw [usesOf_free, usesOf_dropUse]
  · exact usesOf_dropUse ..

/-- Releasing an input frees nothing that has another use. -/
theorem get?_release (frees : Bool) (m : Memory) (id id' : NodeId) (h : id' = id → 1 < m.usesOf id) :
    (m.release frees id).computed.get? id' = m.computed.get? id' := by
  unfold release
  dsimp only
  split
  · next hz =>
    rw [get?_free, computed_dropUse]
    split
    · next heq =>
      have hone := h heq
      have hzero : (m.dropUse id).usesOf id = 0 := by
        simp only [Bool.and_eq_true, beq_iff_eq] at hz
        simp [usesOf, hz.2]
      rw [usesOf_dropUse] at hzero
      simp at hzero
      omega
    · rfl
  · rw [computed_dropUse]

theorem get?_release_of_some {frees : Bool} {m : Memory} {id id' : NodeId} {v : Value}
    (h : (m.release frees id).computed.get? id' = some v) : m.computed.get? id' = some v := by
  unfold release at h
  dsimp only at h
  split at h
  · rw [get?_free, computed_dropUse] at h
    split at h
    · cases h
    · exact h
  · rwa [computed_dropUse] at h

theorem usesOf_releaseAll (frees : Bool) (ids : List NodeId) (m : Memory) (id : NodeId) :
    (ids.foldl (release frees) m).usesOf id = m.usesOf id - ids.count id := by
  induction ids generalizing m with
  | nil => simp
  | cons a ids ih =>
    rw [List.foldl_cons, ih, usesOf_release, List.count_cons]
    by_cases h : id = a
    · simp [h]; omega
    · simp [h, Ne.symm h]

/-- Releasing inputs keeps every value of which a use remains. -/
theorem get?_releaseAll (frees : Bool) (ids : List NodeId) (m : Memory) (id : NodeId)
    (h : ids.count id = 0 ∨ ids.count id < m.usesOf id) :
    (ids.foldl (release frees) m).computed.get? id = m.computed.get? id := by
  induction ids generalizing m with
  | nil => rfl
  | cons a ids ih =>
    rw [List.count_cons] at h
    by_cases ha : id = a
    · subst ha
      simp only [beq_self_eq_true, if_true] at h
      rw [List.foldl_cons, ih, get?_release]
      · intro _; omega
      · rw [usesOf_release]; simp; omega
    · rw [List.foldl_cons, ih, get?_release]
      · exact fun heq => absurd heq ha
      · rw [usesOf_release]
        simpa [ha, Ne.symm ha] using h

theorem get?_releaseAll_of_some {frees : Bool} {ids : List NodeId} {m : Memory} {id : NodeId} {v : Value}
    (h : (ids.foldl (release frees) m).computed.get? id = some v) : m.computed.get? id = some v := by
  induction ids generalizing m with
  | nil => exact h
  | cons a ids ih => exact get?_release_of_some (ih h)

end TensorGraph.Memory
