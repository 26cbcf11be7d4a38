/-!
# Maps from node numbers

A finite map, kept as a list with one entry per number. `get?_insert` and `get?_erase` say what the
operations do to look-up.
-/

namespace TensorGraph

/-- The number of a node in a graph. -/
abbrev NodeId := Nat

/-- A finite map from node numbers. -/
structure IdMap (α : Type) where
  entries : List (NodeId × α) := []
deriving Repr

namespace IdMap

variable {α : Type}

instance : Inhabited (IdMap α) := ⟨{}⟩

def empty : IdMap α := {}

def get? (m : IdMap α) (id : NodeId) : Option α := m.entries.lookup id

def contains (m : IdMap α) (id : NodeId) : Bool := (m.get? id).isSome

def erase (m : IdMap α) (id : NodeId) : IdMap α := ⟨m.entries.filter (·.1 != id)⟩

def insert (m : IdMap α) (id : NodeId) (a : α) : IdMap α := ⟨(id, a) :: (m.erase id).entries⟩

/-- Inserts one entry after the other. -/
def insertAll (m : IdMap α) (entries : List (NodeId × α)) : IdMap α :=
  entries.foldl (fun m e => m.insert e.1 e.2) m

@[simp] theorem get?_empty (id : NodeId) : (empty : IdMap α).get? id = none := rfl

theorem get?_mk_cons (k : NodeId) (a : α) (es : List (NodeId × α)) (id : NodeId) :
    (IdMap.mk ((k, a) :: es)).get? id = if id = k then some a else (IdMap.mk es).get? id := by
  by_cases h : id = k
  · simp [get?, h]
  · simp [get?, List.lookup_cons, beq_eq_false_iff_ne.2 h, h]

theorem get?_erase (m : IdMap α) (id id' : NodeId) :
    (m.erase id).get? id' = if id' = id then none else m.get? id' := by
  obtain ⟨entries⟩ := m
  induction entries with
  | nil => simp [erase, get?]
  | cons e es ih =>
    obtain ⟨k, a⟩ := e
    by_cases hk : k = id
    · subst hk
      have : (IdMap.mk ((k, a) :: es)).erase k = (IdMap.mk es).erase k := by simp [erase]
      rw [this, ih, get?_mk_cons]
      split <;> rfl
    · have : (IdMap.mk ((k, a) :: es)).erase id
          = ⟨(k, a) :: ((IdMap.mk es).erase id).entries⟩ := by simp [erase, hk]
      rw [this, get?_mk_cons, get?_mk_cons, ih]
      by_cases h : id' = k
      · simp [h, hk]
      · simp [h]

theorem get?_insert (m : IdMap α) (id id' : NodeId) (a : α) :
    (m.insert id a).get? id' = if id' = id then some a else m.get? id' := by
  rw [insert, get?_mk_cons, get?_erase]
  split <;> rfl

end IdMap

end TensorGraph
