import TensorGraph.Graph.IdMap

/-!
# Slot tables

A row of slots for nodes, with slots to spare. The number of a node says which slot it wants, and
if that one is taken it gets the next free one. Reading the row slot by slot visits the nodes in an
order that depends on their numbers, and on which came first where two want the same slot. Main
statement: `mem_ids_ofList`, the nodes that are visited are those that were put in.
-/

namespace TensorGraph

/-- A row of `size` slots, and the slots that are taken, in order, with the node of each. -/
structure SlotTable where
  size : Nat := 0
  taken : List (Nat × NodeId) := []
deriving Repr

namespace SlotTable

/-- The slot that a node wants: leading bits of a product that tells neighbours apart. -/
def wantedSlot (size : Nat) (id : NodeId) : Nat :=
  ((UInt64.ofNat (id + 1) * 0xf1357aea2e62a9c5) >>> 38).toNat % size

/-- The nodes, slot by slot. -/
def ids (t : SlotTable) : List NodeId := t.taken.map (·.2)

def isTaken (t : SlotTable) (slot : Nat) : Bool := t.taken.any (·.1 == slot)

/-- The first free slot from `start` on. After the last slot comes the first. -/
def freeSlot (t : SlotTable) (start : Nat) : Nat :=
  let slots := (List.range t.size).map fun k => (start + k) % t.size
  (slots.find? fun slot => !t.isTaken slot).getD start

/-- Gives a slot to a node that has none. -/
def place (t : SlotTable) (id : NodeId) : SlotTable :=
  let slot := t.freeSlot (wantedSlot t.size id)
  { t with taken := t.taken.takeWhile (·.1 < slot) ++ (slot, id) :: t.taken.dropWhile (·.1 < slot) }

/-- How many nodes the table may hold: an eighth of the slots stays free, and at least one. -/
def capacity (t : SlotTable) : Nat := t.size - max 1 (t.size / 8)

/-- A table of twice the size with the same nodes. -/
def widen (t : SlotTable) : SlotTable := t.ids.foldl place { size := max 4 (2 * t.size) }

/-- Puts a node in, and makes room first if the table is full. -/
def insert (t : SlotTable) (id : NodeId) : SlotTable :=
  let t := if t.taken.length < t.capacity then t else t.widen
  if t.ids.contains id then t else t.place id

/-- The table of nodes that came one after the other. -/
def ofList (ids : List NodeId) : SlotTable := ids.foldl insert {}

theorem mem_ids_place (t : SlotTable) (id x : NodeId) :
    x ∈ (t.place id).ids ↔ x = id ∨ x ∈ t.ids := by
  have h : ∀ (l : List (Nat × NodeId)) (p : Nat × NodeId → Bool) (e : Nat × NodeId),
      x ∈ (l.takeWhile p ++ e :: l.dropWhile p).map (·.2) ↔ x = e.2 ∨ x ∈ l.map (·.2) := by
    intro l p e
    induction l with
    | nil => simp
    | cons a l ih =>
      by_cases ha : p a
      · simp only [List.takeWhile_cons, List.dropWhile_cons, ha, if_true, List.cons_append,
          List.map_cons, List.mem_cons, ih]
        exact or_left_comm
      · simp [ha]
  exact h _ _ _

theorem mem_ids_foldl_place (l : List NodeId) (t : SlotTable) (x : NodeId) :
    x ∈ (l.foldl place t).ids ↔ x ∈ l ∨ x ∈ t.ids := by
  induction l generalizing t with
  | nil => simp
  | cons id l ih =>
    rw [List.foldl_cons, ih, mem_ids_place, List.mem_cons, or_left_comm, or_assoc]

theorem mem_ids_widen (t : SlotTable) (x : NodeId) : x ∈ t.widen.ids ↔ x ∈ t.ids := by
  rw [widen, mem_ids_foldl_place]
  simp [ids]

theorem mem_ids_insert (t : SlotTable) (id x : NodeId) :
    x ∈ (t.insert id).ids ↔ x = id ∨ x ∈ t.ids := by
  have h : ∀ u : SlotTable,
      x ∈ (if u.ids.contains id then u else u.place id).ids ↔ x = id ∨ x ∈ u.ids := by
    intro u
    split
    next hc =>
      rw [List.contains_iff_mem] at hc
      exact ⟨.inr, fun hx => hx.elim (fun e => e ▸ hc) fun hm => hm⟩
    next => exact mem_ids_place u id x
  unfold insert
  split
  · exact h t
  · rw [h t.widen, mem_ids_widen]

/-- The nodes that are visited are those that were put in. -/
theorem mem_ids_ofList (l : List NodeId) (x : NodeId) : x ∈ (ofList l).ids ↔ x ∈ l := by
  have h : ∀ t : SlotTable, x ∈ (l.foldl insert t).ids ↔ x ∈ l ∨ x ∈ t.ids := by
    induction l with
    | nil => simp
    | cons id l ih =>
      intro t
      rw [List.foldl_cons, ih, mem_ids_insert, List.mem_cons, or_left_comm, or_assoc]
  rw [ofList, h]
  simp [ids]

end SlotTable

end TensorGraph
