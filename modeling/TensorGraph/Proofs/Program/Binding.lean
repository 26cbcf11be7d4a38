import Mathlib.Data.List.Forall2
import TensorGraph.CompiledFunction
import TensorGraph.Proofs.Sequence

/-!
# Bound inputs

What binding the inputs of a program leaves in the map of symbols: every named dimension of a declared shape has
the size that the input has there, and no other names occur.
-/

namespace TensorGraph

/-- Whether a dimension has the given size, when named dimensions have the sizes of the map. -/
def Dimension.Holds (m : SymbolMap) (n : Nat) : Dimension → Prop
  | .fixed size => n = size
  | .symbolic name => ∃ w, m.get? name = some w ∧ w.toInt = n

namespace SymbolMap

variable {m m' : SymbolMap}

/-- Whether a map keeps all entries of another one, and has further entries only for the given names. -/
structure Grows (m m' : SymbolMap) (names : String → Prop) : Prop where
  keeps : ∀ name w, m.get? name = some w → m'.get? name = some w
  adds : ∀ name w, m'.get? name = some w → m.get? name = some w ∨ names name ∧ 0 ≤ w.toInt

theorem Grows.refl (m : SymbolMap) (names : String → Prop) : m.Grows m names := ⟨fun _ _ h => h, fun _ _ h => .inl h⟩

theorem Grows.trans {m₁ m₂ m₃ : SymbolMap} {names : String → Prop} (h₁ : m₁.Grows m₂ names)
    (h₂ : m₂.Grows m₃ names) : m₁.Grows m₃ names := by
  refine ⟨fun name w h => h₂.keeps name w (h₁.keeps name w h), fun name w h => ?_⟩
  rcases h₂.adds name w h with h | h
  · exact h₁.adds name w h
  · exact .inr h

theorem Grows.imp {names names' : String → Prop} (h : m.Grows m' names) (himp : ∀ name, names name → names' name) :
    m.Grows m' names' :=
  ⟨h.keeps, fun name w hw => (h.adds name w hw).imp_right fun hn => ⟨himp name hn.1, hn.2⟩⟩

theorem get?_insert_new {name : String} (w : Int32) (h : m.get? name = none) (name' : String) :
    (m.insert name w).get? name' = if name' = name then some w else m.get? name' := by
  rw [insert, h, if_neg (by simp), get?, List.lookup_append]
  by_cases hname : name' = name
  · subst hname
    rw [get?] at h
    simp [h]
  · rw [if_neg hname, List.lookup_cons, beq_eq_false_iff_ne.2 hname]
    cases hlook : m.entries.lookup name' <;> simp [get?, hlook]

end SymbolMap

theorem Dimension.Holds.grows {m m' : SymbolMap} {names : String → Prop} {d : Dimension} {n : Nat} (h : d.Holds m n)
    (hgrows : m.Grows m' names) : d.Holds m' n := by
  cases d with
  | fixed size => exact h
  | symbolic name =>
    obtain ⟨w, hw, hn⟩ := h
    exact ⟨w, hgrows.keeps name w hw, hn⟩

namespace SymbolMap

variable {m m' : SymbolMap}

theorem bindDimension_eq_ok {dim : Dimension} {i n : Nat} (h : bindDimension m dim i n = .ok m') :
    dim.Holds m' n ∧ m.Grows m' fun name => dim = .symbolic name := by
  unfold bindDimension at h
  split at h
  · split at h
    · next hsize =>
      cases h
      exact ⟨hsize, .refl _ _⟩
    · cases h
  · next name =>
    split at h
    · cases h
    · next w hw =>
      have hword : w.toInt = n := Word.ofInt?_eq_some_iff.1 hw
      split at h
      · next hnone =>
        cases h
        refine ⟨⟨w, by rw [get?_insert_new w hnone, if_pos rfl], hword⟩, fun name' w' h' => ?_, fun name' w' h' => ?_⟩
        · rw [get?_insert_new w hnone, if_neg, h']
          rintro rfl
          rw [hnone] at h'
          cases h'
        · rw [get?_insert_new w hnone] at h'
          split at h'
          · next heq =>
            cases h'
            exact .inr ⟨by rw [heq], by omega⟩
          · exact .inl h'
      · next bound hbound =>
        split at h
        · next heq =>
          cases h
          exact ⟨⟨w, heq ▸ hbound, hword⟩, .refl _ _⟩
        · cases h

theorem bindShape_go {dims : List Dimension} {shape : List Nat} (hlen : dims.length = shape.length) (start : Nat)
    (h : ((dims.zip shape).zipIdx start).foldlM (fun m ((dim, size), i) => bindDimension m dim i size) m = .ok m') :
    List.Forall₂ (fun d n => Dimension.Holds m' n d) dims shape ∧ m.Grows m' fun name => .symbolic name ∈ dims := by
  induction dims generalizing shape start m with
  | nil =>
    obtain rfl : shape = [] := List.length_eq_zero_iff.1 hlen.symm
    cases h
    exact ⟨.nil, .refl _ _⟩
  | cons d dims ih =>
    cases shape with
    | nil => cases hlen
    | cons n shape =>
      rw [List.zip_cons_cons, List.zipIdx_cons] at h
      obtain ⟨next, hnext, hrest⟩ := bind_eq_ok.1 h
      obtain ⟨hd, hgrows⟩ := bindDimension_eq_ok hnext
      obtain ⟨hdims, hgrows'⟩ := ih (Nat.succ.inj hlen) _ hrest
      refine ⟨.cons (hd.grows hgrows') hdims, (hgrows.imp ?_).trans (hgrows'.imp ?_)⟩
      · rintro name rfl
        exact List.mem_cons_self ..
      · exact fun name hname => List.mem_cons_of_mem _ hname

theorem bindShape_eq_ok {dims : List Dimension} {shape : List Nat} (h : bindShape m dims shape = .ok m') :
    List.Forall₂ (fun d n => Dimension.Holds m' n d) dims shape ∧ m.Grows m' fun name => .symbolic name ∈ dims := by
  unfold bindShape at h
  split at h
  · cases h
  · next hlen => exact bindShape_go (Decidable.not_not.1 hlen) 0 h

theorem bindValue_eq_ok {node : ValueNode} {v : Value} (h : bindValue m node v = .ok m') :
    (∀ t, node.type = some t → v.type = t) ∧
      (∀ dims, node.shape = some dims → List.Forall₂ (fun d n => Dimension.Holds m' n d) dims v.shape) ∧
      m.Grows m' fun name => ∃ dims, node.shape = some dims ∧ .symbolic name ∈ dims := by
  have htype : ∀ t, node.type = some t → v.type = t := by
    intro t ht
    by_contra hne
    unfold bindValue at h
    simp only [ht, bne_iff_ne.2 hne, if_true] at h
    obtain ⟨_, hthrow, -⟩ := bind_eq_ok.1 h
    cases hthrow
  have hbound : node.shape.elim (pure m) (bindShape m · v.shape) = .ok m' := by
    unfold bindValue at h
    cases ht : node.type with
    | some t =>
      have hpassed : (v.type != t) = false := by simp [htype t ht]
      cases hdims : node.shape <;> simpa [ht, hdims, hpassed] using h
    | none => cases hdims : node.shape <;> simpa [ht, hdims] using h
  refine ⟨htype, ?_⟩
  cases hdims : node.shape with
  | some dims =>
    rw [hdims] at hbound
    obtain ⟨hholds, hgrows⟩ := bindShape_eq_ok hbound
    refine ⟨fun dims' hdims' => ?_, hgrows.imp fun name hname => ⟨dims, rfl, hname⟩⟩
    cases hdims'
    exact hholds
  | none =>
    rw [hdims] at hbound
    cases hbound
    exact ⟨fun dims hdims' => (by cases hdims'), .refl _ _⟩

end SymbolMap

namespace Program

variable {p : Program} {m m' : SymbolMap}

/-- The names of the dimensions that are declared for the given values. -/
def DeclaredNames (p : Program) (ids : List NodeId) (name : String) : Prop :=
  ∃ id ∈ ids, ∃ node dims, p.graph.node? id = some (.value node) ∧ node.shape = some dims ∧ .symbolic name ∈ dims

/-- Whether a value is as declared. -/
structure Declared (p : Program) (m : SymbolMap) (id : NodeId) (v : Value) : Prop where
  type : ∀ node t, p.graph.node? id = some (.value node) → node.type = some t → v.type = t
  shape : ∀ node dims, p.graph.node? id = some (.value node) → node.shape = some dims →
    List.Forall₂ (fun d n => Dimension.Holds m n d) dims v.shape

theorem Declared.grows {names : String → Prop} {id : NodeId} {v : Value} (h : p.Declared m id v)
    (hgrows : m.Grows m' names) : p.Declared m' id v :=
  ⟨h.type, fun node dims hnode hdims => (h.shape node dims hnode hdims).imp fun _ _ hd => hd.grows hgrows⟩

/-- Binds one input. -/
def bindInput (p : Program) (m : SymbolMap) (e : NodeId × Value) : Except RunError SymbolMap :=
  match p.graph.node? e.1 with
  | some (.value node) => (SymbolMap.bindValue m node e.2).mapError (.input (p.graph.nodeName e.1))
  | _ => .ok m

theorem bindInput_eq_ok {e : NodeId × Value} (h : p.bindInput m e = .ok m') :
    p.Declared m' e.1 e.2 ∧ m.Grows m' (p.DeclaredNames [e.1]) := by
  unfold bindInput at h
  split at h
  · next node hnode =>
    have hbind : SymbolMap.bindValue m node e.2 = .ok m' := by
      cases hb : SymbolMap.bindValue m node e.2 with
      | error fault => simp [hb, Except.mapError] at h
      | ok next => simpa [hb, Except.mapError] using h
    obtain ⟨htype, hshape, hgrows⟩ := SymbolMap.bindValue_eq_ok hbind
    refine ⟨⟨fun node' t hnode' ht => ?_, fun node' dims hnode' hdims => ?_⟩, hgrows.imp ?_⟩
    · rw [hnode] at hnode'
      cases hnode'
      exact htype t ht
    · rw [hnode] at hnode'
      cases hnode'
      exact hshape dims hdims
    · rintro name ⟨dims, hdims, hname⟩
      exact ⟨e.1, List.mem_singleton_self _, node, dims, hnode, hdims, hname⟩
  · next hnot =>
    cases h
    exact ⟨⟨fun node t hnode => absurd hnode (hnot node), fun node dims hnode => absurd hnode (hnot node)⟩,
      .refl _ _⟩

theorem bindInputs_go {pairs : List (NodeId × Value)} (h : pairs.foldlM p.bindInput m = .ok m') :
    (∀ e ∈ pairs, p.Declared m' e.1 e.2) ∧ m.Grows m' (p.DeclaredNames (pairs.map (·.1))) := by
  induction pairs generalizing m with
  | nil =>
    cases h
    exact ⟨by simp, .refl _ _⟩
  | cons e pairs ih =>
    obtain ⟨next, hnext, hrest⟩ := bind_eq_ok.1 h
    obtain ⟨hdeclared, hgrows⟩ := bindInput_eq_ok hnext
    obtain ⟨hall, hgrows'⟩ := ih hrest
    refine ⟨List.forall_mem_cons.2 ⟨hdeclared.grows hgrows', hall⟩, (hgrows.imp ?_).trans (hgrows'.imp ?_)⟩
    · rintro name ⟨id, hid, hname⟩
      cases List.mem_singleton.1 hid
      exact ⟨e.1, List.mem_cons_self .., hname⟩
    · rintro name ⟨id, hid, hname⟩
      exact ⟨id, List.mem_cons_of_mem _ hid, hname⟩

theorem bindInputs_eq_ok {inputs : List Value} (h : p.bindInputs inputs = .ok m) :
    inputs.length = p.inputs.length ∧ (∀ e ∈ p.inputs.zip inputs, p.Declared m e.1 e.2) ∧
      ∀ name w, m.get? name = some w → p.DeclaredNames p.inputs name ∧ 0 ≤ w.toInt := by
  unfold bindInputs at h
  dsimp only at h
  split at h
  · obtain ⟨_, hthrow, -⟩ := bind_eq_ok.1 h
    cases hthrow
  · next hlen =>
    have hlen : inputs.length = p.inputs.length := by simpa using hlen
    have hfold : (p.inputs.zip inputs).foldlM p.bindInput .empty = .ok m := h
    obtain ⟨hall, hgrows⟩ := bindInputs_go hfold
    refine ⟨hlen, hall, fun name w hw => ?_⟩
    rcases hgrows.adds name w hw with hempty | hname
    · cases hempty
    · rwa [List.map_fst_zip (Nat.le_of_eq hlen.symm)] at hname

end Program

end TensorGraph
