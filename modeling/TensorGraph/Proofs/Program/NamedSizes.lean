import TensorGraph.Proofs.Facts.Description
import TensorGraph.Proofs.Program.Binding

/-!
# Sizes of named dimensions

An assignment of sizes to names admits values for the inputs of a program if the values have the declared types, ranks
and sizes. Binding the inputs finds such an assignment, restricted to the declared names, if there is one, and fails
with a mismatch otherwise (`bindInputs_exact`). What is found depends neither on the order of the inputs nor on the
order of the dimensions.
-/

namespace TensorGraph

variable {σ : Assignment} {m m' : SymbolMap}

/-- Whether a dimension has the given size, when named dimensions have the assigned sizes, which must fit. -/
def Dimension.HasSize (σ : Assignment) (n : Nat) : Dimension → Prop
  | .fixed size => n = size
  | .symbolic name => n = σ name ∧ n ≤ 2147483647

/-- Whether a value has the declared type and the declared sizes. -/
structure ValueNode.Admits (node : ValueNode) (σ : Assignment) (v : Value) : Prop where
  type : ∀ t, node.type = some t → v.type = t
  shape : ∀ dims, node.shape = some dims → List.Forall₂ (fun d n => Dimension.HasSize σ n d) dims v.shape

/-- The values of the inputs that are value nodes, with their declarations. -/
def Program.declarations (p : Program) (inputs : List Value) : List (ValueNode × Value) :=
  (p.inputs.zip inputs).filterMap fun e => match p.graph.node? e.1 with
    | some (.value node) => some (node, e.2)
    | _ => none

/-- Whether there is one value for each input, and each one is as declared under the same assignment. -/
structure Program.Admits (p : Program) (σ : Assignment) (inputs : List Value) : Prop where
  count : inputs.length = p.inputs.length
  values : ∀ d ∈ p.declarations inputs, d.1.Admits σ d.2

theorem Dimension.Holds.hasSize {d : Dimension} {n : Nat} (h : d.Holds m n) (hσ : σ.Extends m) : d.HasSize σ n := by
  cases d with
  | fixed size => exact h
  | symbolic name =>
    obtain ⟨w, hw, hn⟩ := h
    have hsize := hσ name w hw
    have hlt := w.toInt_lt
    exact ⟨by omega, by omega⟩

/-! ## Finding an assignment -/

namespace SymbolMap

/-- The sizes of the bound names. -/
def sizes (m : SymbolMap) : Assignment := fun name => ((m.get? name).getD 0).toInt.toNat

theorem extends_sizes (h : ∀ name w, m.get? name = some w → 0 ≤ w.toInt) : m.sizes.Extends m := by
  intro name w hw
  rw [sizes, hw, Option.getD_some]
  exact Int.toNat_of_nonneg (h name w hw)

theorem extends_empty (σ : Assignment) : σ.Extends empty := fun _ _ h => (by cases h)

/-- An assignment that extends the map and gives a dimension its size also extends the next map. -/
theorem exists_bindDimension {d : Dimension} {i n : Nat} (hσ : σ.Extends m) (hd : d.HasSize σ n) :
    ∃ m', bindDimension m d i n = .ok m' ∧ σ.Extends m' := by
  unfold bindDimension
  cases d with
  | fixed size => exact ⟨m, if_pos hd, hσ⟩
  | symbolic name =>
    obtain ⟨rfl, hle⟩ := hd
    have hword : (Int32.ofInt (σ name)).toInt = σ name := Int32.toInt_ofInt_of_le (by omega) (by omega)
    dsimp only
    rw [Word.ofInt?_eq_some_iff.2 hword]
    cases hbound : m.get? name with
    | none =>
      refine ⟨_, rfl, fun name' w hw => ?_⟩
      rw [get?_insert_new _ hbound] at hw
      split at hw
      · next heq =>
        cases hw
        rw [heq, hword]
      · exact hσ name' w hw
    | some bound =>
      have heq : bound = Int32.ofInt (σ name) := Int32.toInt_inj.1 ((hσ name bound hbound).symm.trans hword.symm)
      exact ⟨m, if_pos heq, hσ⟩

theorem exists_bindShape {dims : List Dimension} {shape : List Nat} (hσ : σ.Extends m)
    (hdims : List.Forall₂ (fun d n => Dimension.HasSize σ n d) dims shape) :
    ∃ m', bindShape m dims shape = .ok m' ∧ σ.Extends m' := by
  rw [bindShape, if_neg (not_not.2 hdims.length_eq)]
  -- The assignment is fixed in advance, so it extends the map after each dimension.
  refine exists_foldlM (fun ⟨⟨d, n⟩, i⟩ he m hm => exists_bindDimension hm ?_) hσ
  exact (List.forall₂_iff_zip.1 hdims).2 (List.fst_mem_of_mem_zipIdx he)

theorem exists_bindValue {node : ValueNode} {v : Value} (hσ : σ.Extends m) (h : node.Admits σ v) :
    ∃ m', bindValue m node v = .ok m' ∧ σ.Extends m' := by
  have hbind : bindValue m node v = node.shape.elim (pure m) (bindShape m · v.shape) := by
    unfold bindValue
    cases ht : node.type with
    | none => cases node.shape <;> rfl
    | some t =>
      have hsame : (v.type != t) = false := by simp [h.type t ht]
      cases hdims : node.shape <;> simp [hsame]
  rw [hbind]
  cases hdims : node.shape with
  | none => exact ⟨m, rfl, hσ⟩
  | some dims => exact exists_bindShape hσ (h.shape dims hdims)

end SymbolMap

namespace Program

variable {p p' : Program} {inputs inputs' : List Value}

theorem mem_declarations {d : ValueNode × Value} : d ∈ p.declarations inputs ↔
    ∃ id, (id, d.2) ∈ p.inputs.zip inputs ∧ p.graph.node? id = some (.value d.1) := by
  rw [declarations, List.mem_filterMap]
  constructor
  · rintro ⟨⟨id, v⟩, he, hd⟩
    split at hd
    · next node hnode =>
      cases hd
      exact ⟨id, he, hnode⟩
    · cases hd
  · rintro ⟨id, he, hnode⟩
    exact ⟨_, he, by simp only [hnode]⟩

theorem exists_bindInput {e : NodeId × Value} (hσ : σ.Extends m)
    (h : ∀ node, p.graph.node? e.1 = some (.value node) → node.Admits σ e.2) :
    ∃ m', p.bindInput m e = .ok m' ∧ σ.Extends m' := by
  unfold bindInput
  split
  · next node hnode =>
    obtain ⟨m', hm', hext⟩ := SymbolMap.exists_bindValue hσ (h node hnode)
    exact ⟨m', mapError_eq_ok.2 hm', hext⟩
  · exact ⟨m, rfl, hσ⟩

theorem bindInputs_of_count (h : inputs.length = p.inputs.length) :
    p.bindInputs inputs = (p.inputs.zip inputs).foldlM p.bindInput .empty := by
  unfold bindInputs
  simp only [h, bne_self_eq_false]
  rfl

/-- Inputs that an assignment admits are bound, to what it assigns. -/
theorem exists_bindInputs (h : p.Admits σ inputs) : ∃ m, p.bindInputs inputs = .ok m ∧ σ.Extends m := by
  rw [bindInputs_of_count h.count]
  refine exists_foldlM (fun e he m hm => exists_bindInput hm fun node hnode => ?_) (SymbolMap.extends_empty σ)
  exact h.values (node, e.2) (mem_declarations.2 ⟨e.1, he, hnode⟩)

/-- What binding leaves in the map admits the inputs. -/
theorem admits_of_bindInputs (h : p.bindInputs inputs = .ok m) : p.Admits m.sizes inputs := by
  obtain ⟨hcount, hdeclared, hnames⟩ := bindInputs_eq_ok h
  have hext := SymbolMap.extends_sizes fun name w hw => (hnames name w hw).2
  refine ⟨hcount, fun d hd => ?_⟩
  obtain ⟨id, he, hnode⟩ := mem_declarations.1 hd
  refine ⟨fun t => (hdeclared _ he).type d.1 t hnode, fun dims hdims => ?_⟩
  exact ((hdeclared _ he).shape d.1 dims hnode hdims).imp fun _ _ hholds => hholds.hasSize hext

theorem bindInputs_eq_error {err : RunError} (h : p.bindInputs inputs = .error err) :
    ∃ name fault, err = .input name fault := by
  by_cases hcount : inputs.length = p.inputs.length
  · rw [bindInputs_of_count hcount] at h
    obtain ⟨e, -, m, he⟩ := foldlM_eq_error h
    unfold bindInput at he
    split at he
    · obtain ⟨fault, rfl⟩ := mapError_eq_error he
      exact ⟨_, fault, rfl⟩
    · cases he
  · unfold bindInputs at h
    simp only [bne_iff_ne.2 hcount, if_true] at h
    cases h
    exact ⟨_, _, rfl⟩

/-! ## Bound names -/

theorem exists_get?_of_declared {name : String} (h : p.bindInputs inputs = .ok m)
    (hname : p.DeclaredNames p.inputs name) : ∃ w, m.get? name = some w := by
  obtain ⟨hcount, hdeclared, -⟩ := bindInputs_eq_ok h
  obtain ⟨id, hid, node, dims, hnode, hdims, hmem⟩ := hname
  rw [← List.map_fst_zip (Nat.le_of_eq hcount.symm)] at hid
  obtain ⟨e, he, rfl⟩ := List.mem_map.1 hid
  obtain ⟨n, -, w, hw, -⟩ := exists_of_forall₂ ((hdeclared e he).shape node dims hnode hdims).flip hmem
  exact ⟨w, hw⟩

/-- The bound names are the declared ones, and each has its assigned size. -/
theorem get?_bindInputs (h : p.bindInputs inputs = .ok m) (hσ : p.Admits σ inputs) (name : String) (w : Int32) :
    m.get? name = some w ↔ p.DeclaredNames p.inputs name ∧ w.toInt = σ name := by
  -- Binding is a function, so the map that extends to `σ` is the one at hand.
  obtain ⟨m', hm', hext⟩ := exists_bindInputs hσ
  obtain rfl : m' = m := Except.ok.inj (hm'.symm.trans h)
  constructor
  · intro hw
    exact ⟨((bindInputs_eq_ok h).2.2 name w hw).1, (hext name w hw).symm⟩
  · rintro ⟨hname, hsize⟩
    obtain ⟨w', hw'⟩ := exists_get?_of_declared h hname
    have heq : w' = w := Int32.toInt_inj.1 ((hext name w' hw').symm.trans hsize.symm)
    rw [hw', heq]

/-! ## Orders of inputs and dimensions -/

/-- Whether two declared values have the same types, and the same sizes up to the order of their dimensions. -/
structure SameSizes (a b : ValueNode × Value) : Prop where
  declaredType : b.1.type = a.1.type
  type : b.2.type = a.2.type
  shape : Option.Rel (fun ds es => ds.length = a.2.shape.length ∧ es.length = b.2.shape.length ∧
    (ds.zip a.2.shape).Perm (es.zip b.2.shape)) a.1.shape b.1.shape

/-- Whether other inputs are declared as the given ones, up to the order of inputs and dimensions. -/
structure Reorders (p : Program) (inputs : List Value) (p' : Program) (inputs' : List Value) : Prop where
  count : inputs'.length = p'.inputs.length
  declarations : ∃ ds, (p.declarations inputs).Perm ds ∧ List.Forall₂ SameSizes ds (p'.declarations inputs')

theorem SameSizes.symm {a b : ValueNode × Value} (h : SameSizes a b) : SameSizes b a := by
  refine ⟨h.declaredType.symm, h.type.symm, ?_⟩
  have hshape := h.shape
  generalize a.1.shape = x at hshape ⊢
  generalize b.1.shape = y at hshape ⊢
  cases hshape with
  | none => exact .none
  | some hrel => exact .some ⟨hrel.2.1, hrel.1, hrel.2.2.symm⟩

theorem SameSizes.exists_shape {a b : ValueNode × Value} (h : SameSizes a b) {es : List Dimension}
    (hes : b.1.shape = some es) : ∃ ds, a.1.shape = some ds ∧ ds.length = a.2.shape.length ∧
      es.length = b.2.shape.length ∧ (ds.zip a.2.shape).Perm (es.zip b.2.shape) := by
  have hshape := h.shape
  rw [hes] at hshape
  cases hds : a.1.shape with
  | none =>
    rw [hds] at hshape
    cases hshape
  | some ds =>
    rw [hds] at hshape
    cases hshape with
    | some hrel => exact ⟨ds, rfl, hrel⟩

theorem SameSizes.admits {a b : ValueNode × Value} (h : SameSizes a b) (ha : a.1.Admits σ a.2) :
    b.1.Admits σ b.2 := by
  refine ⟨fun t ht => h.type.trans (ha.type t (h.declaredType ▸ ht)), fun es hes => ?_⟩
  obtain ⟨ds, hds, -, hlen, hperm⟩ := h.exists_shape hes
  exact List.forall₂_iff_zip.2 ⟨hlen, fun hmem => List.forall₂_zip (ha.shape ds hds) (hperm.mem_iff.2 hmem)⟩

theorem SameSizes.mem_names {a b : ValueNode × Value} (h : SameSizes a b) {name : String}
    (hb : ∃ es, b.1.shape = some es ∧ .symbolic name ∈ es) : ∃ ds, a.1.shape = some ds ∧ .symbolic name ∈ ds := by
  obtain ⟨es, hes, hmem⟩ := hb
  obtain ⟨ds, hds, hlen, hlen', hperm⟩ := h.exists_shape hes
  refine ⟨ds, hds, ?_⟩
  rw [← List.map_fst_zip (Nat.le_of_eq hlen)]
  rw [← List.map_fst_zip (Nat.le_of_eq hlen')] at hmem
  exact (hperm.map _).mem_iff.2 hmem

theorem declaredNames_iff {name : String} (hcount : inputs.length = p.inputs.length) :
    p.DeclaredNames p.inputs name ↔
      ∃ d ∈ p.declarations inputs, ∃ dims, d.1.shape = some dims ∧ .symbolic name ∈ dims := by
  constructor
  · rintro ⟨id, hid, node, dims, hnode, hdims⟩
    rw [← List.map_fst_zip (Nat.le_of_eq hcount.symm)] at hid
    obtain ⟨e, he, rfl⟩ := List.mem_map.1 hid
    exact ⟨(node, e.2), mem_declarations.2 ⟨e.1, he, hnode⟩, dims, hdims⟩
  · rintro ⟨d, hd, dims, hdims⟩
    obtain ⟨id, he, hnode⟩ := mem_declarations.1 hd
    exact ⟨id, (List.of_mem_zip he).1, d.1, dims, hnode, hdims⟩

theorem Reorders.exists_left (h : p.Reorders inputs p' inputs') {b : ValueNode × Value}
    (hb : b ∈ p'.declarations inputs') : ∃ a ∈ p.declarations inputs, SameSizes a b := by
  obtain ⟨ds, hperm, hall⟩ := h.declarations
  obtain ⟨a, ha, hab⟩ := exists_of_forall₂ hall hb
  exact ⟨a, hperm.mem_iff.2 ha, hab⟩

theorem Reorders.exists_right (h : p.Reorders inputs p' inputs') {a : ValueNode × Value}
    (ha : a ∈ p.declarations inputs) : ∃ b ∈ p'.declarations inputs', SameSizes a b := by
  obtain ⟨ds, hperm, hall⟩ := h.declarations
  exact exists_of_forall₂ hall.flip (hperm.mem_iff.1 ha)

theorem Reorders.admits (h : p.Reorders inputs p' inputs') (hσ : p.Admits σ inputs) : p'.Admits σ inputs' := by
  refine ⟨h.count, fun b hb => ?_⟩
  obtain ⟨a, ha, hab⟩ := h.exists_left hb
  exact hab.admits (hσ.values a ha)

theorem Reorders.declaredNames_iff (h : p.Reorders inputs p' inputs') (hcount : inputs.length = p.inputs.length)
    (name : String) : p.DeclaredNames p.inputs name ↔ p'.DeclaredNames p'.inputs name := by
  rw [Program.declaredNames_iff hcount, Program.declaredNames_iff h.count]
  constructor
  · rintro ⟨a, ha, hname⟩
    obtain ⟨b, hb, hab⟩ := h.exists_right ha
    exact ⟨b, hb, hab.symm.mem_names hname⟩
  · rintro ⟨b, hb, hname⟩
    obtain ⟨a, ha, hab⟩ := h.exists_left hb
    exact ⟨a, ha, hab.mem_names hname⟩

/-- The order of inputs and dimensions does not matter for what is bound. -/
theorem Reorders.bindInputs (h : p.Reorders inputs p' inputs') (hm : p.bindInputs inputs = .ok m) :
    ∃ m', p'.bindInputs inputs' = .ok m' ∧ ∀ name, m'.get? name = m.get? name := by
  have hσ := admits_of_bindInputs hm
  obtain ⟨m', hm', -⟩ := exists_bindInputs (h.admits hσ)
  refine ⟨m', hm', fun name => Option.ext fun w => ?_⟩
  rw [get?_bindInputs hm hσ, get?_bindInputs hm' (h.admits hσ), h.declaredNames_iff hσ.count]

end Program

/-- Inputs are bound exactly if there is one assignment of sizes to names under which all of them are as declared. What
is bound is this assignment, restricted to the declared names, and depends neither on the order of the inputs nor on
that of their dimensions. Otherwise binding fails with a mismatch. -/
theorem CompiledFunction.bindInputs_exact (f : CompiledFunction) (inputs : List Value) :
    ((∃ m, f.bindInputs inputs = .ok m) ↔ ∃ σ, f.program.Admits σ inputs) ∧
      (∀ m σ, f.bindInputs inputs = .ok m → f.program.Admits σ inputs → ∀ name w,
        m.get? name = some w ↔ f.program.DeclaredNames f.program.inputs name ∧ w.toInt = σ name) ∧
      (∀ m (f' : CompiledFunction) inputs', f.bindInputs inputs = .ok m →
        f.program.Reorders inputs f'.program inputs' →
        ∃ m', f'.bindInputs inputs' = .ok m' ∧ ∀ name, m'.get? name = m.get? name) ∧
      ((¬∃ σ, f.program.Admits σ inputs) → ∃ name fault, f.bindInputs inputs = .error (.input name fault)) := by
  refine ⟨⟨?_, ?_⟩, ?_, ?_, fun hnone => ?_⟩
  · rintro ⟨m, hm⟩
    exact ⟨m.sizes, Program.admits_of_bindInputs hm⟩
  · rintro ⟨σ, hσ⟩
    obtain ⟨m, hm, -⟩ := Program.exists_bindInputs hσ
    exact ⟨m, hm⟩
  · exact fun m σ hm hσ => Program.get?_bindInputs hm hσ
  · exact fun m f' inputs' hm h => h.bindInputs hm
  · cases h : f.bindInputs inputs with
    | ok m => exact absurd ⟨m.sizes, Program.admits_of_bindInputs h⟩ hnone
    | error err =>
      obtain ⟨name, fault, rfl⟩ := Program.bindInputs_eq_error h
      exact ⟨name, fault, rfl⟩

/-! ## A function of a matrix and weights -/

namespace CompiledFunction

/-- A function without outputs, whose inputs have the given shapes. -/
def ofShapes (shapes : List (List Dimension)) : CompiledFunction where
  program := {
    graph := shapes.foldl (fun g dims => (g.addValue none (some dims) none).1) Graph.empty
    inputs := List.range shapes.length
    outputs := []
    steps := []
    frees := false
    facts := none }
  facts := {}
  stats := .ofUnchanged .empty
  mode := ""

/-- Three rows of two elements, with three weights, can be given transposed and after the weights. -/
theorem bindInputs_exact_weights :
    let rows : Value := .ints (.full [3, 2] 0)
    let columns : Value := .ints (.full [2, 3] 0)
    let weights : Value := .ints (.full [3] 0)
    let f := ofShapes [[.symbolic "n", .fixed 2], [.symbolic "n"]]
    let f' := ofShapes [[.symbolic "n"], [.fixed 2, .symbolic "n"]]
    f.program.Admits (fun _ => 3) [rows, weights] ∧ f.program.Reorders [rows, weights] f'.program [weights, columns] ∧
      ∃ m, f.bindInputs [rows, weights] = .ok m ∧ m.get? "n" = some 3 ∧
        ∃ m', f'.bindInputs [weights, columns] = .ok m' ∧ ∀ name, m'.get? name = m.get? name := by
  intro rows columns weights f f'
  have hadmits : f.program.Admits (fun _ => 3) [rows, weights] := by
    refine ⟨rfl, List.forall_mem_cons.2 ⟨⟨fun _ h => (by cases h), fun _ h => ?_⟩,
      List.forall_mem_singleton.2 ⟨fun _ h => (by cases h), fun _ h => ?_⟩⟩⟩
    · cases h
      exact .cons ⟨rfl, by decide⟩ (.cons rfl .nil)
    · cases h
      exact .cons ⟨rfl, by decide⟩ .nil
  have hreorders : f.program.Reorders [rows, weights] f'.program [weights, columns] :=
    ⟨rfl, _, .swap .., .cons ⟨rfl, rfl, .some ⟨rfl, rfl, .refl _⟩⟩ (.cons ⟨rfl, rfl, .some ⟨rfl, rfl, .swap ..⟩⟩ .nil)⟩
  obtain ⟨hok, hnames, horder, -⟩ := bindInputs_exact f [rows, weights]
  obtain ⟨m, hm⟩ := hok.2 ⟨_, hadmits⟩
  have hname : f.program.DeclaredNames f.program.inputs "n" :=
    ⟨0, by decide, _, _, rfl, rfl, List.mem_cons_self⟩
  exact ⟨hadmits, hreorders, m, hm, (hnames m _ hm hadmits "n" 3).2 ⟨hname, by decide⟩,
    horder m f' [weights, columns] hm hreorders⟩

end CompiledFunction

end TensorGraph
