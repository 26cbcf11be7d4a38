import TensorGraph.Proofs.Facts.Shapes
import TensorGraph.Proofs.Operator.Concatenation

/-!
# The rule for concatenation

Joined tensors differ in the size along the axis only, so their shapes are one shape with different sizes
set there. The rule adds these sizes up, and strings the tracked elements of vectors together.
-/

namespace TensorGraph

variable {σ : Assignment} {drops : DropTest} {s s' : SymbolSupply}

/-! ## The rule -/

theorem denoteSizes_appendDims (hdrops : SizeExpr.SoundDrops σ.valuation drops) {i n k : Nat}
    {acc dims es : List SizeExpr} {base : List Nat} (hacc : DenoteSizes σ acc (base.set i n))
    (hdims : DenoteSizes σ dims (base.set i k)) (hn : n ≤ 2147483647) (hk : k ≤ 2147483647)
    (h : ShapeRule.appendDims drops i acc dims = .ok es) : DenoteSizes σ es (base.set i (n + k)) := by
  have hacclen : acc.length = base.length := by simpa using hacc.length_eq
  have hdimslen : dims.length = base.length := by simpa using hdims.length_eq
  unfold ShapeRule.appendDims at h
  rw [if_neg (by omega)] at h
  have hes := mapM_eq_ok.1 h
  have hlen : es.length = base.length := by simpa [hacclen, hdimslen] using (congrArg List.length hes).symm
  refine List.forall₂_iff_get.2 ⟨by simpa using hlen, fun j h₁ h₂ => ?_⟩
  have hj : j < base.length := by simpa using h₂
  have ha := List.Forall₂.get hacc (by omega : j < acc.length) (by simpa using hj)
  have hd := List.Forall₂.get hdims (by omega : j < dims.length) (by simpa using hj)
  have hzip : (acc.zip dims)[j]? = some (acc[j], dims[j]) := by
    rw [List.getElem?_eq_getElem (by rw [List.length_zip]; omega), List.getElem_zip]
  have he := congrArg (·[j]?) hes
  simp only [List.getElem?_map, List.getElem?_zipIdx, hzip, List.getElem?_eq_getElem h₁, Option.map_some,
    Nat.zero_add, Option.some.injEq, toOption_eq_some] at he
  simp only [List.get_eq_getElem, List.getElem_set] at ha hd ⊢
  by_cases hji : i = j
  · rw [if_pos hji.symm] at he
    rw [if_pos hji] at ha hd ⊢
    rw [← Except.ok.inj he, Int.natCast_add]
    refine SizeExpr.Denotes.simplifyBy hdrops ?_
    exact ha.add hd (by omega) (by omega)
  · rw [if_neg (Ne.symm hji)] at he
    rw [if_neg hji] at ha hd ⊢
    split at he
    · cases he
    · rw [← Except.ok.inj he]
      exact ha

/-- Adds the size of a further input along the axis. -/
def ShapeRule.appendFacts (drops : DropTest) (axis : Nat) (acc : List SizeExpr) (t : TensorFacts) :
    RuleM (List SizeExpr) :=
  match t.dims? with
  | some dims => appendDims drops axis acc dims
  | none => do
    let extra ← freshSize
    pure (acc.modify axis fun a => (SizeExpr.add a extra).simplifyBy drops)

theorem advances_appendFacts (drops : DropTest) (axis : Nat) (acc : List SizeExpr) (t : TensorFacts) :
    Advances (ShapeRule.appendFacts drops axis acc t) := by
  unfold ShapeRule.appendFacts
  split
  · exact advances_lift _
  · exact advances_bind advances_freshSize fun _ => advances_pure _

theorem denoteSizes_modify (hdrops : SizeExpr.SoundDrops σ.valuation drops) {i n k : Nat} {acc : List SizeExpr}
    {extra : SizeExpr} {base : List Nat} (hacc : DenoteSizes σ acc (base.set i n)) (hextra : extra.Denotes σ k)
    (hn : n ≤ 2147483647) (hk : k ≤ 2147483647) :
    DenoteSizes σ (acc.modify i fun a => (SizeExpr.add a extra).simplifyBy drops) (base.set i (n + k)) := by
  have hacclen : acc.length = base.length := by simpa using hacc.length_eq
  refine List.forall₂_iff_get.2 ⟨by simpa using hacclen, fun j h₁ h₂ => ?_⟩
  have hj : j < base.length := by simpa using h₂
  have ha := List.Forall₂.get hacc (by omega : j < acc.length) (by simpa using hj)
  simp only [List.get_eq_getElem, List.getElem_set, List.getElem_modify] at ha ⊢
  by_cases hji : i = j
  · rw [if_pos hji] at ha
    rw [if_pos hji, if_pos hji, Int.natCast_add]
    exact (ha.add hextra (by omega) (by omega)).simplifyBy hdrops
  · rw [if_neg hji] at ha
    rw [if_neg hji, if_neg hji]
    exact ha

/-- A fresh symbol stands for the size along the axis of each input of unknown shape. -/
theorem draws_appendFacts (i : Nat) (base : List Nat) (ts : List TensorFacts) (ks : List Nat) (s : SymbolSupply) :
    ∃ sizes, ∀ drops acc es s', Draws (ts.foldlM (ShapeRule.appendFacts drops i) acc) s es s' →
      ∀ σ : Assignment, σ.Names s s' sizes → SizeExpr.SoundDrops σ.valuation drops →
      List.Forall₂ (fun t k => ∀ dims, TensorFacts.dims? t = some dims → DenoteSizes σ dims (base.set i k)) ts ks →
      ∀ n, DenoteSizes σ acc (base.set i n) → n + total ks ≤ 2147483647 →
      DenoteSizes σ es (base.set i (n + total ks)) := by
  induction ts generalizing ks s with
  | nil =>
    refine ⟨fun _ => 0, fun drops acc es s' h σ _ _ hts n hacc _ => ?_⟩
    obtain ⟨rfl, -⟩ := draws_pure.1 h
    cases hts
    exact hacc
  | cons t ts ih =>
    cases ks with
    | nil => exact ⟨fun _ => 0, fun drops acc es s' _ σ _ _ hts => by cases hts⟩
    | cons k ks =>
      cases hdims : t.dims? with
      | some dims =>
        obtain ⟨sizes, hsizes⟩ := ih ks s
        refine ⟨sizes, fun drops acc es s' h σ hσ hdrops hts n hacc hsum => ?_⟩
        obtain ⟨ht, hts⟩ := List.forall₂_cons.1 hts
        obtain ⟨next, s₁, hnext, hrest⟩ := draws_bind.1 h
        rw [ShapeRule.appendFacts, hdims] at hnext
        obtain ⟨happend, rfl⟩ := draws_lift.1 hnext
        simp only [total] at hsum ⊢
        have hacc := denoteSizes_appendDims hdrops hacc (ht dims hdims) (by omega) (by omega) happend
        rw [← Nat.add_assoc]
        exact hsizes drops next es s' hrest σ hσ hdrops hts (n + k) hacc (by omega)
      | none =>
        obtain ⟨sizes, hsizes⟩ := ih ks { s with count := s.count + 1 }
        refine ⟨fun j => if j = s.count + 1 then k else sizes j, ?_⟩
        intro drops acc es s' h σ hσ hdrops hts n hacc hsum
        obtain ⟨-, hts⟩ := List.forall₂_cons.1 hts
        obtain ⟨next, s₁, hnext, hrest⟩ := draws_bind.1 h
        rw [ShapeRule.appendFacts, hdims] at hnext
        obtain ⟨extra, s₂, hextra, hout⟩ := draws_bind.1 hnext
        obtain ⟨rfl, rfl⟩ := draws_freshSize.1 hextra
        obtain ⟨rfl, rfl⟩ := draws_pure.1 hout
        have hbefore := hrest.before (advances_foldlM (advances_appendFacts drops i) ts _)
        obtain ⟨hsize, hnames⟩ := Assignment.Names.cons hbefore hσ
        simp only [total] at hsum ⊢
        have hsym : (SizeExpr.posVar (s.nameOf (s.count + 1))).Denotes σ k := hsize ▸ SizeExpr.denotes_posVar _
        have hacc := denoteSizes_modify hdrops hacc hsym (by omega) (by omega)
        rw [← Nat.add_assoc]
        exact hsizes drops _ es s' hrest σ hnames hdrops hts (n + k) hacc (by omega)

/-- The elements of vectors that are strung together. -/
theorem describes_vectors {ts : List TensorFacts} {vectors : List (List SizeExpr)} {vs : List Value}
    (hts : List.Forall₂ (fun t v => TensorFacts.Describes σ v t) ts vs)
    (hvectors : ts.mapM TensorFacts.asVector? = some vectors) : ∃ us : List (Tensor Int32),
      vs = us.map .ints ∧ (∀ u ∈ us, u.rank = 1) ∧ DenoteWords σ vectors.flatten (us.flatMap (·.data.toList)) := by
  rw [mapM_eq_some] at hvectors
  induction hts generalizing vectors with
  | nil =>
    obtain rfl : vectors = [] := by simpa using hvectors.symm
    exact ⟨[], rfl, by simp, .nil⟩
  | @cons t v ts vs ht _ ih =>
    cases vectors with
    | nil => cases hvectors
    | cons xs vectors =>
      obtain ⟨hxs, hrest⟩ := List.cons.inj hvectors
      obtain ⟨us, rfl, hranks, hus⟩ := ih hrest
      obtain rfl : t = .vector xs := by
        cases t with
        | vector ys => exact congrArg _ (Option.some.inj hxs)
        | _ => cases hxs
      obtain ⟨u, rfl, hshape, hu⟩ := ht
      exact ⟨u :: us, rfl, List.forall_mem_cons.2 ⟨by simp [Tensor.rank, hshape], hranks⟩, List.rel_append hu hus⟩

/-- Vectors that are strung together, as one. -/
theorem describes_strung {ts : List TensorFacts} {vectors : List (List SizeExpr)} {first out : Value} {rest : List Value}
    (hall : List.Forall₂ (fun t v => TensorFacts.Describes σ v t) ts (first :: rest))
    (hvectors : ts.mapM TensorFacts.asVector? = some vectors) (hrank : out.rank = first.rank)
    (hints : first.rank = 1 → ∀ us : List (Tensor Int32), first :: rest = us.map .ints →
      ∃ y, out = .ints y ∧ y.data.toList = us.flatMap (·.data.toList)) :
    (TensorFacts.vector vectors.flatten).Describes σ out := by
  obtain ⟨us, hus, hranks, hwords⟩ := describes_vectors hall hvectors
  cases us with
  | nil => cases hus
  | cons u us =>
    obtain ⟨rfl, hrest⟩ := List.cons.inj hus
    have hone : u.rank = 1 := hranks u (List.mem_cons_self ..)
    obtain ⟨y, rfl, hy⟩ := hints hone (u :: us) hus
    obtain ⟨m, hm⟩ : ∃ m, y.shape = [m] := List.length_eq_one_iff.1 (hrank.trans hone)
    refine ⟨y, rfl, ?_, hy ▸ hwords⟩
    rw [hwords.length_eq, ← hy, Array.length_toList, y.size_data, hm]
    exact congrArg (fun n => [n]) (Nat.mul_one m).symm

/-- The rule adds up the sizes along the axis, where fresh symbols stand for those that are unknown. -/
theorem yields_concat {axis : Int} {t : TensorFacts} {ts : List TensorFacts} {first out : Value}
    {rest : List Value} {i : Nat} (hfits : ∀ v ∈ first :: rest, Shape.Fits v.shape) (hfit : Shape.Fits out.shape)
    (haxis : resolveAxis first.rank axis = .ok i)
    (hsame : ∀ v ∈ first :: rest, v.shape = first.shape.set i (v.shape.getD i 0))
    (hshape : out.shape = first.shape.set i (total ((first :: rest).map fun v => v.shape.getD i 0)))
    (hints : first.rank = 1 → ∀ us : List (Tensor Int32), first :: rest = us.map .ints →
      ∃ y, out = .ints y ∧ y.data.toList = us.flatMap (·.data.toList)) :
    Yields (fun drops => ShapeRule.concatBy drops axis (t :: ts)) fun σ drops outs =>
      SizeExpr.SoundDrops σ.valuation drops →
      List.Forall₂ (fun t v => TensorFacts.Describes σ v t) (t :: ts) (first :: rest) →
      FirstDescribes σ outs out := by
  intro s
  obtain ⟨sizes, hsizes⟩ := draws_appendFacts i first.shape ts (rest.map fun v => v.shape.getD i 0) s
  refine ⟨sizes, fun drops outs s' h σ hσ hdrops hall => ?_⟩
  obtain ⟨ht, hts⟩ := List.forall₂_cons.1 hall
  obtain ⟨hfitfirst, hfitrest⟩ := List.forall_mem_cons.1 hfits
  unfold ShapeRule.concatBy at h
  dsimp only at h
  split at h
  · obtain ⟨rfl, -⟩ := draws_pure.1 h
    exact firstDescribes_unknownInput out
  · next dims hdims =>
    have hden := ht.sizes hfitfirst hdims
    obtain ⟨j, s₁, hj, h⟩ := draws_bind.1 h
    obtain ⟨hrule, rfl⟩ := draws_lift.1 hj
    rw [hden.length_eq] at hrule
    obtain rfl : j = i := by
      have := (resolveAxis_of_rule hrule).symm.trans haxis
      cases this
      rfl
    split at h
    · next vectors hvectors =>
      obtain ⟨rfl, -⟩ := draws_pure.1 h
      have hrank : out.rank = first.rank := by
        rw [Value.rank, hshape, List.length_set]
        rfl
      exact firstDescribes_cons.2 (describes_strung hall hvectors hrank hints)
    · obtain ⟨es, s₂, hes, h⟩ := draws_bind.1 h
      obtain ⟨rfl, rfl⟩ := draws_pure.1 h
      refine firstDescribes_cons.2 ?_
      have hbound : total ((first :: rest).map fun v => v.shape.getD j 0) ≤ 2147483647 := by
        refine (hfit _ ?_).2
        rw [hshape]
        exact List.mem_set (by simpa [Value.rank] using lt_of_resolveAxis haxis) _
      have hfirst : first.shape = first.shape.set j (first.shape.getD j 0) := hsame first (List.mem_cons_self ..)
      rw [TensorFacts.Describes, hshape]
      refine hsizes drops dims es _ hes σ hσ hdrops ?_ (first.shape.getD j 0) (hfirst ▸ hden) hbound
      refine List.forall₂_map_right_iff.2 (List.forall₂_iff_zip.2 ⟨hts.length_eq, fun {t v} hmem dims hdims => ?_⟩)
      have hv : v ∈ rest := (List.of_mem_zip hmem).2
      have hden := ((List.forall₂_iff_zip.1 hts).2 hmem).sizes (hfitrest v hv) hdims
      exact hsame v (List.mem_cons_of_mem _ hv) ▸ hden

end TensorGraph
