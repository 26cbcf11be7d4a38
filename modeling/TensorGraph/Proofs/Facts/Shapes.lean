import TensorGraph.Operator.Basic
import TensorGraph.Proofs.Facts.Drawing
import TensorGraph.Proofs.Operator.Products
import TensorGraph.Proofs.Tensor.Joins

/-!
# Rules for shapes

The rules that follow shapes only: equal shapes, broadcasting, reductions and matrix products. Each gives
facts that describe the output if the facts about the inputs describe them and the operator succeeds.
-/

namespace TensorGraph

variable {σ : Assignment} {s s' : SymbolSupply}

/-- Whether the facts about the first output, if there are any, describe it. -/
def FirstDescribes (σ : Assignment) (outs : List TensorFacts) (v : Value) : Prop :=
  ∀ t, outs.head? = some t → t.Describes σ v

theorem firstDescribes_cons {t : TensorFacts} {ts : List TensorFacts} {v : Value} :
    FirstDescribes σ (t :: ts) v ↔ t.Describes σ v := by
  simp [FirstDescribes]

theorem firstDescribes_unknownInput (v : Value) : FirstDescribes σ ShapeRule.unknownInput v :=
  firstDescribes_cons.2 trivial

/-! ## Equal shapes -/

theorem describes_sameAsFirst {t : TensorFacts} {ts outs : List TensorFacts} {v out : Value}
    (h : Draws (ShapeRule.sameAsFirst (t :: ts)) s outs s') (ht : t.Describes σ v) (hfit : Shape.Fits v.shape)
    (hshape : out.shape = v.shape) : FirstDescribes σ outs out := by
  rw [ShapeRule.sameAsFirst] at h
  split at h
  · next dims hdims =>
    obtain ⟨rfl, -⟩ := draws_pure.1 h
    refine firstDescribes_cons.2 ?_
    rw [TensorFacts.Describes, hshape]
    exact ht.sizes hfit hdims
  · obtain ⟨rfl, -⟩ := draws_pure.1 h
    exact firstDescribes_unknownInput out

theorem describes_passFirst {t : TensorFacts} {ts outs : List TensorFacts} {v : Value}
    (h : Draws (ShapeRule.passFirst (t :: ts)) s outs s') (ht : t.Describes σ v) : FirstDescribes σ outs v := by
  obtain ⟨rfl, -⟩ := draws_pure.1 h
  exact firstDescribes_cons.2 ht

/-! ## Broadcasting -/

theorem broadcastSize?_cases {x y z : Nat} (h : Shape.broadcastSize? x y = some z) :
    x = y ∧ z = x ∨ x = 1 ∧ z = y ∨ y = 1 ∧ z = x := by
  unfold Shape.broadcastSize? at h
  split at h
  · cases h
    exact .inl ⟨by assumption, rfl⟩
  · split at h
    · cases h
      exact .inr (.inl ⟨by assumption, rfl⟩)
    · split at h
      · cases h
        exact .inr (.inr ⟨by assumption, rfl⟩)
      · cases h

/-- How the size of a broadcast dimension is found from two expressions. -/
inductive ShapeRule.BroadcastCase (a b : SizeExpr) : Except ShapeRuleError SizeExpr → Prop
  | alike (halike : a.alike b = true) : BroadcastCase a b (.ok a)
  | leftOne (ha : a.asValue? = some 1) : BroadcastCase a b (.ok b)
  | rightOne (hb : b.asValue? = some 1) : BroadcastCase a b (.ok a)
  | left {x : Int32} (ha : a.asValue? = some x) (hx : x ≠ 1) : BroadcastCase a b (.ok a)
  | right {y : Int32} (hb : b.asValue? = some y) (hy : y ≠ 1) : BroadcastCase a b (.ok b)
  | different {x y : Int32} (hnot : a.alike b = false) (ha : a.asValue? = some x) (hx : x ≠ 1)
      (hb : b.asValue? = some y) (hy : y ≠ 1) : BroadcastCase a b (.error .incompatibleShapes)
  | symbolic : BroadcastCase a b (.ok (.broadcast a b))

theorem ShapeRule.broadcastCase (a b : SizeExpr) : BroadcastCase a b (broadcastDim a b) := by
  unfold broadcastDim
  split
  · next halike => exact .alike halike
  · next hnot =>
    split
    · next x y ha hb =>
      split_ifs with hx hy
      · exact .leftOne (hx ▸ ha)
      · exact .rightOne (hy ▸ hb)
      · exact .different (Bool.eq_false_iff.2 hnot) ha hx hb hy
    · next x ha _ =>
      split_ifs with hx
      · exact .leftOne (hx ▸ ha)
      · exact .left ha hx
    · next y _ hb =>
      split_ifs with hy
      · exact .rightOne (hy ▸ hb)
      · exact .right hb hy
    · exact .symbolic

theorem denotes_broadcastDim {a b d : SizeExpr} {x y z : Nat} (ha : a.Denotes σ x) (hb : b.Denotes σ y)
    (hpos : 1 ≤ x ∧ 1 ≤ y) (hsize : Shape.broadcastSize? x y = some z) (hdim : ShapeRule.broadcastDim a b = .ok d) :
    d.Denotes σ z := by
  have hcases := broadcastSize?_cases hsize
  have hleft (h : z = x) : a.Denotes σ z := h ▸ ha
  have hright (h : z = y) : b.Denotes σ z := h ▸ hb
  have hvalue {e : SizeExpr} {n : Nat} {v : Int32} (he : e.Denotes σ n) (hv : e.asValue? = some v) :
      v = 1 ↔ n = 1 := by
    have hn := he.value_eq hv
    have hone : (1 : Int32).toInt = 1 := rfl
    rw [← Int32.toInt_inj]
    omega
  have hcase := ShapeRule.broadcastCase a b
  rw [hdim] at hcase
  cases hcase with
  | alike halike =>
    have hmeaning := SizeExpr.meaning_of_alike (ρ := σ.valuation) halike
    rw [ha.2, hb.2] at hmeaning
    exact hleft (by omega)
  | leftOne hone =>
    have hx := (hvalue ha hone).1 rfl
    exact hright (by omega)
  | rightOne hone =>
    have hy := (hvalue hb hone).1 rfl
    exact hleft (by omega)
  | left hv hne =>
    have hx := mt (hvalue ha hv).2 hne
    exact hleft (by omega)
  | right hv hne =>
    have hy := mt (hvalue hb hv).2 hne
    exact hright (by omega)
  | symbolic =>
    -- Of positive sizes that fit, the larger one is the size of the result.
    have hmax := ha.broadcast hb (by omega) (by omega)
    have hz : (z : Int) = Max.max (x : Int) y := by omega
    exact hz ▸ hmax

/-- Lists that are combined element by element keep a relation that each step keeps. -/
theorem forall₂_of_zip {α α' β β' γ δ ε : Type} {R : α → β → Prop} {S : α' → β' → Prop} {T : γ → δ → Prop}
    {f : α → α' → Except ε γ} {g : β → β' → Option δ}
    (step : ∀ a b a' b' c d, R a b → S a' b' → f a a' = .ok c → g b b' = some d → T c d)
    {as : List α} {bs : List β} {as' : List α'} {bs' : List β'} {cs : List γ} {ds : List δ}
    (h : List.Forall₂ R as bs) (h' : List.Forall₂ S as' bs')
    (hf : (as.zip as').mapM (fun p => f p.1 p.2) = .ok cs) (hg : List.zipWith g bs bs' = ds.map some) :
    List.Forall₂ T cs ds := by
  induction h generalizing as' bs' cs ds with
  | nil =>
    cases hf
    obtain rfl : ds = [] := by simpa using hg.symm
    exact .nil
  | @cons a b as bs hab _ ih =>
    cases h' with
    | nil =>
      cases hf
      obtain rfl : ds = [] := by simpa using hg.symm
      exact .nil
    | @cons a' b' as' bs' hab' hrest =>
      rw [List.zip_cons_cons, List.mapM_cons] at hf
      obtain ⟨c, hc, hf⟩ := bind_eq_ok.1 hf
      obtain ⟨cs, hcs, hf⟩ := bind_eq_ok.1 hf
      cases hf
      rw [List.zipWith_cons_cons] at hg
      cases ds with
      | nil => cases hg
      | cons d ds =>
        obtain ⟨hd, hds⟩ := List.cons.inj hg
        exact .cons (step a b a' b' c d hab hab' hc hd) (ih hrest hcs hds)

/-- Whether the expressions denote the sizes, all of which are positive. -/
def DenotePositive (σ : Assignment) : List SizeExpr → List Nat → Prop :=
  List.Forall₂ fun e n => e.Denotes σ n ∧ 1 ≤ n

theorem DenoteSizes.positive {es : List SizeExpr} {shape : List Nat} (h : DenoteSizes σ es shape)
    (hfit : Shape.Fits shape) : DenotePositive σ es shape := by
  induction h with
  | nil => exact .nil
  | cons he _ ih =>
    obtain ⟨hn, hrest⟩ := List.forall_mem_cons.1 hfit
    exact .cons ⟨he, hn.1⟩ (ih hrest)

theorem DenotePositive.padTo {es : List SizeExpr} {shape : List Nat} (h : DenotePositive σ es shape)
    (rank : Nat) : DenotePositive σ (ShapeRule.padTo rank es) (Shape.padTo rank shape) := by
  unfold ShapeRule.padTo Shape.padTo
  rw [h.length_eq]
  refine List.rel_append ?_ h
  induction rank - shape.length with
  | zero => exact .nil
  | succ n ih => exact .cons ⟨SizeExpr.denotes_value 1, Nat.le_refl 1⟩ ih

theorem denoteSizes_broadcastDims {as bs cs : List SizeExpr} {a b c : List Nat} (ha : DenoteSizes σ as a)
    (hb : DenoteSizes σ bs b) (hfita : Shape.Fits a) (hfitb : Shape.Fits b) (hshape : Shape.broadcast? a b = some c)
    (hdims : ShapeRule.broadcastDims as bs = .ok cs) : DenoteSizes σ cs c := by
  unfold ShapeRule.broadcastDims at hdims
  rw [ha.length_eq, hb.length_eq] at hdims
  refine forall₂_of_zip (fun _ _ _ _ _ _ h h' hf hg => ?_) ((ha.positive hfita).padTo _) ((hb.positive hfitb).padTo _)
    hdims (Shape.broadcast?_eq_some.1 hshape)
  exact denotes_broadcastDim h.1 h'.1 ⟨h.2, h'.2⟩ hg hf

theorem fits_broadcast {a b c : List Nat} (ha : Shape.Fits a) (hb : Shape.Fits b)
    (h : Shape.broadcast? a b = some c) : Shape.Fits c := by
  have hpad {shape : List Nat} (hfit : Shape.Fits shape) (rank : Nat) : Shape.Fits (Shape.padTo rank shape) := by
    intro n hn
    rcases List.mem_append.1 hn with hn | hn
    · have := List.eq_of_mem_replicate hn
      omega
    · exact hfit n hn
  intro n hn
  have hmem : some n ∈ c.map some := List.mem_map_of_mem hn
  rw [← Shape.broadcast?_eq_some.1 h] at hmem
  obtain ⟨x, y, hxy, hn⟩ : ∃ x y, (x, y) ∈ (Shape.padTo (max a.length b.length) a).zip
      (Shape.padTo (max a.length b.length) b) ∧ Shape.broadcastSize? x y = some n := by
    rw [← List.map_uncurry_zip_eq_zipWith] at hmem
    obtain ⟨p, hp, hn⟩ := List.mem_map.1 hmem
    exact ⟨p.1, p.2, hp, hn⟩
  have hx := hpad ha _ x (List.of_mem_zip hxy).1
  have hy := hpad hb _ y (List.of_mem_zip hxy).2
  have := broadcastSize?_cases hn
  omega

theorem describes_broadcastPair {a b : TensorFacts} {outs : List TensorFacts} {v w out : Value}
    (h : Draws (ShapeRule.broadcastPair [a, b]) s outs s') (ha : a.Describes σ v) (hb : b.Describes σ w)
    (hfitv : Shape.Fits v.shape) (hfitw : Shape.Fits w.shape)
    (hshape : Shape.broadcast? v.shape w.shape = some out.shape) : FirstDescribes σ outs out := by
  rw [ShapeRule.broadcastPair] at h
  split at h
  · next as bs has hbs =>
    obtain ⟨cs, s₁, hdraws, h⟩ := draws_bind.1 h
    obtain ⟨hcs, rfl⟩ := draws_lift.1 hdraws
    obtain ⟨rfl, -⟩ := draws_pure.1 h
    refine firstDescribes_cons.2 ?_
    exact denoteSizes_broadcastDims (ha.sizes hfitv has) (hb.sizes hfitw hbs) hfitv hfitw hshape hcs
  · obtain ⟨rfl, -⟩ := draws_pure.1 h
    exact firstDescribes_unknownInput out

theorem describes_broadcastAll_go {ts outs : List TensorFacts} {vs : List Value} {acc : List SizeExpr}
    {shape : List Nat} {out : Value} (h : Draws (ShapeRule.broadcastAll.go acc ts) s outs s')
    (hacc : DenoteSizes σ acc shape) (hfit : Shape.Fits shape)
    (hts : List.Forall₂ (fun t v => TensorFacts.Describes σ v t) ts vs) (hfits : ∀ v ∈ vs, Shape.Fits v.shape)
    (hshape : (vs.map Value.shape).foldlM Shape.broadcast? shape = some out.shape) : FirstDescribes σ outs out := by
  induction hts generalizing acc shape s with
  | nil =>
    cases hshape
    obtain ⟨rfl, -⟩ := draws_pure.1 h
    exact firstDescribes_cons.2 hacc
  | @cons t v ts vs ht _ ih =>
    obtain ⟨hv, hvs⟩ := List.forall_mem_cons.1 hfits
    rw [List.map_cons, List.foldlM_cons, Option.bind_eq_bind, Option.bind_eq_some_iff] at hshape
    obtain ⟨next, hnext, hshape⟩ := hshape
    rw [ShapeRule.broadcastAll.go] at h
    split at h
    · next dims hdims =>
      obtain ⟨cs, s₁, hdraws, h⟩ := draws_bind.1 h
      obtain ⟨hcs, rfl⟩ := draws_lift.1 hdraws
      exact ih h (denoteSizes_broadcastDims hacc (ht.sizes hv hdims) hfit hv hnext hcs)
        (fits_broadcast hfit hv hnext) hvs hshape
    · obtain ⟨rfl, -⟩ := draws_pure.1 h
      exact firstDescribes_unknownInput out

theorem describes_broadcastAll {ts outs : List TensorFacts} {vs : List Value} {out : Value}
    (h : Draws (ShapeRule.broadcastAll ts) s outs s')
    (hts : List.Forall₂ (fun t v => TensorFacts.Describes σ v t) ts vs) (hfits : ∀ v ∈ vs, Shape.Fits v.shape)
    (hshape : Shape.broadcastAll? (vs.map Value.shape) = some out.shape) : FirstDescribes σ outs out := by
  unfold ShapeRule.broadcastAll at h
  split at h
  · exact absurd h draws_throw
  · exact describes_broadcastAll_go h .nil (by simp [Shape.Fits]) hts hfits hshape

/-! ## Reductions -/

theorem resolveAxis_of_rule {rank i : Nat} {axis : Int} (h : ShapeRule.resolveAxis rank axis = .ok i) :
    resolveAxis rank axis = .ok i := by
  unfold ShapeRule.resolveAxis at h
  split at h
  · cases h
  · next hrange =>
    cases h
    unfold resolveAxis
    dsimp only
    by_cases hneg : axis < 0
    · rw [if_pos hneg, if_pos hneg, if_neg (by omega)]
    · rw [if_neg hneg, if_neg hneg, if_neg (by omega)]

theorem mapM_resolveAxis {rank : Nat} {axes : List Int} {found reduced : List Nat}
    (h : axes.foldlM (fun found axis => do
      let i ← ShapeRule.resolveAxis rank axis
      if found.contains i then .error .invalidValue else pure (found ++ [i])) found = .ok reduced) :
    ∃ rest, reduced = found ++ rest ∧ axes.mapM (resolveAxis rank) = .ok rest := by
  induction axes generalizing found with
  | nil =>
    cases h
    exact ⟨[], by simp, rfl⟩
  | cons axis axes ih =>
    obtain ⟨next, hnext, h⟩ := bind_eq_ok.1 h
    obtain ⟨i, hi, hnext⟩ := bind_eq_ok.1 hnext
    split at hnext
    · cases hnext
    · cases hnext
      obtain ⟨rest, rfl, hrest⟩ := ih h
      refine ⟨i :: rest, by simp, ?_⟩
      rw [List.mapM_cons, resolveAxis_of_rule hi, hrest]
      rfl

/-- The sizes that a reduction of marked dimensions leaves. -/
theorem denoteSizes_reduceDims {dims : List SizeExpr} {shape : List Nat} (h : DenoteSizes σ dims shape)
    (reduced : List Nat) (keepDims : Bool) : DenoteSizes σ (ShapeRule.reduceDims reduced keepDims dims)
      (Reduce.Plan.ofMarked (shape.zipIdx.map fun (size, i) => (size, reduced.contains i)) keepDims).outShape := by
  unfold ShapeRule.reduceDims Reduce.Plan.ofMarked
  dsimp only
  generalize 0 = start
  induction h generalizing start with
  | nil => cases keepDims <;> exact .nil
  | @cons d n dims shape hd _ ih =>
    specialize ih (start + 1)
    cases keepDims with
    | true =>
      cases hmark : reduced.contains start with
      | true =>
        simp only [List.zipIdx_cons, List.filterMap_cons, List.map_cons, hmark] at ih ⊢
        exact .cons (SizeExpr.denotes_value 1) ih
      | false =>
        simp only [List.zipIdx_cons, List.filterMap_cons, List.map_cons, hmark] at ih ⊢
        exact .cons hd ih
    | false =>
      cases hmark : reduced.contains start with
      | true =>
        simp only [List.zipIdx_cons, List.filterMap_cons, List.map_cons, hmark] at ih ⊢
        exact ih
      | false =>
        simp only [List.zipIdx_cons, List.filterMap_cons, List.map_cons, hmark] at ih ⊢
        exact .cons hd ih

theorem describes_reduction {op : Reduce} {t : TensorFacts} {outs : List TensorFacts} {v out : Value}
    {p : Reduce.Plan} (h : Draws (ShapeRule.reduction op.axes op.keepDims [t]) s outs s') (ht : t.Describes σ v)
    (hfit : Shape.Fits v.shape) (hplan : op.plan v.shape = .ok p) (hshape : out.shape = p.outShape) :
    FirstDescribes σ outs out := by
  rw [ShapeRule.reduction] at h
  split at h
  · obtain ⟨rfl, -⟩ := draws_pure.1 h
    exact firstDescribes_unknownInput out
  · next dims hdims =>
    have hsizes := ht.sizes hfit hdims
    have hlen : dims.length = v.shape.length := hsizes.length_eq
    obtain ⟨reduced, rfl, hmarked⟩ : ∃ reduced, outs = [.shape (ShapeRule.reduceDims reduced op.keepDims dims)] ∧
        p = .ofMarked (v.shape.zipIdx.map fun (size, i) => (size, reduced.contains i)) op.keepDims := by
      unfold Reduce.plan at hplan
      cases haxes : op.axes with
      | none =>
        rw [haxes] at h hplan
        obtain ⟨reduced, s₁, hreduced, h⟩ := draws_bind.1 h
        obtain ⟨rfl, -⟩ := draws_pure.1 hreduced
        obtain ⟨rfl, -⟩ := draws_pure.1 h
        cases hplan
        exact ⟨_, rfl, by rw [hlen]⟩
      | some axes =>
        rw [haxes] at h hplan
        obtain ⟨reduced, s₁, hreduced, h⟩ := draws_bind.1 h
        obtain ⟨hresolved, -⟩ := draws_lift.1 hreduced
        obtain ⟨rfl, -⟩ := draws_pure.1 h
        obtain ⟨rest, rfl, hrest⟩ := mapM_resolveAxis hresolved
        rw [hlen] at hrest
        obtain ⟨marks, hmarks, hplan⟩ := bind_eq_ok.1 hplan
        cases hmarks.symm.trans hrest
        cases hplan
        exact ⟨_, rfl, rfl⟩
    refine firstDescribes_cons.2 ?_
    rw [TensorFacts.Describes, hshape, hmarked]
    exact denoteSizes_reduceDims hsizes reduced op.keepDims

/-! ## Matrix products -/

/-- What is listed along the dimensions of a matrix, after those of its batch. -/
theorem exists_rows_columns {α β : Type} {R : α → β → Prop} {l : List α} {batch : List β} {m n : β}
    (h : List.Forall₂ R l (batch ++ [m, n])) :
    ∃ as a b, l = as ++ [a, b] ∧ List.Forall₂ R as batch ∧ R a m ∧ R b n := by
  have htake := List.forall₂_take_append l batch [m, n] h
  have hdrop := List.forall₂_drop_append l batch [m, n] h
  obtain ⟨a, rest, ha, hrest, hl⟩ := List.forall₂_cons_right_iff.1 hdrop
  obtain ⟨b, rest, hb, hnil, rfl⟩ := List.forall₂_cons_right_iff.1 hrest
  obtain rfl := List.forall₂_nil_right_iff.1 hnil
  exact ⟨_, a, b, by rw [← hl, List.take_append_drop], htake, ha, hb⟩

/-- The rule for matrices whose dimensions are known: the columns of the left one and the rows of the right one must not
be different constants, and the batches are broadcast. -/
theorem ShapeRule.matMul_eq {a b : TensorFacts} {as bs : List SizeExpr} {m ka kb n : SizeExpr}
    (ha : a.dims? = some (as ++ [m, ka])) (hb : b.dims? = some (bs ++ [kb, n])) : ShapeRule.matMul [a, b] = (do
      if let (some x, some y) := (ka.asValue?, kb.asValue?) then
        if x ≠ y then throw .incompatibleShapes
      let batch ← ShapeRule.broadcastDims as bs
      pure [.shape (batch ++ [m, n])]) := by
  cases hx : ka.asValue? <;> cases hy : kb.asValue? <;> simp [ShapeRule.matMul, ha, hb, hx, hy]

theorem describes_matMul {a b : TensorFacts} {outs : List TensorFacts} {v w out : Value} {z : MatMul.Sizes}
    (h : Draws (ShapeRule.matMul [a, b]) s outs s') (ha : a.Describes σ v) (hb : b.Describes σ w)
    (hfitv : Shape.Fits v.shape) (hfitw : Shape.Fits w.shape) (hsizes : z.Fit v.shape w.shape)
    (hshape : out.shape = z.batch ++ [z.m, z.n]) : FirstDescribes σ outs out := by
  cases has : a.dims? with
  | none =>
    simp only [ShapeRule.matMul, has] at h
    obtain ⟨rfl, -⟩ := draws_pure.1 h
    exact firstDescribes_unknownInput out
  | some as =>
    cases hbs : b.dims? with
    | none =>
      simp only [ShapeRule.matMul, has, hbs] at h
      obtain ⟨rfl, -⟩ := draws_pure.1 h
      exact firstDescribes_unknownInput out
    | some bs =>
      obtain ⟨aBatch, m, ka, rfl, habatch, hm, -⟩ := exists_rows_columns (hsizes.left ▸ ha.sizes hfitv has)
      obtain ⟨bBatch, kb, n, rfl, hbbatch, -, hn⟩ := exists_rows_columns (hsizes.right ▸ hb.sizes hfitw hbs)
      rw [ShapeRule.matMul_eq has hbs] at h
      -- Whether or not the test of the columns against the rows is made, the batches are broadcast after it.
      have hjoin : Draws (do
          let batch ← liftM (ShapeRule.broadcastDims aBatch bBatch)
          pure [TensorFacts.shape (batch ++ [m, n])] : RuleM (List TensorFacts)) s outs s' := by
        dsimp only at h
        split at h
        · split at h
          · obtain ⟨_, _, hthrow, -⟩ := draws_bind.1 h
            exact absurd hthrow draws_throw
          · exact h
        · exact h
      obtain ⟨cs, s₁, hdraws, hjoin⟩ := draws_bind.1 hjoin
      obtain ⟨rfl, -⟩ := draws_pure.1 hjoin
      have hfita : Shape.Fits z.leftBatch := fun n hn => hfitv n (by simp [hsizes.left, hn])
      have hfitb : Shape.Fits z.rightBatch := fun n hn => hfitw n (by simp [hsizes.right, hn])
      have hbatch := denoteSizes_broadcastDims habatch hbbatch hfita hfitb hsizes.batch (draws_lift.1 hdraws).1
      refine firstDescribes_cons.2 ?_
      rw [TensorFacts.Describes, hshape]
      exact List.rel_append hbatch (.cons hm (.cons hn .nil))

end TensorGraph
